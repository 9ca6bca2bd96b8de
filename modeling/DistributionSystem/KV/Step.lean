import DistributionSystem.KV.Replay

/-! What a step of the service can do, said once: `Step` lists the outcomes of
`KVServer.step`, and `step_cases` shows that there are no others. -/

namespace DistributionSystem.KVServer

variable {B : Type}

/-- The handler `h` is done with the section it was in. -/
def leave (kv : KVServer B) (h : Handler) : KVServer B :=
  { kv with handlers := kv.handlers.erase h }

inductive Step (gob : KVGob B) (kv : KVServer B) :
    KVInput B → KVServer B → List KVOutput → Prop
  | request {call : Nat} {op : Op} :
      Step gob kv (.request call op) (kv.addHandler (.start call op)) []
  | refused {call : Nat} {op : Op} {index : Int} (hh : .start call op ∈ kv.handlers) :
      Step gob kv (.started call op index false) (kv.leave (.start call op))
        [.reply call ⟨true, .blank, ""⟩]
  | started {call : Nat} {op : Op} {index : Int} (hh : .start call op ∈ kv.handlers) :
      Step gob kv (.started call op index true)
        ((kv.leave (.start call op)).addHandler (.register call op index)) [.start op]
  | timeout {call : Nat} {op : Op} {index : Int} {ch : Nat}
      (hh : .select call op index ch ∈ kv.handlers) :
      Step gob kv (.timeout call op index ch)
        ((kv.leave (.select call op index ch)).addHandler
          (.finish call op index (!kv.isDuplicateRequest op.clientId op.requestId))) []
  | register {call : Nat} {op : Op} {index : Int} {ch : Nat} {dispatcher : GoMap Int Nat}
      {channels : List (Option Notification)} (hh : .register call op index ∈ kv.handlers)
      (hch : ∀ n, some n ∈ channels → some n ∈ kv.channels) :
      Step gob kv (.resume (.register call op index))
        ({ kv.leave (.register call op index) with
          dispatcher := dispatcher, channels := channels }.addHandler
            (.select call op index ch)) []
  | notified {call : Nat} {op : Op} {index : Int} {ch : Nat} {n : Notification}
      (hh : .select call op index ch ∈ kv.handlers) (hn : some n ∈ kv.channels) :
      Step gob kv (.resume (.select call op index ch))
        ({ kv.leave (.select call op index ch) with
          channels := kv.channels.set ch none }.addHandler (.finish call op index
            (decide (n.clientId ≠ op.clientId ∨ n.requestId ≠ op.requestId)))) []
  | finished {call : Nat} {op : Op} {index : Int} {wrongLeader : Bool}
      (hh : .finish call op index wrongLeader ∈ kv.handlers)
      (hw : ¬ (op.name = .get ∧ wrongLeader = false)) :
      Step gob kv (.resume (.finish call op index wrongLeader))
        { kv.leave (.finish call op index wrongLeader) with
          dispatcher := kv.dispatcher.erase index }
        [.reply call ⟨wrongLeader, .blank, ""⟩]
  | finishedGet {call : Nat} {op : Op} {index : Int}
      (hh : .finish call op index false ∈ kv.handlers) (hget : op.name = .get) :
      Step gob kv (.resume (.finish call op index false))
        ({ kv.leave (.finish call op index false) with
          dispatcher := kv.dispatcher.erase index }.addHandler (.read call op)) []
  | read {call : Nat} {op : Op} (hh : .read call op ∈ kv.handlers) :
      Step gob kv (.resume (.read call op)) (kv.leave (.read call op))
        [.reply call (kv.readReply op.key)]
  | receive {msg : ApplyMsg Op (List B)} (hr : kv.received = none) :
      Step gob kv (.receive msg) { kv with received := some msg } []
  | duplicate {msg : ApplyMsg Op (List B)} {op : Op} (hr : kv.received = some msg)
      (hv : msg.commandValid = true) (hc : msg.command = .client op)
      (hd : kv.isDuplicateRequest op.clientId op.requestId = true) :
      Step gob kv .apply { kv with received := none } []
  | applied {msg : ApplyMsg Op (List B)} {op : Op} {channels : List (Option Notification)}
      (hr : kv.received = some msg) (hv : msg.commandValid = true)
      (hc : msg.command = .client op)
      (hd : ¬ kv.isDuplicateRequest op.clientId op.requestId = true)
      (hch : ∀ n, some n ∈ channels →
        some n ∈ kv.channels ∨ n = ⟨op.clientId, op.requestId⟩) :
      Step gob kv .apply
        { kv with
          toStore := kv.execute op, appliedRaftLogIndex := msg.commandIndex
          received := none, channels := channels } []
  | installed {msg : ApplyMsg Op (List B)} (hr : kv.received = some msg)
      (hv : msg.commandValid = false) :
      Step gob kv .apply ({ kv with received := none }.installSnapshot gob msg.commandData) []
  | takeSnapshot :
      Step gob kv .takeSnapshot
        { kv with snapshots := kv.snapshots ++ [(kv.appliedRaftLogIndex, kv.encode gob)] } []

variable {gob : KVGob B} {kv kv' : KVServer B} {out : List KVOutput}

theorem wake_cases {h : Handler} {body : KVServer B → Option (KVServer B × List KVOutput)}
    {r : KVServer B × List KVOutput} (hw : kv.wake h body = some r) :
    h ∈ kv.handlers ∧ body (kv.leave h) = some r := by
  unfold wake at hw
  split at hw
  · exact ⟨by assumption, hw⟩
  · exact absurd hw (by simp)

theorem started_cases {call : Nat} {op : Op} {index : Int} {isLeader : Bool}
    (h : kv.step gob (.started call op index isLeader) = some (kv', out)) :
    Step gob kv (.started call op index isLeader) kv' out := by
  simp only [step] at h
  obtain ⟨hh, h⟩ := wake_cases h
  cases isLeader with
  | false =>
    have hans : (kv.leave (.start call op)).answer call op true =
        (kv.leave (.start call op), [.reply call ⟨true, .blank, ""⟩]) := by simp [answer]
    rw [if_pos rfl, hans] at h
    cases h
    exact .refused hh
  | true =>
    rw [if_neg (by simp)] at h
    cases h
    exact .started hh

theorem resume_cases {h : Handler} (hs : kv.step gob (.resume h) = some (kv', out)) :
    Step gob kv (.resume h) kv' out := by
  simp only [step] at hs
  obtain ⟨hh, hs⟩ := wake_cases hs
  cases h with
  | start => exact absurd hs (by simp [resume])
  | register call op index =>
    simp only [resume, KVServer.register] at hs
    split at hs
    · cases hs
      exact .register hh fun _ hn => hn
    · cases hs
      refine .register hh fun n hn => ?_
      rcases List.mem_append.mp hn with hn | hn
      · exact hn
      · exact absurd hn (by simp)
  | select call op index ch =>
    simp only [resume] at hs
    split at hs
    · rename_i n hn
      cases hs
      exact .notified hh (List.mem_of_getElem? hn)
    · exact absurd hs (by simp)
  | finish call op index wrongLeader =>
    simp only [resume, answer] at hs
    split at hs
    · rename_i hw
      obtain ⟨hget, rfl⟩ := hw
      cases hs
      exact .finishedGet hh hget
    · rename_i hw
      cases hs
      exact .finished hh hw
  | read call op =>
    cases hs
    exact .read hh

theorem notify_cases {ch : Nat} {n : Notification} (h : kv.notify ch n = some kv') :
    ∃ channels, kv' = { kv with channels := channels } ∧
      ∀ m, some m ∈ channels → some m ∈ kv.channels ∨ m = n := by
  unfold notify at h
  split at h
  · cases h
    refine ⟨_, rfl, fun m hm => ?_⟩
    rcases List.mem_or_eq_of_mem_set hm with hm | hm
    · exact Or.inl hm
    · exact Or.inr (Option.some.inj hm)
  · exact absurd h (by simp)

theorem apply_cases (h : kv.step gob .apply = some (kv', out)) : Step gob kv .apply kv' out := by
  simp only [step] at h
  split at h
  · exact absurd h (by simp)
  rename_i msg hr
  obtain ⟨kv₁, hm, heq⟩ := Option.map_eq_some_iff.mp h
  clear h
  obtain ⟨rfl, rfl⟩ := Prod.mk.inj heq
  unfold applyMsg at hm
  split at hm
  · rename_i hv
    split at hm
    · cases hm
      exact .installed hr hv
    · exact absurd hm (by simp)
  · rename_i hv
    have hv' : msg.commandValid = true := by simpa using hv
    split at hm
    · rename_i op hc
      unfold applyCommand at hm
      split at hm
      · rename_i hd
        cases hm
        exact .duplicate hr hv' hc hd
      · rename_i hd
        dsimp only at hm
        split at hm
        · cases hm
          exact .applied hr hv' hc hd fun _ hn => Or.inl hn
        · obtain ⟨channels, rfl, hch⟩ := notify_cases hm
          exact .applied hr hv' hc hd hch
    · exact absurd hm (by simp)

theorem step_cases {input : KVInput B} (h : kv.step gob input = some (kv', out)) :
    Step gob kv input kv' out := by
  cases input with
  | request call op => cases h; exact .request
  | started => exact started_cases h
  | timeout call op index ch =>
    simp only [step] at h
    obtain ⟨hh, h⟩ := wake_cases h
    cases h
    exact .timeout hh
  | resume => exact resume_cases h
  | receive msg =>
    simp only [step] at h
    split at h
    · cases h
      exact .receive (by assumption)
    · exact absurd h (by simp)
  | apply => exact apply_cases h
  | takeSnapshot => cases h; exact .takeSnapshot

end DistributionSystem.KVServer
