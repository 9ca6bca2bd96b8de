import DistributionSystem.Lib.Runs
import DistributionSystem.KV.Step
import DistributionSystem.Raft.Server

/-! The notifications of `waitApplying`. A handler waits on the channel that the dispatcher
has for its index, and the apply loop sends to that channel with the lock held. The buffer
holds one notification, so a second send would stop the server. There is none: the op of an
index is executed once, since from then on it is a duplicate, and a channel belongs to one
index as long as the dispatcher knows it. -/

namespace DistributionSystem.KVServer

variable {B : Type}

/-! ## What a step does to the channels -/

/-- What Raft hands to the apply loop: the op of an index, any number of times, or a
snapshot that takes no request back. -/
def Delivered (gob : KVGob B) (opAt : Int → Op) (kv : Store) (msg : ApplyMsg Op (List B)) : Prop :=
  (∃ index, msg = entryMsg index (opAt index)) ∨
    ∃ index data, msg = Raft.installSnapshotMsg index data ∧
      ∀ bytes, data = some bytes → Store.Covers (kv.decode gob bytes) kv

/-- What a step does to the dispatcher, the channels and the replicated state. -/
inductive ChannelStep (opAt : Int → Op) (kv kv' : KVServer B) : Prop
  | grown (hd : kv'.dispatcher = kv.dispatcher) (hc : kv'.channels = kv.channels)
      (hs : Store.Covers kv'.toStore kv.toStore)
  | made {index : Int} (hd : kv'.dispatcher = kv.dispatcher.insert index kv.channels.length)
      (hc : kv'.channels = kv.channels ++ [none]) (hs : kv'.toStore = kv.toStore)
  | taken {ch : Nat} (hd : kv'.dispatcher = kv.dispatcher)
      (hc : kv'.channels = kv.channels.set ch none) (hs : kv'.toStore = kv.toStore)
  | deleted {index : Int} (hd : kv'.dispatcher = kv.dispatcher.erase index)
      (hc : kv'.channels = kv.channels) (hs : kv'.toStore = kv.toStore)
  | sent {index : Int} {ch : Nat} (hch : kv.dispatcher.lookup index = some ch)
      (hd : kv'.dispatcher = kv.dispatcher)
      (hc : kv'.channels =
        kv.channels.set ch (some ⟨(opAt index).clientId, (opAt index).requestId⟩))
      (hs : kv'.toStore = kv.toStore.apply (opAt index))

section

variable {gob : KVGob B} {opAt : Int → Op} {kv kv' : KVServer B} {out : List KVOutput}

theorem ChannelStep.same (hd : kv'.dispatcher = kv.dispatcher) (hc : kv'.channels = kv.channels)
    (hs : kv'.toStore = kv.toStore) : ChannelStep opAt kv kv' :=
  .grown hd hc (hs ▸ Store.Covers.refl _)

theorem ChannelStep.covers (h : ChannelStep opAt kv kv') :
    Store.Covers kv'.toStore kv.toStore := by
  cases h with
  | grown _ _ hs => exact hs
  | made _ _ hs | taken _ _ hs | deleted _ _ hs => exact hs ▸ Store.Covers.refl _
  | sent _ _ _ hs => exact hs ▸ Store.covers_apply _ _

theorem channelStep_applyCommand {index : Int} {received : Option (ApplyMsg Op (List B))}
    (h : { kv with received := received }.applyCommand index (opAt index) = some kv') :
    ChannelStep opAt kv kv' := by
  unfold applyCommand at h
  split at h
  · cases h
    exact .same rfl rfl rfl
  · rename_i hdup
    have hexec : kv.toStore.apply (opAt index) = kv.toStore.execute (opAt index) := if_neg hdup
    dsimp only at h
    split at h
    · cases h
      exact .grown rfl rfl (hexec ▸ Store.covers_apply _ _)
    · rename_i ch hch
      unfold notify at h
      split at h
      · cases h
        exact .sent hch rfl rfl hexec.symm
      · cases h

theorem channelStep_apply (hmsg : ∀ msg, kv.received = some msg → Delivered gob opAt kv.toStore msg)
    (h : kv.step gob .apply = some (kv', out)) : ChannelStep opAt kv kv' := by
  simp only [step] at h
  split at h
  · cases h
  rename_i msg hr
  obtain ⟨kv₁, hm, heq⟩ := Option.map_eq_some_iff.mp h
  cases heq
  rcases hmsg msg hr with ⟨index, rfl⟩ | ⟨index, data, rfl, hcov⟩
  · simp only [applyMsg, entryMsg, Bool.true_eq_false, if_false] at hm
    exact channelStep_applyCommand hm
  · simp only [applyMsg, Raft.installSnapshotMsg, if_true] at hm
    cases hm
    cases data with
    | none => exact .same rfl rfl rfl
    | some bytes => exact .grown rfl rfl (hcov bytes rfl)

theorem channelStep_resume {h : Handler} (hs : kv.step gob (.resume h) = some (kv', out)) :
    ChannelStep opAt kv kv' := by
  simp only [step] at hs
  obtain ⟨-, hs⟩ := wake_cases hs
  cases h with
  | start => cases hs
  | register call op index =>
    simp only [resume, KVServer.register] at hs
    split at hs
    · cases hs
      exact .same rfl rfl rfl
    · cases hs
      exact .made rfl rfl rfl
  | select call op index ch =>
    simp only [resume] at hs
    split at hs
    · cases hs
      exact .taken rfl rfl rfl
    · cases hs
  | finish call op index wrongLeader =>
    simp only [resume, answer] at hs
    split at hs <;> cases hs <;> exact .deleted rfl rfl rfl
  | read call op =>
    cases hs
    exact .same rfl rfl rfl

theorem channelStep_of_step {input : KVInput B}
    (hmsg : ∀ msg, kv.received = some msg → Delivered gob opAt kv.toStore msg)
    (h : kv.step gob input = some (kv', out)) : ChannelStep opAt kv kv' := by
  have hstep := step_cases h
  cases hstep with
  | duplicate | applied | installed => exact channelStep_apply hmsg h
  | register | notified | finished | finishedGet | read => exact channelStep_resume h
  | request | refused | started | timeout | receive | takeSnapshot => exact .same rfl rfl rfl

end

/-! ## The invariant -/

/-- The op counts as applied: the server has recorded its request or a later one of the
client. -/
def Applied (kv : Store) (op : Op) : Prop :=
  ∃ a, kv.lastAppliedRequestId.lookup op.clientId = some a ∧ op.requestId ≤ a

theorem applied_iff {kv : Store} {op : Op} :
    Applied kv op ↔ kv.isDuplicateRequest op.clientId op.requestId = true :=
  Store.isDuplicateRequest_iff.symm

/-- The channels, when `opAt` is the op of each index. -/
structure Channels (opAt : Int → Op) (kv : KVServer B) : Prop where
  made : ∀ index ch, kv.dispatcher.lookup index = some ch → ch < kv.channels.length
  own : ∀ index index' ch, kv.dispatcher.lookup index = some ch →
    kv.dispatcher.lookup index' = some ch → index = index'
  full : ∀ index ch n, kv.dispatcher.lookup index = some ch →
    kv.channels[ch]? = some (some n) → Applied kv.toStore (opAt index)
  notified : ∀ n, some n ∈ kv.channels →
    kv.isDuplicateRequest n.clientId n.requestId = true

theorem channels_blank (opAt : Int → Op) {kv : KVServer B} (hd : kv.dispatcher = ∅)
    (hc : kv.channels = []) : Channels opAt kv := by
  refine ⟨fun index ch h => ?_, fun index _ ch h => ?_, fun index ch _ h => ?_, fun n h => ?_⟩
  · rw [hd] at h; cases h
  · rw [hd] at h; cases h
  · rw [hd] at h; cases h
  · rw [hc] at h; cases h

theorem Applied.covers {new old : Store} {op : Op} (h : Applied old op)
    (hc : Store.Covers new old) : Applied new op :=
  applied_iff.mpr (hc.duplicate _ _ (applied_iff.mp h))

section

variable {opAt : Int → Op} {kv kv' : KVServer B}

/-- Fewer indices and fewer notifications, while the state grows. -/
theorem Channels.mono (h : Channels opAt kv)
    (hd : ∀ index ch, kv'.dispatcher.lookup index = some ch →
      kv.dispatcher.lookup index = some ch)
    (hlen : kv'.channels.length = kv.channels.length)
    (hc : ∀ (ch : Nat) n, kv'.channels[ch]? = some (some n) → kv.channels[ch]? = some (some n))
    (hcov : Store.Covers kv'.toStore kv.toStore) : Channels opAt kv' := by
  refine ⟨fun index ch hi => ?_, fun index index' ch hi hi' => ?_, fun index ch n hi hn => ?_,
    fun n hn => ?_⟩
  · rw [hlen]
    exact h.made index ch (hd index ch hi)
  · exact h.own index index' ch (hd index ch hi) (hd index' ch hi')
  · exact (h.full index ch n (hd index ch hi) (hc ch n hn)).covers hcov
  · obtain ⟨ch, hch⟩ := List.mem_iff_getElem?.mp hn
    exact hcov.duplicate _ _ (h.notified n (List.mem_of_getElem? (hc ch n hch)))

/-- A new channel is empty, and no other index has it. -/
theorem Channels.make (h : Channels opAt kv) {index : Int}
    (hd : kv'.dispatcher = kv.dispatcher.insert index kv.channels.length)
    (hc : kv'.channels = kv.channels ++ [none]) (hs : kv'.toStore = kv.toStore) :
    Channels opAt kv' := by
  have hlook : ∀ i ch, kv'.dispatcher.lookup i = some ch →
      (i = index ∧ ch = kv.channels.length) ∨
        (kv.dispatcher.lookup i = some ch ∧ ch < kv.channels.length) := by
    intro i ch hi
    rw [hd] at hi
    by_cases hix : i = index
    · subst hix
      rw [Finmap.lookup_insert] at hi
      exact Or.inl ⟨rfl, (Option.some.inj hi).symm⟩
    · rw [Finmap.lookup_insert_of_ne _ hix] at hi
      exact Or.inr ⟨hi, h.made i ch hi⟩
  refine ⟨fun i ch hi => ?_, fun i i' ch hi hi' => ?_, fun i ch n hi hn => ?_, fun n hn => ?_⟩
  · rw [hc, List.length_append, List.length_singleton]
    rcases hlook i ch hi with ⟨-, rfl⟩ | ⟨-, hlt⟩ <;> omega
  · rcases hlook i ch hi with ⟨rfl, hl⟩ | ⟨ho, hl⟩ <;>
      rcases hlook i' ch hi' with ⟨rfl, hl'⟩ | ⟨ho', hl'⟩
    · rfl
    · omega
    · omega
    · exact h.own i i' ch ho ho'
  · rw [hc] at hn
    rw [hs]
    rcases hlook i ch hi with ⟨-, rfl⟩ | ⟨ho, hlt⟩
    · rw [List.getElem?_concat_length] at hn
      cases hn
    · rw [List.getElem?_append_left hlt] at hn
      exact h.full i ch n ho hn
  · rw [hc] at hn
    rw [hs]
    rcases List.mem_append.mp hn with hn | hn
    · exact h.notified n hn
    · cases List.mem_singleton.mp hn

/-- The channel of an index gets its notification when the op of the index is executed. -/
theorem Channels.send (h : Channels opAt kv) {index : Int} {ch : Nat}
    (hch : kv.dispatcher.lookup index = some ch) (hd : kv'.dispatcher = kv.dispatcher)
    (hc : kv'.channels =
      kv.channels.set ch (some ⟨(opAt index).clientId, (opAt index).requestId⟩))
    (hs : kv'.toStore = kv.toStore.apply (opAt index)) : Channels opAt kv' := by
  have hcov : Store.Covers kv'.toStore kv.toStore := hs ▸ Store.covers_apply _ _
  have hdup : kv'.isDuplicateRequest (opAt index).clientId (opAt index).requestId = true :=
    hs ▸ Store.duplicate_apply _ _
  refine ⟨fun i c hi => ?_, fun i i' c hi hi' => ?_, fun i c n hi hn => ?_, fun n hn => ?_⟩
  · rw [hc, List.length_set]
    rw [hd] at hi
    exact h.made i c hi
  · rw [hd] at hi hi'
    exact h.own i i' c hi hi'
  · rw [hd] at hi
    by_cases hcc : ch = c
    · subst hcc
      rw [h.own i index ch hi hch]
      exact applied_iff.mpr hdup
    · rw [hc, List.getElem?_set_ne hcc] at hn
      exact (h.full i c n hi hn).covers hcov
  · rw [hc] at hn
    rcases List.mem_or_eq_of_mem_set hn with hn | hn
    · exact hcov.duplicate _ _ (h.notified n hn)
    · cases hn
      exact hdup

theorem Channels.step (h : Channels opAt kv) (hs : ChannelStep opAt kv kv') :
    Channels opAt kv' := by
  have hcov := hs.covers
  cases hs with
  | grown hd hc =>
    exact h.mono (fun _ _ hi => by rwa [hd] at hi) (by rw [hc])
      (fun _ _ hn => by rwa [hc] at hn) hcov
  | made hd hc hs => exact h.make hd hc hs
  | taken hd hc =>
    refine h.mono (fun _ _ hi => by rwa [hd] at hi) (by rw [hc, List.length_set]) ?_ hcov
    intro c n hn
    rw [hc, List.getElem?_set] at hn
    split at hn
    · split at hn <;> cases hn
    · exact hn
  | @deleted index hd hc =>
    refine h.mono ?_ (by rw [hc]) (fun _ _ hn => by rwa [hc] at hn) hcov
    intro i ch hi
    rw [hd] at hi
    by_cases hix : i = index
    · subst hix
      rw [Finmap.lookup_erase] at hi
      cases hi
    · rwa [Finmap.lookup_erase_ne hix] at hi
  | sent hch hd hc hs => exact h.send hch hd hc hs

end

/-! ## Runs -/

/-- A step, without its output. -/
def advance (gob : KVGob B) (kv : KVServer B) (input : KVInput B) : Option (KVServer B) :=
  (kv.step gob input).map Prod.fst

/-- The stream that the apply loop reads. All other inputs are free: any number of calls at
any indices, and timeouts at any moment. -/
def Delivers (gob : KVGob B) (opAt : Int → Op) (kv : KVServer B) : KVInput B → Prop
  | .receive msg => Delivered gob opAt kv.toStore msg
  | _ => True

structure Notifying (gob : KVGob B) (opAt : Int → Op) (kv : KVServer B) : Prop where
  channels : Channels opAt kv
  message : ∀ msg, kv.received = some msg → Delivered gob opAt kv.toStore msg
  decided : ∀ call op index, .finish call op index false ∈ kv.handlers → Applied kv.toStore op

namespace Notifying

variable {gob : KVGob B} {opAt : Int → Op} {kv kv' : KVServer B} {input : KVInput B}
  {out : List KVOutput}

theorem start (gob : KVGob B) (opAt : Int → Op) (snapshot : Option (List B)) :
    Notifying gob opAt (startKVServer gob snapshot) := by
  rw [startKVServer_frame]
  refine ⟨channels_blank opAt rfl rfl, fun msg hm => ?_, fun call op index hm => ?_⟩
  · cases hm
  · cases hm

theorem message_step (h : Notifying gob opAt kv) (hok : Delivers gob opAt kv input)
    (hs : Step gob kv input kv' out) :
    ∀ msg, kv'.received = some msg → Delivered gob opAt kv'.toStore msg := by
  intro msg hr
  cases hs with
  | receive =>
    cases hr
    exact hok
  | duplicate | applied => cases hr
  | @installed m =>
    cases hd : m.commandData <;> rw [hd] at hr <;> cases hr
  | _ => exact h.message msg hr

/-- A handler that says `WrongLeader = false` said so before, or has just found its request
in the table or in its channel. -/
theorem decided_step (h : Notifying gob opAt kv) (hs : Step gob kv input kv' out)
    {call : Nat} {op : Op} {index : Int} (hm : .finish call op index false ∈ kv'.handlers) :
    Applied kv.toStore op := by
  have hleave : ∀ {g}, .finish call op index false ∈ (kv.leave g).handlers →
      Applied kv.toStore op := fun hg => h.decided _ _ _ (List.mem_of_mem_erase hg)
  have hmove : ∀ {g g'}, .finish call op index false ∈ ((kv.leave g).handlers ++ [g']) →
      (g' = .finish call op index false → Applied kv.toStore op) → Applied kv.toStore op := by
    intro g g' hg hnew
    rcases List.mem_append.mp hg with hg | hg
    · exact hleave hg
    · exact hnew (List.mem_singleton.mp hg).symm
  cases hs with
  | request =>
    rcases List.mem_append.mp hm with hm | hm
    · exact h.decided _ _ _ hm
    · cases List.mem_singleton.mp hm
  | refused | finished | read => exact hleave hm
  | started | register | finishedGet => exact hmove hm nofun
  | timeout =>
    refine hmove hm fun heq => ?_
    injection heq with _ hop _ hdup
    subst hop
    exact applied_iff.mpr (by simpa using hdup)
  | @notified _ _ _ _ n _ hn =>
    refine hmove hm fun heq => ?_
    injection heq with _ hop _ hids
    subst hop
    simp only [decide_eq_false_iff_not, not_or, Decidable.not_not] at hids
    have hdup := h.channels.notified n hn
    rw [hids.1, hids.2] at hdup
    exact applied_iff.mpr hdup
  | receive | takeSnapshot | duplicate | applied => exact h.decided _ _ _ hm
  | @installed m =>
    cases hd : m.commandData <;> rw [hd] at hm <;> exact h.decided _ _ _ hm

theorem step (h : Notifying gob opAt kv) (hok : Delivers gob opAt kv input)
    (hs : kv.step gob input = some (kv', out)) : Notifying gob opAt kv' := by
  have hch := channelStep_of_step h.message hs
  exact ⟨h.channels.step hch, h.message_step hok (step_cases hs), fun call op index hm =>
    (h.decided_step (step_cases hs) hm).covers hch.covers⟩

theorem of_run {snapshot : Option (List B)} {inputs : List (KVInput B)}
    (h : Runs.Run (advance gob) (Delivers gob opAt) (startKVServer gob snapshot) inputs kv) :
    Notifying gob opAt kv := by
  refine h.invariant _ (start gob opAt snapshot) fun kv₁ input kv₂ hinv hok hs => ?_
  obtain ⟨r, hr, rfl⟩ := Option.map_eq_some_iff.mp hs
  exact hinv.step hok hr

/-- The buffer has room for the notification of the op that is about to be executed. -/
theorem room (h : Notifying gob opAt kv) {index : Int} {op : Op} {ch : Nat}
    (hr : kv.received = some (entryMsg index op))
    (hdup : kv.isDuplicateRequest op.clientId op.requestId = false)
    (hch : kv.dispatcher.lookup index = some ch) : kv.channels[ch]? = some none := by
  have hop : op = opAt index := by
    rcases h.message _ hr with ⟨i, hi⟩ | ⟨i, data, hi, -⟩
    · cases hi
      rfl
    · cases hi
  cases hc : kv.channels[ch]? with
  | none =>
    have hlen := List.getElem?_eq_none_iff.mp hc
    exact absurd (h.channels.made index ch hch) (by omega)
  | some slot =>
    cases slot with
    | none => rfl
    | some n =>
      have hd := applied_iff.mp (h.channels.full index ch n hch hc)
      rw [← hop, hdup] at hd
      cases hd

/-- The apply loop gets through the message it has received. -/
theorem apply_enabled (h : Notifying gob opAt kv) {msg : ApplyMsg Op (List B)}
    (hr : kv.received = some msg) : ∃ kv', kv.step gob .apply = some (kv', []) := by
  have hbody : ∃ kv', { kv with received := none }.applyMsg gob msg = some kv' := by
    rcases h.message msg hr with ⟨index, rfl⟩ | ⟨index, data, rfl, -⟩
    · simp only [applyMsg, entryMsg, Bool.true_eq_false, if_false]
      unfold applyCommand
      split
      · exact ⟨_, rfl⟩
      · rename_i hdup
        dsimp only
        split
        · exact ⟨_, rfl⟩
        · rename_i ch hch
          have hroom := h.room hr (by simpa using hdup) hch
          unfold notify
          dsimp only
          rw [hroom]
          exact ⟨_, rfl⟩
    · exact ⟨_, rfl⟩
  obtain ⟨kv', hkv'⟩ := hbody
  refine ⟨kv', ?_⟩
  simp only [KVServer.step, hr, hkv', Option.map_some]

end Notifying

/-- The send of the apply loop never waits, and `waitApplying` says that it was not the wrong
leader only about a request that has been applied. -/
theorem notifications_sound {gob : KVGob B} {opAt : Int → Op} {snapshot : Option (List B)}
    {inputs : List (KVInput B)} {kv : KVServer B}
    (h : Runs.Run (advance gob) (Delivers gob opAt) (startKVServer gob snapshot) inputs kv) :
    (∀ index op ch, kv.received = some (entryMsg index op) →
      kv.isDuplicateRequest op.clientId op.requestId = false →
      kv.dispatcher.lookup index = some ch → kv.channels[ch]? = some none) ∧
    (∀ msg, kv.received = some msg → ∃ kv', kv.step gob .apply = some (kv', [])) ∧
    ∀ call op index, .finish call op index false ∈ kv.handlers → Applied kv.toStore op := by
  have hinv := Notifying.of_run h
  exact ⟨fun _ _ _ hr hdup hch => hinv.room hr hdup hch, fun _ hr => hinv.apply_enabled hr,
    hinv.decided⟩

def waitedPut : Op := ⟨"x", "a", .put, 1, 1⟩

/-- Two calls wait at index 1. Its op is applied and delivered again while the first of them
has given up waiting and the notification is still there. -/
def abandoned : List (KVInput KVWord) :=
  [.request 0 waitedPut, .request 1 ⟨"y", "b", .put, 2, 1⟩, .started 0 waitedPut 1 true,
    .started 1 ⟨"y", "b", .put, 2, 1⟩ 1 true, .resume (.register 0 waitedPut 1),
    .resume (.register 1 ⟨"y", "b", .put, 2, 1⟩ 1), .receive (entryMsg 1 waitedPut), .apply,
    .timeout 0 waitedPut 1 0, .receive (entryMsg 1 waitedPut)]

theorem notifications_sound_abandoned : ∃ kv : KVServer KVWord,
    Runs.Run (advance KVGob.words) (Delivers KVGob.words fun _ => waitedPut)
      (startKVServer KVGob.words none) abandoned kv ∧
    kv.channels = [some ⟨1, 1⟩] ∧ (∃ kv', kv.step KVGob.words .apply = some (kv', [])) ∧
    Applied kv.toStore waitedPut := by
  have hexec : (Runs.exec (advance KVGob.words) (fun _ _ => True)
      (startKVServer KVGob.words none) abandoned).map
        (fun kv => (kv.channels, kv.received, kv.handlers)) =
          some ([some ⟨1, 1⟩], some (entryMsg 1 waitedPut),
            [.select 1 ⟨"y", "b", .put, 2, 1⟩ 1 0, .finish 0 waitedPut 1 false]) := by
    decide +kernel
  obtain ⟨kv, hrun, heq⟩ := Runs.run_of_exec_map _ hexec
  obtain ⟨hc, hr, hh⟩ : kv.channels = [some ⟨1, 1⟩] ∧ kv.received = some (entryMsg 1 waitedPut) ∧
      kv.handlers = [.select 1 ⟨"y", "b", .put, 2, 1⟩ 1 0, .finish 0 waitedPut 1 false] := by
    simpa using heq
  have hrun' : Runs.Run (advance KVGob.words) (Delivers KVGob.words fun _ => waitedPut)
      (startKVServer KVGob.words none) abandoned kv := by
    refine hrun.mono fun kv e he _ => ?_
    simp only [abandoned, List.mem_cons, List.not_mem_nil, or_false] at he
    rcases he with rfl | rfl | rfl | rfl | rfl | rfl | rfl | rfl | rfl | rfl
    all_goals first | trivial | exact Or.inl ⟨1, rfl⟩
  obtain ⟨-, hnext, hdone⟩ := notifications_sound hrun'
  refine ⟨kv, hrun', hc, hnext _ hr, hdone 0 waitedPut 1 ?_⟩
  rw [hh]
  exact List.mem_cons_of_mem _ List.mem_cons_self

end DistributionSystem.KVServer
