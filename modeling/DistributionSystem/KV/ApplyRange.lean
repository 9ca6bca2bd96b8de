import DistributionSystem.KV.Replica
import DistributionSystem.Raft.Delivery
import DistributionSystem.Raft.Effects
import DistributionSystem.Raft.Election
import DistributionSystem.Raft.FullLog

/-! The slice that `setCommitIndex` takes, in a Raft peer with its key/value server. The
server may compact the log at an index that it has received and that Raft has not recorded
as applied, so `snapshottedIndex` passes `lastApplied`, but only by one, and then the guard
is a real entry. With that the slice is in range (`apply_slice_in_range`), in every run of
replicas over a network. -/

namespace DistributionSystem

variable {C D B W : Type}

namespace Raft

/-! ## The log against `lastApplied` -/

/-- The snapshot ends at most one index behind `lastApplied`, and the log holds commands,
at the guard too if that is still to be applied. -/
structure LogOk (logs : List (LogEntry C)) (snapshottedIndex lastApplied : Int) : Prop where
  nonneg : 0 ≤ snapshottedIndex
  le : snapshottedIndex ≤ lastApplied + 1
  tail : ∀ e ∈ logs.tail, e.command ≠ .nil
  guard : snapshottedIndex = lastApplied + 1 → ∀ e, logs.head? = some e → e.command ≠ .nil

theorem LogOk.mono {logs : List (LogEntry C)} {snap applied applied' : Int}
    (h : LogOk logs snap applied) (hle : applied ≤ applied') : LogOk logs snap applied' := by
  have hsnap := h.le
  exact ⟨h.nonneg, by omega, h.tail, fun heq => h.guard (by omega)⟩

theorem mergeEntries_tail {logs entries logs' : List (LogEntry C)} {r : Nat} (hpos : 0 < r)
    (hr : r ≤ logs.length) (h : mergeEntries logs r entries = some logs') :
    logs'.head? = logs.head? ∧ ∀ e ∈ logs'.tail, e ∈ logs.tail ∨ e ∈ entries := by
  rcases mergeEntries_eq hr h with ⟨-, rfl⟩ | ⟨u, -, rfl⟩
  · exact ⟨rfl, fun e => Or.inl⟩
  · cases logs with
    | nil => exact absurd hr (by simp; omega)
    | cons g rest =>
      rw [show r + u = (r + u - 1) + 1 by omega, List.take_succ_cons]
      refine ⟨rfl, fun e he => ?_⟩
      exact (List.mem_append.mp he).imp List.mem_of_mem_take List.mem_of_mem_drop

theorem LogOk.merged {logs entries logs' : List (LogEntry C)} {snap applied prevLogIndex : Int}
    {prev : LogEntry C} (h : LogOk logs snap applied) (he : ∀ e ∈ entries, e.command ≠ .nil)
    (hprev : snap < prevLogIndex) (hget : CheckedSlice.get logs (prevLogIndex - snap) = some prev)
    (hm : mergeEntries logs (prevLogIndex + 1 - snap) entries = some logs') :
    LogOk logs' snap applied := by
  obtain ⟨-, hget⟩ := CheckedSlice.get_eq_some hget
  have hlt := (List.getElem?_eq_some_iff.mp hget).1
  rw [show prevLogIndex + 1 - snap = (((prevLogIndex - snap).toNat + 1 : Nat) : Int) by omega] at hm
  obtain ⟨hhead, htail⟩ := mergeEntries_tail (by omega) hlt hm
  refine ⟨h.nonneg, h.le, fun e hmem => ?_, ?_⟩
  · rcases htail e hmem with hmem | hmem
    · exact h.tail e hmem
    · exact he e hmem
  · rw [hhead]
    exact h.guard

/-- What the other peers and the service pass to Raft. -/
def Serves (rf : Raft C D B) : Input C D → Prop
  | .appendEntries args => ∀ e ∈ args.logEntries, e.command ≠ .nil
  | .replaceLogWithSnapshot index _ => index ≤ rf.lastApplied + 1
  | _ => True

variable {rf rf' : Raft C D B} {input : Input C D}

theorem LogStep.logOk (h : LogStep rf input rf') (hle : rf.lastApplied ≤ rf'.lastApplied)
    (hok : LogOk rf.logs rf.snapshottedIndex rf.lastApplied) (hin : rf.Serves input) :
    LogOk rf'.logs rf'.snapshottedIndex rf'.lastApplied := by
  cases h with
  | same hl hs =>
    rw [hl, hs]
    exact hok.mono hle
  | @replaced args guard rest hi _ _ _ hlogs hl hs =>
    subst hi
    have hok' := hok.mono hle
    rw [hlogs] at hok'
    rw [hl, hs]
    exact ⟨hok'.nonneg, hok'.le, fun e he => hin e (List.mem_of_mem_drop he), hok'.guard⟩
  | @merged args prev hi _ hprev hget _ hl hs =>
    subst hi
    rw [hs]
    exact (hok.mono hle).merged hin hprev hget hl
  | @installed args hi _ hindex hl hs _ ha =>
    have hnn := hok.nonneg
    refine ⟨by omega, by omega, ?_, fun heq => by omega⟩
    rw [hl]
    simp only [retainedLogs]
    intro e he
    split at he
    · split at he
      · rw [← List.drop_one, List.drop_drop] at he
        refine hok.tail e ?_
        rw [← List.drop_one]
        exact (List.drop_sublist_drop_left _ (by omega)).subset he
      · exact absurd he (by simp)
    · exact absurd he (by simp)
  | @appended command term hi hg hl hs =>
    have hok' := hok.mono hle
    rw [hl, hs]
    cases hlogs : rf.logs with
    | nil => exact ⟨hok'.nonneg, hok'.le, by simp, fun _ e he => by cases he; simp⟩
    | cons g rest =>
      rw [hlogs] at hok'
      refine ⟨hok'.nonneg, hok'.le, fun e he => ?_, hok'.guard⟩
      rcases List.mem_append.mp he with he | he
      · exact hok'.tail e he
      · rw [List.mem_singleton.mp he]
        simp
  | @compacted index snapshot hi hindex hl hs =>
    subst hi
    have hnn := hok.nonneg
    have hin' : index ≤ rf.lastApplied + 1 := hin
    obtain ⟨-, -, hl⟩ := CheckedSlice.drop_eq_some hl
    -- the new log is a part of the old one behind its guard
    have hmem : ∀ e ∈ rf'.logs, e.command ≠ .nil := by
      intro e he
      refine hok.tail e ?_
      rw [hl, show (rf.getRelativeLogIndex index).toNat =
        1 + (index - rf.snapshottedIndex - 1).toNat by simp only [getRelativeLogIndex]; omega,
        ← List.drop_drop, List.drop_one] at he
      exact List.mem_of_mem_drop he
    exact ⟨by omega, by omega, fun e he => hmem e (List.mem_of_mem_tail he),
      fun _ e he => hmem e (List.mem_of_mem_head? he)⟩

/-! ## The goroutines against `lastApplied` -/

/-- The goroutine has not passed the index `b`. -/
def UpTo (b : Int) : Goroutine C D → Prop
  | .apply index _ | .applied index _ => index ≤ b
  | .install msg => msg.commandValid = false
  | _ => True

theorem UpTo.mono {b b' : Int} {g : Goroutine C D} (h : UpTo b g) (hle : b ≤ b') : UpTo b' g := by
  cases g with
  | apply | applied => exact Int.le_trans h hle
  | _ => exact h

structure InRange (rf : Raft C D B) : Prop where
  log : LogOk rf.logs rf.snapshottedIndex rf.lastApplied
  goroutines : ∀ g ∈ rf.goroutines, UpTo (rf.lastApplied + 1) g

section

variable [DecidableEq C] [DecidableEq D] {gob : Labgob C B} {out : List (Output C D)}

theorem step_upTo (hok : rf.InRange) (hle : rf.lastApplied ≤ rf'.lastApplied)
    (ha : AppliedStep rf input rf') (h : Step gob rf input rf' out) :
    ∀ g ∈ rf'.goroutines, UpTo (rf'.lastApplied + 1) g := by
  intro g hg
  rcases step_goroutines h g hg with hg | hnew
  · exact (hok.goroutines g hg).mono (by omega)
  · cases hnew with
    | @calls _ g hc =>
      cases g with
      | start | apply | applied | install => exact absurd hc id
      | _ => trivial
    | start => trivial
    | apply => show rf.lastApplied + 1 ≤ _; omega
    | applied hold =>
      have hidx := hok.goroutines _ hold
      simp only [UpTo] at hidx ⊢
      omega
    | @next index entries =>
      -- the index is recorded in the same step
      cases ha with
      | same hi => exact absurd rfl (hi index entries)
      | recorded hi hl =>
        cases hi
        show index + 1 ≤ _
        omega
      | installed hi => cases hi
      | restarted hi => cases hi
    | install => rfl

theorem step_inRange (hrec : rf.Recovers gob) (hok : rf.InRange) (hin : rf.Serves input)
    (h : Step gob rf input rf' out) :
    rf'.InRange ∧ (input ≠ .restart → rf.lastApplied ≤ rf'.lastApplied) := by
  have ha := step_lastApplied h
  have hmono : rf.lastApplied ≤ rf'.lastApplied → rf'.InRange := fun hle =>
    ⟨(step_log hrec h).logOk hle hok.log hin, step_upTo hok hle ha h⟩
  cases ha with
  | same _ hl => exact ⟨hmono (by omega), fun _ => by omega⟩
  | recorded _ hl => exact ⟨hmono (by omega), fun _ => by omega⟩
  | installed _ hl => exact ⟨hmono (by omega), fun _ => by omega⟩
  | restarted hi hg hl =>
    subst hi
    cases h with
    | restart =>
      have hlog := hok.log
      refine ⟨⟨?_, fun g hm => ?_⟩, fun hne => absurd rfl hne⟩
      · rw [hl, hrec.2.2.2, hrec.2.2.1]
        exact ⟨hlog.nonneg, by omega, hlog.tail, fun heq => by omega⟩
      · rw [hg] at hm
        exact absurd hm List.not_mem_nil

/-- The messages for commands that a step sends are not above the recorded index. -/
theorem step_messages (hok : rf.InRange) (h : Step gob rf input rf' out) :
    ∀ msg, .apply msg ∈ out → msg.commandValid = true →
      msg.commandIndex ≤ rf.lastApplied + 1 := by
  intro msg hm hv
  cases h with
  | electionTimer => simp at hm
  | @apply index e entries hg =>
    cases List.mem_singleton.mp hm
    exact hok.goroutines _ hg
  | install hg =>
    cases List.mem_singleton.mp hm
    have hnot := hok.goroutines _ hg
    rw [UpTo, hv] at hnot
    exact absurd hnot (by decide)
  | _ => simp at hm

/-- The requests that a step sends carry commands. -/
theorem step_calls_real (hok : rf.InRange) (h : Step gob rf input rf' out) :
    ∀ dst args, .call dst (.appendEntries args) ∈ out → ∀ e ∈ args.logEntries,
      e.command ≠ .nil := by
  intro dst args hm e he
  cases h with
  | electionTimer => simp at hm
  | @heartbeat server entries prev prevLogIndex hg hst hp hdrop hprev =>
    cases List.mem_singleton.mp hm
    obtain ⟨hpos, -⟩ := CheckedSlice.get_eq_some hprev
    obtain ⟨-, -, rfl⟩ := CheckedSlice.drop_eq_some hdrop
    have hnext : (rf.getRelativeLogIndex (prevLogIndex + 1)).toNat =
        1 + (rf.getRelativeLogIndex prevLogIndex).toNat := by
      simp only [getRelativeLogIndex] at hpos ⊢
      omega
    have he' : e ∈ rf.logs.drop (rf.getRelativeLogIndex (prevLogIndex + 1)).toNat := he
    rw [hnext, ← List.drop_drop, List.drop_one] at he'
    exact hok.log.tail e (List.mem_of_mem_drop he')
  | sync => exact absurd (List.mem_singleton.mp hm) (by simp)
  | _ => simp at hm

/-! ## The slice -/

omit [DecidableEq C] [DecidableEq D] in
theorem LogOk.slice {r : Raft C D B} {c : Int} (h : LogOk r.logs r.snapshottedIndex r.lastApplied)
    (hc : c ≤ r.lastLogIndex) (hlt : r.lastApplied < c) :
    ∃ entries, CheckedSlice.slice r.logs (r.getRelativeLogIndex (r.lastApplied + 1))
      (r.getRelativeLogIndex (c + 1)) = some entries ∧ ∀ e ∈ entries, e.command ≠ .nil := by
  have hle := h.le
  simp only [lastLogIndex, getAbsoluteLogIndex] at hc
  simp only [getRelativeLogIndex]
  refine ⟨_, CheckedSlice.slice_of_le (by omega) (by omega) (by omega), fun e he => ?_⟩
  by_cases hguard : r.snapshottedIndex = r.lastApplied + 1
  · have hmem := List.mem_of_mem_take (List.mem_of_mem_drop he)
    cases hlogs : r.logs with
    | nil => rw [hlogs] at hmem; exact absurd hmem List.not_mem_nil
    | cons g rest =>
      rw [hlogs] at hmem h
      rcases List.mem_cons.mp hmem with rfl | hmem
      · exact h.guard hguard _ rfl
      · exact h.tail e hmem
  · -- the guard is not in the slice
    refine h.tail e ?_
    rw [List.drop_take] at he
    have he' := List.mem_of_mem_take he
    rw [show (r.lastApplied + 1 - r.snapshottedIndex).toNat =
      1 + (r.lastApplied - r.snapshottedIndex).toNat by omega, ← List.drop_drop, List.drop_one]
      at he'
    exact List.mem_of_mem_drop he'

omit [DecidableEq C] [DecidableEq D] in
theorem LogOk.setCommitIndex {r : Raft C D B} {c : Int}
    (h : LogOk r.logs r.snapshottedIndex r.lastApplied) (hc : c ≤ r.lastLogIndex) :
    ∃ r', r.setCommitIndex c = some r' := by
  by_cases hlt : c > r.lastApplied
  · obtain ⟨entries, he, -⟩ := h.slice hc hlt
    simp only [getRelativeLogIndex] at he
    simp only [Raft.setCommitIndex, getRelativeLogIndex, if_pos hlt, he]
    exact ⟨_, rfl⟩
  · simp only [Raft.setCommitIndex, if_neg hlt]
    exact ⟨_, rfl⟩

theorem commitCall_logOk (hok : rf.InRange) (hin : rf.Serves input) {r : Raft C D B} {c : Int}
    (hc : rf.commitCall input = some (r, c)) :
    c ≤ r.lastLogIndex ∧ LogOk r.logs r.snapshottedIndex r.lastApplied := by
  cases input with
  | appendEntries args =>
    simp only [commitCall] at hc
    split at hc
    · exact absurd hc (by simp)
    obtain ⟨prev, logs, hprev, -, hget, -, hmerge, -, rfl, rfl⟩ := appendCommit_iff.mp hc
    rw [adoptTerm_frame] at hprev hget hmerge ⊢
    exact ⟨Int.min_le_right .., hok.log.merged hin hprev hget hmerge⟩
  | appendReply server args reply =>
    simp only [commitCall] at hc
    split at hc
    · obtain ⟨i, hi, he⟩ := Option.map_eq_some_iff.mp hc
      cases he
      exact ⟨(majorityIndex_spec hi).2.1, hok.log⟩
    · exact absurd hc (by simp)
  | _ => exact absurd hc (by simp [commitCall])

end

end Raft

/-! ## The server -/

namespace KVServer

/-- Nothing that the server holds of the log is above the index `b`. -/
structure UpTo (b : Int) (kv : KVServer B) : Prop where
  applied : kv.appliedRaftLogIndex ≤ b
  received : ∀ msg, kv.received = some msg → msg.commandValid = true → msg.commandIndex ≤ b
  snapshots : ∀ p ∈ kv.snapshots, p.1 ≤ b

theorem UpTo.mono {b b' : Int} {kv : KVServer B} (h : UpTo b kv) (hle : b ≤ b') : UpTo b' kv :=
  ⟨Int.le_trans h.applied hle, fun msg hm hv => Int.le_trans (h.received msg hm hv) hle,
    fun p hp => Int.le_trans (h.snapshots p hp) hle⟩

theorem upTo_startKVServer (gob : KVGob B) (snapshot : Option (List B)) {b : Int} (hb : 0 ≤ b) :
    UpTo b (startKVServer gob snapshot) := by
  rw [startKVServer_frame]
  exact ⟨hb, fun msg hm => absurd hm (by simp [blank]),
    fun p hp => absurd hp (by simp [blank])⟩

theorem step_upTo {gob : KVGob B} {kv kv' : KVServer B} {input : KVInput B}
    {out : List KVOutput} {b : Int} (hok : UpTo b kv) (hin : ∀ msg, input ≠ .receive msg)
    (h : Step gob kv input kv' out) : UpTo b kv' := by
  have hnone : ∀ msg : ApplyMsg Op (List B), none = some msg → msg.commandValid = true →
      msg.commandIndex ≤ b := fun msg hm => absurd hm (by simp)
  cases h with
  | receive => exact absurd rfl (hin _)
  | duplicate => exact ⟨hok.applied, hnone, hok.snapshots⟩
  | applied hr hv => exact ⟨hok.received _ hr hv, hnone, hok.snapshots⟩
  | @installed msg hr hv =>
    cases hd : msg.commandData with
    | none => exact ⟨hok.applied, hnone, hok.snapshots⟩
    | some data => exact ⟨hok.applied, hnone, hok.snapshots⟩
  | takeSnapshot =>
    refine ⟨hok.applied, hok.received, fun p hp => ?_⟩
    rcases List.mem_append.mp hp with hp | hp
    · exact hok.snapshots p hp
    · rw [List.mem_singleton.mp hp]
      exact hok.applied
  | _ => exact ⟨hok.applied, hok.received, hok.snapshots⟩

end KVServer

/-! ## A replica -/

namespace Replica

variable {rgob : Labgob Op W} {gob : KVGob B} {s s' : Replica W B}

structure InRange (rgob : Labgob Op W) (s : Replica W B) : Prop where
  durable : s.peer.Durable rgob
  raft : s.peer.raft.InRange
  kv : s.kv.UpTo (s.peer.raft.lastApplied + 1)
  calls : ∀ dst args, .call dst (.appendEntries args) ∈ s.peer.history →
    ∀ e ∈ args.logEntries, e.command ≠ .nil

theorem inRange_init (rgob : Labgob Op W) (gob : KVGob B) (peers me : Nat) :
    (init rgob gob peers me).InRange rgob := by
  refine ⟨Peer.durable_init rgob peers me, ⟨⟨Int.le_refl 0, ?_, ?_, ?_⟩, ?_⟩,
    KVServer.upTo_startKVServer gob none ?_, ?_⟩
  · exact (by decide : (0 : Int) ≤ 0 + 1)
  · exact fun e he => absurd he List.not_mem_nil
  · exact fun he => absurd he (by decide : ¬ (0 : Int) = 0 + 1)
  · exact fun g hg => absurd hg List.not_mem_nil
  · exact (by decide : (0 : Int) ≤ 0 + 1)
  · exact fun dst args hm => absurd hm List.not_mem_nil

variable [DecidableEq B]

theorem InRange.raftStep (hr : rgob.RoundTrip) (h : s.InRange rgob) {input : Input Op (List B)}
    (hin : s.peer.raft.Serves input) (hne : input ≠ .restart)
    (hs : s.raftStep rgob gob input = some s') : s'.InRange rgob := by
  obtain ⟨rf, out, kv, hstep, hkv, rfl⟩ := raftStep_cases hs
  have hd := Peer.durable_step hr h.durable (raftStep_peer hstep)
  have hst := Raft.step_cases hstep
  obtain ⟨hrange, hmono⟩ := Raft.step_inRange h.durable.recovers h.raft hin hst
  have hle : s.peer.raft.lastApplied + 1 ≤ rf.lastApplied + 1 := by
    have := hmono hne
    omega
  have hkv' := h.kv.mono hle
  refine ⟨hd, hrange, ?_, ?_⟩
  · rcases receiveAll_cases hkv with ⟨-, rfl⟩ | ⟨msg, hmsg, -, rfl⟩
    · exact hkv'
    · refine ⟨hkv'.applied, fun m hm hv => ?_, hkv'.snapshots⟩
      cases hm
      have hout : .apply msg ∈ out := by
        have hmem : msg ∈ sentMsgs out := by rw [hmsg]; simp
        obtain ⟨o, ho, he⟩ := List.mem_filterMap.mp hmem
        cases o with
        | apply m => cases he; exact ho
        | _ => exact absurd he (by simp)
      exact Int.le_trans (Raft.step_messages h.raft hst msg hout hv) hle
  · intro dst args hm
    rcases List.mem_append.mp hm with hm | hm
    · exact h.calls dst args hm
    · exact Raft.step_calls_real h.raft hst dst args hm

theorem InRange.step (hr : rgob.RoundTrip) (h : s.InRange rgob) {e : ReplicaEvent B}
    (hraft : ∀ input, e = .raft input → s.peer.raft.Serves input ∧ input ≠ .restart)
    (hkv : ∀ msg, e ≠ .kv (.receive msg)) (hs : s.step rgob gob e = some s') :
    s'.InRange rgob := by
  cases e with
  | raft input =>
    obtain ⟨hin, hne⟩ := hraft input rfl
    exact h.raftStep hr hin hne hs
  | kv input =>
    simp only [Replica.step] at hs
    obtain ⟨⟨kv, out⟩, hstep, rfl⟩ := Option.map_eq_some_iff.mp hs
    refine ⟨h.durable, h.raft, KVServer.step_upTo h.kv ?_ (KVServer.step_cases hstep), h.calls⟩
    rintro msg rfl
    exact hkv msg rfl
  | replaceLog index data =>
    simp only [Replica.step] at hs
    split at hs
    · rename_i hmem
      have hkept : ({ s with kv := { s.kv with snapshots := s.kv.snapshots.erase (index, data) } } :
          Replica W B).InRange rgob :=
        ⟨h.durable, h.raft, ⟨h.kv.applied, h.kv.received,
          fun p hp => h.kv.snapshots p (List.mem_of_mem_erase hp)⟩, h.calls⟩
      have hin : s.peer.raft.Serves (.replaceLogWithSnapshot index (some data)) :=
        h.kv.snapshots _ hmem
      exact hkept.raftStep hr hin (by simp) hs
    · exact absurd hs (by simp)
  | restart =>
    simp only [Replica.step] at hs
    obtain ⟨p, hp, rfl⟩ := Option.map_eq_some_iff.mp hs
    have hd := Peer.durable_step hr h.durable hp
    obtain ⟨⟨rf, out⟩, hstep, rfl⟩ := Option.map_eq_some_iff.mp hp
    have hst := Raft.step_cases hstep
    have hin : s.peer.raft.Serves (.restart : Input Op (List B)) := trivial
    obtain ⟨hrange, -⟩ := Raft.step_inRange h.durable.recovers h.raft hin hst
    have hlog := hrange.log
    refine ⟨hd, hrange, KVServer.upTo_startKVServer gob _ ?_, fun dst args hm => ?_⟩
    · show 0 ≤ rf.lastApplied + 1
      have hnn := hlog.nonneg
      have hle := hlog.le
      omega
    · rcases List.mem_append.mp hm with hm | hm
      · exact h.calls dst args hm
      · exact Raft.step_calls_real h.raft hst dst args hm

end Replica

/-! ## Replicas over a network -/

abbrev Replicas (n : Nat) (W B : Type) := Fin n → Replica W B

/-- An event of the replica `dst`; a message among them comes from `src`. -/
structure ReplicasEvent (n : Nat) (B : Type) where
  src : Fin n
  dst : Fin n
  event : ReplicaEvent B

namespace Replicas

open scoped Cluster

variable {n : Nat}

def init (rgob : Labgob Op W) (gob : KVGob B) (n : Nat) : Replicas n W B :=
  fun i => Replica.init rgob gob n i

/-- Only messages that were sent arrive. Compaction and restart are events of the whole
replica. -/
def Arrives (reps : Replicas n W B) (src dst : Fin n) : Input Op (List B) → Prop
  | .requestVote args => .call dst (.requestVote args) ∈ (reps src).peer.history
  | .appendEntries args => .call dst (.appendEntries args) ∈ (reps src).peer.history
  | .installSnapshot args => .call dst (.installSnapshot args) ∈ (reps src).peer.history
  | .voteReply server _ args reply => server = src.val ∧
    .reply (.requestVote args) (.requestVote reply) ∈ (reps src).peer.history
  | .appendReply server args reply => server = src.val ∧
    .reply (.appendEntries args) (.appendEntries reply) ∈ (reps src).peer.history
  | .snapshotReply server args reply => server = src.val ∧
    .reply (.installSnapshot args) (.installSnapshot reply) ∈ (reps src).peer.history
  | .replaceLogWithSnapshot _ _ | .restart => False
  | _ => True

/-- The service gets its messages from its own Raft peer. -/
def Allowed (reps : Replicas n W B) (src dst : Fin n) : ReplicaEvent B → Prop
  | .raft input => reps.Arrives src dst input
  | .kv (.receive _) => False
  | _ => True

variable [DecidableEq B]

instance (reps : Replicas n W B) (src dst : Fin n) (input : Input Op (List B)) :
    Decidable (reps.Arrives src dst input) :=
  match input with
  | .requestVote _ | .appendEntries _ | .installSnapshot _ => inferInstanceAs (Decidable (_ ∈ _))
  | .voteReply .. | .appendReply .. | .snapshotReply .. => inferInstanceAs (Decidable (_ ∧ _ ∈ _))
  | .replaceLogWithSnapshot .. | .restart => .isFalse id
  | .electionTimer | .heartbeatTimer | .start _ | .resume _ => .isTrue trivial

instance (reps : Replicas n W B) (src dst : Fin n) (e : ReplicaEvent B) :
    Decidable (reps.Allowed src dst e) :=
  match e with
  | .raft input => inferInstanceAs (Decidable (reps.Arrives src dst input))
  | .kv (.receive _) => .isFalse id
  | .kv (.request ..) | .kv (.started ..) | .kv (.timeout ..) | .kv (.resume _) | .kv .apply
  | .kv .takeSnapshot | .replaceLog .. | .restart => .isTrue trivial

def step (rgob : Labgob Op W) (gob : KVGob B) (reps : Replicas n W B) (e : ReplicasEvent n B) :
    Option (Replicas n W B) :=
  if reps.Allowed e.src e.dst e.event then
    ((reps e.dst).step rgob gob e.event).map (Function.update reps e.dst)
  else none

variable {rgob : Labgob Op W} {gob : KVGob B} {reps reps' : Replicas n W B}

omit [DecidableEq B] in
theorem serves_of_arrives (h : ∀ i, (reps i).InRange rgob) {src dst : Fin n}
    {input : Input Op (List B)} (ha : reps.Arrives src dst input) :
    (reps dst).peer.raft.Serves input := by
  cases input with
  | appendEntries args => exact (h src).calls dst args ha
  | replaceLogWithSnapshot => exact absurd ha id
  | _ => trivial

theorem inRange_step (hr : rgob.RoundTrip) (h : ∀ i, (reps i).InRange rgob)
    {e : ReplicasEvent n B} (hs : reps.step rgob gob e = some reps') :
    ∀ i, (reps' i).InRange rgob := by
  unfold step at hs
  split at hs
  · rename_i ha
    obtain ⟨s, hstep, rfl⟩ := Option.map_eq_some_iff.mp hs
    refine (Function.forall_update_iff reps fun _ s => Replica.InRange rgob s).mpr
      ⟨(h e.dst).step hr ?_ ?_ hstep, fun i _ => h i⟩
    · intro input hev
      rw [hev] at ha
      refine ⟨serves_of_arrives h ha, ?_⟩
      rintro rfl
      exact ha
    · intro msg hev
      rw [hev] at ha
      exact ha
  · exact absurd hs (by simp)

/-- The apply slice is always in range: in every reachable state of a replica the snapshot
ends at most one index behind `lastApplied`; and whatever call of `setCommitIndex` comes
next, its value is not above the last index of the log, the call does not panic, and the
entries it hands out are commands. -/
theorem apply_slice_in_range (hr : rgob.RoundTrip) (gob : KVGob B) {es : List (ReplicasEvent n B)}
    (h : Runs.Run (step rgob gob) (fun _ _ => True) (init rgob gob n) es reps) (i : Fin n) :
    (reps i).peer.raft.snapshottedIndex ≤ (reps i).peer.raft.lastApplied + 1 ∧
      ∀ src input r c, reps.Arrives src i input →
        (reps i).peer.raft.commitCall input = some (r, c) →
        c ≤ r.lastLogIndex ∧ (∃ r', r.setCommitIndex c = some r') ∧
        (r.lastApplied < c → ∃ entries, CheckedSlice.slice r.logs
          (r.getRelativeLogIndex (r.lastApplied + 1)) (r.getRelativeLogIndex (c + 1)) =
            some entries ∧ ∀ e ∈ entries, e.command ≠ .nil) := by
  have hinv := h.invariant (fun reps => ∀ i, (reps i).InRange rgob)
    (fun i => Replica.inRange_init rgob gob n i) fun _ _ _ hinv _ hs => inRange_step hr hinv hs
  refine ⟨(hinv i).raft.log.le, fun src input r c ha hc => ?_⟩
  obtain ⟨hle, hlog⟩ := Raft.commitCall_logOk (hinv i).raft (serves_of_arrives hinv ha) hc
  exact ⟨hle, hlog.setCommitIndex hle, hlog.slice hle⟩

/-- Replica 0 leads, commits a command and hands it to its server; the server compacts the
log at this command before Raft records it as applied. -/
def compactedEarly : List (ReplicasEvent 3 KVWord) :=
  [⟨0, 0, .raft .electionTimer⟩, ⟨0, 1, .raft (.requestVote ⟨1, 0, 0, 0⟩)⟩,
    ⟨1, 0, .raft (.voteReply 1 0 ⟨1, 0, 0, 0⟩ ⟨1, true⟩)⟩, ⟨0, 0, .raft (.start Replica.putA)⟩,
    ⟨0, 0, .raft (.resume (.start Replica.putA 1))⟩, ⟨0, 0, .raft (.resume (.heartbeat 1))⟩,
    ⟨0, 1, .raft (.appendEntries ⟨1, 0, 0, 0, [⟨.client Replica.putA, 1⟩], 0⟩)⟩,
    ⟨1, 0, .raft (.appendReply 1 ⟨1, 0, 0, 0, [⟨.client Replica.putA, 1⟩], 0⟩
      { success := true })⟩,
    ⟨0, 0, .raft (.resume (.apply 1 [⟨.client Replica.putA, 1⟩]))⟩, ⟨0, 0, .kv .apply⟩,
    ⟨0, 0, .kv .takeSnapshot⟩,
    ⟨0, 0, .replaceLog 1 ((Store.replay [Replica.putA]).encode KVGob.words)⟩]

theorem apply_slice_in_range_compactedEarly :
    ∃ reps : Replicas 3 (Word Op) KVWord, (reps 0).peer.raft.snapshottedIndex = 1 ∧
      (reps 0).peer.raft.lastApplied = 0 ∧
      (reps 0).peer.raft.snapshottedIndex ≤ (reps 0).peer.raft.lastApplied + 1 := by
  have hexec : (Runs.exec (step (Labgob.words Op) KVGob.words) (fun _ _ => True)
      (init (Labgob.words Op) KVGob.words 3) compactedEarly).map (fun reps =>
        ((reps 0).peer.raft.snapshottedIndex, (reps 0).peer.raft.lastApplied)) = some (1, 0) := by
    decide +kernel
  obtain ⟨reps, hrun, hst⟩ := Runs.run_of_exec_map _ hexec
  exact ⟨reps, congrArg Prod.fst hst, congrArg Prod.snd hst,
    (apply_slice_in_range (Labgob.words_roundTrip Op) KVGob.words hrun 0).1⟩

end Replicas

end DistributionSystem
