import DistributionSystem.KV.Hosted
import DistributionSystem.Raft.Mirror

/-! The log that the servers of the service agree on. The peers, whose snapshots are bytes,
mirror a cluster whose snapshots are lists of entries; the history of leaders of that
cluster gives the log (`Agreed`), what a peer hands to its server is the next op of it or
one before, and a snapshot that a server makes is the one the cluster would make. -/

namespace DistributionSystem

open LeaderLog

variable {n : Nat} {W B : Type}

/-! ## Entries and ops -/

def Command.op? : Command Op → Option Op
  | .client op => some op
  | .nil | .installSnapshot => none

/-- The ops of some entries. -/
def entryOps (es : List (LogEntry Op)) : List Op := (es.map LogEntry.command).filterMap Command.op?

/-- The snapshot of a server that has applied these entries. -/
def snapshotData (gob : KVGob B) (es : List (LogEntry Op)) : List B :=
  (Store.replay (entryOps es)).encode gob

theorem entryOps_eq {es : List (LogEntry Op)} {log : List Op}
    (h : es.map LogEntry.command = log.map .client) : entryOps es = log := by
  unfold entryOps
  rw [h, List.filterMap_map]
  exact List.filterMap_some

/-- The entry holds an op that a clerk has issued. -/
def Known (history : List Stamped) (e : LogEntry Op) : Prop :=
  ∃ op, e.command = .client op ∧ Issued history op

theorem Known.mono {history new : List Stamped} {e : LogEntry Op} (h : Known history e) :
    Known (history ++ new) e := by
  obtain ⟨op, hc, hi⟩ := h
  exact ⟨op, hc, hi.mono⟩

/-! ## The log of the history of leaders -/

/-- The leaders have committed the ops of `log`, in this order. -/
def Agreed (A : Ledger n Op) (log : List Op) : Prop :=
  ∃ t l, Com LogEntry.term A t l ∧ log.map .client <+: l.map LogEntry.command

theorem agreed_nil (A : Ledger n Op) : Agreed A [] :=
  ⟨0, [], Or.inl rfl, List.nil_prefix⟩

theorem prefix_concat {α : Type} {xs ys : List α} {y : α} (h : xs <+: ys)
    (hy : ys[xs.length]? = some y) : xs ++ [y] <+: ys := by
  rw [List.prefix_iff_eq_take.mp h, ← Option.toList_some, ← hy, ← List.take_add_one]
  exact List.take_prefix _ _

namespace Agreed

variable {A A' : Ledger n Op} {log : List Op}

theorem mono (h : Agreed A log) (hx : Extends A A') : Agreed A' log := by
  obtain ⟨t, l, hc, hp⟩ := h
  exact ⟨t, l, hc.mono hx, hp⟩

/-- What is committed goes on from the log, or is a part of it. -/
theorem exists_com (hs : Sound LogEntry.term A) (h : Agreed A log) {t : Int}
    {l : List (LogEntry Op)} (hc : Com LogEntry.term A t l) :
    ∃ t' m, Com LogEntry.term A t' m ∧ l <+: m ∧ log.map .client <+: m.map LogEntry.command := by
  obtain ⟨t₀, l₀, hc₀, hp₀⟩ := h
  rcases com_comparable hs hc₀ hc with hp | hp
  · exact ⟨t, l, hc, List.prefix_refl l, hp₀.trans (hp.map _)⟩
  · exact ⟨t₀, l₀, hc₀, hp, hp₀⟩

/-- The committed entries up to an index of the log hold the ops of the log. -/
theorem entryOps_take (hs : Sound LogEntry.term A) (h : Agreed A log) {t : Int}
    {l : List (LogEntry Op)} (hc : Com LogEntry.term A t l) {k : Nat} (hk : k ≤ log.length)
    (hl : k ≤ l.length) : entryOps (l.take k) = log.take k := by
  obtain ⟨-, m, -, hlm, hm⟩ := h.exists_com hs hc
  refine entryOps_eq ?_
  have htake : ∀ {xs ys : List (Command Op)}, xs <+: ys → k ≤ xs.length → xs.take k = ys.take k := by
    rintro xs - ⟨r, rfl⟩ hle
    rw [List.take_append_of_le_length hle]
  rw [List.map_take, List.map_take, htake (hlm.map _) (by simpa using hl),
    htake hm (by simpa using hk)]

/-- An entry that a leader has committed is in the log, or it is the next one. -/
theorem entry (hs : Sound LogEntry.term A) (h : Agreed A log) {index : Int} {e : LogEntry Op}
    {op : Op} (he : Handed A index [e]) (hop : e.command = .client op)
    (hle : index ≤ log.length + 1) :
    log[index.toNat - 1]? = some op ∨
      (log[index.toNat - 1]? = none ∧ (log ++ [op])[index.toNat - 1]? = some op ∧
        Agreed A (log ++ [op])) := by
  have hpos := he.1
  obtain ⟨t, l, hc, hget⟩ := he.get
  obtain ⟨t', m, hcm, hlm, hm⟩ := h.exists_com hs hc
  obtain ⟨-, hget⟩ := CheckedSlice.get_eq_some (CheckedSlice.get_mono hlm hget)
  have hcom : (m.map LogEntry.command)[index.toNat - 1]? = some (.client op) := by
    rw [List.getElem?_map, show index.toNat - 1 = (index - 1).toNat by omega, hget]
    exact congrArg some hop
  by_cases hlt : index.toNat - 1 < log.length
  · left
    obtain ⟨r, hr⟩ := hm
    rw [← hr, List.getElem?_append_left (by simpa using hlt), List.getElem?_map] at hcom
    obtain ⟨op', hop', heq⟩ := Option.map_eq_some_iff.mp hcom
    cases heq
    exact hop'
  · right
    have hlen : index.toNat - 1 = log.length := by omega
    rw [hlen] at hcom ⊢
    refine ⟨List.getElem?_eq_none (Nat.le_refl _), List.getElem?_concat_length .., t', m, hcm, ?_⟩
    rw [List.map_append]
    exact prefix_concat hm (by rw [List.length_map]; exact hcom)

end Agreed

/-! ## The peers -/

/-- The messages of a step on `applyCh` come from `setCommitIndex` or from `InstallSnapshot`. -/
theorem Raft.step_applies {C D : Type} [DecidableEq C] [DecidableEq D] {gob : Labgob C W}
    {rf rf' : Raft C D W} {input : Input C D} {out : List (Output C D)}
    (h : Raft.Step gob rf input rf' out) {msg : ApplyMsg C D} (hm : .apply msg ∈ out) :
    (∃ index e entries, input = .resume (.apply index (e :: entries)) ∧
      msg = Raft.commandMsg index e ∧ index ∈ rf'.delivered) ∨
    (input = .resume (.install msg) ∧ .install msg ∈ rf.goroutines) := by
  cases h with
  | electionTimer => simp at hm
  | snapshot => simp at hm
  | @apply index e entries _ =>
    cases List.mem_singleton.mp hm
    exact Or.inl ⟨index, e, entries, rfl, rfl, List.mem_cons_self⟩
  | install hg =>
    cases List.mem_singleton.mp hm
    exact Or.inr ⟨rfl, hg⟩
  | refuseTerm | refuseLog | grant | appendOld | append | snapshotOld | elected | heartbeat | sync
  | replaced => cases List.mem_singleton.mp hm
  | _ => exact absurd hm List.not_mem_nil

variable [DecidableEq B]

structure PeersOk (rgob : Labgob Op W) (gob : KVGob B) (peers : Fin n → Peer Op (List B) W)
    (cl : Cluster n Op W) (A : Ledger n Op) (history : List Stamped) : Prop where
  mirrors : Mirrors rgob (snapshotData gob) peers cl A
  durable : ∀ i, (peers i).Durable rgob
  only : ∀ i, (peers i).raft.Only (Known history)
  shows : ∀ i, ∀ o ∈ (peers i).history, Raft.Shows (Known history) o

namespace PeersOk

variable {rgob : Labgob Op W} {gob : KVGob B} {peers : Fin n → Peer Op (List B) W}
  {cl : Cluster n Op W} {A : Ledger n Op} {history : List Stamped}

omit [DecidableEq B] in
theorem init (rgob : Labgob Op W) (gob : KVGob B) (n : Nat) :
    PeersOk rgob gob (fun i : Fin n => Peer.init rgob n i) (Cluster.init rgob n)
      (LeaderLog.init (Fin n) (LogEntry Op)) [] := by
  refine ⟨Mirrors.init rgob _ n, fun i => Peer.durable_init rgob n i, fun i => ?_, fun i o ho => ?_⟩
  · refine ⟨(by decide : (0 : Int) ≤ 0 + 1), ?_, ?_, ?_⟩
    · exact fun e he => absurd he List.not_mem_nil
    · exact fun he => absurd he (by decide : ¬ (0 : Int) = 0 + 1)
    · exact fun g hg => absurd hg List.not_mem_nil
  · exact absurd ho List.not_mem_nil

omit [DecidableEq B] in
theorem mono (h : PeersOk rgob gob peers cl A history) (new : List Stamped) :
    PeersOk rgob gob peers cl A (history ++ new) :=
  ⟨h.mirrors, h.durable, fun i => (h.only i).mono fun _ => Known.mono,
    fun i o ho => (h.shows i o ho).mono fun _ => Known.mono⟩

theorem step (hr : rgob.RoundTrip) (h : PeersOk rgob gob peers cl A history) {src dst : Fin n}
    {input : Input Op (List B)} {rf : Raft Op (List B) W} {out : List (Output Op (List B))}
    (hs : (peers dst).raft.step rgob input = some (rf, out))
    (ha : Mirrored (snapshotData gob) peers cl src dst input)
    (ht : (peers dst).raft.TimelyElection input) (hc : (peers dst).raft.Careful input)
    (hb : (peers dst).raft.Brings (Known history) input) :
    ∃ cl' A', Extends A A' ∧ PeersOk rgob gob
      (Function.update peers dst ⟨rf, (peers dst).history ++ out⟩) cl' A' history := by
  obtain ⟨rf', out', A', -, -, hx, hm⟩ := h.mirrors.step hr hs ha ht hc
  have hst := Raft.step_cases hs
  have hp : (peers dst).step rgob input = some ⟨rf, (peers dst).history ++ out⟩ := by
    unfold Peer.step
    rw [hs]
    rfl
  refine ⟨_, A', hx, hm, ?_, ?_, ?_⟩
  · exact (Function.forall_update_iff peers fun _ p => p.Durable rgob).mpr
      ⟨Peer.durable_step hr (h.durable dst) hp, fun i _ => h.durable i⟩
  · exact (Function.forall_update_iff peers fun _ p => p.raft.Only (Known history)).mpr
      ⟨Raft.step_only (h.durable dst).recovers (h.only dst) hb hst, fun i _ => h.only i⟩
  · refine (Function.forall_update_iff peers fun _ p =>
      ∀ o ∈ p.history, Raft.Shows (Known history) o).mpr ⟨fun o ho => ?_, fun i _ => h.shows i⟩
    rcases List.mem_append.mp ho with ho | ho
    · exact h.shows dst o ho
    · exact Raft.step_shows (h.only dst) hst o ho

omit [DecidableEq B] in
/-- A message for a command carries an op that a clerk has issued and a leader committed. -/
theorem handed (h : PeersOk rgob gob peers cl A history) {i : Fin n} {msg : ApplyMsg Op (List B)}
    (hm : .apply msg ∈ (peers i).history) (hv : msg.commandValid = true) :
    ∃ e op, Handed A msg.commandIndex [e] ∧ e.command = .client op ∧ msg.command = .client op ∧
      Issued history op := by
  obtain ⟨e₀, ⟨op, hop, hi⟩, hc₀⟩ := h.shows i _ hm hv
  rw [h.mirrors.peers] at hm
  obtain ⟨o, ho, heq⟩ := List.mem_map.mp hm
  cases o with
  | apply msg' =>
    cases heq
    obtain ⟨e, he, hc⟩ := h.mirrors.refines.sent i _ ho hv
    have hcommand : e.command = .client op := hc.symm.trans (hc₀.trans hop)
    exact ⟨e, op, he, hcommand, hc₀.trans hop, hi⟩
  | _ => exact absurd heq (by simp [Output.mapData])

omit [DecidableEq B] in
/-- A snapshot of the log at an index that a server was handed is one of the cluster. -/
theorem mirrored_snapshot (h : PeersOk rgob gob peers cl A history) {log : List Op}
    (ha : Agreed A log) {i : Fin n} {index : Int} (hd : index ∈ (peers i).raft.delivered)
    (hle : index ≤ log.length) :
    index ∈ (cl i).raft.delivered ∧
      (Store.replay (log.take index.toNat)).encode gob =
        snapshotData gob ((cl i).raft.snapshotAt index) := by
  rw [h.mirrors.peers] at hd
  have hd' : index ∈ (cl i).raft.delivered := hd
  have hp := h.mirrors.refines.peer i
  have hcommit := (hp.indices.delivered_le index hd').2
  have hlen := hp.indices.commit_le
  refine ⟨hd', ?_⟩
  unfold snapshotData Raft.snapshotAt
  have htake := ha.entryOps_take h.mirrors.refines.sound hp.com (show index.toNat ≤ log.length by omega)
    (by rw [List.length_take]; omega)
  rw [List.take_take, Nat.min_eq_left (by omega)] at htake
  rw [htake]

omit [DecidableEq B] in
/-- The index of a command that a server was handed is not above the next one to record. -/
theorem delivered_le (h : PeersOk rgob gob peers cl A history) {i : Fin n} {index : Int}
    (hd : index ∈ (peers i).raft.delivered) : index ≤ (peers i).raft.lastApplied + 1 := by
  rw [h.mirrors.peers] at hd ⊢
  exact ((h.mirrors.refines.peer i).indices.delivered_le index hd).1

end PeersOk

end DistributionSystem
