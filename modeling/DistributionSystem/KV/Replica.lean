import DistributionSystem.Raft.Durable
import DistributionSystem.KV.Step

/-! One replica: a Raft peer with the key/value server on top of it. The messages that
Raft sends on `applyCh` are received by the server's apply loop, `takeSnapshot` passes
what it has read to `ReplaceLogWithSnapshot`, and a restart runs `Make` and
`StartKVServer` on the persister. -/

namespace DistributionSystem

structure Replica (W B : Type) where
  peer : Peer Op (List B) W
  kv : KVServer B
  /-- The index up to which the server has taken in the log: the largest one it was
  handed, or the label of the snapshot it started with. -/
  fed : Int

inductive ReplicaEvent (B : Type) where
  | raft (input : Input Op (List B))
  | kv (input : KVInput B)
  /-- `takeSnapshot` calls `ReplaceLogWithSnapshot`. -/
  | replaceLog (index : Int) (data : List B)
  | restart

namespace Replica

variable {W B : Type}

def init (rgob : Labgob Op W) (gob : KVGob B) (peers me : Nat) : Replica W B :=
  ⟨Peer.init rgob peers me, KVServer.startKVServer gob none, 0⟩

/-- What a step of Raft sends on `applyCh`. -/
def sentMsgs (out : List (Output Op (List B))) : List (ApplyMsg Op (List B)) :=
  out.filterMap fun
    | .apply msg => some msg
    | _ => none

/-- The apply loop takes the messages one after the other. -/
def receiveAll (gob : KVGob B) (kv : KVServer B) (msgs : List (ApplyMsg Op (List B))) :
    Option (KVServer B) :=
  msgs.foldlM (fun kv msg => (kv.step gob (.receive msg)).map Prod.fst) kv

def fedAfter (s : Replica W B) : KVInput B → Int
  | .apply => (s.kv.received.map fun msg => max s.fed msg.commandIndex).getD s.fed
  | _ => s.fed

variable [DecidableEq B]

def raftStep (rgob : Labgob Op W) (gob : KVGob B) (s : Replica W B)
    (input : Input Op (List B)) : Option (Replica W B) :=
  (s.peer.raft.step rgob input).bind fun r =>
    (receiveAll gob s.kv (sentMsgs r.2)).map fun kv =>
      { s with peer := ⟨r.1, s.peer.history ++ r.2⟩, kv := kv }

def step (rgob : Labgob Op W) (gob : KVGob B) (s : Replica W B) :
    ReplicaEvent B → Option (Replica W B)
  | .raft input => s.raftStep rgob gob input
  | .kv input => (s.kv.step gob input).map fun r => { s with kv := r.1, fed := s.fedAfter input }
  | .replaceLog index data =>
    if (index, data) ∈ s.kv.snapshots then
      { s with kv := { s.kv with snapshots := s.kv.snapshots.erase (index, data) } }.raftStep
        rgob gob (.replaceLogWithSnapshot index (some data))
    else none
  | .restart => (s.peer.step rgob .restart).map fun peer =>
      ⟨peer, KVServer.startKVServer gob peer.raft.persister.snapshot, peer.raft.snapshottedIndex⟩

/-! ## Steps -/

variable {rgob : Labgob Op W} {gob : KVGob B} {s s' : Replica W B}

omit [DecidableEq B] in
theorem receiveAll_cases {kv kv' : KVServer B} {msgs : List (ApplyMsg Op (List B))}
    (h : receiveAll gob kv msgs = some kv') : (msgs = [] ∧ kv' = kv) ∨
      ∃ msg, msgs = [msg] ∧ kv.received = none ∧ kv' = { kv with received := some msg } := by
  unfold receiveAll at h
  cases msgs with
  | nil => exact Or.inl ⟨rfl, (Option.some.inj h).symm⟩
  | cons msg msgs =>
    rw [List.foldlM_cons] at h
    obtain ⟨kv₁, hfirst, h⟩ := Option.bind_eq_some_iff.mp h
    obtain ⟨⟨kv₂, out⟩, hstep, rfl⟩ := Option.map_eq_some_iff.mp hfirst
    cases KVServer.step_cases hstep with
    | receive hr =>
      cases msgs with
      | nil => exact Or.inr ⟨msg, rfl, hr, (Option.some.inj h).symm⟩
      | cons msg' msgs => exact absurd h (by simp [KVServer.step])

theorem raftStep_cases {input : Input Op (List B)} (h : s.raftStep rgob gob input = some s') :
    ∃ rf out kv, s.peer.raft.step rgob input = some (rf, out) ∧
      receiveAll gob s.kv (sentMsgs out) = some kv ∧
      s' = { s with peer := ⟨rf, s.peer.history ++ out⟩, kv := kv } := by
  obtain ⟨⟨rf, out⟩, hr, h⟩ := Option.bind_eq_some_iff.mp h
  obtain ⟨kv, hkv, rfl⟩ := Option.map_eq_some_iff.mp h
  exact ⟨rf, out, kv, hr, hkv, rfl⟩

theorem raftStep_peer {input : Input Op (List B)} {rf : Raft Op (List B) W}
    {out : List (Output Op (List B))} (h : s.peer.raft.step rgob input = some (rf, out)) :
    s.peer.step rgob input = some ⟨rf, s.peer.history ++ out⟩ := by
  unfold Peer.step
  rw [h]
  rfl

/-! ## Taking in the log -/

/-- The message is for an index of `log` that the server has taken in, or for the next. -/
def Fed (log : List Op) (fed : Int) (msg : ApplyMsg Op (List B)) : Prop :=
  0 < msg.commandIndex ∧ msg.commandIndex ≤ fed + 1 ∧
    (log[msg.commandIndex.toNat - 1]?).map (entryMsg msg.commandIndex) = some msg

instance (log : List Op) (fed : Int) (msg : ApplyMsg Op (List B)) : Decidable (Fed log fed msg) :=
  inferInstanceAs (Decidable (_ ∧ _ ∧ _))

omit [DecidableEq B] in
theorem Fed.entry {log : List Op} {fed : Int} {msg : ApplyMsg Op (List B)} (h : Fed log fed msg) :
    ∃ op, log[msg.commandIndex.toNat - 1]? = some op ∧ msg = entryMsg msg.commandIndex op := by
  obtain ⟨op, hop, hmsg⟩ := Option.map_eq_some_iff.mp h.2.2
  exact ⟨op, hop, hmsg.symm⟩

omit [DecidableEq B] in
theorem Fed.op {log : List Op} {fed : Int} {msg : ApplyMsg Op (List B)} {op : Op}
    (h : Fed log fed msg) (hc : msg.command = .client op) :
    log[msg.commandIndex.toNat - 1]? = some op := by
  obtain ⟨op', hop, hmsg⟩ := h.entry
  rw [hmsg] at hc
  cases hc
  exact hop

omit [DecidableEq B] in
/-- An entry that was taken in before is a duplicate, and the next one leads to the state
behind it. -/
theorem apply_fed {log : List Op} {fed index : Int} {op : Op} (hfed : 0 ≤ fed) (hpos : 0 < index)
    (hle : index ≤ fed + 1) (hop : log[index.toNat - 1]? = some op) :
    (Store.replay (log.take fed.toNat)).apply op =
      Store.replay (log.take (max fed index).toNat) := by
  by_cases hold : index ≤ fed
  · rw [Int.max_eq_left hold]
    exact Store.apply_of_duplicate (Store.duplicate_of_lt hop (by omega))
  · have hnext : (max fed index).toNat = fed.toNat + 1 := by omega
    have hk : index.toNat - 1 = fed.toNat := by omega
    rw [hnext, Store.replay_take_succ (hk ▸ hop)]

/-! ## Redelivery and recovery -/

/-- Raft accepts no snapshot from another peer; its snapshots and restarts are events of
their own. -/
def Local : Input Op (List B) → Prop
  | .installSnapshot _ | .replaceLogWithSnapshot _ _ | .restart => False
  | _ => True

instance (input : Input Op (List B)) : Decidable (Local input) :=
  match input with
  | .installSnapshot _ | .replaceLogWithSnapshot _ _ | .restart => .isFalse id
  | .electionTimer | .heartbeatTimer | .requestVote _ | .appendEntries _ | .voteReply ..
  | .appendReply .. | .snapshotReply .. | .start _ | .resume _ => .isTrue trivial

/-- The messages that a step of Raft would send. -/
def sends (rgob : Labgob Op W) (s : Replica W B) (input : Input Op (List B)) :
    List (ApplyMsg Op (List B)) :=
  ((s.peer.raft.step rgob input).map fun r => sentMsgs r.2).getD []

/-- The server is handed entries of `log` only, each for the first time after all those
before it. -/
def Feeds (rgob : Labgob Op W) (log : List Op) (s : Replica W B) : ReplicaEvent B → Prop
  | .raft input => Local input ∧ ∀ msg ∈ s.sends rgob input, Fed log s.fed msg
  | .kv (.receive msg) => Fed log s.fed msg
  | _ => True

instance (log : List Op) (s : Replica W B) (e : ReplicaEvent B) :
    Decidable (s.Feeds rgob log e) :=
  match e with
  | .raft _ => inferInstanceAs (Decidable (_ ∧ _))
  | .kv (.receive msg) => inferInstanceAs (Decidable (Fed log s.fed msg))
  | .kv (.request ..) | .kv (.started ..) | .kv (.timeout ..) | .kv (.resume _) | .kv .apply
  | .kv .takeSnapshot | .replaceLog .. | .restart => .isTrue trivial

/-- The snapshot is the state behind the first `index` entries of the log. -/
def SnapshotOf (gob : KVGob B) (log : List Op) (index : Int) (data : List B) : Prop :=
  data = (Store.replay (log.take index.toNat)).encode gob

/-- What holds of the server, its snapshots and the persister. A label that is not above
`snapshottedIndex` is never used. -/
structure Recoverable (rgob : Labgob Op W) (gob : KVGob B) (log : List Op) (s : Replica W B) :
    Prop where
  durable : s.peer.Durable rgob
  nonneg : 0 ≤ s.fed ∧ 0 ≤ s.peer.raft.snapshottedIndex
  store : s.kv.toStore = Store.replay (log.take s.fed.toNat)
  received : ∀ msg, s.kv.received = some msg → Fed log s.fed msg
  label : s.peer.raft.snapshottedIndex < s.kv.appliedRaftLogIndex →
    s.kv.toStore = Store.replay (log.take s.kv.appliedRaftLogIndex.toNat)
  pending : ∀ p ∈ s.kv.snapshots, s.peer.raft.snapshottedIndex < p.1 → SnapshotOf gob log p.1 p.2
  saved : (s.peer.raft.snapshottedIndex = 0 ∧ s.peer.raft.persister.snapshot = none) ∨
    ∃ data, s.peer.raft.persister.snapshot = some data ∧
      SnapshotOf gob log s.peer.raft.snapshottedIndex data

/-- A step of Raft that saves no snapshot keeps the one there is. -/
theorem snapshot_kept {rf rf' : Raft Op (List B) W} {input : Input Op (List B)}
    {out : List (Output Op (List B))} (h : Raft.Step rgob rf input rf' out)
    (hrec : rf.Recovers rgob) (hsaves : saves out = []) :
    rf'.snapshottedIndex = rf.snapshottedIndex ∧
      rf'.persister.snapshot = rf.persister.snapshot := by
  cases Raft.step_disk h with
  | same hd _ =>
    simp only [Raft.disk, Prod.mk.injEq] at hd
    exact ⟨hd.2.2.2.2.2.1, by rw [hd.1]⟩
  | state hp hi _ => exact ⟨hi, by rw [hp]⟩
  | snapshot _ hs => exact absurd (hs.symm.trans hsaves) (by simp)
  | restart hr _ =>
    rw [hr]
    exact ⟨hrec.2.2.1, by rw [Raft.make_persister]⟩

theorem saves_of_local {rf rf' : Raft Op (List B) W} {input : Input Op (List B)}
    {out : List (Output Op (List B))} (h : Raft.Step rgob rf input rf' out) (hl : Local input) :
    saves out = [] := by
  cases h with
  | snapshotOld | snapshot | replaceIgnored | replaced | restart => exact absurd hl id
  | electionTimer => exact saves_calls _ _
  | _ => rfl

namespace Recoverable

variable {log : List Op}

omit [DecidableEq B] in
theorem peer (h : s.Recoverable rgob gob log) {p : Peer Op (List B) W} (hd : p.Durable rgob)
    (hi : p.raft.snapshottedIndex = s.peer.raft.snapshottedIndex)
    (hs : p.raft.persister.snapshot = s.peer.raft.persister.snapshot) :
    ({ s with peer := p } : Replica W B).Recoverable rgob gob log := by
  obtain ⟨-, hnn, hstore, hrec, hlabel, hpend, hsaved⟩ := h
  rw [← hi] at hnn hlabel hpend hsaved
  rw [← hs] at hsaved
  exact ⟨hd, hnn, hstore, hrec, hlabel, hpend, hsaved⟩

omit [DecidableEq B] in
theorem receive (h : s.Recoverable rgob gob log) {msg : ApplyMsg Op (List B)}
    (hm : Fed log s.fed msg) : ({ s with kv := { s.kv with received := some msg } } :
      Replica W B).Recoverable rgob gob log := by
  refine ⟨h.durable, h.nonneg, h.store, fun m hm' => ?_, h.label, h.pending, h.saved⟩
  cases hm'
  exact hm

theorem raftStep (hr : rgob.RoundTrip) (h : s.Recoverable rgob gob log)
    {input : Input Op (List B)} (hl : Local input)
    (hm : ∀ msg ∈ s.sends rgob input, Fed log s.fed msg)
    (hs : s.raftStep rgob gob input = some s') : s'.Recoverable rgob gob log := by
  obtain ⟨rf, out, kv, hstep, hkv, rfl⟩ := raftStep_cases hs
  have hd := Peer.durable_step hr h.durable (raftStep_peer hstep)
  have hst := Raft.step_cases hstep
  obtain ⟨hi, hsnap⟩ := snapshot_kept hst h.durable.recovers (saves_of_local hst hl)
  have hp := h.peer hd hi hsnap
  rcases receiveAll_cases hkv with ⟨-, rfl⟩ | ⟨msg, hmsg, -, rfl⟩
  · exact hp
  · refine hp.receive (hm msg ?_)
    unfold sends
    rw [hstep]
    simp [hmsg]

omit [DecidableEq B] in
theorem kvStep (h : s.Recoverable rgob gob log) {input : KVInput B} {kv : KVServer B}
    {out : List KVOutput} (hm : ∀ msg, input = .receive msg → Fed log s.fed msg)
    (hs : KVServer.Step gob s.kv input kv out) :
    ({ s with kv := kv, fed := s.fedAfter input } : Replica W B).Recoverable rgob gob log := by
  cases hs with
  | request | refused | started | timeout | register | notified | finished | finishedGet | read =>
    exact ⟨h.durable, h.nonneg, h.store, h.received, h.label, h.pending, h.saved⟩
  | receive => exact h.receive (hm _ rfl)
  | takeSnapshot =>
    refine ⟨h.durable, h.nonneg, h.store, h.received, h.label, fun p hp hlt => ?_, h.saved⟩
    rcases List.mem_append.mp hp with hp | hp
    · exact h.pending p hp hlt
    · rw [List.mem_singleton] at hp
      subst hp
      exact congrArg (Store.encode gob) (h.label hlt)
  | @duplicate msg op hr hv hc hd =>
    obtain ⟨hpos, hle, -⟩ := h.received msg hr
    have hfed : s.fedAfter .apply = max s.fed msg.commandIndex := by rw [fedAfter, hr]; rfl
    have happ := apply_fed h.nonneg.1 hpos hle ((h.received msg hr).op hc)
    rw [← h.store, Store.apply_of_duplicate hd] at happ
    rw [hfed]
    exact ⟨h.durable, ⟨by show 0 ≤ max s.fed _; omega, h.nonneg.2⟩, happ,
      fun _ hm => absurd hm (by simp), h.label, h.pending, h.saved⟩
  | @applied msg op channels hr hv hc hd =>
    obtain ⟨hpos, hle, -⟩ := h.received msg hr
    have hop := (h.received msg hr).op hc
    have hfed : s.fedAfter .apply = max s.fed msg.commandIndex := by rw [fedAfter, hr]; rfl
    have happ := apply_fed h.nonneg.1 hpos hle hop
    -- an entry that is no duplicate was not taken in before
    have hnew : s.fed < msg.commandIndex := by
      by_contra hold
      rw [h.store] at hd
      exact hd (Store.duplicate_of_lt hop (by have := h.nonneg.1; omega))
    have hexec : s.kv.execute op = Store.replay (log.take (max s.fed msg.commandIndex).toNat) := by
      rw [← happ, ← h.store]
      unfold Store.apply
      rw [if_neg hd]
    rw [hfed]
    refine ⟨h.durable, ⟨by show 0 ≤ max s.fed _; omega, h.nonneg.2⟩, hexec,
      fun _ hm => absurd hm (by simp), fun _ => ?_, h.pending, h.saved⟩
    rw [Int.max_eq_right (Int.le_of_lt hnew)] at hexec
    exact hexec
  | @installed msg hr hv =>
    obtain ⟨op, -, hmsg⟩ := (h.received msg hr).entry
    rw [hmsg] at hv
    exact absurd hv (by simp [entryMsg])

theorem replaceLog (hr : rgob.RoundTrip) (h : s.Recoverable rgob gob log) {index : Int}
    {data : List B} (hs : s.step rgob gob (.replaceLog index data) = some s') :
    s'.Recoverable rgob gob log := by
  simp only [step] at hs
  split at hs
  · rename_i hmem
    obtain ⟨rf, out, kv, hstep, hkv, rfl⟩ := raftStep_cases hs
    have hd := Peer.durable_step hr h.durable (raftStep_peer hstep)
    have hpend : ∀ p ∈ s.kv.snapshots.erase (index, data),
        s.peer.raft.snapshottedIndex < p.1 → SnapshotOf gob log p.1 p.2 :=
      fun p hp => h.pending p (List.mem_of_mem_erase hp)
    cases Raft.step_cases hstep with
    | replaceIgnored =>
      obtain ⟨-, rfl⟩ | ⟨_, hmsg, -⟩ := receiveAll_cases hkv
      · exact ⟨hd, h.nonneg, h.store, h.received, h.label, hpend, h.saved⟩
      · exact absurd hmsg (by simp [sentMsgs])
    | replaced hindex hlogs =>
      obtain ⟨-, rfl⟩ | ⟨_, hmsg, -⟩ := receiveAll_cases hkv
      · have hindex' : s.peer.raft.snapshottedIndex < index := hindex
        have hsnap := h.pending _ hmem hindex
        exact ⟨hd, ⟨h.nonneg.1, Int.le_trans h.nonneg.2 (Int.le_of_lt hindex')⟩, h.store, h.received,
          fun hlt => h.label (Int.lt_trans hindex hlt),
          fun p hp hlt => hpend p hp (Int.lt_trans hindex hlt), Or.inr ⟨data, rfl, hsnap⟩⟩
      · exact absurd hmsg (by simp [sentMsgs])
  · exact absurd hs (by simp)

theorem restart (hr : rgob.RoundTrip) (hg : gob.RoundTrip) (h : s.Recoverable rgob gob log)
    (hs : s.step rgob gob .restart = some s') : s'.Recoverable rgob gob log := by
  simp only [step] at hs
  obtain ⟨p, hp, rfl⟩ := Option.map_eq_some_iff.mp hs
  have hd := Peer.durable_step hr h.durable hp
  obtain ⟨⟨rf, out⟩, hstep, rfl⟩ := Option.map_eq_some_iff.mp hp
  have hst := Raft.step_cases hstep
  have hsaves : saves out = [] := by cases hst; rfl
  obtain ⟨hi, hsnap⟩ := snapshot_kept hst h.durable.recovers hsaves
  have hi' : rf.snapshottedIndex = s.peer.raft.snapshottedIndex := hi
  have hsaved := h.saved
  rw [← hi, ← hsnap] at hsaved
  have hnn : 0 ≤ rf.snapshottedIndex := by have := h.nonneg.2; omega
  have hstore : (KVServer.startKVServer gob rf.persister.snapshot).toStore =
      Store.replay (log.take rf.snapshottedIndex.toNat) := by
    rcases hsaved with ⟨hz, hnone⟩ | ⟨data, hdata, hof⟩
    · have hz' : rf.snapshottedIndex = 0 := hz
      rw [hnone, hz']
      rfl
    · rw [hdata, hof]
      show Store.decode gob Store.empty _ = _
      rw [Store.decode_encode hg, Store.overlay_of_covers (Store.covers_empty _)]
  refine ⟨hd, ⟨hnn, hnn⟩, hstore, ?_, ?_, ?_, hsaved⟩
  · intro msg hm
    rw [KVServer.startKVServer_frame] at hm
    exact absurd hm (by simp [KVServer.blank])
  · intro hlt
    rw [KVServer.startKVServer_frame] at hlt
    exact absurd hlt (Int.not_lt.mpr hnn)
  · intro p hp
    rw [KVServer.startKVServer_frame] at hp
    exact absurd hp (by simp [KVServer.blank])

theorem step (hr : rgob.RoundTrip) (hg : gob.RoundTrip) (h : s.Recoverable rgob gob log)
    {e : ReplicaEvent B} (hf : s.Feeds rgob log e) (hs : s.step rgob gob e = some s') :
    s'.Recoverable rgob gob log := by
  cases e with
  | raft input => exact h.raftStep hr hf.1 hf.2 hs
  | kv input =>
    simp only [Replica.step] at hs
    obtain ⟨⟨kv, out⟩, hkv, rfl⟩ := Option.map_eq_some_iff.mp hs
    refine h.kvStep (fun msg hin => ?_) (KVServer.step_cases hkv)
    subst hin
    exact hf
  | replaceLog => exact h.replaceLog hr hs
  | restart => exact h.restart hr hg hs

omit [DecidableEq B] in
theorem init (rgob : Labgob Op W) (gob : KVGob B) (log : List Op) (peers me : Nat) :
    (Replica.init rgob gob peers me).Recoverable rgob gob log := by
  refine ⟨Peer.durable_init rgob peers me, ⟨Int.le_refl 0, Int.le_refl 0⟩, rfl, ?_, ?_, ?_,
    Or.inl ⟨rfl, rfl⟩⟩
  · exact fun _ hm => absurd hm (by simp [Replica.init, KVServer.startKVServer,
      KVServer.installSnapshot, KVServer.blank])
  · exact fun hlt => absurd hlt (Int.lt_irrefl 0)
  · exact fun p hp => absurd hp (by simp [Replica.init, KVServer.startKVServer,
      KVServer.installSnapshot, KVServer.blank])

end Recoverable

/-- Redelivery and recovery are invisible: whatever was repeated, saved and reloaded, the
maps are those of the log up to the last index taken in. -/
theorem recovered_state (hr : rgob.RoundTrip) (hg : gob.RoundTrip) (log : List Op) (peers me : Nat)
    {es : List (ReplicaEvent B)}
    (h : Runs.Run (step rgob gob) (Feeds rgob log) (init rgob gob peers me) es s) :
    s.kv.toStore = Store.replay (log.take s.fed.toNat) := by
  have hinv := h.invariant (Recoverable rgob gob log) (Recoverable.init rgob gob log peers me)
    fun _ _ _ hs hf hst => hs.step hr hg hf hst
  exact hinv.store

def putA : Op := ⟨"x", "a", .put, 1, 1⟩

def appendB : Op := ⟨"x", "b", .append, 1, 2⟩

/-- The server takes in the first entry and saves a snapshot of it, takes in the second
one, is handed the first one again, crashes, and is handed the second one again. -/
def crashed : List (ReplicaEvent KVWord) :=
  [.raft (.appendEntries ⟨1, 1, 0, 0, [⟨.client putA, 1⟩, ⟨.client appendB, 1⟩], 0⟩),
    .kv (.receive (entryMsg 1 putA)), .kv .apply, .kv .takeSnapshot,
    .replaceLog 1 ((Store.replay [putA]).encode KVGob.words),
    .kv (.receive (entryMsg 2 appendB)), .kv .apply, .kv (.receive (entryMsg 1 putA)), .kv .apply,
    .restart, .kv (.receive (entryMsg 2 appendB)), .kv .apply]

theorem recovered_state_crashed :
    ∃ s : Replica (Word Op) KVWord, s.fed = 2 ∧ s.peer.raft.snapshottedIndex = 1 ∧
      s.kv.db.lookup "x" = some "ab" ∧
      s.kv.toStore = Store.replay ([putA, appendB].take s.fed.toNat) := by
  have hexec : (Runs.exec (step (Labgob.words Op) KVGob.words)
      (Feeds (Labgob.words Op) [putA, appendB]) (init (Labgob.words Op) KVGob.words 3 0)
      crashed).map (fun s => (s.fed, s.peer.raft.snapshottedIndex, s.kv.db.lookup "x")) =
        some (2, 1, some "ab") := by decide +kernel
  obtain ⟨s, hrun, hst⟩ := Runs.run_of_exec_map _ hexec
  simp only [Prod.mk.injEq] at hst
  exact ⟨s, hst.1, hst.2.1, hst.2.2, recovered_state (Labgob.words_roundTrip Op)
    KVGob.words_roundTrip [putA, appendB] 3 0 hrun⟩

end Replica

end DistributionSystem
