import DistributionSystem.KV.Linear
import DistributionSystem.KV.Service
import DistributionSystem.Raft.Origin

/-! One replica over a log that all replicas agree on. `Hosted` says that the server has
taken in a prefix of the log, that what it is handed next continues this prefix, and that
every snapshot of the replica is the state of the log at its index. It lasts through the
steps of the server, through those of the Raft peer that sends it messages, and through a
crash. -/

namespace DistributionSystem

variable {W B : Type}

/-- The data of a snapshot of the log at `index`; before the first one there is none. -/
def LogSnapshot (gob : KVGob B) (log : List Op) (index : Int) (data : Option (List B)) : Prop :=
  0 ≤ index ∧ index ≤ log.length ∧
    ((index = 0 ∧ data = none) ∨
      data = some ((Store.replay (log.take index.toNat)).encode gob))

theorem take_grow {log : List Op} {index : Int} (hle : index ≤ log.length) (op : Op) :
    (log ++ [op]).take index.toNat = log.take index.toNat :=
  List.take_append_of_le_length (by omega)

theorem LogSnapshot.grow {gob : KVGob B} {log : List Op} {index : Int} {data : Option (List B)}
    (h : LogSnapshot gob log index data) (op : Op) : LogSnapshot gob (log ++ [op]) index data := by
  obtain ⟨hpos, hle, hdata⟩ := h
  refine ⟨hpos, ?_, ?_⟩
  · rw [List.length_append]
    omega
  · rw [take_grow hle]
    exact hdata

/-- A server that is not ahead of the snapshot has the state of the log at its index. -/
theorem LogSnapshot.install {gob : KVGob B} (hg : gob.RoundTrip) {log : List Op} {index fed : Int}
    {data : Option (List B)} (h : LogSnapshot gob log index data) {kv : KVServer B}
    (hstore : kv.toStore = Store.replay (log.take fed.toNat)) (hfed : 0 ≤ fed)
    (hle : fed ≤ index) :
    (kv.installSnapshot gob data).toStore = Store.replay (log.take index.toNat) := by
  rcases h.2.2 with ⟨hz, rfl⟩ | rfl
  · rw [show index = fed by omega]
    exact hstore
  · show Store.decode gob kv.toStore _ = _
    rw [Store.decode_encode hg, hstore, Store.overlay_of_covers]
    exact Store.covers_take log (by omega)

theorem KVServer.installSnapshot_frame (gob : KVGob B) (kv : KVServer B)
    (data : Option (List B)) : kv.installSnapshot gob data =
      { kv with toStore := (kv.installSnapshot gob data).toStore } := by
  cases data <;> rfl

/-! ## Notifications and handlers -/

namespace KVServer

variable {gob : KVGob B} {rpcs : List RPC} {kv kv' : KVServer B} {input : KVInput B}
  {out : List KVOutput}

/-- A notification is for a request that was applied, and a handler about to answer without
a wrong leader has seen its own applied. -/
structure Answers (rpcs : List RPC) (kv : KVServer B) : Prop where
  notified : ∀ n, some n ∈ kv.channels → kv.isDuplicateRequest n.clientId n.requestId = true
  handlers : ∀ h ∈ kv.handlers, HandlerOk rpcs kv.toStore h

theorem answers_startKVServer (gob : KVGob B) (rpcs : List RPC) (snapshot : Option (List B)) :
    (startKVServer gob snapshot).Answers rpcs := by
  rw [startKVServer_frame]
  exact ⟨fun n hn => absurd hn (by simp [blank]), fun h hh => absurd hh (by simp [blank])⟩

theorem Answers.append (h : kv.Answers rpcs) (r : RPC) : kv.Answers (rpcs ++ [r]) :=
  ⟨h.notified, fun x hx => (h.handlers x hx).append r⟩

/-- The state has grown, and there may be a notification of what was applied. -/
theorem Answers.grow (h : kv.Answers rpcs) (hcov : Store.Covers kv'.toStore kv.toStore)
    (hch : ∀ n, some n ∈ kv'.channels → some n ∈ kv.channels ∨
      kv'.isDuplicateRequest n.clientId n.requestId = true)
    (hh : kv'.handlers = kv.handlers) : kv'.Answers rpcs := by
  refine ⟨fun n hn => ?_, fun x hx => ?_⟩
  · rcases hch n hn with hn | hn
    · exact hcov.duplicate _ _ (h.notified n hn)
    · exact hn
  · rw [hh] at hx
    exact (h.handlers x hx).covers hcov

theorem Answers.step (h : kv.Answers rpcs)
    (hreq : ∀ rpc op, input = .request rpc op → Carries rpcs rpc op)
    (hcov : Store.Covers kv'.toStore kv.toStore) (hs : Step gob kv input kv' out) :
    kv'.Answers rpcs := by
  have hmove : ∀ {x g : Handler}, HandlerOk rpcs kv.toStore g →
      ∀ y ∈ kv.handlers.erase x ++ [g], HandlerOk rpcs kv.toStore y :=
    fun hg => handlers_move h.handlers hg
  have hleave : ∀ {x : Handler}, ∀ y ∈ kv.handlers.erase x, HandlerOk rpcs kv.toStore y :=
    fun y hy => h.handlers y (List.mem_of_mem_erase hy)
  cases hs with
  | @request rpc op =>
    refine ⟨h.notified, fun x hx => ?_⟩
    rcases List.mem_append.mp hx with hx | hx
    · exact h.handlers x hx
    · rw [List.mem_singleton.mp hx]
      exact hreq rpc op rfl
  | receive | takeSnapshot => exact ⟨h.notified, h.handlers⟩
  | refused | finished | read => exact ⟨h.notified, hleave⟩
  | started hh =>
    have hc := h.handlers _ hh
    exact ⟨h.notified, hmove hc⟩
  | timeout hh =>
    refine ⟨h.notified, hmove ⟨h.handlers _ hh, fun hw => ?_⟩⟩
    simpa using hw
  | register hh hch =>
    have hc := h.handlers _ hh
    exact ⟨fun n hn => h.notified n (hch n hn), hmove hc⟩
  | notified hh hn =>
    refine ⟨fun n hn => ?_, hmove ⟨h.handlers _ hh, fun hw => ?_⟩⟩
    · rcases List.mem_or_eq_of_mem_set hn with hn | hn
      · exact h.notified n hn
      · exact absurd hn (by simp)
    · -- the notification is for this very request
      have hdup := h.notified _ hn
      simp only [decide_eq_false_iff_not, not_or, Decidable.not_not] at hw
      rw [hw.1, hw.2] at hdup
      exact hdup
  | finishedGet hh _ => exact ⟨h.notified, hmove ⟨(h.handlers _ hh).1, (h.handlers _ hh).2 rfl⟩⟩
  | duplicate => exact h.grow hcov (fun _ => Or.inl) rfl
  | @applied msg op channels _ _ _ _ hch =>
    refine h.grow hcov (fun n hn => (hch n hn).imp_right ?_) rfl
    rintro rfl
    exact Store.isDuplicateRequest_iff.mpr ⟨_, Store.execute_recorded _ op, Int.le_refl _⟩
  | installed =>
    rw [installSnapshot_frame] at hcov ⊢
    exact h.grow hcov (fun _ => Or.inl) rfl

/-- What a server with the state of a prefix of the log answers is right. -/
theorem Answers.output (h : kv.Answers rpcs) {log : List Op} {a : Nat} (ha : a ≤ log.length)
    (hst : kv.toStore = Store.replay (log.take a)) {history : List Stamped}
    (ho : Ordered log history) (hrpcs : ∀ r ∈ rpcs, Issued history r.op)
    (hs : Step gob kv input kv' out) {rpc : Nat} {reply : KVReply}
    (hm : .reply rpc reply ∈ out) : ∃ op, Carries rpcs rpc op ∧ ReplyOk log op reply := by
  -- a duplicate of the server's state is in its part of the log
  have hocc : ∀ {op : Op} {rpc : Nat}, Carries rpcs rpc op →
      kv.isDuplicateRequest op.clientId op.requestId = true → OccursBefore log op.id a := by
    intro op rpc hc hd
    obtain ⟨f, hf⟩ := hc.issued hrpcs
    rw [hst] at hd
    exact ho.occurs_of_duplicate (ho.positive f _ _ _ hf) hd
  cases hs with
  | @refused call op index hh =>
    cases List.mem_singleton.mp hm
    exact ⟨op, h.handlers _ hh, fun hw => absurd hw (by simp)⟩
  | @finished call op index wrongLeader hh hw =>
    cases List.mem_singleton.mp hm
    refine ⟨op, (h.handlers _ hh).1, fun hw' => ⟨a, ha, ?_, fun hget => absurd ⟨hget, hw'⟩ hw⟩⟩
    exact hocc (h.handlers _ hh).1 ((h.handlers _ hh).2 hw')
  | @read call op hh =>
    cases List.mem_singleton.mp hm
    obtain ⟨hcar, hdup⟩ := h.handlers _ hh
    refine ⟨op, hcar, fun _ => ⟨a, ha, hocc hcar hdup, fun _ => ?_⟩⟩
    unfold readReply mapAt Store.view
    rw [← hst]
    cases kv.db.lookup op.key <;> rfl
  | started => cases List.mem_singleton.mp hm
  | _ => exact absurd hm List.not_mem_nil

end KVServer

/-! ## The invariant -/

namespace Replica

/-- What the server labels with `index` is the state there, if Raft does not know a later
snapshot. -/
def Labelled (log : List Op) (rf : Raft Op (List B) W) (index : Int) (store : Store) : Prop :=
  rf.snapshottedIndex < index → index ∈ rf.delivered ∧ index ≤ log.length ∧
    store = Store.replay (log.take index.toNat)

/-- The message in the server's hands: an entry of the log that the server has taken in or
that is the next, or a snapshot that is not behind it. -/
def InHand (gob : KVGob B) (log : List Op) (s : Replica W B) (msg : ApplyMsg Op (List B)) : Prop :=
  (Fed log s.fed msg ∧ msg.commandIndex ∈ s.peer.raft.delivered) ∨
    (msg.commandValid = false ∧ LogSnapshot gob log msg.commandIndex msg.commandData ∧
      s.fed ≤ msg.commandIndex ∧ msg.commandIndex ≤ s.peer.raft.snapshottedIndex)

structure Hosted (gob : KVGob B) (rpcs : List RPC) (log : List Op) (s : Replica W B) : Prop where
  nonneg : 0 ≤ s.fed
  le : s.fed ≤ log.length
  store : s.kv.toStore = Store.replay (log.take s.fed.toNat)
  received : ∀ msg, s.kv.received = some msg → s.InHand gob log msg
  applied : s.kv.appliedRaftLogIndex ≤ s.fed
  label : Labelled log s.peer.raft s.kv.appliedRaftLogIndex s.kv.toStore
  pending : ∀ p ∈ s.kv.snapshots, ∃ store : Store, p.2 = store.encode gob ∧
    Labelled log s.peer.raft p.1 store
  stores : s.peer.raft.Archives (LogSnapshot gob log)
  sent : ∀ server args, .call server (.installSnapshot args) ∈ s.peer.history →
    LogSnapshot gob log args.lastIncludedIndex args.data
  answers : s.kv.Answers rpcs

variable {rgob : Labgob Op W} {gob : KVGob B} {rpcs : List RPC} {log : List Op} {s : Replica W B}

theorem Labelled.grow {rf : Raft Op (List B) W} {index : Int} {store : Store}
    (h : Labelled log rf index store) (op : Op) : Labelled (log ++ [op]) rf index store := by
  intro hlt
  obtain ⟨hd, hle, hst⟩ := h hlt
  refine ⟨hd, ?_, ?_⟩
  · rw [List.length_append]
    omega
  · rw [take_grow hle]
    exact hst

theorem Labelled.mono {rf rf' : Raft Op (List B) W} {index : Int} {store : Store}
    (h : Labelled log rf index store) (hle : rf.snapshottedIndex ≤ rf'.snapshottedIndex)
    (hd : ∀ d ∈ rf.delivered, d ∈ rf'.delivered) : Labelled log rf' index store := by
  intro hlt
  obtain ⟨hmem, hrest⟩ := h (by omega)
  exact ⟨hd _ hmem, hrest⟩

theorem Fed.grow {fed : Int} {msg : ApplyMsg Op (List B)} (h : Fed log fed msg) (op : Op) :
    Fed (log ++ [op]) fed msg := by
  obtain ⟨hpos, hle, hmsg⟩ := h
  refine ⟨hpos, hle, ?_⟩
  obtain ⟨a, ha, he⟩ := Option.map_eq_some_iff.mp hmsg
  rw [getElem?_append_of_some ha]
  exact congrArg some he

theorem InHand.grow {msg : ApplyMsg Op (List B)} (h : s.InHand gob log msg) (op : Op) :
    s.InHand gob (log ++ [op]) msg := by
  rcases h with ⟨hf, hd⟩ | ⟨hv, hsnap, hrest⟩
  · exact Or.inl ⟨hf.grow op, hd⟩
  · exact Or.inr ⟨hv, hsnap.grow op, hrest⟩

namespace Hosted

theorem init (rgob : Labgob Op W) (gob : KVGob B) (peers me : Nat) :
    (Replica.init rgob gob peers me).Hosted gob [] [] := by
  refine ⟨Int.le_refl 0, Int.le_refl 0, rfl, ?_, Int.le_refl 0, ?_, ?_, ⟨?_, ?_⟩, ?_,
    KVServer.answers_startKVServer gob [] none⟩
  · exact fun _ hm => absurd hm (by simp [Replica.init, KVServer.startKVServer,
      KVServer.installSnapshot, KVServer.blank])
  · exact fun hlt => absurd hlt (Int.lt_irrefl 0)
  · exact fun p hp => absurd hp (by simp [Replica.init, KVServer.startKVServer,
      KVServer.installSnapshot, KVServer.blank])
  · exact ⟨Int.le_refl 0, Int.le_refl 0, Or.inl ⟨rfl, rfl⟩⟩
  · exact fun msg hm => absurd hm List.not_mem_nil
  · exact fun server args hm => absurd hm List.not_mem_nil

theorem append (h : s.Hosted gob rpcs log) (r : RPC) : s.Hosted gob (rpcs ++ [r]) log :=
  { h with answers := h.answers.append r }

/-- An op comes up in the log. -/
theorem grow (h : s.Hosted gob rpcs log) (op : Op) : s.Hosted gob rpcs (log ++ [op]) := by
  have hle := h.le
  refine ⟨h.nonneg, ?_, ?_, fun msg hm => (h.received msg hm).grow op, h.applied,
    h.label.grow op, fun p hp => ?_, h.stores.mono fun _ _ hq => hq.grow op,
    fun server args hm => (h.sent server args hm).grow op, h.answers⟩
  · rw [List.length_append]
    omega
  · rw [take_grow hle]
    exact h.store
  · obtain ⟨store, hp₂, hl⟩ := h.pending p hp
    exact ⟨store, hp₂, hl.grow op⟩

theorem receive (h : s.Hosted gob rpcs log) {msg : ApplyMsg Op (List B)}
    (hm : s.InHand gob log msg) :
    ({ s with kv := { s.kv with received := some msg } } : Replica W B).Hosted gob rpcs log := by
  refine ⟨h.nonneg, h.le, h.store, fun m hm' => ?_, h.applied, h.label, h.pending, h.stores,
    h.sent, ⟨h.answers.notified, h.answers.handlers⟩⟩
  cases hm'
  exact hm

theorem dropSnapshot [DecidableEq B] (h : s.Hosted gob rpcs log) (p : Int × List B) :
    ({ s with kv := { s.kv with snapshots := s.kv.snapshots.erase p } } :
      Replica W B).Hosted gob rpcs log :=
  ⟨h.nonneg, h.le, h.store, h.received, h.applied, h.label,
    fun q hq => h.pending q (List.mem_of_mem_erase hq), h.stores, h.sent,
    ⟨h.answers.notified, h.answers.handlers⟩⟩

/-! ## Steps of the server -/

/-- The server is done with a message that has led it to the state at its index. -/
theorem takeIn (h : s.Hosted gob rpcs log) {kv : KVServer B} {index : Int}
    (hindex : index ≤ log.length) (hle : s.fed ≤ index) (hr : kv.received = none)
    (hst : kv.toStore = Store.replay (log.take index.toNat))
    (ha : kv.appliedRaftLogIndex ≤ index)
    (hl : Labelled log s.peer.raft kv.appliedRaftLogIndex kv.toStore)
    (hs : kv.snapshots = s.kv.snapshots) (hans : kv.Answers rpcs) :
    ({ s with kv := kv, fed := index } : Replica W B).Hosted gob rpcs log := by
  have hnn := h.nonneg
  refine ⟨Int.le_trans hnn hle, hindex, hst, fun m hm => ?_, ha, hl, ?_, h.stores, h.sent, hans⟩
  · exact absurd (hr.symm.trans hm) (by simp)
  · rw [hs]
    exact h.pending

/-- The state that the apply loop leads to. -/
theorem apply_state (hg : gob.RoundTrip) (h : s.Hosted gob rpcs log) {kv : KVServer B}
    {out : List KVOutput} (hs : KVServer.Step gob s.kv .apply kv out) :
    s.fed ≤ s.fedAfter .apply ∧ s.fedAfter .apply ≤ log.length ∧
      kv.toStore = Store.replay (log.take (s.fedAfter .apply).toNat) := by
  have hnn := h.nonneg
  have hle := h.le
  have hfed : ∀ msg, s.kv.received = some msg → s.fedAfter .apply = max s.fed msg.commandIndex :=
    fun msg hr => by rw [fedAfter, hr]; rfl
  -- a command in the server's hands is the one of the log, so it leads to the state there
  have hcommand : ∀ msg op, s.kv.received = some msg → msg.commandValid = true →
      msg.command = .client op → msg.commandIndex ≤ log.length ∧ s.kv.toStore.apply op =
        Store.replay (log.take (max s.fed msg.commandIndex).toNat) := by
    intro msg op hr hv hc
    rcases h.received msg hr with ⟨hf, -⟩ | ⟨hv', -⟩
    · have hlt := (List.getElem?_eq_some_iff.mp (hf.op hc)).1
      have hpos := hf.1
      refine ⟨by omega, ?_⟩
      rw [h.store]
      exact apply_fed hnn hf.1 hf.2.1 (hf.op hc)
    · exact absurd (hv.symm.trans hv') (by simp)
  cases hs with
  | @duplicate msg op hr hv hc hd =>
    obtain ⟨hi, happ⟩ := hcommand msg op hr hv hc
    rw [hfed msg hr]
    refine ⟨by omega, by omega, ?_⟩
    rw [← happ, Store.apply_of_duplicate hd]
  | @applied msg op channels hr hv hc hd =>
    obtain ⟨hi, happ⟩ := hcommand msg op hr hv hc
    rw [hfed msg hr]
    refine ⟨by omega, by omega, ?_⟩
    rw [← happ]
    unfold Store.apply
    rw [if_neg hd]
  | @installed msg hr hv =>
    rcases h.received msg hr with ⟨hf, -⟩ | ⟨-, hsnap, hge, -⟩
    · obtain ⟨op, -, hmsg⟩ := hf.entry
      rw [hmsg] at hv
      exact absurd hv (by simp [entryMsg])
    · have hi := hsnap.2.1
      rw [hfed msg hr, Int.max_eq_right hge]
      refine ⟨hge, hi, hsnap.install hg ?_ hnn hge⟩
      exact h.store

theorem apply (hg : gob.RoundTrip) (h : s.Hosted gob rpcs log) {kv : KVServer B}
    {out : List KVOutput} (hs : KVServer.Step gob s.kv .apply kv out) :
    ({ s with kv := kv, fed := s.fedAfter .apply } : Replica W B).Hosted gob rpcs log := by
  obtain ⟨hle, hlen, hst⟩ := h.apply_state hg hs
  have hnn := h.nonneg
  have hcov : Store.Covers kv.toStore s.kv.toStore := by
    rw [hst, h.store]
    exact Store.covers_take log (by omega)
  have hans := h.answers.step (fun _ _ hc => absurd hc (by simp)) hcov hs
  have happ := h.applied
  cases hs with
  | duplicate => exact h.takeIn hlen hle rfl hst (Int.le_trans happ hle) h.label rfl hans
  | @applied msg op channels hr hv hc hd =>
    rcases h.received msg hr with ⟨hf, hdel⟩ | ⟨hv', -⟩
    · have hfed : s.fedAfter .apply = max s.fed msg.commandIndex := by rw [fedAfter, hr]; rfl
      -- an entry that is no duplicate was not taken in before
      have hnew : s.fed < msg.commandIndex := by
        by_contra hold
        rw [h.store] at hd
        exact hd (Store.duplicate_of_lt (hf.op hc) (by have := hf.1; omega))
      rw [Int.max_eq_right (Int.le_of_lt hnew)] at hfed
      rw [hfed] at hlen hle hst ⊢
      exact h.takeIn hlen hle rfl hst (Int.le_refl _) (fun _ => ⟨hdel, hlen, hst⟩) rfl hans
    · exact absurd (hv.symm.trans hv') (by simp)
  | @installed msg hr hv =>
    rcases h.received msg hr with ⟨hf, -⟩ | ⟨-, hsnap, hge, hsi⟩
    · obtain ⟨op, -, hmsg⟩ := hf.entry
      rw [hmsg] at hv
      exact absurd hv (by simp [entryMsg])
    · rw [KVServer.installSnapshot_frame] at hst hans ⊢
      refine h.takeIn hlen hle rfl hst (Int.le_trans happ hle) (fun hlt => ?_) rfl hans
      -- the label is not above the snapshot, which Raft knows
      have hlt' : s.peer.raft.snapshottedIndex < s.kv.appliedRaftLogIndex := hlt
      omega

theorem kvStep (hg : gob.RoundTrip) (h : s.Hosted gob rpcs log) {input : KVInput B}
    {kv : KVServer B} {out : List KVOutput} (hin : ∀ msg, input ≠ .receive msg)
    (hreq : ∀ rpc op, input = .request rpc op → Carries rpcs rpc op)
    (hs : KVServer.Step gob s.kv input kv out) :
    ({ s with kv := kv, fed := s.fedAfter input } : Replica W B).Hosted gob rpcs log := by
  have hans : Store.Covers kv.toStore s.kv.toStore → kv.Answers rpcs :=
    fun hcov => h.answers.step hreq hcov hs
  cases hs with
  | request | refused | started | timeout | register | notified | finished | finishedGet | read =>
    exact ⟨h.nonneg, h.le, h.store, h.received, h.applied, h.label, h.pending, h.stores, h.sent,
      hans (Store.Covers.refl _)⟩
  | receive => exact absurd rfl (hin _)
  | takeSnapshot =>
    refine ⟨h.nonneg, h.le, h.store, h.received, h.applied, h.label, fun p hp => ?_, h.stores,
      h.sent, hans (Store.Covers.refl _)⟩
    rcases List.mem_append.mp hp with hp | hp
    · exact h.pending p hp
    · rw [List.mem_singleton.mp hp]
      exact ⟨_, rfl, h.label⟩
  | duplicate hr hv hc hd => exact h.apply hg (.duplicate hr hv hc hd)
  | applied hr hv hc hd hch => exact h.apply hg (.applied hr hv hc hd hch)
  | installed hr hv => exact h.apply hg (.installed hr hv)

/-! ## Steps of the Raft peer -/

variable [DecidableEq B]

/-- A step of the Raft peer, behind which the server has received nothing new. -/
theorem peer (h : s.Hosted gob rpcs log) (hrec : s.peer.raft.Recovers rgob)
    {input : Input Op (List B)} {rf : Raft Op (List B) W} {out : List (Output Op (List B))}
    (hst : Raft.Step rgob s.peer.raft input rf out) (hne : input ≠ .restart)
    (hin : s.peer.raft.Takes (LogSnapshot gob log) input) :
    ({ s with peer := ⟨rf, s.peer.history ++ out⟩ } : Replica W B).Hosted gob rpcs log := by
  have hle := Raft.step_snapshottedIndex hrec hst
  have hdel : ∀ d ∈ s.peer.raft.delivered, d ∈ rf.delivered :=
    fun d hd => Raft.step_delivered hst hne hd
  refine ⟨h.nonneg, h.le, h.store, fun msg hm => ?_, h.applied, h.label.mono hle hdel,
    fun p hp => ?_, Raft.step_archives hrec h.stores hin hst, fun server args hm => ?_, h.answers⟩
  · rcases h.received msg hm with ⟨hf, hd⟩ | ⟨hv, hsnap, hge, hsi⟩
    · exact Or.inl ⟨hf, hdel _ hd⟩
    · exact Or.inr ⟨hv, hsnap, hge, Int.le_trans hsi hle⟩
  · obtain ⟨store, hp₂, hl⟩ := h.pending p hp
    exact ⟨store, hp₂, hl.mono hle hdel⟩
  · rcases List.mem_append.mp hm with hm | hm
    · exact h.sent server args hm
    · exact Raft.step_sends h.stores hst hm

theorem restart (hg : gob.RoundTrip) (h : s.Hosted gob rpcs log)
    (hrec : s.peer.raft.Recovers rgob) {s' : Replica W B}
    (hs : s.step rgob gob .restart = some s') : s'.Hosted gob rpcs log := by
  simp only [Replica.step] at hs
  obtain ⟨p, hp, rfl⟩ := Option.map_eq_some_iff.mp hs
  obtain ⟨⟨rf, out⟩, hstep, rfl⟩ := Option.map_eq_some_iff.mp hp
  have hst := Raft.step_cases hstep
  have hin : s.peer.raft.Takes (LogSnapshot gob log) .restart := trivial
  have hstores := Raft.step_archives hrec h.stores hin hst
  have hsaved : LogSnapshot gob log rf.snapshottedIndex rf.persister.snapshot := hstores.saved
  have hblank : (KVServer.blank : KVServer B).toStore = Store.replay (log.take (0 : Int).toNat) := rfl
  have hstore : (KVServer.startKVServer gob rf.persister.snapshot).toStore =
      Store.replay (log.take rf.snapshottedIndex.toNat) :=
    hsaved.install hg hblank (Int.le_refl 0) hsaved.1
  refine ⟨hsaved.1, hsaved.2.1, hstore, ?_, ?_, ?_, ?_, hstores, fun server args hm => ?_,
    KVServer.answers_startKVServer gob rpcs _⟩
  · intro msg hm
    rw [KVServer.startKVServer_frame] at hm
    exact absurd hm (by simp [KVServer.blank])
  · rw [KVServer.startKVServer_frame]
    exact hsaved.1
  · intro hlt
    rw [KVServer.startKVServer_frame] at hlt
    exact absurd hlt (Int.not_lt.mpr hsaved.1)
  · intro p hp
    rw [KVServer.startKVServer_frame] at hp
    exact absurd hp (by simp [KVServer.blank])
  · rcases List.mem_append.mp hm with hm | hm
    · exact h.sent server args hm
    · exact Raft.step_sends h.stores hst hm

end Hosted

end Replica

end DistributionSystem
