import DistributionSystem.KV.Replica

/-! The state of a replica that both applies committed entries and installs snapshots
from other peers. The goroutines of `setCommitIndex` and of `InstallSnapshot` send on
`applyCh` on their own, in any order; `InOrder` is the order that the server's maps need,
and `lastApplied_state` is what holds then. -/

namespace DistributionSystem

variable {C D B W : Type}

/-! ## What a step of Raft does to the goroutines that report -/

namespace Raft

/-- The goroutine has a snapshot to send, or an index to record. -/
def Reports : Goroutine C D → Prop
  | .applied _ _ | .install _ => True
  | _ => False

structure SameReports (rf rf' : Raft C D B) : Prop where
  lastApplied : rf'.lastApplied = rf.lastApplied
  mem : ∀ g, Reports g → (g ∈ rf'.goroutines ↔ g ∈ rf.goroutines)

/-- All steps but those that send a message, record an index or accept a snapshot. -/
def Routine : Input C D → Prop
  | .resume (.apply _ (_ :: _)) | .resume (.applied _ _) | .resume (.install _)
  | .installSnapshot _ | .restart => False
  | _ => True

theorem mem_append_iff {gs new : List (Goroutine C D)} (hnew : ∀ g ∈ new, ¬ Reports g)
    {g : Goroutine C D} (hg : Reports g) : g ∈ gs ++ new ↔ g ∈ gs := by
  refine ⟨fun hm => ?_, List.mem_append_left _⟩
  rcases List.mem_append.mp hm with hm | hm
  · exact hm
  · exact absurd hg (hnew g hm)

theorem sameReports_append {rf rf' : Raft C D B} {new : List (Goroutine C D)}
    (hl : rf'.lastApplied = rf.lastApplied) (hgs : rf'.goroutines = rf.goroutines ++ new)
    (hnew : ∀ g ∈ new, ¬ Reports g) : SameReports rf rf' :=
  ⟨hl, fun _ hg => by rw [hgs]; exact mem_append_iff hnew hg⟩

theorem sameReports_of_eq {rf rf' : Raft C D B} (hl : rf'.lastApplied = rf.lastApplied)
    (hgs : rf'.goroutines = rf.goroutines) : SameReports rf rf' :=
  ⟨hl, fun _ _ => by rw [hgs]⟩

variable [DecidableEq C] [DecidableEq D]

theorem mem_erase_iff {gs : List (Goroutine C D)} {g₀ g : Goroutine C D} (h₀ : ¬ Reports g₀)
    (hg : Reports g) : g ∈ gs.erase g₀ ↔ g ∈ gs :=
  List.mem_erase_of_ne fun heq => h₀ (heq ▸ hg)

theorem sameReports_erase {rf rf' : Raft C D B} {g₀ : Goroutine C D}
    {new : List (Goroutine C D)} (h₀ : ¬ Reports g₀) (hl : rf'.lastApplied = rf.lastApplied)
    (hgs : rf'.goroutines = rf.goroutines.erase g₀ ++ new) (hnew : ∀ g ∈ new, ¬ Reports g) :
    SameReports rf rf' :=
  ⟨hl, fun _ hg => by rw [hgs, mem_append_iff hnew hg, mem_erase_iff h₀ hg]⟩

theorem sameReports_leave {rf rf' : Raft C D B} {g₀ : Goroutine C D} (h₀ : ¬ Reports g₀)
    (hl : rf'.lastApplied = rf.lastApplied) (hgs : rf'.goroutines = rf.goroutines.erase g₀) :
    SameReports rf rf' :=
  ⟨hl, fun _ hg => by rw [hgs, mem_erase_iff h₀ hg]⟩

omit [DecidableEq C] [DecidableEq D] in
theorem not_reports_of_not_pending {g : Goroutine C D} (h : ¬ g.Pending) : ¬ Reports g := by
  cases g with
  | applied | install => exact absurd trivial h
  | _ => exact id

theorem sameReports_of_step {gob : Labgob C B} {rf rf' : Raft C D B} {input : Input C D}
    {out : List (Output C D)} (h : Step gob rf input rf' out) (hr : Routine input) :
    SameReports rf rf' := by
  cases h with
  | snapshotOld | snapshot | apply | applied | install | restart => exact absurd hr id
  | electionTimer =>
    rw [candidateState_frame]
    exact sameReports_append rfl rfl (by simp [Reports])
  | heartbeatTimer hgs =>
    refine sameReports_append rfl rfl fun g hg => ?_
    obtain ⟨server, -, rfl⟩ := hgs g hg
    exact id
  | refuseTerm | appendOld | startOther | replaceIgnored => exact sameReports_of_eq rfl rfl
  | refuseLog | grant =>
    rw [adoptTerm_frame]
    exact sameReports_of_eq rfl rfl
  | @append args r reply hterm happ =>
    obtain ⟨gs, hgs, hnew⟩ := happ.goroutines
    have hf := happ.frame
    refine sameReports_append (by rw [hf, adoptTerm_frame]; rfl)
      (by show r.goroutines = _; rw [hgs, adoptTerm_frame]) fun g hg => ?_
    obtain ⟨_, _, rfl⟩ := hnew g hg
    exact id
  | voteStepDown | appendStepDown | snapshotStepDown =>
    rw [stepDown_frame]
    exact sameReports_leave id rfl rfl
  | voteCounted | voteIgnored | appendIgnored | appendSuccess | appendConflict
  | snapshotRecorded =>
    exact sameReports_leave id rfl rfl
  | idle _ hp => exact sameReports_leave (not_reports_of_not_pending hp) rfl rfl
  | elected => exact sameReports_erase id rfl rfl (by simp [Reports])
  | appendCommit _ _ _ _ hc =>
    obtain ⟨gs, hgs, hnew⟩ := setCommitIndex_goroutines hc
    have hf := setCommitIndex_frame hc
    refine sameReports_erase id (by rw [hf]; rfl) hgs fun g hg => ?_
    obtain ⟨_, _, rfl⟩ := hnew g hg
    exact id
  | startLeader | replaced => exact sameReports_append rfl rfl (by simp [Reports])
  | heartbeatSync | heartbeat | sync | startAppend =>
    exact sameReports_erase id rfl rfl (by simp [Reports])

end Raft

namespace Replica

variable [DecidableEq B] {rgob : Labgob Op W} {gob : KVGob B}

theorem sentMsgs_of_step {rf rf' : Raft Op (List B) W} {input : Input Op (List B)}
    {out : List (Output Op (List B))} (h : Raft.Step rgob rf input rf' out)
    (hr : Raft.Routine input) : sentMsgs out = [] := by
  cases h with
  | snapshotOld | snapshot | apply | applied | install | restart => exact absurd hr id
  | electionTimer => simp [sentMsgs]
  | _ => rfl

/-! ## The runs -/

/-- The entries that a goroutine of `setCommitIndex` hands out are those of `log`. -/
def Agrees (log : List Op) : Goroutine Op (List B) → Prop
  | .apply index entries => 0 < index ∧ entries.map LogEntry.command =
    ((log.drop (index.toNat - 1)).take entries.length).map .client
  | _ => True

instance (log : List Op) (g : Goroutine Op (List B)) : Decidable (Agrees log g) :=
  match g with
  | .apply .. => inferInstanceAs (Decidable (_ ∧ _))
  | .applied .. | .install _ | .heartbeat _ | .syncSnapshotWith _ | .awaitVote ..
  | .awaitAppend .. | .awaitSnapshot .. | .start .. => .isTrue trivial

/-- A snapshot from another peer holds the state at its index. -/
def Accepts (gob : KVGob B) (log : List Op) : Input Op (List B) → Prop
  | .installSnapshot args => 0 ≤ args.lastIncludedIndex ∧
    args.data = some ((Store.replay (log.take args.lastIncludedIndex.toNat)).encode gob)
  | .replaceLogWithSnapshot _ _ | .restart => False
  | _ => True

instance (log : List Op) (input : Input Op (List B)) : Decidable (Accepts gob log input) :=
  match input with
  | .installSnapshot _ => inferInstanceAs (Decidable (_ ∧ _))
  | .replaceLogWithSnapshot _ _ | .restart => .isFalse id
  | .electionTimer | .heartbeatTimer | .requestVote _ | .appendEntries _ | .voteReply ..
  | .appendReply .. | .snapshotReply .. | .start _ | .resume _ => .isTrue trivial

/-- The goroutines behind a step of Raft. -/
def goroutinesAfter (rgob : Labgob Op W) (s : Replica W B) (input : Input Op (List B)) :
    List (Goroutine Op (List B)) :=
  ((s.peer.raft.step rgob input).map fun r => r.1.goroutines).getD []

/-- The replica runs on the committed log `log`: Raft commits its entries and accepts its
snapshots, and the server receives what Raft sends. -/
def Serves (rgob : Labgob Op W) (gob : KVGob B) (log : List Op) (s : Replica W B) :
    ReplicaEvent B → Prop
  | .raft input => Accepts gob log input ∧ ∀ g ∈ s.goroutinesAfter rgob input, Agrees log g
  | .kv (.receive _) | .restart => False
  | _ => True

instance (log : List Op) (s : Replica W B) (e : ReplicaEvent B) :
    Decidable (s.Serves rgob gob log e) :=
  match e with
  | .raft _ => inferInstanceAs (Decidable (_ ∧ _))
  | .kv (.receive _) | .restart => .isFalse id
  | .kv (.request ..) | .kv (.started ..) | .kv (.timeout ..) | .kv (.resume _) | .kv .apply
  | .kv .takeSnapshot | .replaceLog .. => .isTrue trivial

/-- An entry is received when those before it have been taken in, and a snapshot when it
is not behind the server. -/
def InOrder (s : Replica W B) : ReplicaEvent B → Prop
  | .raft (.resume (.apply index (_ :: _))) => index ≤ s.fed + 1
  | .raft (.resume (.install msg)) => s.fed ≤ msg.commandIndex
  | _ => True

instance (s : Replica W B) (e : ReplicaEvent B) : Decidable (s.InOrder e) :=
  match e with
  | .raft (.resume (.apply _ (_ :: _))) | .raft (.resume (.install _)) =>
    inferInstanceAs (Decidable (_ ≤ _))
  | .raft (.resume (.apply _ [])) | .raft (.resume (.applied ..)) | .raft (.resume (.heartbeat _))
  | .raft (.resume (.syncSnapshotWith _)) | .raft (.resume (.awaitVote ..))
  | .raft (.resume (.awaitAppend ..)) | .raft (.resume (.awaitSnapshot ..))
  | .raft (.resume (.start ..)) | .raft .electionTimer | .raft .heartbeatTimer
  | .raft (.requestVote _) | .raft (.appendEntries _) | .raft (.installSnapshot _)
  | .raft (.voteReply ..) | .raft (.appendReply ..) | .raft (.snapshotReply ..)
  | .raft (.start _) | .raft (.replaceLogWithSnapshot ..) | .raft .restart
  | .kv _ | .replaceLog .. | .restart => .isTrue trivial

/-- No `ApplyMsg` is on its way: none is to be sent, none is being handled, and no index of
one is to be recorded. -/
def Quiet (s : Replica W B) : Prop :=
  s.kv.received = none ∧ ∀ g ∈ s.peer.raft.goroutines, ¬ g.Pending

instance (s : Replica W B) : Decidable s.Quiet := inferInstanceAs (Decidable (_ ∧ _))

/-! ## The invariant -/

/-- Raft has recorded the index `m`, or is about to. -/
def Recorded (rf : Raft Op (List B) W) (m : Int) : Prop :=
  m ≤ rf.lastApplied ∨ ∃ i es, .applied i es ∈ rf.goroutines ∧ m ≤ i

/-- The server has taken in the log up to `m`, or has a message for it. -/
def Taken (s : Replica W B) (m : Int) : Prop :=
  m ≤ s.fed ∨ (∃ msg, s.kv.received = some msg ∧ m ≤ msg.commandIndex) ∨
    ∃ msg, .install msg ∈ s.peer.raft.goroutines ∧ m ≤ msg.commandIndex

/-- The message for the snapshot of the log at its index. -/
def SnapshotMsg (gob : KVGob B) (log : List Op) (msg : ApplyMsg Op (List B)) : Prop :=
  msg.commandValid = false ∧ 0 ≤ msg.commandIndex ∧
    msg.commandData = some ((Store.replay (log.take msg.commandIndex.toNat)).encode gob)

structure Installing (gob : KVGob B) (log : List Op) (s : Replica W B) : Prop where
  nonneg : 0 ≤ s.fed
  store : s.kv.toStore = Store.replay (log.take s.fed.toNat)
  agree : ∀ g ∈ s.peer.raft.goroutines, Agrees log g
  installs : ∀ msg, .install msg ∈ s.peer.raft.goroutines →
    SnapshotMsg gob log msg ∧ Recorded s.peer.raft msg.commandIndex
  received : ∀ msg, s.kv.received = some msg → Recorded s.peer.raft msg.commandIndex ∧
    (Fed log s.fed msg ∨ (SnapshotMsg gob log msg ∧ s.fed ≤ msg.commandIndex))
  fed : Recorded s.peer.raft s.fed
  lastApplied : s.Taken s.peer.raft.lastApplied
  applied : ∀ i es, .applied i es ∈ s.peer.raft.goroutines → s.Taken i

omit [DecidableEq B] in
/-- In a quiet state Raft has recorded what the server has taken in, and no more. -/
theorem Installing.fed_eq {log : List Op} {s : Replica W B} (h : s.Installing gob log)
    (hq : s.Quiet) : s.fed = s.peer.raft.lastApplied := by
  obtain ⟨hr, hg⟩ := hq
  refine Int.le_antisymm ?_ ?_
  · rcases h.fed with hle | ⟨i, es, hm, -⟩
    · exact hle
    · exact absurd trivial (hg _ hm)
  · rcases h.lastApplied with hle | ⟨msg, hm, -⟩ | ⟨msg, hm, -⟩
    · exact hle
    · exact absurd (hr.symm.trans hm) (by simp)
    · exact absurd trivial (hg _ hm)

/-! ## Steps of Raft -/

section

variable {log : List Op} {s : Replica W B}

omit [DecidableEq B] in
theorem Recorded.mono {rf rf' : Raft Op (List B) W} {m : Int} (h : Recorded rf m)
    (hl : rf.lastApplied ≤ rf'.lastApplied)
    (hg : ∀ i es, .applied i es ∈ rf.goroutines → Recorded rf' i) : Recorded rf' m := by
  rcases h with hle | ⟨i, es, hm, hle⟩
  · exact Or.inl (Int.le_trans hle hl)
  · rcases hg i es hm with hi | ⟨j, es', hm', hi⟩
    · exact Or.inl (Int.le_trans hle hi)
    · exact Or.inr ⟨j, es', hm', Int.le_trans hle hi⟩

omit [DecidableEq B] in
theorem Recorded.of_mem {rf : Raft Op (List B) W} {i : Int} {es : List (LogEntry Op)}
    (h : .applied i es ∈ rf.goroutines) : Recorded rf i := Or.inr ⟨i, es, h, Int.le_refl i⟩

omit [DecidableEq B] in
theorem Taken.mono {s s' : Replica W B} {m : Int} (h : s.Taken m) (hf : s.fed ≤ s'.fed)
    (hr : ∀ msg, s.kv.received = some msg → s'.Taken msg.commandIndex)
    (hg : ∀ msg, .install msg ∈ s.peer.raft.goroutines → s'.Taken msg.commandIndex) :
    s'.Taken m := by
  have trans : ∀ {k : Int}, m ≤ k → s'.Taken k → s'.Taken m := by
    rintro k hk (hle | ⟨msg, hm, hle⟩ | ⟨msg, hm, hle⟩)
    · exact Or.inl (Int.le_trans hk hle)
    · exact Or.inr (Or.inl ⟨msg, hm, Int.le_trans hk hle⟩)
    · exact Or.inr (Or.inr ⟨msg, hm, Int.le_trans hk hle⟩)
  rcases h with hle | ⟨msg, hm, hle⟩ | ⟨msg, hm, hle⟩
  · exact Or.inl (Int.le_trans hle hf)
  · exact trans hle (hr msg hm)
  · exact trans hle (hg msg hm)

namespace Installing

omit [DecidableEq B] in
/-- A step of Raft that loses nothing of what is recorded and taken in, and adds only what
the invariant allows. -/
theorem of_raft (h : s.Installing gob log) {s' : Replica W B} (hfed : s'.fed = s.fed)
    (hstore : s'.kv.toStore = s.kv.toStore)
    (ha : ∀ g ∈ s'.peer.raft.goroutines, Agrees log g)
    (hrec : ∀ m, Recorded s.peer.raft m → Recorded s'.peer.raft m)
    (htaken : ∀ m, s.Taken m → s'.Taken m)
    (hinst : ∀ msg, .install msg ∈ s'.peer.raft.goroutines →
      .install msg ∈ s.peer.raft.goroutines ∨
        (SnapshotMsg gob log msg ∧ Recorded s'.peer.raft msg.commandIndex))
    (hrecv : ∀ msg, s'.kv.received = some msg → s.kv.received = some msg ∨
      (Recorded s'.peer.raft msg.commandIndex ∧
        (Fed log s.fed msg ∨ (SnapshotMsg gob log msg ∧ s.fed ≤ msg.commandIndex))))
    (hlast : s'.Taken s'.peer.raft.lastApplied)
    (happ : ∀ i es, .applied i es ∈ s'.peer.raft.goroutines →
      .applied i es ∈ s.peer.raft.goroutines ∨ s'.Taken i) : s'.Installing gob log := by
  refine ⟨hfed ▸ h.nonneg, by rw [hstore, hfed]; exact h.store, ha, fun msg hm => ?_,
    fun msg hm => ?_, hfed ▸ hrec _ h.fed, hlast, fun i es hm => ?_⟩
  · rcases hinst msg hm with hm | hm
    · obtain ⟨hsnap, hr⟩ := h.installs msg hm
      exact ⟨hsnap, hrec _ hr⟩
    · exact hm
  · rw [hfed]
    rcases hrecv msg hm with hm | hm
    · obtain ⟨hr, hmsg⟩ := h.received msg hm
      exact ⟨hrec _ hr, hmsg⟩
    · exact hm
  · rcases happ i es hm with hm | hm
    · exact htaken i (h.applied i es hm)
    · exact hm

omit [DecidableEq B] in
theorem routine (h : s.Installing gob log) {p : Peer Op (List B) W}
    (hs : Raft.SameReports s.peer.raft p.raft) (ha : ∀ g ∈ p.raft.goroutines, Agrees log g) :
    ({ s with peer := p } : Replica W B).Installing gob log := by
  have happ : ∀ i es, .applied i es ∈ p.raft.goroutines ↔ .applied i es ∈ s.peer.raft.goroutines :=
    fun _ _ => hs.mem _ trivial
  have hinst : ∀ msg, .install msg ∈ p.raft.goroutines ↔ .install msg ∈ s.peer.raft.goroutines :=
    fun _ => hs.mem _ trivial
  have htaken : ∀ m, s.Taken m → ({ s with peer := p } : Replica W B).Taken m := fun _ hm =>
    hm.mono (Int.le_refl _) (fun msg hr => Or.inr (Or.inl ⟨msg, hr, Int.le_refl _⟩))
      fun msg hmem => Or.inr (Or.inr ⟨msg, (hinst msg).mpr hmem, Int.le_refl _⟩)
  refine h.of_raft rfl rfl ha ?_ htaken (fun msg hm => Or.inl ((hinst msg).mp hm))
    (fun msg hm => Or.inl hm) ?_ (fun i es hm => Or.inl ((happ i es).mp hm))
  · exact fun _ hm => hm.mono (Int.le_of_eq hs.lastApplied.symm)
      fun i es hmem => .of_mem ((happ i es).mpr hmem)
  · show Taken _ p.raft.lastApplied
    rw [hs.lastApplied]
    exact htaken _ h.lastApplied

omit [DecidableEq B] in
/-- The first entry of a goroutine of `setCommitIndex` is the one of the log. -/
theorem fed_of_agrees {index : Int} {e : LogEntry Op} {entries : List (LogEntry Op)}
    (h : Agrees log (.apply index (e :: entries) : Goroutine Op (List B)))
    (hle : index ≤ s.fed + 1) :
    Fed log s.fed (Raft.commandMsg index e : ApplyMsg Op (List B)) := by
  obtain ⟨hpos, hmap⟩ := h
  refine ⟨hpos, hle, ?_⟩
  show (log[index.toNat - 1]?).map (entryMsg index) = some (Raft.commandMsg index e)
  cases hd : log.drop (index.toNat - 1) with
  | nil => exact absurd hmap (by simp [hd])
  | cons op rest =>
    have hop : log[index.toNat - 1]? = some op := by
      rw [← Nat.add_zero (index.toNat - 1), ← List.getElem?_drop, hd]
      rfl
    rw [hd] at hmap
    simp only [List.map_cons, List.length_cons, List.take_succ_cons, List.cons.injEq] at hmap
    rw [hop, Option.map_some]
    unfold Raft.commandMsg entryMsg
    rw [hmap.1]

/-- A goroutine of `setCommitIndex` sends an entry. -/
theorem send (h : s.Installing gob log) {index : Int} {e : LogEntry Op}
    {entries : List (LogEntry Op)} {p : Peer Op (List B) W}
    (hgs : p.raft.goroutines =
      s.peer.raft.goroutines.erase (.apply index (e :: entries)) ++ [.applied index entries])
    (hl : p.raft.lastApplied = s.peer.raft.lastApplied)
    (hg : .apply index (e :: entries) ∈ s.peer.raft.goroutines) (hle : index ≤ s.fed + 1)
    (ha : ∀ g ∈ p.raft.goroutines, Agrees log g) (hr : s.kv.received = none) :
    ({ s with peer := p, kv := { s.kv with received := some (Raft.commandMsg index e) } } :
      Replica W B).Installing gob log := by
  obtain ⟨s', hs'⟩ : ∃ s' : Replica W B, s' = { s with
    peer := p, kv := { s.kv with received := some (Raft.commandMsg index e) } } := ⟨_, rfl⟩
  rw [← hs']
  have hmem : ∀ g, Raft.Reports g → (g ∈ s'.peer.raft.goroutines ↔
      g ∈ s.peer.raft.goroutines ∨ g = .applied index entries) := by
    intro g hrep
    rw [hs', hgs, List.mem_append, List.mem_singleton, Raft.mem_erase_iff id hrep]
  have htaken : ∀ m, s.Taken m → s'.Taken m := fun _ hm =>
    hm.mono (by rw [hs']) (fun msg hm' => absurd (hr.symm.trans hm') (by simp)) fun msg hm' =>
      Or.inr (Or.inr ⟨msg, (hmem (.install msg) trivial).mpr (Or.inl hm'), Int.le_refl _⟩)
  have hlast : s'.peer.raft.lastApplied = s.peer.raft.lastApplied := by rw [hs']; exact hl
  have hrecv : s'.kv.received = some (Raft.commandMsg index e) := by rw [hs']
  refine h.of_raft (by rw [hs']) (by rw [hs']) (by rw [hs']; exact ha) ?_ htaken ?_ ?_
    (hlast ▸ htaken _ h.lastApplied) ?_
  · exact fun _ hm => hm.mono (Int.le_of_eq hlast.symm)
      fun i es hm' => .of_mem ((hmem (.applied i es) trivial).mpr (Or.inl hm'))
  · intro msg hm
    rcases (hmem (.install msg) trivial).mp hm with hm | hm
    · exact Or.inl hm
    · exact absurd hm (by simp)
  · intro msg hm
    obtain rfl := Option.some.inj (hrecv.symm.trans hm)
    exact Or.inr ⟨.of_mem ((hmem (.applied index entries) trivial).mpr (Or.inr rfl)),
      Or.inl (fed_of_agrees (h.agree _ hg) hle)⟩
  · intro i es hm
    rcases (hmem (.applied i es) trivial).mp hm with hm | hm
    · exact Or.inl hm
    · cases hm
      exact Or.inr (Or.inr (Or.inl ⟨_, hrecv, Int.le_refl _⟩))

/-- The goroutine records the index of what it has sent. -/
theorem record (h : s.Installing gob log) {index : Int} {entries : List (LogEntry Op)}
    {p : Peer Op (List B) W}
    (hgs : p.raft.goroutines =
      s.peer.raft.goroutines.erase (.applied index entries) ++ [.apply (index + 1) entries])
    (hl : p.raft.lastApplied = max s.peer.raft.lastApplied index)
    (hg : .applied index entries ∈ s.peer.raft.goroutines)
    (ha : ∀ g ∈ p.raft.goroutines, Agrees log g) :
    ({ s with peer := p } : Replica W B).Installing gob log := by
  have hold : ∀ g, g ∈ s.peer.raft.goroutines → g = .applied index entries ∨
      g ∈ p.raft.goroutines := by
    intro g hm
    by_cases heq : g = .applied index entries
    · exact Or.inl heq
    · rw [hgs]
      exact Or.inr (List.mem_append_left _ ((List.mem_erase_of_ne heq).mpr hm))
  have hnew : ∀ g, Raft.Reports g → g ∈ p.raft.goroutines → g ∈ s.peer.raft.goroutines := by
    intro g hrep hm
    rw [hgs] at hm
    exact List.mem_of_mem_erase ((Raft.mem_append_iff (by simp [Raft.Reports]) hrep).mp hm)
  have htaken : ∀ m, s.Taken m → ({ s with peer := p } : Replica W B).Taken m := fun _ hm =>
    hm.mono (Int.le_refl _) (fun msg hr => Or.inr (Or.inl ⟨msg, hr, Int.le_refl _⟩))
      fun msg hm' => Or.inr (Or.inr ⟨msg, (hold _ hm').resolve_left (by simp), Int.le_refl _⟩)
  refine h.of_raft rfl rfl ha (fun _ hm => hm.mono ?_ fun i es hm' => ?_) htaken
    (fun msg hm => Or.inl (hnew (.install msg) trivial hm)) (fun msg hm => Or.inl hm) ?_
    (fun i es hm => Or.inl (hnew (.applied i es) trivial hm))
  · show s.peer.raft.lastApplied ≤ p.raft.lastApplied
    omega
  · rcases hold _ hm' with heq | hm'
    · cases heq
      exact Or.inl (show index ≤ p.raft.lastApplied by omega)
    · exact .of_mem hm'
  · show Taken _ p.raft.lastApplied
    rw [hl]
    rcases Int.le_total s.peer.raft.lastApplied index with hle | hle
    · rw [Int.max_eq_right hle]
      exact htaken _ (h.applied index entries hg)
    · rw [Int.max_eq_left hle]
      exact htaken _ h.lastApplied

/-- The goroutine of `InstallSnapshot` sends its message. -/
theorem sendSnapshot (h : s.Installing gob log) {msg : ApplyMsg Op (List B)}
    {p : Peer Op (List B) W}
    (hgs : p.raft.goroutines = s.peer.raft.goroutines.erase (.install msg))
    (hl : p.raft.lastApplied = s.peer.raft.lastApplied)
    (hg : .install msg ∈ s.peer.raft.goroutines) (hle : s.fed ≤ msg.commandIndex)
    (ha : ∀ g ∈ p.raft.goroutines, Agrees log g) (hr : s.kv.received = none) :
    ({ s with peer := p, kv := { s.kv with received := some msg } } :
      Replica W B).Installing gob log := by
  obtain ⟨s', hs'⟩ : ∃ s' : Replica W B, s' = { s with
    peer := p, kv := { s.kv with received := some msg } } := ⟨_, rfl⟩
  rw [← hs']
  have hrecv : s'.kv.received = some msg := by rw [hs']
  have hlast : s'.peer.raft.lastApplied = s.peer.raft.lastApplied := by rw [hs']; exact hl
  have hgs' : s'.peer.raft.goroutines = s.peer.raft.goroutines.erase (.install msg) := by
    rw [hs']; exact hgs
  have hnew : ∀ g, g ∈ s'.peer.raft.goroutines → g ∈ s.peer.raft.goroutines := by
    intro g hm
    rw [hgs'] at hm
    exact List.mem_of_mem_erase hm
  have htaken : ∀ m, s.Taken m → s'.Taken m := by
    refine fun _ hm => hm.mono (by rw [hs'])
      (fun msg hm' => absurd (hr.symm.trans hm') (by simp)) fun msg' hm' => ?_
    by_cases heq : msg' = msg
    · subst heq
      exact Or.inr (Or.inl ⟨msg', hrecv, Int.le_refl _⟩)
    · refine Or.inr (Or.inr ⟨msg', ?_, Int.le_refl _⟩)
      rw [hgs']
      exact (List.mem_erase_of_ne (by simpa using heq)).mpr hm'
  have hrec : ∀ m, Recorded s.peer.raft m → Recorded s'.peer.raft m := by
    refine fun _ hm => hm.mono (Int.le_of_eq hlast.symm) fun i es hm' => ?_
    have hm₁ : .applied i es ∈ s'.peer.raft.goroutines := by
      rw [hgs']
      exact (List.mem_erase_of_ne (by simp)).mpr hm'
    exact .of_mem hm₁
  refine h.of_raft (by rw [hs']) (by rw [hs']) (by rw [hs']; exact ha) hrec htaken
    (fun msg hm => Or.inl (hnew _ hm)) ?_ (hlast ▸ htaken _ h.lastApplied)
    (fun i es hm => Or.inl (hnew _ hm))
  intro msg' hm
  obtain rfl := Option.some.inj (hrecv.symm.trans hm)
  obtain ⟨hsnap, hm'⟩ := h.installs msg hg
  exact Or.inr ⟨hrec _ hm', Or.inr ⟨hsnap, hle⟩⟩

omit [DecidableEq B] in
/-- `InstallSnapshot` accepts a snapshot. -/
theorem accept (h : s.Installing gob log) {index : Int} {data : Option (List B)}
    {gs : List (Goroutine Op (List B))} {p : Peer Op (List B) W}
    (hpos : 0 ≤ index)
    (hdata : data = some ((Store.replay (log.take index.toNat)).encode gob))
    (hgs : p.raft.goroutines = s.peer.raft.goroutines ++ gs)
    (hl : p.raft.lastApplied = max s.peer.raft.lastApplied index)
    (hnew : (gs = [] ∧ index < s.peer.raft.lastApplied) ∨
      gs = [.install (Raft.installSnapshotMsg index data)])
    (ha : ∀ g ∈ p.raft.goroutines, Agrees log g) :
    ({ s with peer := p } : Replica W B).Installing gob log := by
  have hold : ∀ g, g ∈ s.peer.raft.goroutines → g ∈ p.raft.goroutines := fun g hm => by
    rw [hgs]; exact List.mem_append_left _ hm
  have hmem : ∀ g, g ∈ p.raft.goroutines → g ∈ s.peer.raft.goroutines ∨
      g = .install (Raft.installSnapshotMsg index data) := by
    intro g hm
    rw [hgs] at hm
    rcases List.mem_append.mp hm with hm | hm
    · exact Or.inl hm
    · rcases hnew with ⟨rfl, -⟩ | rfl
      · exact absurd hm (by simp)
      · exact Or.inr (List.mem_singleton.mp hm)
  have htaken : ∀ m, s.Taken m → ({ s with peer := p } : Replica W B).Taken m := fun _ hm =>
    hm.mono (Int.le_refl _) (fun msg hr => Or.inr (Or.inl ⟨msg, hr, Int.le_refl _⟩))
      fun msg hm' => Or.inr (Or.inr ⟨msg, hold _ hm', Int.le_refl _⟩)
  refine h.of_raft rfl rfl ha (fun _ hm => hm.mono ?_ fun i es hm' => .of_mem (hold _ hm')) htaken
    (fun msg hm => ?_) (fun msg hm => Or.inl hm) ?_ (fun i es hm => Or.inl ?_)
  · show s.peer.raft.lastApplied ≤ p.raft.lastApplied
    omega
  · rcases hmem _ hm with hm | hm
    · exact Or.inl hm
    · cases hm
      exact Or.inr ⟨⟨rfl, hpos, hdata⟩, Or.inl (show index ≤ p.raft.lastApplied by omega)⟩
  · show Taken _ p.raft.lastApplied
    rw [hl]
    rcases hnew with ⟨-, hlt⟩ | rfl
    · rw [Int.max_eq_left (Int.le_of_lt hlt)]
      exact htaken _ h.lastApplied
    · rcases Int.le_total s.peer.raft.lastApplied index with hle | hle
      · rw [Int.max_eq_right hle]
        refine Or.inr (Or.inr ⟨Raft.installSnapshotMsg index data, ?_, Int.le_refl _⟩)
        show _ ∈ p.raft.goroutines
        rw [hgs]
        exact List.mem_append_right _ (List.mem_singleton_self _)
      · rw [Int.max_eq_left hle]
        exact htaken _ h.lastApplied
  · rcases hmem _ hm with hm | hm
    · exact hm
    · exact absurd hm (by simp)

theorem raftStep (h : s.Installing gob log) {input : Input Op (List B)} {s' : Replica W B}
    (hacc : Accepts gob log input) (ha : ∀ g ∈ s.goroutinesAfter rgob input, Agrees log g)
    (ho : s.InOrder (.raft input)) (hs : s.raftStep rgob gob input = some s') :
    s'.Installing gob log := by
  obtain ⟨rf, out, kv, hstep, hkv, rfl⟩ := raftStep_cases hs
  have ha' : ∀ g ∈ rf.goroutines, Agrees log g := by
    unfold goroutinesAfter at ha
    rw [hstep] at ha
    exact ha
  have hst := Raft.step_cases hstep
  have hquiet : sentMsgs out = [] → Raft.SameReports s.peer.raft rf →
      ({ s with peer := ⟨rf, s.peer.history ++ out⟩, kv := kv } : Replica W B).Installing gob log := by
    intro hout hsame
    rcases receiveAll_cases hkv with ⟨-, rfl⟩ | ⟨msg, hmsg, -, -⟩
    · exact h.routine hsame ha'
    · exact absurd (hmsg.symm.trans hout) (by simp)
  have hroutine : Raft.Routine input → sentMsgs out = [] ∧ Raft.SameReports s.peer.raft rf :=
    fun hr => ⟨sentMsgs_of_step hst hr, Raft.sameReports_of_step hst hr⟩
  cases hst with
  | restart => exact absurd hacc id
  | snapshotOld => exact hquiet rfl (Raft.sameReports_of_eq rfl rfl)
  | snapshot hterm hindex hgs =>
    obtain ⟨-, rfl⟩ | ⟨_, hmsg, -⟩ := receiveAll_cases hkv
    · exact h.accept hacc.1 hacc.2 (by rw [Raft.adoptTerm_frame]; rfl)
        (by rw [Raft.adoptTerm_frame]; rfl) hgs ha'
    · exact absurd hmsg (by simp [sentMsgs])
  | apply hg =>
    obtain ⟨hmsg, -⟩ | ⟨msg, hmsg, hr, rfl⟩ := receiveAll_cases hkv
    · exact absurd hmsg (by simp [sentMsgs])
    · obtain rfl : _ = msg := (List.cons.inj hmsg).1
      exact h.send rfl rfl hg ho ha' hr
  | applied hg =>
    obtain ⟨-, rfl⟩ | ⟨_, hmsg, -⟩ := receiveAll_cases hkv
    · exact h.record rfl rfl hg ha'
    · exact absurd hmsg (by simp [sentMsgs])
  | install hg =>
    obtain ⟨hmsg, -⟩ | ⟨msg, hmsg, hr, rfl⟩ := receiveAll_cases hkv
    · exact absurd hmsg (by simp [sentMsgs])
    · obtain rfl : _ = msg := (List.cons.inj hmsg).1
      exact h.sendSnapshot rfl rfl hg ho ha' hr
  | idle hg hp =>
    exact hquiet rfl (Raft.sameReports_leave (Raft.not_reports_of_not_pending hp) rfl rfl)
  | _ =>
    obtain ⟨hout, hsame⟩ := hroutine trivial
    exact hquiet hout hsame

theorem replaceLog (h : s.Installing gob log) {s' : Replica W B} {index : Int} {data : List B}
    (hs : s.step rgob gob (.replaceLog index data) = some s') : s'.Installing gob log := by
  simp only [step] at hs
  split at hs
  · obtain ⟨rf, out, kv, hstep, hkv, rfl⟩ := raftStep_cases hs
    have hst := Raft.step_cases hstep
    have hsame := Raft.sameReports_of_step hst trivial
    have ha : ∀ g ∈ rf.goroutines, Agrees log g := by
      cases hst with
      | replaceIgnored => exact h.agree
      | replaced =>
        intro g hg
        rcases List.mem_append.mp hg with hg | hg
        · exact h.agree g hg
        · obtain ⟨server, -, rfl⟩ := List.mem_map.mp hg
          trivial
    obtain ⟨-, rfl⟩ | ⟨_, hmsg, -⟩ := receiveAll_cases hkv
    · have h₁ : ({ s with kv := { s.kv with snapshots := s.kv.snapshots.erase (index, data) } } :
          Replica W B).Installing gob log :=
        ⟨h.nonneg, h.store, h.agree, h.installs, h.received, h.fed, h.lastApplied, h.applied⟩
      exact h₁.routine hsame ha
    · exact absurd (hmsg.symm.trans (sentMsgs_of_step hst trivial)) (by simp)
  · exact absurd hs (by simp)

/-! ## Steps of the server -/

omit [DecidableEq B] in
/-- The server is done with a message that has led it to the state at its index. -/
theorem takeIn (h : s.Installing gob log) {msg : ApplyMsg Op (List B)} {kv : KVServer B}
    (hr : s.kv.received = some msg) (hkv : kv.received = none)
    (hstore : kv.toStore = Store.replay (log.take (max s.fed msg.commandIndex).toNat)) :
    ({ s with kv := kv, fed := max s.fed msg.commandIndex } : Replica W B).Installing gob log := by
  have htaken : ∀ m, s.Taken m → ({ s with kv := kv, fed := max s.fed msg.commandIndex } :
      Replica W B).Taken m := by
    refine fun _ hm => hm.mono (Int.le_max_left _ _) (fun msg' hm' => ?_) fun msg' hm' =>
      Or.inr (Or.inr ⟨msg', hm', Int.le_refl _⟩)
    obtain rfl := Option.some.inj (hr.symm.trans hm')
    exact Or.inl (Int.le_max_right _ _)
  refine ⟨?_, hstore, h.agree, h.installs, fun _ hm => absurd (hkv.symm.trans hm) (by simp), ?_,
    htaken _ h.lastApplied, fun i es hm => htaken _ (h.applied i es hm)⟩
  · have := h.nonneg
    show 0 ≤ max s.fed msg.commandIndex
    omega
  · show Recorded _ (max s.fed msg.commandIndex)
    rcases Int.le_total s.fed msg.commandIndex with hle | hle
    · rw [Int.max_eq_right hle]
      exact (h.received msg hr).1
    · rw [Int.max_eq_left hle]
      exact h.fed

omit [DecidableEq B] in
theorem kvStep (hg : gob.RoundTrip) (h : s.Installing gob log) {input : KVInput B}
    {kv : KVServer B} {out : List KVOutput} (hin : ∀ msg, input ≠ .receive msg)
    (hs : KVServer.Step gob s.kv input kv out) :
    ({ s with kv := kv, fed := s.fedAfter input } : Replica W B).Installing gob log := by
  have hfed : ∀ msg, s.kv.received = some msg → s.fedAfter .apply = max s.fed msg.commandIndex :=
    fun msg hr => by rw [fedAfter, hr]; rfl
  -- a command in the server's hands is the one of the log, so it leads to the state there
  have hcommand : ∀ msg op, s.kv.received = some msg → msg.commandValid = true →
      msg.command = .client op → s.kv.toStore.apply op =
        Store.replay (log.take (max s.fed msg.commandIndex).toNat) := by
    intro msg op hr hv hc
    rcases (h.received msg hr).2 with hf | ⟨⟨hv', -⟩, -⟩
    · rw [h.store]
      exact apply_fed h.nonneg hf.1 hf.2.1 (hf.op hc)
    · exact absurd (hv.symm.trans hv') (by simp)
  cases hs with
  | request | refused | started | timeout | register | notified | finished | finishedGet | read
  | takeSnapshot =>
    exact ⟨h.nonneg, h.store, h.agree, h.installs, h.received, h.fed, h.lastApplied, h.applied⟩
  | receive => exact absurd rfl (hin _)
  | @duplicate msg op hr hv hc hd =>
    rw [hfed msg hr]
    refine h.takeIn hr rfl ?_
    rw [← hcommand msg op hr hv hc, Store.apply_of_duplicate hd]
  | @applied msg op channels hr hv hc hd =>
    rw [hfed msg hr]
    refine h.takeIn hr rfl ?_
    rw [← hcommand msg op hr hv hc]
    unfold Store.apply
    rw [if_neg hd]
  | @installed msg hr hv =>
    rw [hfed msg hr]
    rcases (h.received msg hr).2 with hf | ⟨⟨-, -, hdata⟩, hle⟩
    · obtain ⟨op, -, hmsg⟩ := hf.entry
      rw [hmsg] at hv
      exact absurd hv (by simp [entryMsg])
    · rw [hdata]
      refine h.takeIn hr rfl ?_
      show Store.decode gob s.kv.toStore _ = _
      -- the snapshot is not behind the server, so it has all of the server's keys
      have hcov := Store.covers_take log (show s.fed.toNat ≤ msg.commandIndex.toNat by omega)
      rw [Store.decode_encode hg, h.store, Store.overlay_of_covers hcov, Int.max_eq_right hle]

theorem step (hg : gob.RoundTrip) (h : s.Installing gob log) {e : ReplicaEvent B}
    {s' : Replica W B} (hserves : s.Serves rgob gob log e) (ho : s.InOrder e)
    (hs : s.step rgob gob e = some s') : s'.Installing gob log := by
  cases e with
  | raft input => exact h.raftStep hserves.1 hserves.2 ho hs
  | kv input =>
    simp only [Replica.step] at hs
    obtain ⟨⟨kv, out⟩, hkv, rfl⟩ := Option.map_eq_some_iff.mp hs
    refine h.kvStep hg (fun msg heq => ?_) (KVServer.step_cases hkv)
    subst heq
    exact hserves
  | replaceLog => exact h.replaceLog hs
  | restart => exact absurd hserves id

omit [DecidableEq B] in
theorem init (rgob : Labgob Op W) (gob : KVGob B) (log : List Op) (peers me : Nat) :
    (Replica.init rgob gob peers me).Installing gob log := by
  have hgs : (Replica.init rgob gob peers me).peer.raft.goroutines = [] := rfl
  refine ⟨Int.le_refl 0, rfl, ?_, ?_, ?_, Or.inl (Int.le_refl 0), Or.inl (Int.le_refl 0), ?_⟩
  · exact fun g hg => absurd hg (by simp [hgs])
  · exact fun msg hg => absurd hg (by simp [hgs])
  · exact fun msg hm => absurd hm (by simp [Replica.init, KVServer.startKVServer,
      KVServer.installSnapshot, KVServer.blank])
  · exact fun i es hg => absurd hg (by simp [hgs])

end Installing

end

/-! ## The result -/

/-- When the messages are received in order, the maps of a quiet replica are those of the
committed log up to `lastApplied`. -/
theorem lastApplied_state (hg : gob.RoundTrip) (log : List Op) (peers me : Nat)
    {es : List (ReplicaEvent B)} {s : Replica W B}
    (h : Runs.Run (step rgob gob) (fun s e => s.Serves rgob gob log e ∧ s.InOrder e)
      (init rgob gob peers me) es s) (hq : s.Quiet) :
    s.kv.toStore = Store.replay (log.take s.peer.raft.lastApplied.toNat) := by
  have hinv := h.invariant (Installing gob log) (Installing.init rgob gob log peers me)
    fun _ _ _ hs hok hst => hs.step hg hok.1 hok.2 hst
  rw [← hinv.fed_eq hq]
  exact hinv.store

/-- The snapshot of the log at index 1. -/
def snapshotA : List KVWord := (Store.replay [putA]).encode KVGob.words

/-- A follower accepts the snapshot at index 1 and then commits index 2. -/
def snapshotThenEntry : List (ReplicaEvent KVWord) :=
  [.raft (.installSnapshot ⟨1, 0, 1, 1, some snapshotA⟩),
    .raft (.appendEntries ⟨1, 0, 1, 1, [⟨.client appendB, 1⟩], 1⟩),
    .raft (.appendEntries ⟨1, 0, 2, 1, [], 2⟩)]

def sendSnapshotA : List (ReplicaEvent KVWord) :=
  [.raft (.resume (.install (Raft.installSnapshotMsg 1 (some snapshotA)))), .kv .apply]

def sendEntryB : List (ReplicaEvent KVWord) :=
  [.raft (.resume (.apply 2 [⟨.client appendB, 1⟩])), .kv .apply, .raft (.resume (.applied 2 []))]

theorem lastApplied_state_inOrder :
    ∃ s : Replica (Word Op) KVWord, s.Quiet ∧ s.peer.raft.lastApplied = 2 ∧
      s.kv.toStore = Store.replay ([putA, appendB].take s.peer.raft.lastApplied.toNat) := by
  have hexec : (Runs.exec (step (Labgob.words Op) KVGob.words)
      (fun s e => s.Serves (Labgob.words Op) KVGob.words [putA, appendB] e ∧ s.InOrder e)
      (init (Labgob.words Op) KVGob.words 3 1) (snapshotThenEntry ++ sendSnapshotA ++ sendEntryB)).map
        (fun s => (decide s.Quiet, s.peer.raft.lastApplied)) = some (true, 2) := by decide +kernel
  obtain ⟨s, hrun, hst⟩ := Runs.run_of_exec_map _ hexec
  obtain ⟨hq, hl⟩ := Prod.mk.inj hst
  have hquiet := of_decide_eq_true hq
  exact ⟨s, hquiet, hl,
    lastApplied_state KVGob.words_roundTrip [putA, appendB] 3 1 hrun hquiet⟩

/-- The entry at index 2 overtakes the snapshot at index 1, which then takes the key and
the request back. -/
theorem entry_lost_behind_snapshot :
    ∃ (es : List (ReplicaEvent KVWord)) (s : Replica (Word Op) KVWord),
      Runs.Run (step (Labgob.words Op) KVGob.words)
        (Serves (Labgob.words Op) KVGob.words [putA, appendB])
        (init (Labgob.words Op) KVGob.words 3 1) es s ∧
      s.Quiet ∧ s.peer.raft.lastApplied = 2 ∧ s.kv.db.lookup "x" = some "a" ∧
      (Store.replay ([putA, appendB].take 2)).db.lookup "x" = some "ab" := by
  have hexec : (Runs.exec (step (Labgob.words Op) KVGob.words)
      (Serves (Labgob.words Op) KVGob.words [putA, appendB])
      (init (Labgob.words Op) KVGob.words 3 1) (snapshotThenEntry ++ sendEntryB ++ sendSnapshotA)).map
        (fun s => (decide s.Quiet, s.peer.raft.lastApplied, s.kv.db.lookup "x")) =
          some (true, 2, some "a") := by decide +kernel
  obtain ⟨s, hrun, hst⟩ := Runs.run_of_exec_map _ hexec
  simp only [Prod.mk.injEq] at hst
  exact ⟨_, s, hrun, of_decide_eq_true hst.1, hst.2.1, hst.2.2, by decide +kernel⟩

end Replica

end DistributionSystem
