import DistributionSystem.Raft.Step

/-! What a crash cannot lose. Every step either leaves the persistent fields and the
persister alone, or ends with a save of the persistent fields (`DiskStep`), so the
recovery of `Make` on the persister always gives back the peer's own term, vote,
snapshot index and log (`recovery_exact`). -/

namespace DistributionSystem

variable {C D B : Type}

/-- The snapshots stored by `SaveStateAndSnapshot`, with the index saved beside them. -/
def saves (out : List (Output C D)) : List (Int × Option D) :=
  out.filterMap fun
    | .saved index snapshot => some (index, snapshot)
    | _ => none

/-- The last of them; a fresh persister holds no snapshot and index 0. -/
def lastSaved (history : List (Output C D)) : Int × Option D :=
  (saves history).getLast?.getD (0, none)

theorem saves_append (a b : List (Output C D)) : saves (a ++ b) = saves a ++ saves b :=
  List.filterMap_append

theorem saves_calls (l : List Nat) (request : Request C D) :
    saves (l.map (Output.call · request)) = [] := by
  simp [saves]

namespace Raft

/-- The recovery of `Make` on the persister gives the peer's persistent fields. -/
def Recovers (gob : Labgob C B) (rf : Raft C D B) : Prop :=
  let r : Raft C D B := make gob rf.peers rf.me rf.persister
  r.currentTerm = rf.currentTerm ∧ r.votedFor = rf.votedFor ∧
    r.snapshottedIndex = rf.snapshottedIndex ∧ r.logs = rf.logs

theorem decode_encode {gob : Labgob C B} (hg : gob.RoundTrip) (rf : Raft C D B) :
    decodeRaftState gob (rf.encodeRaftState gob) =
      some (rf.currentTerm, rf.votedFor, rf.snapshottedIndex, rf.logs) := by
  have hl := hg.logs rf.logs []
  rw [List.append_nil] at hl
  simp [decodeRaftState, encodeRaftState, hg.int, hl]

theorem encodeRaftState_ne {gob : Labgob C B} (hg : gob.RoundTrip) (rf : Raft C D B) :
    ¬ (rf.encodeRaftState gob).length < 1 := by
  have h := List.length_pos_of_ne_nil (hg.int_ne rf.currentTerm)
  simp only [encodeRaftState, List.length_append]
  omega

theorem recovers_of_saved {gob : Labgob C B} (hg : gob.RoundTrip) {rf : Raft C D B}
    (h : rf.persister.raftstate = rf.encodeRaftState gob) : rf.Recovers gob := by
  simp only [Recovers, make, readPersist, h, if_neg (encodeRaftState_ne hg rf), decode_encode hg,
    and_self]

theorem readPersist_frame (gob : Labgob C B) (rf : Raft C D B) (data : List B) :
    rf.readPersist gob data =
      { rf with
        currentTerm := (rf.readPersist gob data).currentTerm
        votedFor := (rf.readPersist gob data).votedFor
        snapshottedIndex := (rf.readPersist gob data).snapshottedIndex
        logs := (rf.readPersist gob data).logs
        commitIndex := (rf.readPersist gob data).commitIndex
        lastApplied := (rf.readPersist gob data).lastApplied } := by
  unfold readPersist
  split
  · rfl
  · split <;> rfl

/-- What `Make` does not read from the persister is as in a blank peer. -/
theorem make_frame (gob : Labgob C B) (peers me : Nat) (ps : Persister D B) :
    make gob peers me ps =
      { (blank peers me ps : Raft C D B) with
        currentTerm := (make gob peers me ps : Raft C D B).currentTerm
        votedFor := (make gob peers me ps : Raft C D B).votedFor
        snapshottedIndex := (make gob peers me ps : Raft C D B).snapshottedIndex
        logs := (make gob peers me ps : Raft C D B).logs
        commitIndex := (make gob peers me ps : Raft C D B).commitIndex
        lastApplied := (make gob peers me ps : Raft C D B).lastApplied
        nextIndex := (make gob peers me ps : Raft C D B).nextIndex
        matchIndex := (make gob peers me ps : Raft C D B).matchIndex } := by
  unfold make
  dsimp only
  rw [readPersist_frame]

@[simp] theorem make_persister (gob : Labgob C B) (peers me : Nat) (ps : Persister D B) :
    (make gob peers me ps : Raft C D B).persister = ps := by
  rw [make_frame]; rfl

@[simp] theorem make_me (gob : Labgob C B) (peers me : Nat) (ps : Persister D B) :
    (make gob peers me ps : Raft C D B).me = me := by
  rw [make_frame]; rfl

@[simp] theorem make_peers (gob : Labgob C B) (peers me : Nat) (ps : Persister D B) :
    (make gob peers me ps : Raft C D B).peers = peers := by
  rw [make_frame]; rfl

/-- A restarted peer takes the snapshot for committed and applied, and nothing else. -/
theorem make_indices (gob : Labgob C B) (peers me : Nat) (ps : Persister D B) :
    (make gob peers me ps : Raft C D B).commitIndex =
        (make gob peers me ps : Raft C D B).snapshottedIndex ∧
      (make gob peers me ps : Raft C D B).lastApplied =
        (make gob peers me ps : Raft C D B).snapshottedIndex := by
  simp only [make, readPersist]
  split
  · exact ⟨rfl, rfl⟩
  · split <;> exact ⟨rfl, rfl⟩

theorem recovers_make (gob : Labgob C B) (peers me : Nat) (ps : Persister D B) :
    (make gob peers me ps).Recovers gob := by
  simp [Recovers]

/-! ## What a step does to the persister -/

/-- The fields that recovery depends on. -/
def disk (rf : Raft C D B) :=
  (rf.persister, rf.me, rf.peers, rf.currentTerm, rf.votedFor, rf.snapshottedIndex, rf.logs)

/-- A step that shows `out` keeps the persistent fields and the persister, or saves
the state, or saves it with a snapshot, or starts again from the persister. -/
inductive DiskStep (gob : Labgob C B) (rf rf' : Raft C D B) (out : List (Output C D)) : Prop
  | same (h : rf'.disk = rf.disk) (hs : saves out = [])
  | state (h : rf'.persister = ⟨rf'.encodeRaftState gob, rf.persister.snapshot⟩)
      (hi : rf'.snapshottedIndex = rf.snapshottedIndex) (hs : saves out = [])
  | snapshot (h : rf'.persister.raftstate = rf'.encodeRaftState gob)
      (hs : saves out = [(rf'.snapshottedIndex, rf'.persister.snapshot)])
  | restart (h : rf' = make gob rf.peers rf.me rf.persister) (hs : out = [])

theorem diskStep_persist (gob : Labgob C B) (rf r : Raft C D B) {out : List (Output C D)}
    (hs : r.persister.snapshot = rf.persister.snapshot)
    (hi : r.snapshottedIndex = rf.snapshottedIndex) (ho : saves out = []) :
    DiskStep gob rf (r.persist gob) out :=
  .state (by rw [← hs]; rfl) hi ho

theorem setCommitIndex_disk {rf r : Raft C D B} {c : Int} (h : rf.setCommitIndex c = some r) :
    r.disk = rf.disk := by
  rw [setCommitIndex_frame h]; rfl

variable [DecidableEq C] [DecidableEq D]

theorem step_disk {gob : Labgob C B} {rf rf' : Raft C D B} {input : Input C D}
    {out : List (Output C D)} (h : Step gob rf input rf' out) : DiskStep gob rf rf' out := by
  cases h with
  | electionTimer =>
    rw [candidateState_frame]
    exact diskStep_persist gob rf _ rfl rfl (saves_calls _ _)
  | refuseTerm | appendOld => exact diskStep_persist gob rf _ rfl rfl rfl
  | refuseLog | grant => rw [adoptTerm_frame]; exact diskStep_persist gob rf _ rfl rfl rfl
  | append _ h =>
    rw [h.frame, adoptTerm_frame]
    exact diskStep_persist gob rf _ rfl rfl rfl
  | snapshot => exact .snapshot rfl rfl
  | voteStepDown | appendStepDown | snapshotStepDown =>
    rw [stepDown_frame]
    exact diskStep_persist gob rf _ rfl rfl rfl
  | appendCommit _ _ _ _ hr => exact .same ((setCommitIndex_disk hr).trans rfl) rfl
  | startAppend => exact .state rfl rfl rfl
  | replaced => exact .snapshot rfl rfl
  | restart => exact .restart rfl rfl
  | _ => exact .same rfl rfl

/-- `me` and the number of peers are set by `Make` for good. -/
theorem step_config {gob : Labgob C B} {rf rf' : Raft C D B} {input : Input C D}
    {out : List (Output C D)} (h : Step gob rf input rf' out) :
    rf'.me = rf.me ∧ rf'.peers = rf.peers := by
  cases h with
  | electionTimer => rw [candidateState_frame]; exact ⟨rfl, rfl⟩
  | refuseLog | grant | snapshot => rw [adoptTerm_frame]; exact ⟨rfl, rfl⟩
  | append _ h => rw [h.frame, adoptTerm_frame]; exact ⟨rfl, rfl⟩
  | voteStepDown | appendStepDown | snapshotStepDown => rw [stepDown_frame]; exact ⟨rfl, rfl⟩
  | appendCommit _ _ _ _ hr => rw [setCommitIndex_frame hr]; exact ⟨rfl, rfl⟩
  | restart => exact ⟨make_me .., make_peers ..⟩
  | _ => exact ⟨rfl, rfl⟩

end Raft

/-! ## Recovery in every reachable state -/

namespace Peer

/-- Recovery works, and the stored snapshot belongs to the stored index. -/
structure Durable (gob : Labgob C B) (p : Peer C D B) : Prop where
  recovers : p.raft.Recovers gob
  snapshot : lastSaved p.history = (p.raft.snapshottedIndex, p.raft.persister.snapshot)

theorem lastSaved_append_nil (h out : List (Output C D)) (hs : saves out = []) :
    lastSaved (h ++ out) = lastSaved h := by
  rw [lastSaved, saves_append, hs, List.append_nil, lastSaved]

theorem durable_init (gob : Labgob C B) (peers me : Nat) :
    (init gob peers me : Peer C D B).Durable gob :=
  ⟨Raft.recovers_make gob peers me _, rfl⟩

variable [DecidableEq C] [DecidableEq D]

theorem durable_step {gob : Labgob C B} (hg : gob.RoundTrip) {p q : Peer C D B}
    {input : Input C D} (h : p.Durable gob) (hs : p.step gob input = some q) : q.Durable gob := by
  obtain ⟨⟨rf', out⟩, hr, rfl⟩ := Option.map_eq_some_iff.mp hs
  obtain ⟨hrec, hlast⟩ := h
  cases Raft.step_disk (Raft.step_cases hr) with
  | same hd ho =>
    simp only [Raft.disk, Prod.mk.injEq] at hd
    obtain ⟨hp, hme, hpeers, ht, hv, hi, hl⟩ := hd
    refine ⟨?_, ?_⟩
    · simpa only [Raft.Recovers, hp, hme, hpeers, ht, hv, hi, hl] using hrec
    · rw [lastSaved_append_nil _ _ ho, hlast, hp, hi]
  | state hp hi ho =>
    refine ⟨Raft.recovers_of_saved hg (by rw [hp]), ?_⟩
    rw [lastSaved_append_nil _ _ ho, hlast, hp, hi]
  | snapshot hp ho =>
    refine ⟨Raft.recovers_of_saved hg hp, ?_⟩
    rw [lastSaved, saves_append, ho, List.getLast?_concat, Option.getD_some]
  | restart he ho =>
    subst he ho
    refine ⟨Raft.recovers_make gob _ _ _, ?_⟩
    rw [List.append_nil, hlast, Raft.make_persister, hrec.2.2.1]

theorem durable_of_run {gob : Labgob C B} (hg : gob.RoundTrip) (peers me : Nat)
    {es : List (Input C D)} {p : Peer C D B}
    (h : Runs.Run (step gob) (fun _ _ => True) (init gob peers me) es p) : p.Durable gob :=
  h.invariant (Durable gob) (durable_init gob peers me)
    fun _ _ _ hp _ hs => durable_step hg hp hs

theorem config_step {gob : Labgob C B} {p q : Peer C D B} {input : Input C D}
    (hs : p.step gob input = some q) : q.raft.me = p.raft.me ∧ q.raft.peers = p.raft.peers := by
  obtain ⟨⟨rf', out⟩, hr, rfl⟩ := Option.map_eq_some_iff.mp hs
  exact Raft.step_config (Raft.step_cases hr)

theorem config_of_run {gob : Labgob C B} {ok : Peer C D B → Input C D → Prop} {peers me : Nat}
    {es : List (Input C D)} {p : Peer C D B}
    (h : Runs.Run (step gob) ok (init gob peers me) es p) :
    p.raft.me = me ∧ p.raft.peers = peers := by
  refine h.invariant (fun s => s.raft.me = me ∧ s.raft.peers = peers)
    ⟨Raft.make_me .., Raft.make_peers ..⟩ ?_
  rintro s e t ⟨hme, hpeers⟩ - hst
  obtain ⟨hme', hpeers'⟩ := config_step hst
  exact ⟨hme'.trans hme, hpeers'.trans hpeers⟩

/-- Durability: whenever the mutex of a peer is free, `Make` on its persister finds the
peer's own persistent fields, and the snapshot in the persister is the one that was
stored together with the present `snapshottedIndex`. -/
theorem recovery_exact {gob : Labgob C B} (hg : gob.RoundTrip) (peers me : Nat)
    {es : List (Input C D)} {p : Peer C D B}
    (h : Runs.Run (step gob) (fun _ _ => True) (init gob peers me) es p) :
    let r : Raft C D B := Raft.make gob peers me p.raft.persister
    r.currentTerm = p.raft.currentTerm ∧ r.votedFor = p.raft.votedFor ∧
      r.snapshottedIndex = p.raft.snapshottedIndex ∧ r.logs = p.raft.logs ∧
      lastSaved p.history = (p.raft.snapshottedIndex, p.raft.persister.snapshot) := by
  obtain ⟨hme, hpeers⟩ := config_of_run h
  obtain ⟨hrec, hsaved⟩ := durable_of_run hg peers me h
  rw [Raft.Recovers, hme, hpeers] at hrec
  exact ⟨hrec.1, hrec.2.1, hrec.2.2.1, hrec.2.2.2, hsaved⟩

/-- A peer that stood for election and crashed finds its term and its vote again. -/
theorem recovery_after_election :
    ∃ p : Peer Nat Nat (Word Nat), p.raft.currentTerm = 1 ∧
      (Raft.make (Labgob.words Nat) 3 2 p.raft.persister : Raft Nat Nat (Word Nat)).votedFor =
        p.raft.votedFor := by
  have hexec : Runs.exec (step (Labgob.words Nat)) (fun _ _ => True)
      (init (Labgob.words Nat) 3 2 : Peer Nat Nat (Word Nat)) [.electionTimer, .restart] =
        some _ := rfl
  exact ⟨_, rfl, (recovery_exact (Labgob.words_roundTrip Nat) 3 2 (Runs.run_of_exec hexec)).2.1⟩

end Peer

end DistributionSystem
