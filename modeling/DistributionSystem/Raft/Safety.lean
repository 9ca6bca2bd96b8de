import DistributionSystem.Raft.Refine

/-! What the refinement says about the servers: in the runs of `Cluster.Safe` steps
the services are handed one sequence of commands, a later leader holds what an earlier
one has committed, and the logs match. Each result is followed by a run of the code that
breaks it with one step that is not careful. -/

namespace DistributionSystem

open LeaderLog

variable {C B : Type} [DecidableEq C] {n : Nat}

/-! ## Runs -/

theorem electionInv_refines_step {gob : Labgob C B} (hg : gob.RoundTrip) {cl cl' : Cluster n C B}
    {A : Ledger n C} {e : Event n C} (hi : cl.ElectionInv gob) (h : Refines cl A)
    (hsafe : cl.Safe e) (hs : cl.step gob e = some cl') :
    cl'.ElectionInv gob ∧ ∃ A', Extends A A' ∧ Refines cl' A' := by
  have hi' := Cluster.electionInv_step hg hi hsafe.1 hs
  obtain ⟨A', hsteps, h'⟩ := refines_step h hi hi' hsafe hs
  exact ⟨hi', A', extends_of_steps h.sound hsteps, h'⟩

theorem refines_of_run_from {gob : Labgob C B} (hg : gob.RoundTrip) {cl cl' : Cluster n C B}
    {A : Ledger n C} {es : List (Event n C)} (hi : cl.ElectionInv gob) (h : Refines cl A)
    (hr : Runs.Run (Cluster.step gob) Cluster.Safe cl es cl') :
    ∃ A', Extends A A' ∧ Refines cl' A' := by
  have hinv := hr.invariant (fun c => c.ElectionInv gob ∧ ∃ A', Extends A A' ∧ Refines c A')
    ⟨hi, A, Extends.refl A, h⟩ (by
      rintro s e t ⟨hi, A₁, hx₁, h₁⟩ hsafe hs
      obtain ⟨hi', A₂, hx₂, h₂⟩ := electionInv_refines_step hg hi h₁ hsafe hs
      exact ⟨hi', A₂, hx₁.trans hx₂, h₂⟩)
  exact hinv.2

theorem refines_of_run {gob : Labgob C B} (hg : gob.RoundTrip) {es : List (Event n C)}
    {cl : Cluster n C B} (h : Runs.Run (Cluster.step gob) Cluster.Safe (Cluster.init gob n) es cl) :
    ∃ A, Refines cl A := by
  obtain ⟨A, -, hA⟩ := refines_of_run_from hg (Cluster.electionInv_init gob n) (refines_init gob n) h
  exact ⟨A, hA⟩

/-- The histories at two points of one run. -/
theorem refines_of_two_points {gob : Labgob C B} (hg : gob.RoundTrip) {es es' : List (Event n C)}
    {cl cl' : Cluster n C B}
    (h : Runs.Run (Cluster.step gob) Cluster.Safe (Cluster.init gob n) es cl)
    (h' : Runs.Run (Cluster.step gob) Cluster.Safe (Cluster.init gob n) es' cl')
    (hle : es <+: es') : ∃ A A', Refines cl A ∧ Refines cl' A' ∧ Extends A A' := by
  obtain ⟨fs, rfl⟩ := hle
  obtain ⟨A, hA⟩ := refines_of_run hg h
  have hi := Cluster.electionInv_of_run hg n (fun _ _ hok => hok.1) h
  obtain ⟨A', hx, hA'⟩ := refines_of_run_from hg hi hA (h.rest h')
  exact ⟨A, A', hA, hA', hx⟩

/-! ## State machine safety -/

omit [DecidableEq C] in
theorem Handed.get {A : Ledger n C} {index : Int} {e : LogEntry C} (h : Handed A index [e]) :
    ∃ t l, Com LogEntry.term A t l ∧ CheckedSlice.get l (index - 1) = some e := by
  obtain ⟨hpos, t, l, hc, r, hr⟩ := h
  refine ⟨t, l, hc, ?_⟩
  unfold CheckedSlice.get
  rw [if_pos (by omega), ← Nat.add_zero (index - 1).toNat, ← List.getElem?_drop, ← hr]
  rfl

omit [DecidableEq C] in
/-- What is handed out at one index is one entry. -/
theorem Handed.unique {A : Ledger n C} (hs : Sound LogEntry.term A) {index : Int}
    {e e' : LogEntry C} (h : Handed A index [e]) (h' : Handed A index [e']) : e = e' := by
  obtain ⟨t, l, hc, hget⟩ := h.get
  obtain ⟨t', l', hc', hget'⟩ := h'.get
  rcases com_comparable hs hc hc' with hp | hp
  · exact Option.some.inj ((CheckedSlice.get_mono hp hget).symm.trans hget')
  · exact Option.some.inj (hget.symm.trans (CheckedSlice.get_mono hp hget'))

namespace Cluster

/-- State machine safety: the messages for one index carry one command. -/
theorem state_machine_safety {gob : Labgob C B} (hg : gob.RoundTrip) {es : List (Event n C)}
    {cl : Cluster n C B} (h : Runs.Run (step gob) Safe (init gob n) es cl) :
    ∀ i j msg msg', .apply msg ∈ (cl i).history → .apply msg' ∈ (cl j).history →
      msg.commandValid = true → msg'.commandValid = true →
      msg.commandIndex = msg'.commandIndex → msg.command = msg'.command := by
  obtain ⟨A, hA⟩ := refines_of_run hg h
  intro i j msg msg' hm hm' hv hv' hidx
  obtain ⟨e, he, hc⟩ := hA.sent i _ hm hv
  obtain ⟨e', he', hc'⟩ := hA.sent j _ hm' hv'
  rw [hc, hc', he.unique hA.sound (hidx ▸ he')]

/-- Peer 0 is elected and puts the command 10 into the log of peer 1, which is enough
to commit it. -/
def replicated : List (Event 3 Nat) :=
  plainElection ++ [⟨0, 0, .start 10⟩, ⟨0, 0, .resume (.start 10 1)⟩,
    ⟨0, 0, .resume (.heartbeat 1)⟩, ⟨0, 1, .appendEntries ⟨1, 0, 0, 0, [⟨.client 10, 1⟩], 0⟩⟩]

/-- Peer 0 learns of it and commits. -/
def committed : List (Event 3 Nat) :=
  replicated ++ [⟨1, 0, .appendReply 1 ⟨1, 0, 0, 0, [⟨.client 10, 1⟩], 0⟩ { success := true }⟩]

/-- Both peers hand the command to their services. -/
def handedOut : List (Event 3 Nat) :=
  committed ++ [⟨0, 0, .resume (.apply 1 [⟨.client 10, 1⟩])⟩, ⟨0, 0, .resume (.heartbeat 1)⟩,
    ⟨0, 1, .appendEntries ⟨1, 0, 1, 1, [], 1⟩⟩, ⟨1, 1, .resume (.apply 1 [⟨.client 10, 1⟩])⟩]

theorem state_machine_safety_handedOut :
    ∃ cl : Cluster 3 Nat (Word Nat),
      .apply (Raft.commandMsg 1 ⟨.client 10, 1⟩) ∈ (cl 0).history ∧
      .apply (Raft.commandMsg 1 ⟨.client 10, 1⟩) ∈ (cl 1).history ∧
      ∀ i j msg msg', .apply msg ∈ (cl i).history → .apply msg' ∈ (cl j).history →
        msg.commandValid = true → msg'.commandValid = true →
        msg.commandIndex = msg'.commandIndex → msg.command = msg'.command := by
  have hexec : (Runs.exec (step (Labgob.words Nat)) Safe (init (Labgob.words Nat) 3)
      handedOut).map (fun cl =>
        (decide (.apply (Raft.commandMsg 1 ⟨.client 10, 1⟩) ∈ (cl 0).history),
          decide (.apply (Raft.commandMsg 1 ⟨.client 10, 1⟩) ∈ (cl 1).history))) =
        some (true, true) := by decide +kernel
  obtain ⟨cl, hrun, hst⟩ := Runs.run_of_exec_map _ hexec
  exact ⟨cl, of_decide_eq_true (congrArg Prod.fst hst), of_decide_eq_true (congrArg Prod.snd hst),
    state_machine_safety (Labgob.words_roundTrip Nat) hrun⟩

/-- Peer 0 starts the commands 10 and 11 and sends the first alone, then both. Peer 1
gets the second request, and its reply commits both commands at peer 0. -/
def twoRequests : List (Event 3 Nat) :=
  plainElection ++ [⟨0, 0, .start 10⟩, ⟨0, 0, .resume (.start 10 1)⟩,
    ⟨0, 0, .resume (.heartbeat 1)⟩, ⟨0, 0, .start 11⟩, ⟨0, 0, .resume (.start 11 1)⟩,
    ⟨0, 0, .resume (.heartbeat 1)⟩,
    ⟨0, 1, .appendEntries ⟨1, 0, 0, 0, [⟨.client 10, 1⟩, ⟨.client 11, 1⟩], 0⟩⟩]

def bothCommitted : List (Event 3 Nat) :=
  twoRequests ++ [⟨1, 0, .appendReply 1 ⟨1, 0, 0, 0, [⟨.client 10, 1⟩, ⟨.client 11, 1⟩], 0⟩
    { success := true }⟩]

/-- The first request arrives late and makes peer 1 drop the command 11. Peer 1 then
leads term 2 with the vote of peer 2. -/
def lateRequest : List (Event 3 Nat) :=
  bothCommitted ++ [⟨0, 1, .appendEntries ⟨1, 0, 0, 0, [⟨.client 10, 1⟩], 0⟩⟩,
    ⟨1, 1, .electionTimer⟩, ⟨1, 2, .requestVote ⟨2, 1, 1, 1⟩⟩,
    ⟨2, 1, .voteReply 2 0 ⟨2, 1, 1, 1⟩ ⟨2, true⟩⟩]

/-- Peer 1 starts the command 12, commits it with peer 2, and hands it out; peer 0 hands
out what it has committed. -/
def overwritten : List (Event 3 Nat) :=
  lateRequest ++ [⟨1, 1, .start 12⟩, ⟨1, 1, .resume (.start 12 2)⟩,
    ⟨1, 1, .resume (.heartbeat 2)⟩, ⟨1, 2, .appendEntries ⟨2, 1, 1, 1, [⟨.client 12, 2⟩], 0⟩⟩,
    ⟨2, 1, .appendReply 2 ⟨2, 1, 1, 1, [⟨.client 12, 2⟩], 0⟩ ⟨2, false, -1, 1⟩⟩,
    ⟨1, 1, .resume (.heartbeat 2)⟩,
    ⟨1, 2, .appendEntries ⟨2, 1, 0, 0, [⟨.client 10, 1⟩, ⟨.client 12, 2⟩], 0⟩⟩,
    ⟨2, 1, .appendReply 2 ⟨2, 1, 0, 0, [⟨.client 10, 1⟩, ⟨.client 12, 2⟩], 0⟩ { success := true }⟩,
    ⟨1, 1, .resume (.apply 1 [⟨.client 10, 1⟩, ⟨.client 12, 2⟩])⟩,
    ⟨1, 1, .resume (.applied 1 [⟨.client 12, 2⟩])⟩, ⟨1, 1, .resume (.apply 2 [⟨.client 12, 2⟩])⟩,
    ⟨0, 0, .resume (.apply 1 [⟨.client 10, 1⟩, ⟨.client 11, 1⟩])⟩,
    ⟨0, 0, .resume (.applied 1 [⟨.client 11, 1⟩])⟩, ⟨0, 0, .resume (.apply 2 [⟨.client 11, 1⟩])⟩]

theorem two_commands_at_one_index :
    ∃ (es : List (Event 3 Nat)) (cl : Cluster 3 Nat (Word Nat)),
      Runs.Run (step (Labgob.words Nat)) (fun _ _ => True) (init (Labgob.words Nat) 3) es cl ∧
        .apply (Raft.commandMsg 2 ⟨.client 11, 1⟩) ∈ (cl 0).history ∧
        .apply (Raft.commandMsg 2 ⟨.client 12, 2⟩) ∈ (cl 1).history := by
  have hexec : (Runs.exec (step (Labgob.words Nat)) (fun _ _ => True) (init (Labgob.words Nat) 3)
      overwritten).map (fun cl =>
        (decide (.apply (Raft.commandMsg 2 ⟨.client 11, 1⟩) ∈ (cl 0).history),
          decide (.apply (Raft.commandMsg 2 ⟨.client 12, 2⟩) ∈ (cl 1).history))) =
        some (true, true) := by decide +kernel
  obtain ⟨cl, hrun, hst⟩ := Runs.run_of_exec_map _ hexec
  exact ⟨overwritten, cl, hrun, of_decide_eq_true (congrArg Prod.fst hst),
    of_decide_eq_true (congrArg Prod.snd hst)⟩

end Cluster

/-! ## Leader completeness -/

/-- At two points of one run: what is in the committed part of a log is in the log of a
leader of a later term. -/
theorem entryAt_of_committed {cl cl' : Cluster n C B} {A A' : Ledger n C} (hA : Refines cl A)
    (hA' : Refines cl' A') (hx : Extends A A' ∨ Extends A' A) {i j : Fin n} {index : Int}
    {e : LogEntry C} (hc : index ≤ (cl i).raft.commitIndex)
    (he : (cl i).raft.entryAt index = some e) (hst : (cl' j).raft.state = .leader)
    (hlt : (cl i).raft.currentTerm < (cl' j).raft.currentTerm) :
    (cl' j).raft.entryAt index = some e := by
  have hcom := (hA.peer i).com
  obtain ⟨⟨m, hel⟩, hlog⟩ := (hA'.peer j).role.leader hst
  have hm : (cl i).raft.fullLog.take (cl i).raft.commitIndex.toNat <+: m := by
    rcases hx with hx | hx
    · exact (hcom.mono hx).elected_le hA'.sound hel hlt
    · exact hcom.elected_le hA.sound (hx.elected _ _ _ hel) hlt
  have hle : (cl i).raft.fullLog.take (cl i).raft.commitIndex.toNat <+: (cl' j).raft.fullLog :=
    hlog ▸ hm.trans (hA'.sound.logs.elected_le _ _ _ hel)
  refine CheckedSlice.get_mono hle ?_
  have hpos := (CheckedSlice.get_eq_some he).1
  rw [CheckedSlice.get_take (by omega)]
  exact he

namespace Cluster

/-- The leader `i` of `term` raises its `commitIndex` to `index` or beyond while it holds
`e` there. -/
structure Commits (cl cl' : Cluster n C B) (i : Fin n) (term index : Int) (e : LogEntry C) :
    Prop where
  leader : (cl' i).raft.state = .leader
  term : (cl' i).raft.currentTerm = term
  before : (cl i).raft.commitIndex < index
  after : index ≤ (cl' i).raft.commitIndex
  entry : (cl' i).raft.entryAt index = some e

/-- Leader completeness: what a leader commits, every leader of a later term holds, be
it before or after the commit. -/
theorem later_leaders_hold_committed {gob : Labgob C B} (hg : gob.RoundTrip)
    {es es' : List (Event n C)} {ev : Event n C} {cl₁ cl₂ cl : Cluster n C B}
    (h₁ : Runs.Run (step gob) Safe (init gob n) es cl₁) (hsafe : cl₁.Safe ev)
    (hs : cl₁.step gob ev = some cl₂) (h : Runs.Run (step gob) Safe (init gob n) es' cl)
    (horder : es ++ [ev] <+: es' ∨ es' <+: es) {i j : Fin n} {term index : Int} {e : LogEntry C}
    (hc : Commits cl₁ cl₂ i term index e) (hst : (cl j).raft.state = .leader)
    (hlt : term < (cl j).raft.currentTerm) : (cl j).raft.entryAt index = some e := by
  have h₂ := Runs.Run.snoc h₁ hsafe hs
  obtain ⟨-, hterm, -, hafter, hentry⟩ := hc
  rcases horder with hle | hle
  · obtain ⟨A, A', hA, hA', hx⟩ := refines_of_two_points hg h₂ h hle
    exact entryAt_of_committed hA hA' (Or.inl hx) hafter hentry hst (hterm ▸ hlt)
  · obtain ⟨A', A, hA', hA, hx⟩ :=
      refines_of_two_points hg h h₂ (hle.trans (List.prefix_append _ _))
    exact entryAt_of_committed hA hA' (Or.inr hx) hafter hentry hst (hterm ▸ hlt)

/-- Peer 1, which holds the command, leads term 2. -/
def succeeded : List (Event 3 Nat) :=
  committed ++ [⟨1, 1, .electionTimer⟩, ⟨1, 2, .requestVote ⟨2, 1, 1, 1⟩⟩,
    ⟨2, 1, .voteReply 2 0 ⟨2, 1, 1, 1⟩ ⟨2, true⟩⟩]

/-- What `Commits` asks of a peer: its role, its `commitIndex` and its entry. -/
def commitView (cl : Cluster n C B) (i : Fin n) (index : Int) :
    (NodeState × Int) × Int × Option (LogEntry C) :=
  (cl.status i, (cl i).raft.commitIndex, (cl i).raft.entryAt index)

omit [DecidableEq C] in
theorem Commits.of_views {cl cl' : Cluster n C B} {i : Fin n} {st : NodeState × Int}
    {term index before after : Int} {e : LogEntry C} {o : Option (LogEntry C)}
    (hb : cl.commitView i index = (st, before, o))
    (ha : cl'.commitView i index = ((.leader, term), after, some e)) (hlt : before < index)
    (hle : index ≤ after) : Commits cl cl' i term index e := by
  simp only [commitView, status, Prod.mk.injEq] at hb ha
  obtain ⟨-, hb, -⟩ := hb
  obtain ⟨⟨hst, hterm⟩, ha, he⟩ := ha
  exact ⟨hst, hterm, hb ▸ hlt, ha ▸ hle, he⟩

theorem later_leaders_hold_committed_succeeded :
    ∃ cl : Cluster 3 Nat (Word Nat), cl.status 1 = (.leader, 2) ∧
      (cl 1).raft.entryAt 1 = some ⟨.client 10, 1⟩ := by
  have hexec : (Runs.exec (step (Labgob.words Nat)) Safe (init (Labgob.words Nat) 3)
      replicated).map (commitView · 0 1) = some ((.leader, 1), 0, some ⟨.client 10, 1⟩) := by
    decide +kernel
  have hexec₂ : (Runs.exec (step (Labgob.words Nat)) Safe (init (Labgob.words Nat) 3)
      committed).map (commitView · 0 1) = some ((.leader, 1), 1, some ⟨.client 10, 1⟩) := by
    decide +kernel
  have hexec' : (Runs.exec (step (Labgob.words Nat)) Safe (init (Labgob.words Nat) 3)
      succeeded).map (status · 1) = some (.leader, 2) := by decide +kernel
  obtain ⟨cl₁, cl₂, h₁, hsafe, hs, -, hv₁, hv₂⟩ := Runs.step_of_exec_map _ _ hexec hexec₂
  obtain ⟨cl, h, hst⟩ := Runs.run_of_exec_map _ hexec'
  obtain ⟨hst₁, hterm⟩ := Prod.mk.inj hst
  refine ⟨cl, hst, later_leaders_hold_committed (Labgob.words_roundTrip Nat) h₁ hsafe hs h
    (Or.inl (List.prefix_append _ _)) (Commits.of_views hv₁ hv₂ (by decide) (by decide)) hst₁ ?_⟩
  rw [hterm]
  decide

/-- The command 11, committed in term 1, is missing at the leader of term 2. -/
theorem later_leader_lacks_committed :
    ∃ (es es' : List (Event 3 Nat)) (ev : Event 3 Nat) (cl₁ cl₂ cl : Cluster 3 Nat (Word Nat)),
      Runs.Run (step (Labgob.words Nat)) (fun _ _ => True) (init (Labgob.words Nat) 3) es cl₁ ∧
      cl₁.step (Labgob.words Nat) ev = some cl₂ ∧
      Runs.Run (step (Labgob.words Nat)) (fun _ _ => True) cl₂ es' cl ∧
      Commits cl₁ cl₂ 0 1 2 ⟨.client 11, 1⟩ ∧ cl.status 1 = (.leader, 2) ∧
      (cl 1).raft.snapshottedIndex = 0 ∧ (cl 1).raft.entryAt 2 = none := by
  have hexec : (Runs.exec (step (Labgob.words Nat)) (fun _ _ => True) (init (Labgob.words Nat) 3)
      twoRequests).map (commitView · 0 2) = some ((.leader, 1), 0, some ⟨.client 11, 1⟩) := by
    decide +kernel
  have hexec₂ : (Runs.exec (step (Labgob.words Nat)) (fun _ _ => True) (init (Labgob.words Nat) 3)
      bothCommitted).map (commitView · 0 2) = some ((.leader, 1), 2, some ⟨.client 11, 1⟩) := by
    decide +kernel
  have hexec' : (Runs.exec (step (Labgob.words Nat)) (fun _ _ => True) (init (Labgob.words Nat) 3)
      lateRequest).map (fun cl => (cl.status 1, (cl 1).raft.snapshottedIndex,
        (cl 1).raft.entryAt 2)) = some ((.leader, 2), 0, none) := by decide +kernel
  obtain ⟨cl₁, cl₂, h₁, -, hs, h₂, hv₁, hv₂⟩ := Runs.step_of_exec_map _ _ hexec hexec₂
  obtain ⟨cl, h, hst⟩ := Runs.run_of_exec_map _ hexec'
  simp only [Prod.mk.injEq] at hst
  exact ⟨twoRequests, _, _, cl₁, cl₂, cl, h₁, hs, h₂.rest h,
    Commits.of_views hv₁ hv₂ (by decide) (by decide), hst⟩

end Cluster

/-! ## Log matching -/

/-- The entry at an absolute index above the snapshot. -/
def Raft.retained {D : Type} (rf : Raft C D B) (index : Int) : Option (LogEntry C) :=
  if rf.snapshottedIndex < index then CheckedSlice.get rf.logs (rf.getRelativeLogIndex index)
  else none

omit [DecidableEq C] in
theorem Raft.retained_eq {rf : Raft C (List (LogEntry C)) B}
    (h : Shape (covered rf.persister.snapshot) rf.snapshottedIndex rf.logs) {index : Int}
    (hi : rf.snapshottedIndex < index) : rf.retained index = rf.fullLog[index.toNat - 1]? := by
  have hidx := h.index
  obtain ⟨g, rest, hlogs, -⟩ := h.guard
  unfold retained CheckedSlice.get getRelativeLogIndex fullLog
  rw [if_pos hi, if_pos (by omega), List.getElem?_append_right (by omega), hlogs, List.tail_cons]
  have hk : (index - rf.snapshottedIndex).toNat =
      index.toNat - 1 - (covered rf.persister.snapshot).length + 1 := by omega
  rw [hk, List.getElem?_cons_succ]

namespace Cluster

/-- Log matching: entries of one term at one index have the same entries before them. -/
theorem log_matching {gob : Labgob C B} (hg : gob.RoundTrip) {es : List (Event n C)}
    {cl : Cluster n C B} (h : Runs.Run (step gob) Safe (init gob n) es cl) :
    ∀ i j index e e', (cl i).raft.retained index = some e → (cl j).raft.retained index = some e' →
      e.term = e'.term → ∀ k ≤ index, (cl i).raft.snapshottedIndex < k →
        (cl j).raft.snapshottedIndex < k → (cl i).raft.retained k = (cl j).raft.retained k := by
  obtain ⟨A, hA⟩ := refines_of_run hg h
  intro i j index e e' he he' hterm k hk hki hkj
  have hi := (hA.peer i).shape
  have hj := (hA.peer j).shape
  have hpos := hi.index
  have hmatch := (hA.sound.logs.log_chain i).matching (hA.sound.logs.log_chain j)
  rw [hA.log, hA.log] at hmatch
  rw [Raft.retained_eq hi (by omega)] at he
  rw [Raft.retained_eq hj (by omega)] at he'
  have htake := hmatch _ e e' he he' hterm
  rw [Raft.retained_eq hi hki, Raft.retained_eq hj hkj,
    ← List.getElem?_take_of_lt (show k.toNat - 1 < index.toNat - 1 + 1 by omega), htake,
    List.getElem?_take_of_lt (by omega)]

theorem log_matching_handedOut :
    ∃ cl : Cluster 3 Nat (Word Nat), (cl 0).raft.retained 1 = some ⟨.client 10, 1⟩ ∧
      (cl 1).raft.retained 1 = some ⟨.client 10, 1⟩ ∧
      ∀ i j index e e', (cl i).raft.retained index = some e →
        (cl j).raft.retained index = some e' → e.term = e'.term →
        ∀ k ≤ index, (cl i).raft.snapshottedIndex < k → (cl j).raft.snapshottedIndex < k →
          (cl i).raft.retained k = (cl j).raft.retained k := by
  have hexec : (Runs.exec (step (Labgob.words Nat)) Safe (init (Labgob.words Nat) 3)
      handedOut).map (fun cl => ((cl 0).raft.retained 1, (cl 1).raft.retained 1)) =
        some (some ⟨.client 10, 1⟩, some ⟨.client 10, 1⟩) := by decide +kernel
  obtain ⟨cl, hrun, hst⟩ := Runs.run_of_exec_map _ hexec
  exact ⟨cl, congrArg Prod.fst hst, congrArg Prod.snd hst,
    log_matching (Labgob.words_roundTrip Nat) hrun⟩

/-- Two leaders of term 2 each start a command. -/
def twoStarts : List (Event 3 Nat) :=
  staleVote ++ [⟨0, 0, .start 10⟩, ⟨0, 0, .resume (.start 10 2)⟩, ⟨2, 2, .start 11⟩,
    ⟨2, 2, .resume (.start 11 2)⟩]

theorem two_commands_of_one_term :
    ∃ (es : List (Event 3 Nat)) (cl : Cluster 3 Nat (Word Nat)),
      Runs.Run (step (Labgob.words Nat)) (fun _ _ => True) (init (Labgob.words Nat) 3) es cl ∧
        (cl 0).raft.retained 1 = some ⟨.client 10, 2⟩ ∧
        (cl 2).raft.retained 1 = some ⟨.client 11, 2⟩ := by
  have hexec : (Runs.exec (step (Labgob.words Nat)) (fun _ _ => True) (init (Labgob.words Nat) 3)
      twoStarts).map (fun cl => ((cl 0).raft.retained 1, (cl 2).raft.retained 1)) =
        some (some ⟨.client 10, 2⟩, some ⟨.client 11, 2⟩) := by decide +kernel
  obtain ⟨cl, hrun, hst⟩ := Runs.run_of_exec_map _ hexec
  exact ⟨twoStarts, cl, hrun, congrArg Prod.fst hst, congrArg Prod.snd hst⟩

end Cluster

end DistributionSystem
