import DistributionSystem.Raft.Election

/-! The term of a leader. `convertTo(Leader)` does not change the term, and every step that
adopts another term makes the peer a follower, but the election timer is handled in every
state: a leader that still has its event at hand starts an election and goes on as leader
of a term in which nobody has voted for it. -/

namespace DistributionSystem

variable {C D B : Type}

/-- The terms in which the peer was converted to leader, in their order. -/
def leadTerms (out : List (Output C D)) : List Int :=
  out.filterMap fun
    | .leads term _ => some term
    | _ => none

theorem leadTerms_append (out out' : List (Output C D)) :
    leadTerms (out ++ out') = leadTerms out ++ leadTerms out' :=
  List.filterMap_append

theorem leadTerms_calls {α : Type} (f : α → Output C D) (l : List α)
    (h : ∀ x, ∃ dst request, f x = .call dst request) : leadTerms (l.map f) = [] := by
  apply List.filterMap_eq_nil_iff.mpr
  intro o ho
  obtain ⟨x, -, rfl⟩ := List.mem_map.mp ho
  obtain ⟨dst, request, hx⟩ := h x
  rw [hx]

namespace Raft

variable [DecidableEq C] [DecidableEq D]

/-- What a step has done that leaves the peer a leader. -/
inductive LeaderStep (rf rf' : Raft C D B) (input : Input C D) (out : List (Output C D)) : Prop
  | timer (hin : input = .electionTimer) (hst : rf.state = .leader)
      (hterm : rf'.currentTerm = rf.currentTerm + 1) (hout : leadTerms out = [])
  | stays (hin : input ≠ .electionTimer) (hst : rf.state = .leader)
      (hterm : rf'.currentTerm = rf.currentTerm) (hout : leadTerms out = [])
  | converted (hin : input ≠ .electionTimer) (hst : rf.state = .candidate)
      (hterm : rf'.currentTerm = rf.currentTerm) (hout : leadTerms out = [rf.currentTerm])

theorem leaderStep_of_step {gob : Labgob C B} {rf rf' : Raft C D B} {input : Input C D}
    {out : List (Output C D)} (h : Step gob rf input rf' out) (hst : rf'.state = .leader) :
    LeaderStep rf rf' input out := by
  cases h with
  | electionTimer =>
    have hlead : rf.state = .leader := by
      have hc : rf.candidateState.state = .leader := hst
      unfold candidateState at hc
      split at hc
      · cases hc
      · exact hc
    refine .timer rfl hlead ?_ ?_
    · rw [candidateState_frame]; rfl
    · exact leadTerms_calls _ _ fun x => ⟨x, _, rfl⟩
  | refuseLog | grant | snapshot =>
    obtain ⟨hlead, hterm⟩ := adoptTerm_leader hst
    exact .stays (by simp) hlead hterm rfl
  | append _ ha =>
    have hf := ha.frame
    rw [hf] at hst
    obtain ⟨hlead, hterm⟩ := adoptTerm_leader hst
    exact .stays (by simp) hlead (by rw [hf]; exact hterm) rfl
  | voteStepDown | appendStepDown | snapshotStepDown =>
    rw [stepDown_frame] at hst
    cases hst
  | elected _ _ hc => exact .converted (by simp) hc rfl rfl
  | appendCommit _ hlead _ _ hr =>
    exact .stays (by simp) hlead (by rw [setCommitIndex_frame hr]; rfl) rfl
  | restart =>
    rw [make_frame] at hst
    cases hst
  | _ => exact .stays (by simp) hst rfl rfl

/-- The election timer in a leader: `startElection` raises the term and keeps the state. -/
theorem leader_of_timer {gob : Labgob C B} {rf rf' : Raft C D B} {out : List (Output C D)}
    (h : Step gob rf .electionTimer rf' out) (hst : rf.state = .leader) :
    rf'.currentTerm = rf.currentTerm + 1 ∧ rf'.state = .leader := by
  cases h with
  | electionTimer =>
    have hc : rf.candidateState = rf := by
      unfold candidateState
      rw [if_neg (by rw [hst]; exact NodeState.noConfusion)]
    rw [hc]
    exact ⟨rfl, hst⟩

end Raft

namespace Peer

variable [DecidableEq C] [DecidableEq D]

/-- The term in which the peer was last converted to leader. -/
def convertedIn (p : Peer C D B) : Option Int := (leadTerms p.history).getLast?

/-- The election timer is not handled in a leader. -/
def TimerStopped (p : Peer C D B) (input : Input C D) : Prop :=
  input = .electionTimer → p.raft.state ≠ .leader

instance (p : Peer C D B) (input : Input C D) : Decidable (p.TimerStopped input) :=
  inferInstanceAs (Decidable (_ → _))

/-- A peer that leads was converted in the term it is in. -/
def LeadsConverted (p : Peer C D B) : Prop :=
  p.raft.state = .leader → p.convertedIn = some p.raft.currentTerm

omit [DecidableEq C] [DecidableEq D] in
theorem leadsConverted_init (gob : Labgob C B) (peers me : Nat) :
    (init gob peers me : Peer C D B).LeadsConverted := by
  intro hst
  have hf : (init gob peers me : Peer C D B).raft.state = .follower := by
    show (Raft.make gob peers me makePersister : Raft C D B).state = .follower
    rw [Raft.make_frame]
    rfl
  rw [hf] at hst
  cases hst

theorem LeadsConverted.step {gob : Labgob C B} {p q : Peer C D B} {input : Input C D}
    (h : p.LeadsConverted) (hok : p.TimerStopped input) (hs : p.step gob input = some q) :
    q.LeadsConverted := by
  intro hst
  obtain ⟨⟨rf', out⟩, hr, rfl⟩ := Option.map_eq_some_iff.mp hs
  unfold convertedIn
  rw [leadTerms_append]
  cases Raft.leaderStep_of_step (Raft.step_cases hr) hst with
  | timer hin hlead => exact absurd hlead (hok hin)
  | stays _ hlead hterm hout =>
    rw [hout, List.append_nil, hterm]
    exact h hlead
  | converted _ _ hterm hout => rw [hout, List.getLast?_concat, hterm]

/-- A leader's term is fixed: the step that changes the term and leaves a leader is the
election timer handled in a leader, and without it a leader is of the term in which it was
converted. -/
theorem leader_term_fixed (gob : Labgob C B) (peers me : Nat) :
    (∀ (rf rf' : Raft C D B) input out, rf.step gob input = some (rf', out) →
      ((rf'.currentTerm ≠ rf.currentTerm ∧ rf'.state = .leader) ↔
        (input = .electionTimer ∧ rf.state = .leader))) ∧
    ∀ es (p : Peer C D B), Runs.Run (step gob) TimerStopped (init gob peers me) es p →
      p.raft.state = .leader → p.convertedIn = some p.raft.currentTerm := by
  constructor
  · intro rf rf' input out h
    constructor
    · rintro ⟨hne, hst⟩
      cases Raft.leaderStep_of_step (Raft.step_cases h) hst with
      | timer hin hlead => exact ⟨hin, hlead⟩
      | stays _ _ hterm | converted _ _ hterm => exact absurd hterm hne
    · rintro ⟨rfl, hst⟩
      obtain ⟨hterm, hst'⟩ := Raft.leader_of_timer (Raft.step_cases h) hst
      exact ⟨by omega, hst'⟩
  · intro es p h
    exact h.invariant LeadsConverted (leadsConverted_init gob peers me)
      fun _ _ _ hinv hok hs => hinv.step hok hs

theorem leader_term_fixed_elected :
    ∃ p : Peer Nat Unit (Word Nat), p.raft.state = .leader ∧ p.raft.currentTerm = 1 ∧
      p.convertedIn = some 1 := by
  have hexec : (Runs.exec (step (Labgob.words Nat)) TimerStopped (init (Labgob.words Nat) 3 0)
      [.electionTimer, .voteReply 1 0 ⟨1, 0, 0, 0⟩ ⟨1, true⟩]).map
        (fun p : Peer Nat Unit (Word Nat) => (p.raft.state, p.raft.currentTerm)) =
          some (.leader, 1) := by decide +kernel
  obtain ⟨p, hrun, hv⟩ := Runs.run_of_exec_map _ hexec
  have hst : p.raft.state = .leader := congrArg Prod.fst hv
  have hterm : p.raft.currentTerm = 1 := congrArg Prod.snd hv
  refine ⟨p, hst, hterm, ?_⟩
  rw [(leader_term_fixed (Labgob.words Nat) 3 0).2 _ p hrun hst, hterm]

end Peer

namespace Cluster

/-- Peer 0 leads term 1, and then handles an election timer event that it had already
picked up: it leads term 2 without a vote. -/
theorem leader_of_unelected_term :
    ∃ (es : List (Event 3 Nat)) (cl₁ cl₂ : Cluster 3 Nat (Word Nat)),
      Runs.Run (step (Labgob.words Nat)) (fun _ _ => True) (init (Labgob.words Nat) 3) es cl₁ ∧
      cl₁.step (Labgob.words Nat) ⟨0, 0, .electionTimer⟩ = some cl₂ ∧
      cl₁.status 0 = (.leader, 1) ∧ cl₂.status 0 = (.leader, 2) ∧
      (cl₂ 0).convertedIn = some 1 := by
  have hexec : (Runs.exec (step (Labgob.words Nat)) (fun _ _ => True) (init (Labgob.words Nat) 3)
      plainElection).map (fun cl => (cl.status 0, (cl 0).convertedIn)) =
        some ((.leader, 1), some 1) := by decide +kernel
  have hexec₂ : (Runs.exec (step (Labgob.words Nat)) (fun _ _ => True) (init (Labgob.words Nat) 3)
      (plainElection ++ [⟨0, 0, .electionTimer⟩])).map
        (fun cl => (cl.status 0, (cl 0).convertedIn)) = some ((.leader, 2), some 1) := by
    decide +kernel
  obtain ⟨cl₁, cl₂, h₁, -, hs, -, hv₁, hv₂⟩ := Runs.step_of_exec_map _ _ hexec hexec₂
  exact ⟨plainElection, cl₁, cl₂, h₁, hs, congrArg Prod.fst hv₁, congrArg Prod.fst hv₂,
    congrArg Prod.snd hv₂⟩

end Cluster

end DistributionSystem
