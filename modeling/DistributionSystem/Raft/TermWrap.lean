import DistributionSystem.Raft.Votes

/-! The term as the `int` it is. `startElection` is the only place that computes a term,
and behind the largest `int` comes the smallest. A run in which no election starts at the largest
term is a run on unbounded terms (`run_of_run64`), so what is known of those holds for it. -/

namespace DistributionSystem

variable {C D B : Type}

/-- The largest `int` of 64 bits. -/
def maxInt : Int := 0x7fffffffffffffff

/-- The value of a computation on `int`, in 64 bits. -/
def wrap64 (x : Int) : Int := x.bmod 0x10000000000000000

theorem wrap64_of_fits {x : Int} (h₀ : 0 ≤ x) (h : x ≤ maxInt) : wrap64 x = x := by
  unfold maxInt at h
  exact Int.bmod_eq_of_le (by omega) (by omega)

namespace Raft

def startElection64 (gob : Labgob C B) (rf : Raft C D B) :
    Option (Raft C D B × List (Output C D)) :=
  match CheckedSlice.get rf.logs (rf.logs.length - 1) with
  | none => none
  | some last =>
    let term := wrap64 (rf.currentTerm + 1)
    let args : RequestVoteArgs := { rf.voteArgs last with term := term }
    some (persist gob { rf.stand args with currentTerm := term },
      .stands term :: rf.others.map (.call · (.requestVote args)))

/-- The `electionTimer` branch of the timer loop. -/
def electionTimeout64 (gob : Labgob C B) (rf : Raft C D B) :
    Option (Raft C D B × List (Output C D)) :=
  if rf.state = .follower then startElection64 gob { rf with state := .candidate }
  else rf.startElection64 gob

/-- No election starts at the largest term. -/
def TermRoom (rf : Raft C D B) : Input C D → Prop
  | .electionTimer => rf.currentTerm < maxInt
  | _ => True

instance (rf : Raft C D B) (input : Input C D) : Decidable (rf.TermRoom input) :=
  match input with
  | .electionTimer => inferInstanceAs (Decidable (_ < _))
  | .heartbeatTimer | .requestVote _ | .appendEntries _ | .installSnapshot _ | .voteReply ..
  | .appendReply .. | .snapshotReply .. | .start _ | .resume _ | .replaceLogWithSnapshot ..
  | .restart => .isTrue trivial

theorem startElection64_eq {gob : Labgob C B} {rf : Raft C D B}
    (h : wrap64 (rf.currentTerm + 1) = rf.currentTerm + 1) :
    rf.startElection64 gob = rf.startElection gob := by
  unfold startElection64 startElection
  rw [h]
  rfl

theorem electionTimeout64_eq {gob : Labgob C B} {rf : Raft C D B}
    (h : wrap64 (rf.currentTerm + 1) = rf.currentTerm + 1) :
    rf.electionTimeout64 gob = rf.electionTimeout gob := by
  unfold electionTimeout64 electionTimeout
  split
  · rename_i hf
    have hne : ¬ NodeState.candidate = rf.state := by rw [hf]; decide
    simp only [convertTo, if_neg hne]
    exact startElection64_eq h
  · exact startElection64_eq h

variable [DecidableEq C] [DecidableEq D]

/-- The step of a peer whose terms are of 64 bits: every other input copies terms and
compares them. -/
def step64 (gob : Labgob C B) (rf : Raft C D B) (input : Input C D) :
    Option (Raft C D B × List (Output C D)) :=
  match input with
  | .electionTimer => rf.electionTimeout64 gob
  | _ => rf.step gob input

theorem step64_eq {gob : Labgob C B} {rf : Raft C D B} {input : Input C D}
    (h₀ : 0 ≤ rf.currentTerm) (h : rf.TermRoom input) :
    rf.step64 gob input = rf.step gob input := by
  cases input with
  | electionTimer =>
    have hlt : rf.currentTerm < maxInt := h
    exact electionTimeout64_eq (wrap64_of_fits (by omega) (by omega))
  | _ => rfl

/-- The terms of the requests and replies that come in are at most `bound`. -/
def TermsUpTo (bound : Int) : Input C D → Prop
  | .requestVote args => args.term ≤ bound
  | .appendEntries args => args.term ≤ bound
  | .installSnapshot args => args.term ≤ bound
  | .voteReply _ _ _ reply => reply.term ≤ bound
  | .appendReply _ _ reply => reply.term ≤ bound
  | .snapshotReply _ _ reply => reply.term ≤ bound
  | _ => True

/-- A step takes the term of a message, or the next one. -/
theorem step_currentTerm_le {gob : Labgob C B} {rf rf' : Raft C D B} {input : Input C D}
    {out : List (Output C D)} {bound : Int} (hrec : rf.Recovers gob) (hb : TermsUpTo bound input)
    (h : Step gob rf input rf' out) : rf'.currentTerm ≤ max rf.currentTerm bound + 1 := by
  have hadopt : ∀ t, t ≤ bound → (rf.adoptTerm t).currentTerm ≤ max rf.currentTerm bound + 1 := by
    intro t ht
    rw [adoptTerm_currentTerm]
    omega
  cases h with
  | electionTimer =>
    rw [candidateState_frame]
    show rf.currentTerm + 1 ≤ _
    omega
  | refuseLog | grant | snapshot => exact hadopt _ hb
  | append _ ha =>
    rw [ha.frame]
    exact hadopt _ hb
  | voteStepDown | appendStepDown | snapshotStepDown =>
    rw [stepDown_frame]
    exact Int.le_trans hb (by omega)
  | appendCommit _ _ _ _ hr =>
    rw [setCommitIndex_frame hr]
    show rf.currentTerm ≤ _
    omega
  | restart =>
    rw [hrec.1]
    omega
  | _ =>
    show rf.currentTerm ≤ _
    omega

end Raft

instance (input : Input C D) : Decidable (NamesCandidate input) :=
  match input with
  | .requestVote _ => inferInstanceAs (Decidable (_ ≠ _))
  | .electionTimer | .heartbeatTimer | .appendEntries _ | .installSnapshot _ | .voteReply ..
  | .appendReply .. | .snapshotReply .. | .start _ | .resume _ | .replaceLogWithSnapshot ..
  | .restart => .isTrue trivial

namespace Peer

variable [DecidableEq C] [DecidableEq D] {gob : Labgob C B}

def step64 (gob : Labgob C B) (p : Peer C D B) (input : Input C D) : Option (Peer C D B) :=
  (p.raft.step64 gob input).map fun r => ⟨r.1, p.history ++ r.2⟩

theorem step_of_step64 {p q : Peer C D B} {input : Input C D} (h₀ : 0 ≤ p.raft.currentTerm)
    (hroom : p.raft.TermRoom input) (h : p.step64 gob input = some q) :
    p.step gob input = some q := by
  rw [step64, Raft.step64_eq h₀ hroom] at h
  exact h

/-- With room for the terms, the peer runs as on unbounded ones. -/
theorem run_of_run64 (hg : gob.RoundTrip) {ok ok' : Peer C D B → Input C D → Prop}
    (hok : ∀ s e, ok s e → s.raft.TermRoom e ∧ ok' s e) {p q : Peer C D B} {es : List (Input C D)}
    (hd : p.Durable gob) (h₀ : 0 ≤ p.raft.currentTerm) (h : Runs.Run (step64 gob) ok p es q) :
    Runs.Run (step gob) ok' p es q := by
  induction h with
  | nil => exact Runs.Run.nil
  | snoc _ h hs ih =>
    obtain ⟨hroom, h'⟩ := hok _ _ h
    have hle := currentTerm_le_of_run hg hd (ih.mono fun _ _ _ _ => trivial)
    exact Runs.Run.snoc ih h' (step_of_step64 (Int.le_trans h₀ hle) hroom hs)

theorem unbounded_of_room (hg : gob.RoundTrip) {p q : Peer C D B} {es : List (Input C D)}
    (hd : p.Durable gob) (h₀ : 0 ≤ p.raft.currentTerm)
    (h : Runs.Run (step64 gob) (fun s e => s.raft.TermRoom e) p es q) :
    Runs.Run (step gob) (fun _ _ => True) p es q :=
  run_of_run64 hg (fun _ _ hroom => ⟨hroom, trivial⟩) hd h₀ h

/-- The term after a run is at most `bound` and one more for each step, so a short run has
room for its terms. -/
theorem room_of_run64 (hg : gob.RoundTrip) (peers me : Nat) {bound : Nat} {p : Peer C D B}
    {es : List (Input C D)}
    (h : Runs.Run (step64 gob) (fun _ e => Raft.TermsUpTo bound e) (init gob peers me) es p)
    (hlen : (bound + es.length : Int) ≤ maxInt) :
    Runs.Run (step64 gob) (fun s e => s.raft.TermRoom e) (init gob peers me) es p ∧
      p.raft.currentTerm ≤ bound + es.length := by
  induction h with
  | nil => exact ⟨Runs.Run.nil, by show (0 : Int) ≤ _; omega⟩
  | @snoc es e t u hr hok hs ih =>
    rw [List.length_append, List.length_singleton] at hlen ⊢
    obtain ⟨hrun, hle⟩ := ih (by omega)
    have hrun' := unbounded_of_room hg (durable_init gob peers me) (Int.le_refl 0) hrun
    have hd := durable_of_run hg peers me hrun'
    have h₀ : 0 ≤ t.raft.currentTerm := currentTerm_le_of_run hg (durable_init gob peers me) hrun'
    have hroom : t.raft.TermRoom e := by
      cases e with
      | electionTimer =>
        show t.raft.currentTerm < maxInt
        omega
      | _ => trivial
    refine ⟨hrun.snoc hroom hs, ?_⟩
    obtain ⟨⟨rf', out⟩, hst, rfl⟩ := Option.map_eq_some_iff.mp (step_of_step64 h₀ hroom hs)
    have hnext := Raft.step_currentTerm_le hd.recovers hok (Raft.step_cases hst)
    show rf'.currentTerm ≤ _
    omega

/-- One vote per term, for life: in every run in which no election starts at the largest
term, the term never goes back, and if the vote requests name a candidate other than -1, the votes
that a peer grants in a term and its own candidacy in that term name a single candidate. A run
in which the terms of the messages leave room for the number of its steps is such a run. -/
theorem one_vote_per_term {gob : Labgob C B} (hg : gob.RoundTrip) (peers me : Nat) :
    (∀ (es es' : List (Input C D)) (p q : Peer C D B),
      Runs.Run (step64 gob) (fun s e => s.raft.TermRoom e) (init gob peers me) es p →
      Runs.Run (step64 gob) (fun s e => s.raft.TermRoom e) p es' q →
      p.raft.currentTerm ≤ q.raft.currentTerm) ∧
    (∀ (es : List (Input C D)) (p : Peer C D B),
      Runs.Run (step64 gob) (fun s e => s.raft.TermRoom e ∧ NamesCandidate e)
        (init gob peers me) es p →
      ∀ t c c', p.Voted t c → p.Voted t c' → c = c') ∧
    ∀ (bound : Nat) (es : List (Input C D)) (p : Peer C D B), (bound + es.length : Int) ≤ maxInt →
      Runs.Run (step64 gob) (fun _ e => Raft.TermsUpTo bound e) (init gob peers me) es p →
      Runs.Run (step64 gob) (fun s e => s.raft.TermRoom e) (init gob peers me) es p := by
  have hinit := durable_init (D := D) gob peers me
  refine ⟨fun es es' p q h h' => ?_, fun es p h => ?_, fun bound es p hlen h => ?_⟩
  · have hrun := unbounded_of_room hg hinit (Int.le_refl 0) h
    have hd := durable_of_run hg peers me hrun
    have h₀ := currentTerm_le_of_run hg hinit hrun
    exact currentTerm_le_of_run hg hd (unbounded_of_room hg hd h₀ h')
  · have hrun := run_of_run64 hg (fun _ _ hok => hok) hinit (Int.le_refl 0) h
    exact (voteInv_of_run hg peers me hrun).2.unique
  · exact (room_of_run64 hg peers me h hlen).1

/-- The peer has granted the request. -/
def granted (p : Peer C D B) (args : RequestVoteArgs) : Bool :=
  decide (.reply (.requestVote args) (.requestVote ⟨args.term, true⟩) ∈ p.history)

theorem voted_of_granted {p : Peer C D B} {args : RequestVoteArgs} (h : p.granted args = true) :
    p.Voted args.term args.candidateId :=
  Or.inr ⟨args, _, of_decide_eq_true h, rfl, rfl, rfl⟩

/-- A vote for peer 1 in term 1, and a restart. -/
def votesForOne : List (Input Nat Nat) := [.requestVote ⟨1, 1, 0, 0⟩, .restart]

/-- Then the peer stands in term 2, and gets the request of peer 2 for the same term. -/
def standsNext : List (Input Nat Nat) := [.electionTimer, .restart, .requestVote ⟨2, 2, 0, 0⟩]

theorem one_vote_per_term_restarted :
    ∃ p q : Peer Nat Nat (Word Nat), p.raft.currentTerm = 1 ∧ q.raft.currentTerm = 2 ∧
      p.raft.currentTerm ≤ q.raft.currentTerm ∧ q.Voted 1 1 ∧ q.Voted 2 0 ∧
      ∀ t c c', q.Voted t c → q.Voted t c' → c = c' := by
  have hexec : (Runs.exec (step64 (Labgob.words Nat))
      (fun s e => s.raft.TermRoom e ∧ NamesCandidate e) (init (Labgob.words Nat) 3 0)
      votesForOne).map (·.raft.currentTerm) = some 1 := by decide +kernel
  have hexec₂ : (Runs.exec (step64 (Labgob.words Nat))
      (fun s e => s.raft.TermRoom e ∧ NamesCandidate e) (init (Labgob.words Nat) 3 0)
      (votesForOne ++ standsNext)).map (fun q => (q.raft.currentTerm, q.raft.me,
        q.granted ⟨1, 1, 0, 0⟩, q.history.contains (.stands 2))) = some (2, 0, true, true) := by
    decide +kernel
  obtain ⟨p, hp, hterm⟩ := Runs.run_of_exec_map _ hexec
  obtain ⟨q, hq, hobs⟩ := Runs.run_of_exec_map _ hexec₂
  simp only [Prod.mk.injEq, List.contains_iff_mem] at hobs
  obtain ⟨hterm', hme, hgrant, hstands⟩ := hobs
  obtain ⟨hle, hone, -⟩ := one_vote_per_term (D := Nat) (Labgob.words_roundTrip Nat) 3 0
  refine ⟨p, q, hterm, hterm', ?_, ?_, ?_, hone _ q hq⟩
  · exact hle _ _ p q (hp.mono fun _ _ _ h => h.1) ((hp.rest hq).mono fun _ _ _ h => h.1)
  · exact voted_of_granted hgrant
  · exact Or.inl ⟨hstands, by rw [hme]; rfl⟩

/-- A vote for peer 1 in term 1, and then one in the largest term. -/
def largestTerm : List (Input Nat Nat) :=
  [.requestVote ⟨1, 1, 0, 0⟩, .requestVote ⟨maxInt, 1, 0, 0⟩]

/-- A request of candidate -1 is granted and leaves `votedFor` at -1, so the next
request of the same term is granted as well. And an election at the largest term takes the peer
back behind a term in which it has voted, and it votes there again. -/
theorem two_votes_after_unnamed :
    (∃ (es : List (Input Nat Nat)) (p : Peer Nat Nat (Word Nat)),
      Runs.Run (step64 (Labgob.words Nat)) (fun s e => s.raft.TermRoom e)
        (init (Labgob.words Nat) 3 0) es p ∧ p.Voted 1 (-1) ∧ p.Voted 1 1) ∧
    ∃ (es es' : List (Input Nat Nat)) (p q : Peer Nat Nat (Word Nat)),
      Runs.Run (step64 (Labgob.words Nat)) (fun _ e => NamesCandidate e)
        (init (Labgob.words Nat) 3 0) es p ∧
      Runs.Run (step64 (Labgob.words Nat)) (fun _ e => NamesCandidate e) p es' q ∧
      q.raft.currentTerm < p.raft.currentTerm ∧ q.Voted 1 1 ∧ q.Voted 1 2 := by
  constructor
  · have hexec : (Runs.exec (step64 (Labgob.words Nat)) (fun s e => s.raft.TermRoom e)
        (init (Labgob.words Nat) 3 0) [.requestVote ⟨1, -1, 0, 0⟩, .requestVote ⟨1, 1, 0, 0⟩]).map
          (fun p : Peer Nat Nat (Word Nat) => (p.granted ⟨1, -1, 0, 0⟩, p.granted ⟨1, 1, 0, 0⟩)) =
            some (true, true) := by decide +kernel
    obtain ⟨p, hp, hobs⟩ := Runs.run_of_exec_map _ hexec
    obtain ⟨hnone, hone⟩ := Prod.mk.inj hobs
    exact ⟨_, p, hp, voted_of_granted hnone, voted_of_granted hone⟩
  · have hexec : (Runs.exec (step64 (Labgob.words Nat)) (fun _ e => NamesCandidate e)
        (init (Labgob.words Nat) 3 0) largestTerm).map (·.raft.currentTerm) =
          some maxInt := by decide +kernel
    have hexec₂ : (Runs.exec (step64 (Labgob.words Nat)) (fun _ e => NamesCandidate e)
        (init (Labgob.words Nat) 3 0)
        (largestTerm ++ [.electionTimer, .requestVote ⟨1, 2, 0, 0⟩])).map (fun q =>
          (q.raft.currentTerm, q.granted ⟨1, 1, 0, 0⟩, q.granted ⟨1, 2, 0, 0⟩)) =
            some (1, true, true) := by decide +kernel
    obtain ⟨p, hp, hterm⟩ := Runs.run_of_exec_map _ hexec
    obtain ⟨q, hq, hobs⟩ := Runs.run_of_exec_map _ hexec₂
    simp only [Prod.mk.injEq] at hobs
    obtain ⟨hterm', hone, htwo⟩ := hobs
    refine ⟨_, _, p, q, hp, hp.rest hq, ?_, voted_of_granted hone, voted_of_granted htwo⟩
    rw [hterm, hterm']
    decide

end Peer

end DistributionSystem
