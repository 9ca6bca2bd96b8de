import DistributionSystem.Raft.Durable

/-! One vote per term. `votedFor` changes within a term only from -1, and each
ballot a step shows is for the new term and the new `votedFor` (`step_ballot`). With
the recovery of the persisted vote, all ballots of a peer for one term name one
candidate, over its whole life. -/

namespace DistributionSystem

variable {C D B : Type}

/-- The ballots among some outputs of the peer `me`: its own candidacies and the
votes it granted, each with the term and the candidate. -/
def Ballot (me : Nat) (out : List (Output C D)) (term candidate : Int) : Prop :=
  (.stands term ∈ out ∧ candidate = me) ∨
    ∃ args reply, .reply (.requestVote args) (.requestVote reply) ∈ out ∧
      reply.voteGranted = true ∧ args.term = term ∧ args.candidateId = candidate

theorem ballot_append (me : Nat) (a b : List (Output C D)) (t c : Int) :
    Ballot me (a ++ b) t c ↔ Ballot me a t c ∨ Ballot me b t c := by
  simp only [Ballot, List.mem_append]
  constructor
  · rintro (⟨h | h, hc⟩ | ⟨args, reply, h | h, hr⟩)
    · exact Or.inl (Or.inl ⟨h, hc⟩)
    · exact Or.inr (Or.inl ⟨h, hc⟩)
    · exact Or.inl (Or.inr ⟨args, reply, h, hr⟩)
    · exact Or.inr (Or.inr ⟨args, reply, h, hr⟩)
  · rintro ((⟨h, hc⟩ | ⟨args, reply, h, hr⟩) | (⟨h, hc⟩ | ⟨args, reply, h, hr⟩))
    · exact Or.inl ⟨Or.inl h, hc⟩
    · exact Or.inr ⟨args, reply, Or.inl h, hr⟩
    · exact Or.inl ⟨Or.inr h, hc⟩
    · exact Or.inr ⟨args, reply, Or.inr h, hr⟩

/-- Outputs that hold no candidacy and no answer to a vote request. -/
def Silent (out : List (Output C D)) : Prop :=
  ∀ o ∈ out, (∀ t, o ≠ .stands t) ∧ ∀ args reply, o ≠ .reply (.requestVote args) reply

theorem Silent.no_ballot {out : List (Output C D)} (h : Silent out) (me : Nat) (t c : Int) :
    ¬ Ballot me out t c := by
  rintro (⟨hm, -⟩ | ⟨args, reply, hm, -⟩)
  · exact (h _ hm).1 t rfl
  · exact (h _ hm).2 args _ rfl

theorem no_ballot_refused (me : Nat) (args : RequestVoteArgs) (t t' c : Int) :
    ¬ Ballot me ([.reply (.requestVote args) (.requestVote ⟨t, false⟩)] : List (Output C D)) t' c := by
  rintro (⟨hm, -⟩ | ⟨args', reply, hm, hr, -⟩)
  · simp at hm
  · simp only [List.mem_singleton, Output.reply.injEq, Reply.requestVote.injEq] at hm
    rw [hm.2] at hr
    exact absurd hr (by simp)

theorem silent_nil : Silent ([] : List (Output C D)) := by
  intro o ho; simp at ho

namespace Raft

/-- From term `t` and vote `v` to term `t'` and vote `v'`: the term does not go back,
and a vote stands until its term is over. -/
structure TermStep (t v t' v' : Int) : Prop where
  le : t ≤ t'
  vote : t' = t → v ≠ -1 → v' = v

theorem TermStep.refl (t v : Int) : TermStep t v t v := ⟨Int.le_refl t, fun _ _ => rfl⟩

theorem TermStep.of_lt {t t' : Int} (v v' : Int) (h : t < t') : TermStep t v t' v' :=
  ⟨by omega, fun he => by omega⟩

theorem adoptTerm_termStep (rf : Raft C D B) {t : Int} (h : rf.currentTerm ≤ t) :
    TermStep rf.currentTerm rf.votedFor (rf.adoptTerm t).currentTerm (rf.adoptTerm t).votedFor := by
  rcases Int.lt_or_eq_of_le h with hlt | rfl
  · exact .of_lt _ _ (by rw [adoptTerm_currentTerm]; omega)
  · rw [adoptTerm_of_le (Int.le_refl _)]
    exact .refl _ _

/-- A ballot of a step is for the term and the vote that the step leaves behind. -/
def BallotsFor (rf' : Raft C D B) (me : Nat) (out : List (Output C D)) : Prop :=
  ∀ t c, Ballot me out t c → t = rf'.currentTerm ∧ c = rf'.votedFor

theorem ballotsFor_silent {out : List (Output C D)} (h : Silent out) (rf' : Raft C D B)
    (me : Nat) : BallotsFor rf' me out :=
  fun t c hb => absurd hb (h.no_ballot me t c)

variable [DecidableEq C] [DecidableEq D]

theorem step_ballot {gob : Labgob C B} {rf rf' : Raft C D B} {input : Input C D}
    {out : List (Output C D)} (hrec : rf.Recovers gob) (h : Step gob rf input rf' out) :
    TermStep rf.currentTerm rf.votedFor rf'.currentTerm rf'.votedFor ∧
      BallotsFor rf' rf.me out := by
  cases h with
  | @electionTimer last =>
    rw [candidateState_frame]
    refine ⟨.of_lt _ _ (by show _ < rf.currentTerm + 1; omega), ?_⟩
    rintro t c (⟨hm, rfl⟩ | ⟨args, reply, hm, -⟩)
    · simp only [List.mem_cons, Output.stands.injEq, List.mem_map, reduceCtorEq, and_false,
        exists_false, or_false] at hm
      exact ⟨hm, rfl⟩
    · simp at hm
  | refuseTerm => exact ⟨.refl _ _, fun _ _ hb => absurd hb (no_ballot_refused _ _ _ _ _)⟩
  | @refuseLog args hterm =>
    exact ⟨adoptTerm_termStep rf hterm, fun _ _ hb => absurd hb (no_ballot_refused _ _ _ _ _)⟩
  | @grant args last hterm hvote =>
    have ht : (rf.adoptTerm args.term).currentTerm = args.term := by
      rw [adoptTerm_currentTerm]; omega
    refine ⟨⟨?_, ?_⟩, ?_⟩
    · show _ ≤ (rf.adoptTerm args.term).currentTerm
      omega
    · intro he hv
      have he : args.term = rf.currentTerm := ht.symm.trans he
      exact ((hvote he).resolve_left hv).symm
    · rintro t c (⟨hm, -⟩ | ⟨args', reply, hm, -, rfl, rfl⟩)
      · simp at hm
      · simp only [List.mem_singleton, Output.reply.injEq, Request.requestVote.injEq] at hm
        rw [hm.1]
        exact ⟨ht.symm, rfl⟩
  | append hterm h =>
    refine ⟨?_, ballotsFor_silent (by simp [Silent]) _ _⟩
    rw [h.frame]
    exact adoptTerm_termStep rf hterm
  | snapshot hterm => exact ⟨adoptTerm_termStep rf hterm, ballotsFor_silent (by simp [Silent]) _ _⟩
  | voteStepDown _ ht | appendStepDown _ ht | snapshotStepDown _ ht =>
    rw [stepDown_frame]
    exact ⟨.of_lt _ _ ht, ballotsFor_silent silent_nil _ _⟩
  | appendCommit _ _ _ _ hr =>
    refine ⟨?_, ballotsFor_silent silent_nil _ _⟩
    rw [setCommitIndex_frame hr]
    exact .refl _ _
  | restart =>
    refine ⟨?_, ballotsFor_silent silent_nil _ _⟩
    rw [hrec.1, hrec.2.1]
    exact .refl _ _
  | _ => exact ⟨.refl _ _, ballotsFor_silent (by simp [Silent]) _ _⟩

end Raft

/-! ## One vote per term -/

/-- The candidate of a vote request is not -1, the value for no vote. -/
def NamesCandidate : Input C D → Prop
  | .requestVote args => args.candidateId ≠ -1
  | _ => True

namespace Peer

/-- The peer stood in the term, or granted its vote, for the candidate. -/
def Voted (p : Peer C D B) (term candidate : Int) : Prop :=
  Ballot p.raft.me p.history term candidate

/-- Past ballots are of past terms, or of the present term and the present vote. -/
structure VoteInv (p : Peer C D B) : Prop where
  le : ∀ t c, p.Voted t c → t ≤ p.raft.currentTerm
  now : ∀ c, p.Voted p.raft.currentTerm c → p.raft.votedFor = c ∧ c ≠ -1
  unique : ∀ t c c', p.Voted t c → p.Voted t c' → c = c'

theorem voteInv_init (gob : Labgob C B) (peers me : Nat) :
    (init gob peers me : Peer C D B).VoteInv := by
  have h : ∀ t c, ¬ (init gob peers me : Peer C D B).Voted t c := fun t c hv =>
    silent_nil.no_ballot me t c hv
  exact ⟨fun t c hv => absurd hv (h t c), fun c hv => absurd hv (h _ c),
    fun t c _ hv => absurd hv (h t c)⟩

variable [DecidableEq C] [DecidableEq D]

/-- A ballot with a named candidate: votes go to requesters, candidacies to `me`. -/
theorem ballot_ne {gob : Labgob C B} {rf rf' : Raft C D B} {input : Input C D}
    {out : List (Output C D)} (hn : NamesCandidate input) (h : Raft.Step gob rf input rf' out)
    {t c : Int} (hb : Ballot rf.me out t c) : c ≠ -1 := by
  rcases hb with ⟨-, rfl⟩ | ⟨args, reply, hm, -, -, rfl⟩
  · omega
  · cases h <;> simp at hm
    all_goals (obtain ⟨rfl, -⟩ := hm; exact hn)

theorem voteInv_step {gob : Labgob C B} {p q : Peer C D B} {input : Input C D}
    (hd : p.Durable gob) (h : p.VoteInv) (hn : NamesCandidate input)
    (hs : p.step gob input = some q) : q.VoteInv := by
  obtain ⟨⟨rf', out⟩, hr, rfl⟩ := Option.map_eq_some_iff.mp hs
  have hst := Raft.step_cases hr
  obtain ⟨⟨hle, hvote⟩, hout⟩ := Raft.step_ballot hd.recovers hst
  have hme : rf'.me = p.raft.me := (Raft.step_config hst).1
  have hsplit : ∀ t c, Peer.Voted ⟨rf', p.history ++ out⟩ t c →
      p.Voted t c ∨ Ballot p.raft.me out t c := by
    intro t c hv
    simp only [Voted, hme, ballot_append] at hv
    exact hv
  have hnow : ∀ c, Peer.Voted ⟨rf', p.history ++ out⟩ rf'.currentTerm c →
      rf'.votedFor = c ∧ c ≠ -1 := by
    intro c hv
    rcases hsplit _ _ hv with hv | hb
    · have ht := h.le _ _ hv
      have he : rf'.currentTerm = p.raft.currentTerm := by omega
      rw [he] at hv
      obtain ⟨hc, hne⟩ := h.now c hv
      exact ⟨(hvote he (by rw [hc]; exact hne)).trans hc, hne⟩
    · exact ⟨(hout _ _ hb).2.symm, ballot_ne hn hst hb⟩
  refine ⟨?_, hnow, ?_⟩
  · intro t c hv
    rcases hsplit t c hv with hv | hb
    · exact Int.le_trans (h.le t c hv) hle
    · exact Int.le_of_eq (hout t c hb).1
  · intro t c c' hv hv'
    rcases hsplit t c hv with ho | hb
    · rcases hsplit t c' hv' with ho' | hb'
      · exact h.unique t c c' ho ho'
      · rw [(hout t c' hb').1] at hv hv'
        exact (hnow c hv).1.symm.trans (hnow c' hv').1
    · rw [(hout t c hb).1] at hv hv'
      exact (hnow c hv).1.symm.trans (hnow c' hv').1

theorem currentTerm_le_of_step {gob : Labgob C B} {p q : Peer C D B} {input : Input C D}
    (hd : p.Durable gob) (hs : p.step gob input = some q) :
    p.raft.currentTerm ≤ q.raft.currentTerm := by
  obtain ⟨⟨rf', out⟩, hr, rfl⟩ := Option.map_eq_some_iff.mp hs
  exact (Raft.step_ballot hd.recovers (Raft.step_cases hr)).1.le

theorem currentTerm_le_of_run {gob : Labgob C B} (hg : gob.RoundTrip) {p q : Peer C D B}
    {es : List (Input C D)} (hd : p.Durable gob)
    (h : Runs.Run (step gob) (fun _ _ => True) p es q) :
    p.raft.currentTerm ≤ q.raft.currentTerm := by
  have hinv : q.Durable gob ∧ p.raft.currentTerm ≤ q.raft.currentTerm := by
    refine h.invariant (fun s => s.Durable gob ∧ p.raft.currentTerm ≤ s.raft.currentTerm)
      ⟨hd, Int.le_refl _⟩ ?_
    rintro s e t ⟨hds, hle⟩ - hst
    exact ⟨durable_step hg hds hst, Int.le_trans hle (currentTerm_le_of_step hds hst)⟩
  exact hinv.2

theorem voteInv_of_run {gob : Labgob C B} (hg : gob.RoundTrip) (peers me : Nat)
    {es : List (Input C D)} {p : Peer C D B}
    (h : Runs.Run (step gob) (fun _ e => NamesCandidate e) (init gob peers me) es p) :
    p.Durable gob ∧ p.VoteInv := by
  refine h.invariant (fun s => s.Durable gob ∧ s.VoteInv)
    ⟨durable_init gob peers me, voteInv_init gob peers me⟩ ?_
  rintro s e t ⟨hd, hv⟩ hn hst
  exact ⟨durable_step hg hd hst, voteInv_step hd hv hn hst⟩

end Peer

/-! ## The recorded vote

`convertTo(Follower)` clears `votedFor`, but returns at once in a follower. A follower
that takes up a higher term keeps the vote of the old one, unless it votes anew. -/

namespace Raft

/-- The candidate's log is at least as up-to-date as the peer's. -/
def UpToDate (rf : Raft C D B) (args : RequestVoteArgs) : Prop :=
  ∃ last, CheckedSlice.get rf.logs (rf.logs.length - 1) = some last ∧ ¬ rf.moreUpToDate last args

instance (rf : Raft C D B) (args : RequestVoteArgs) : Decidable (rf.UpToDate args) :=
  match h : CheckedSlice.get rf.logs (rf.logs.length - 1) with
  | none => .isFalse fun ⟨_, hl, _⟩ => by rw [h] at hl; cases hl
  | some last => decidable_of_iff (¬ rf.moreUpToDate last args)
      ⟨fun hu => ⟨last, h, hu⟩, fun ⟨_, hl, hu⟩ => by rw [h] at hl; cases hl; exact hu⟩

/-- A follower with a recorded vote is not made to take up a higher term, but by a request
for a vote that it grants. -/
def FreshVote (rf : Raft C D B) (input : Input C D) : Prop :=
  rf.state = .follower → rf.votedFor ≠ -1 →
    match input with
    | .requestVote args => rf.currentTerm < args.term → rf.UpToDate args
    | .appendEntries args => ¬ rf.currentTerm < args.term
    | .installSnapshot args =>
      ¬ (rf.currentTerm < args.term ∧ rf.snapshottedIndex ≤ args.lastIncludedIndex)
    | .voteReply _ _ _ reply => ¬ rf.currentTerm < reply.term
    | .snapshotReply _ _ reply => ¬ rf.currentTerm < reply.term
    | _ => True

instance (rf : Raft C D B) (input : Input C D) : Decidable (rf.FreshVote input) :=
  match input with
  | .requestVote _ => inferInstanceAs (Decidable (_ → _ → _ → Raft.UpToDate _ _))
  | .appendEntries _ | .voteReply .. | .snapshotReply .. =>
    inferInstanceAs (Decidable (_ → _ → ¬ _ < _))
  | .installSnapshot _ => inferInstanceAs (Decidable (_ → _ → ¬ (_ ∧ _)))
  | .electionTimer | .heartbeatTimer | .appendReply .. | .start _ | .resume _
  | .replaceLogWithSnapshot .. | .restart => .isTrue fun _ _ => trivial

theorem requestVote_granted (gob : Labgob C B) {rf : Raft C D B} {args : RequestVoteArgs}
    (hle : rf.currentTerm ≤ args.term)
    (hv : args.term = rf.currentTerm → rf.votedFor = -1 ∨ rf.votedFor = args.candidateId)
    (hup : rf.UpToDate args) : ∃ rf', rf.requestVote gob args = some (rf', ⟨args.term, true⟩) := by
  obtain ⟨last, hlast, hup⟩ := hup
  have hnot : ¬ (args.term < rf.currentTerm ∨ (args.term = rf.currentTerm ∧ rf.votedFor ≠ -1 ∧
      rf.votedFor ≠ args.candidateId)) := by
    rintro (hlt | ⟨he, hne, hne'⟩)
    · omega
    · rcases hv he with hv | hv
      · exact hne hv
      · exact hne' hv
  have hl := adoptTerm_logs rf args.term
  have hs := adoptTerm_snapshottedIndex rf args.term
  have ht : (rf.adoptTerm args.term).currentTerm = args.term := by
    rw [adoptTerm_currentTerm]; omega
  have hup' : ¬ (rf.adoptTerm args.term).moreUpToDate last args := by
    simpa only [moreUpToDate, lastLogIndex, getAbsoluteLogIndex, hl, hs] using hup
  rw [← hl] at hlast
  simp only [requestVote, if_neg hnot, hlast, if_neg hup', ht]
  exact ⟨_, rfl⟩

/-- Taking up a higher term clears the vote, except in a follower. -/
theorem adoptTerm_votedFor {rf : Raft C D B} {t : Int}
    (h : rf.state = .follower → rf.votedFor ≠ -1 → ¬ rf.currentTerm < t) :
    (rf.adoptTerm t).votedFor = -1 ∨
      ((rf.adoptTerm t).votedFor = rf.votedFor ∧ (rf.adoptTerm t).currentTerm = rf.currentTerm) := by
  by_cases hlt : rf.currentTerm < t
  · refine Or.inl ?_
    unfold adoptTerm convertToFollower
    rw [if_pos hlt]
    split
    · rename_i hf
      by_contra hv
      exact h hf hv hlt
    · rfl
  · rw [adoptTerm_of_le (by omega)]
    exact Or.inr ⟨rfl, rfl⟩

theorem stepDown_votedFor (gob : Labgob C B) {rf : Raft C D B} {t : Int}
    (h : rf.state = .follower → rf.votedFor = -1) : (rf.stepDown gob t).votedFor = -1 := by
  unfold stepDown persist convertToFollower
  split
  · rename_i hf
    exact h hf
  · rfl

/-- The vote that a step leaves behind: none, one it has given in the present term, or the
one of before in the term of before. -/
def VoteKept (rf rf' : Raft C D B) (out : List (Output C D)) : Prop :=
  rf'.votedFor = -1 ∨ Ballot rf.me out rf'.currentTerm rf'.votedFor ∨
    (rf'.votedFor = rf.votedFor ∧ rf'.currentTerm = rf.currentTerm)

variable [DecidableEq C] [DecidableEq D]

theorem appendReply_of_not_leader {gob : Labgob C B} {rf rf' : Raft C D B} {server : Nat}
    {args : AppendEntriesArgs C} {reply : AppendEntriesReply} {out : List (Output C D)}
    (hst : rf.state ≠ .leader) (h : rf.step gob (.appendReply server args reply) = some (rf', out)) :
    rf' = rf.leave (.awaitAppend server args) := by
  simp only [step] at h
  obtain ⟨-, hb⟩ := wake_cases h
  obtain ⟨r, hr, he⟩ := Option.map_eq_some_iff.mp hb
  cases he
  have hst' : (rf.leave (.awaitAppend server args)).state ≠ .leader := hst
  simp only [handleAppendReply, if_pos hst', Option.some.injEq] at hr
  exact hr.symm

theorem step_voteKept {gob : Labgob C B} {rf rf' : Raft C D B} {input : Input C D}
    {out : List (Output C D)} (hrec : rf.Recovers gob) (hf : rf.FreshVote input)
    (h : rf.step gob input = some (rf', out)) : VoteKept rf rf' out := by
  cases step_cases h with
  | electionTimer =>
    rw [candidateState_frame]
    exact Or.inr (Or.inl (Or.inl ⟨List.mem_cons_self, rfl⟩))
  | @refuseLog args hterm =>
    refine (adoptTerm_votedFor fun hst hv hlt => ?_).imp_right Or.inr
    -- an up-to-date candidate of a higher term is not refused
    obtain ⟨r, hr⟩ := requestVote_granted gob hterm (fun he => by omega) (hf hst hv hlt)
    simp [step, hr] at h
  | @grant args last hterm =>
    refine Or.inr (Or.inl (Or.inr ⟨args, ⟨args.term, true⟩, List.mem_cons_self, rfl, ?_, rfl⟩))
    show args.term = (rf.adoptTerm args.term).currentTerm
    rw [adoptTerm_currentTerm]
    omega
  | @append args r reply hterm happ =>
    have hv := adoptTerm_votedFor hf
    have hr := happ.frame
    show r.votedFor = -1 ∨ _ ∨ (r.votedFor = _ ∧ r.currentTerm = _)
    rw [hr]
    exact hv.imp_right Or.inr
  | @snapshot args gs hterm hindex =>
    have hv : rf.state = .follower → rf.votedFor ≠ -1 → ¬ rf.currentTerm < args.term :=
      fun hst hv hlt => hf hst hv ⟨hlt, hindex⟩
    exact (adoptTerm_votedFor hv).imp_right Or.inr
  | voteStepDown _ ht =>
    refine Or.inl (stepDown_votedFor gob fun hst => ?_)
    by_contra hv
    exact hf hst hv ht
  | snapshotStepDown _ ht =>
    refine Or.inl (stepDown_votedFor gob fun hst => ?_)
    by_contra hv
    exact hf hst hv ht
  | @appendStepDown server args reply hg ht =>
    by_cases hst : rf.state = .leader
    · refine Or.inl (stepDown_votedFor gob fun hst' => ?_)
      have hst'' : rf.state = .follower := hst'
      rw [hst] at hst''
      exact absurd hst'' (by decide)
    · rw [appendReply_of_not_leader hst h]
      exact Or.inr (Or.inr ⟨rfl, rfl⟩)
  | appendCommit _ _ _ _ hr =>
    rw [setCommitIndex_frame hr]
    exact Or.inr (Or.inr ⟨rfl, rfl⟩)
  | restart => exact Or.inr (Or.inr ⟨hrec.2.1, hrec.1⟩)
  | _ => exact Or.inr (Or.inr ⟨rfl, rfl⟩)

end Raft

namespace Peer

variable [DecidableEq C] [DecidableEq D]

theorem voted_step {gob : Labgob C B} {p q : Peer C D B} {input : Input C D}
    (hd : p.Durable gob) (hf : p.raft.FreshVote input)
    (h : p.raft.votedFor ≠ -1 → p.Voted p.raft.currentTerm p.raft.votedFor)
    (hs : p.step gob input = some q) :
    q.raft.votedFor ≠ -1 → q.Voted q.raft.currentTerm q.raft.votedFor := by
  have hme := (config_step hs).1
  obtain ⟨⟨rf', out⟩, hr, rfl⟩ := Option.map_eq_some_iff.mp hs
  have hme' : rf'.me = p.raft.me := hme
  intro hv
  simp only [Voted, hme', ballot_append]
  rcases Raft.step_voteKept hd.recovers hf hr with hnone | hb | ⟨hvote, hterm⟩
  · exact absurd hnone hv
  · exact Or.inr hb
  · have hv' : rf'.votedFor ≠ -1 := hv
    rw [hvote] at hv' ⊢
    rw [hterm]
    exact Or.inl (h hv')

/-- A recorded vote belongs to the current term, in every run in which no follower with a
recorded vote takes up a higher term without voting in it. A peer that has not voted in
its term then grants the request of every up-to-date candidate of that term. -/
theorem recorded_vote_current {gob : Labgob C B} (hg : gob.RoundTrip) (peers me : Nat)
    {es : List (Input C D)} {p : Peer C D B}
    (h : Runs.Run (step gob) (fun s e => s.raft.FreshVote e) (init gob peers me) es p) :
    (p.raft.votedFor ≠ -1 → p.Voted p.raft.currentTerm p.raft.votedFor) ∧
      ∀ args : RequestVoteArgs, args.term = p.raft.currentTerm →
        (∀ c, ¬ p.Voted p.raft.currentTerm c) → p.raft.UpToDate args →
          ∃ rf', p.raft.requestVote gob args = some (rf', ⟨args.term, true⟩) := by
  have hinv := h.invariant
    (fun s => s.Durable gob ∧ (s.raft.votedFor ≠ -1 → s.Voted s.raft.currentTerm s.raft.votedFor))
    ⟨durable_init gob peers me, fun hv => absurd rfl hv⟩ ?_
  · refine ⟨hinv.2, fun args hterm hnot hup => ?_⟩
    refine Raft.requestVote_granted gob (Int.le_of_eq hterm.symm) (fun _ => Or.inl ?_) hup
    by_contra hv
    exact hnot _ (hinv.2 hv)
  · rintro s e t ⟨hd, hv⟩ hf hs
    exact ⟨durable_step hg hd hs, voted_step hd hf hv hs⟩

/-- A peer that stood in term 1 hears of the leader of term 2, and votes in term 3. -/
theorem recorded_vote_current_voted :
    ∃ p : Peer Nat Nat (Word Nat), p.raft.votedFor = 2 ∧ p.raft.currentTerm = 3 ∧
      p.Voted p.raft.currentTerm p.raft.votedFor := by
  have hexec : (Runs.exec (step (Labgob.words Nat)) (fun s e => s.raft.FreshVote e)
      (init (Labgob.words Nat) 3 0 : Peer Nat Nat (Word Nat))
      [.electionTimer, .appendEntries ⟨2, 1, 0, 0, [], 0⟩, .requestVote ⟨3, 2, 0, 0⟩]).map
        (fun p => (p.raft.votedFor, p.raft.currentTerm)) = some (2, 3) := by decide +kernel
  obtain ⟨p, hrun, hp⟩ := Runs.run_of_exec_map _ hexec
  obtain ⟨hv, ht⟩ := Prod.mk.inj hp
  refine ⟨p, hv, ht, (recorded_vote_current (Labgob.words_roundTrip Nat) 3 0 hrun).1 ?_⟩
  rw [hv]
  decide

/-- A follower that voted in term 1 takes up term 2 from a leader. It has not voted in term
2, and refuses an up-to-date candidate of term 2 for its vote of term 1. -/
theorem vote_of_old_term_refuses :
    ∃ (es : List (Input Nat Nat)) (p : Peer Nat Nat (Word Nat)),
      Runs.Run (step (Labgob.words Nat)) (fun _ _ => True) (init (Labgob.words Nat) 3 0) es p ∧
      p.raft.votedFor = 1 ∧ p.raft.currentTerm = 2 ∧ (∀ c, ¬ p.Voted 2 c) ∧
      p.raft.UpToDate ⟨2, 2, 0, 0⟩ ∧
      (p.raft.requestVote (Labgob.words Nat) ⟨2, 2, 0, 0⟩).map Prod.snd = some ⟨2, false⟩ := by
  have hexec : Runs.exec (step (Labgob.words Nat)) (fun _ _ => True)
      (init (Labgob.words Nat) 3 0 : Peer Nat Nat (Word Nat))
      [.requestVote ⟨1, 1, 0, 0⟩, .appendEntries ⟨2, 1, 0, 0, [], 0⟩] = some _ := rfl
  refine ⟨_, _, Runs.run_of_exec hexec, rfl, rfl, fun c hvoted => ?_, by decide, rfl⟩
  rcases hvoted with ⟨hm, -⟩ | ⟨args, reply, hm, -, ht, -⟩
  · exact absurd hm (by decide)
  · have hmem : (.reply (.requestVote args) (.requestVote reply) : Output Nat Nat) ∈
        [.reply (.requestVote ⟨1, 1, 0, 0⟩) (.requestVote ⟨1, true⟩),
          .reply (.appendEntries ⟨2, 1, 0, 0, [], 0⟩) (.appendEntries { success := true })] := hm
    simp at hmem
    rw [hmem.1] at ht
    exact absurd ht (by decide)

end Peer

end DistributionSystem
