import DistributionSystem.Lib.Quorum
import DistributionSystem.Raft.Cluster
import DistributionSystem.Raft.Votes

/-! Election safety. A counter of `startElection` is at any time the size of a set of
peers that voted in its election and whose replies are used up (`Tally`). A leader
made by a counter of its present term holds a majority of the votes of that term, and
two majorities share a voter.

The code does not ask whether a counter belongs to the present term, and its election
timer also fires in a leader. `TimelyElection` is what has to hold of a step instead;
`two_leaders_of_one_term` is a run without it. -/

namespace DistributionSystem

open Quorum

variable {C D B : Type}

namespace Raft

/-! ## What a step does to the counters -/

theorem adoptTerm_leader {rf : Raft C D B} {t : Int} (h : (rf.adoptTerm t).state = .leader) :
    rf.state = .leader ∧ (rf.adoptTerm t).currentTerm = rf.currentTerm := by
  by_cases hlt : rf.currentTerm < t
  · rw [adoptTerm_of_lt hlt] at h
    exact absurd h (by decide)
  · rw [adoptTerm_of_le (Int.not_lt.mp hlt)] at h ⊢
    exact ⟨h, rfl⟩

variable [DecidableEq C] [DecidableEq D]

/-- No goroutine of `gs'` beyond those of `gs` waits for a vote. -/
def NoNewWait (gs gs' : List (Goroutine C D)) : Prop :=
  ∀ s k a, gs'.count (.awaitVote s k a) ≤ gs.count (.awaitVote s k a)

theorem NoNewWait.refl (gs : List (Goroutine C D)) : NoNewWait gs gs := fun _ _ _ => Nat.le_refl _

theorem NoNewWait.trans {a b c : List (Goroutine C D)} (h : NoNewWait a b) (h' : NoNewWait b c) :
    NoNewWait a c := fun s k x => Nat.le_trans (h' s k x) (h s k x)

theorem noNewWait_erase (gs : List (Goroutine C D)) (g : Goroutine C D) :
    NoNewWait gs (gs.erase g) := fun _ _ _ => List.erase_sublist.count_le _

theorem noNewWait_append {gs new : List (Goroutine C D)}
    (h : ∀ s k a, .awaitVote s k a ∉ new) : NoNewWait gs (gs ++ new) := by
  intro s k a
  rw [List.count_append, List.count_eq_zero_of_not_mem (h s k a), Nat.add_zero]

/-- What a step means for elections: a candidacy, a counted vote, an election won, a
restart, or nothing. -/
inductive ElectionStep (gob : Labgob C B) (rf : Raft C D B) :
    Input C D → Raft C D B → List (Output C D) → Prop
  | stands {last : LogEntry C} : ElectionStep gob rf .electionTimer
      ((rf.candidateState.stand (rf.voteArgs last)).persist gob)
      (.stands (rf.currentTerm + 1) :: rf.others.map (.call · (.requestVote (rf.voteArgs last))))
  | counted {server election : Nat} {args : RequestVoteArgs} {reply : RequestVoteReply}
      {e : Election} (hg : .awaitVote server election args ∈ rf.goroutines)
      (hgr : reply.voteGranted = true) (hst : rf.state = .candidate)
      (he : rf.elections[election]? = some e) :
      ElectionStep gob rf (.voteReply server election args reply)
        ((rf.leave (.awaitVote server election args)).countVote election e) []
  | elected {server election : Nat} {args : RequestVoteArgs} {reply : RequestVoteReply}
      {e : Election} (hg : .awaitVote server election args ∈ rf.goroutines)
      (hgr : reply.voteGranted = true) (hst : rf.state = .candidate)
      (he : rf.elections[election]? = some e) (hn : e.voteCount + 1 > rf.peers / 2) :
      ElectionStep gob rf (.voteReply server election args reply)
        ((rf.leave (.awaitVote server election args)).countVote election e).convertToLeader
        [.leads rf.currentTerm rf.snapshottedIndex]
  | restart : ElectionStep gob rf .restart (make gob rf.peers rf.me rf.persister) []
  | other {input : Input C D} {rf' : Raft C D B} {out : List (Output C D)}
      (he : rf'.elections = rf.elections) (hg : NoNewWait rf.goroutines rf'.goroutines)
      (hl : rf'.state = .leader → rf.state = .leader ∧ rf'.currentTerm = rf.currentTerm)
      (ho : ∀ dst args, .call dst (.requestVote args) ∉ out) : ElectionStep gob rf input rf' out

theorem step_election {gob : Labgob C B} {rf rf' : Raft C D B} {input : Input C D}
    {out : List (Output C D)} (h : Step gob rf input rf' out) :
    ElectionStep gob rf input rf' out := by
  cases h with
  | electionTimer => exact .stands
  | voteCounted hg hgr hst he => exact .counted hg hgr hst he
  | elected hg hgr hst he hn => exact .elected hg hgr hst he hn
  | restart => exact .restart
  | heartbeatTimer hgs =>
    refine .other rfl (noNewWait_append ?_) (fun h => ⟨h, rfl⟩) (by simp)
    intro s k a hm
    obtain ⟨_, -, he⟩ := hgs _ hm
    exact absurd he (by simp)
  | refuseTerm | appendOld | snapshotOld | startOther | replaceIgnored =>
    exact .other rfl (.refl _) (fun h => ⟨h, rfl⟩) (by simp)
  | refuseLog | grant =>
    refine .other (by rw [adoptTerm_frame]; rfl) ?_ (fun h => adoptTerm_leader h) (by simp)
    rw [adoptTerm_frame]
    exact .refl _
  | @append args r reply hterm happ =>
    obtain ⟨gs, hgs, hnew⟩ := happ.goroutines
    have hf := happ.frame
    refine .other ?_ ?_ ?_ (by simp)
    · rw [hf, adoptTerm_frame]; rfl
    · show NoNewWait rf.goroutines r.goroutines
      rw [hgs, adoptTerm_frame]
      refine noNewWait_append ?_
      intro s k a hm
      obtain ⟨_, _, he⟩ := hnew _ hm
      exact absurd he (by simp)
    · rw [hf]; exact fun h => adoptTerm_leader h
  | snapshot hterm hindex hgs =>
    refine .other (by rw [adoptTerm_frame]; rfl) ?_ (fun h => adoptTerm_leader h) (by simp)
    rw [adoptTerm_frame]
    refine noNewWait_append ?_
    rcases hgs with ⟨rfl, -⟩ | rfl <;> simp
  | voteStepDown | appendStepDown | snapshotStepDown =>
    rw [stepDown_frame]
    exact .other rfl (noNewWait_erase _ _) (fun h => NodeState.noConfusion h) (by simp)
  | voteIgnored | appendIgnored | appendSuccess | appendConflict | snapshotRecorded | idle =>
    exact .other rfl (noNewWait_erase _ _) (fun h => ⟨h, rfl⟩) (by simp)
  | appendCommit _ _ _ _ hr =>
    obtain ⟨gs, hgs, hnew⟩ := setCommitIndex_goroutines hr
    have hf := setCommitIndex_frame hr
    refine .other (by rw [hf]; rfl) ?_ (by rw [hf]; exact fun h => ⟨h, rfl⟩) (by simp)
    rw [hgs]
    refine (noNewWait_erase _ _).trans (noNewWait_append ?_)
    intro s k a hm
    obtain ⟨_, _, he⟩ := hnew _ hm
    exact absurd he (by simp)
  | startLeader => exact .other rfl (noNewWait_append (by simp)) (fun h => ⟨h, rfl⟩) (by simp)
  | replaced => exact .other rfl (noNewWait_append (by simp)) (fun h => ⟨h, rfl⟩) (by simp)
  | heartbeatSync | heartbeat | sync | startAppend | apply | applied =>
    exact .other rfl ((noNewWait_erase _ _).trans (noNewWait_append (by simp)))
      (fun h => ⟨h, rfl⟩) (by simp)
  | install => exact .other rfl (noNewWait_erase _ _) (fun h => ⟨h, rfl⟩) (by simp)

/-- One more vote makes the counter of the election a majority. -/
def Completes (rf : Raft C D B) (election : Nat) : Prop :=
  ∃ e ∈ rf.elections[election]?, e.voteCount + 1 > rf.peers / 2

instance (rf : Raft C D B) (election : Nat) : Decidable (rf.Completes election) :=
  inferInstanceAs (Decidable (∃ e ∈ rf.elections[election]?, e.voteCount + 1 > rf.peers / 2))

/-- The election timer does not fire in a leader, and the reply that completes a
majority belongs to an election of the present term. -/
def TimelyElection (rf : Raft C D B) : Input C D → Prop
  | .electionTimer => rf.state ≠ .leader
  | .voteReply _ election args reply =>
    reply.voteGranted = true → rf.state = .candidate → rf.Completes election →
      args.term = rf.currentTerm
  | _ => True

instance (rf : Raft C D B) (input : Input C D) : Decidable (rf.TimelyElection input) :=
  match input with
  | .electionTimer => inferInstanceAs (Decidable (_ ≠ _))
  | .voteReply .. => inferInstanceAs (Decidable (_ → _ → _ → _))
  | .heartbeatTimer | .requestVote _ | .appendEntries _ | .installSnapshot _ | .appendReply ..
  | .snapshotReply .. | .start _ | .resume _ | .replaceLogWithSnapshot .. | .restart =>
    .isTrue trivial

end Raft

/-! ## Counters and voters -/

variable {n : Nat}

/-- The counters of the peer `i` and the goroutines that wait for votes, when
`voted v t` says that `v` has voted for `i` in the term `t`. -/
structure Counters [DecidableEq C] [DecidableEq D] (voted : Fin n → Int → Prop) (i : Fin n)
    (elections : List Election) (gs : List (Goroutine C D)) : Prop where
  candidate : ∀ e ∈ elections, e.args.candidateId = (i : Nat)
  waits : ∀ s k args, .awaitVote s k args ∈ gs → ∃ e, elections[k]? = some e ∧ e.args = args
  once : ∀ s k args, gs.count (.awaitVote s k args) ≤ 1
  counted : ∀ k e, elections[k]? = some e → ∃ S : Finset (Fin n), S.card = e.voteCount ∧
    ∀ v ∈ S, voted v e.args.term ∧ .awaitVote v k e.args ∉ gs

namespace Counters

variable [DecidableEq C] [DecidableEq D]
variable {voted : Fin n → Int → Prop} {i : Fin n} {elections : List Election}
  {gs gs' : List (Goroutine C D)}

theorem nil : Counters voted i [] ([] : List (Goroutine C D)) :=
  ⟨by simp, by simp, by simp, by simp⟩

theorem mono {voted' : Fin n → Int → Prop} (h : Counters voted i elections gs)
    (hv : ∀ v t, voted v t → voted' v t) : Counters voted' i elections gs := by
  refine ⟨h.candidate, h.waits, h.once, ?_⟩
  intro k e he
  obtain ⟨S, hc, hS⟩ := h.counted k e he
  exact ⟨S, hc, fun v hvS => ⟨hv _ _ (hS v hvS).1, (hS v hvS).2⟩⟩

theorem of_noNewWait (h : Counters voted i elections gs) (hg : Raft.NoNewWait gs gs') :
    Counters voted i elections gs' := by
  have hmem : ∀ s k a, .awaitVote s k a ∈ gs' → .awaitVote s k a ∈ gs := fun s k a hm =>
    List.count_pos_iff.mp (Nat.lt_of_lt_of_le (List.count_pos_iff.mpr hm) (hg s k a))
  refine ⟨h.candidate, fun s k a hm => h.waits s k a (hmem s k a hm),
    fun s k a => Nat.le_trans (hg s k a) (h.once s k a), ?_⟩
  intro k e he
  obtain ⟨S, hc, hS⟩ := h.counted k e he
  exact ⟨S, hc, fun v hvS => ⟨(hS v hvS).1, fun hm => (hS v hvS).2 (hmem _ _ _ hm)⟩⟩

/-- A new election starts with the candidate's own vote. -/
theorem stand (h : Counters voted i elections gs) {args : RequestVoteArgs} {others : List Nat}
    (hid : args.candidateId = (i : Nat)) (hnodup : others.Nodup) (hi : (i : Nat) ∉ others)
    (hown : voted i args.term) :
    Counters voted i (elections ++ [⟨args, 1⟩])
      (gs ++ others.map (.awaitVote · elections.length args)) := by
  have hold : ∀ s a, .awaitVote s elections.length a ∉ gs := by
    intro s a hm
    obtain ⟨e, he, -⟩ := h.waits s _ a hm
    simp at he
  have hnew : ∀ s k a, .awaitVote s k a ∈
      (others.map (.awaitVote · elections.length args) : List (Goroutine C D)) →
      k = elections.length ∧ a = args ∧ s ∈ others := by
    intro s k a hm
    obtain ⟨s', hs', he⟩ := List.mem_map.mp hm
    cases he
    exact ⟨rfl, rfl, hs'⟩
  refine ⟨?_, ?_, ?_, ?_⟩
  · intro e he
    rcases List.mem_append.mp he with he | he
    · exact h.candidate e he
    · rw [List.mem_singleton.mp he]; exact hid
  · intro s k a hm
    rcases List.mem_append.mp hm with hm | hm
    · obtain ⟨e, he, ha⟩ := h.waits s k a hm
      exact ⟨e, by rw [List.getElem?_append_left (List.getElem?_eq_some_iff.mp he).1, he], ha⟩
    · obtain ⟨rfl, rfl, -⟩ := hnew s k a hm
      exact ⟨⟨a, 1⟩, by simp, rfl⟩
  · intro s k a
    rw [List.count_append]
    by_cases hk : k = elections.length
    · subst hk
      rw [List.count_eq_zero_of_not_mem (hold s a), Nat.zero_add]
      refine List.nodup_iff_count_le_one.mp (hnodup.map ?_) _
      intro x y hxy
      cases hxy; rfl
    · rw [List.count_eq_zero_of_not_mem (fun hm => hk (hnew s k a hm).1), Nat.add_zero]
      exact h.once s k a
  · intro k e he
    by_cases hk : k < elections.length
    · rw [List.getElem?_append_left hk] at he
      obtain ⟨S, hc, hS⟩ := h.counted k e he
      refine ⟨S, hc, fun v hvS => ⟨(hS v hvS).1, fun hm => ?_⟩⟩
      rcases List.mem_append.mp hm with hm | hm
      · exact (hS v hvS).2 hm
      · have := (hnew _ _ _ hm).1
        omega
    · obtain ⟨hlt, -⟩ := List.getElem?_eq_some_iff.mp he
      rw [List.length_append, List.length_singleton] at hlt
      obtain rfl : k = elections.length := by omega
      rw [List.getElem?_concat_length, Option.some.injEq] at he
      subst he
      refine ⟨{i}, Finset.card_singleton i, ?_⟩
      intro v hv
      rw [Finset.mem_singleton] at hv
      subst hv
      refine ⟨hown, fun hm => ?_⟩
      rcases List.mem_append.mp hm with hm | hm
      · exact hold _ _ hm
      · exact hi (hnew _ _ _ hm).2.2

/-- A granted vote goes from the waiting goroutine into the counter, once. -/
theorem count (h : Counters voted i elections gs) {v : Fin n} {k : Nat} {args : RequestVoteArgs}
    {e : Election} (hg : .awaitVote v k args ∈ gs) (he : elections[k]? = some e)
    (hv : voted v args.term) :
    e.args = args ∧
    (∃ S : Finset (Fin n), S.card = e.voteCount + 1 ∧ ∀ w ∈ S, voted w args.term) ∧
    Counters voted i (elections.set k { e with voteCount := e.voteCount + 1 })
      (gs.erase (.awaitVote v k args)) := by
  obtain ⟨e', he', ha⟩ := h.waits _ _ _ hg
  obtain rfl : e = e' := Option.some.inj (he.symm.trans he')
  have hk : k < elections.length := (List.getElem?_eq_some_iff.mp he).1
  have hsub : ∀ g ∈ gs.erase (.awaitVote v k args), g ∈ gs := fun g hm => List.mem_of_mem_erase hm
  have hgone : .awaitVote (v : Nat) k args ∉ gs.erase (.awaitVote v k args) := by
    intro hm
    have h1 := List.count_pos_iff.mpr hm
    rw [List.count_erase_self] at h1
    have h2 := h.once v k args
    omega
  obtain ⟨S, hc, hS⟩ := h.counted k e he
  have hnot : v ∉ S := fun hvS => (hS v hvS).2 (ha ▸ hg)
  have hcard : (insert v S).card = e.voteCount + 1 := by
    rw [Finset.card_insert_of_notMem hnot, hc]
  have hall : ∀ w ∈ insert v S, voted w e.args.term := by
    intro w hw
    rcases Finset.mem_insert.mp hw with rfl | hw
    · exact ha ▸ hv
    · exact (hS w hw).1
  refine ⟨ha, ⟨insert v S, hcard, ha ▸ hall⟩, ?_, ?_, ?_, ?_⟩
  · intro x hx
    rcases List.mem_or_eq_of_mem_set hx with hx | rfl
    · exact h.candidate x hx
    · exact h.candidate e (List.mem_of_getElem? he)
  · intro s k' a hm
    obtain ⟨x, hx, hxa⟩ := h.waits s k' a (hsub _ hm)
    by_cases hkk : k = k'
    · subst hkk
      obtain rfl : e = x := Option.some.inj (he.symm.trans hx)
      exact ⟨_, List.getElem?_set_self hk, hxa⟩
    · exact ⟨x, by rw [List.getElem?_set_ne hkk, hx], hxa⟩
  · intro s k' a
    exact Nat.le_trans (List.erase_sublist.count_le _) (h.once s k' a)
  · intro k' x hx
    by_cases hkk : k = k'
    · subst hkk
      rw [List.getElem?_set_self hk, Option.some.injEq] at hx
      subst hx
      refine ⟨insert v S, hcard, fun w hw => ⟨hall w hw, fun hm => ?_⟩⟩
      rcases Finset.mem_insert.mp hw with rfl | hw
      · exact hgone (ha ▸ hm)
      · exact (hS w hw).2 (hsub _ hm)
    · rw [List.getElem?_set_ne hkk] at hx
      obtain ⟨S', hc', hS'⟩ := h.counted k' x hx
      exact ⟨S', hc', fun w hw => ⟨(hS' w hw).1, fun hm => (hS' w hw).2 (hsub _ hm)⟩⟩

end Counters

/-- The part of a peer in elections: its requests name it, its counters count votes
for it, and as a leader it has the votes of a majority. -/
structure Tally [DecidableEq C] [DecidableEq D] (voted : Fin n → Int → Prop) (i : Fin n)
    (p : Peer C D B) : Prop where
  calls : ∀ dst (args : RequestVoteArgs), .call dst (.requestVote args) ∈ p.history →
    args.candidateId = (i : Nat)
  counters : Counters voted i p.raft.elections p.raft.goroutines
  leads : p.raft.state = .leader →
    ∃ S : Finset (Fin n), Majority S ∧ ∀ v ∈ S, voted v p.raft.currentTerm

namespace Tally

variable [DecidableEq C] [DecidableEq D]
variable {voted : Fin n → Int → Prop} {i : Fin n} {p : Peer C D B}

theorem mono {voted' : Fin n → Int → Prop} (h : Tally voted i p)
    (hv : ∀ v t, voted v t → voted' v t) : Tally voted' i p := by
  refine ⟨h.calls, h.counters.mono hv, ?_⟩
  intro hl
  obtain ⟨S, hm, hS⟩ := h.leads hl
  exact ⟨S, hm, fun v hvS => hv _ _ (hS v hvS)⟩

theorem init (gob : Labgob C B) : Tally voted i (Peer.init gob n i : Peer C D B) := by
  unfold Peer.init
  rw [Raft.make_frame]
  exact ⟨by simp, Counters.nil, fun h => NodeState.noConfusion h⟩

theorem step {gob : Labgob C B} {input : Input C D} {rf' : Raft C D B}
    {out : List (Output C D)} (h : Tally voted i p) (hme : p.raft.me = i)
    (hpeers : p.raft.peers = n) (ht : p.raft.TimelyElection input)
    (hs : Raft.ElectionStep gob p.raft input rf' out)
    (hown : ∀ t, .stands t ∈ out → voted i t)
    (hreply : ∀ s k args reply, input = .voteReply s k args reply → reply.voteGranted = true →
      args.candidateId = (i : Nat) → ∃ v : Fin n, s = v ∧ voted v args.term) :
    Tally voted i ⟨rf', p.history ++ out⟩ := by
  have hcalls : (∀ dst (args : RequestVoteArgs), .call dst (.requestVote args) ∈ out →
        args.candidateId = (i : Nat)) →
      ∀ dst (args : RequestVoteArgs), .call dst (.requestVote args) ∈ p.history ++ out →
        args.candidateId = (i : Nat) := by
    intro ho dst args hm
    rcases List.mem_append.mp hm with hm | hm
    · exact h.calls dst args hm
    · exact ho dst args hm
  cases hs with
  | @stands last =>
    rw [Raft.candidateState_frame]
    refine ⟨hcalls ?_, ?_, ?_⟩
    · intro dst args hm
      simp only [List.mem_cons, reduceCtorEq, List.mem_map, false_or] at hm
      obtain ⟨_, -, he⟩ := hm
      cases he
      exact congrArg _ hme
    · refine h.counters.stand (congrArg _ hme) ?_ ?_ (hown _ (List.mem_cons_self ..))
      · exact List.nodup_range.filter _
      · exact fun hm => Raft.ne_me_of_mem_others hm hme.symm
    · intro hl
      have hs : p.raft.candidateState.state = .leader := hl
      unfold Raft.candidateState at hs
      split at hs
      · exact NodeState.noConfusion hs
      · exact absurd hs ht
  | @counted server election args reply e hg hgr hst he =>
    obtain ⟨e', he', ha⟩ := h.counters.waits _ _ _ hg
    have hid := h.counters.candidate e' (List.mem_of_getElem? he')
    obtain ⟨v, rfl, hv⟩ := hreply _ _ _ _ rfl hgr (ha ▸ hid)
    obtain ⟨-, -, hcount⟩ := h.counters.count hg he hv
    refine ⟨hcalls (by simp), hcount, ?_⟩
    intro hl
    exact NodeState.noConfusion (hst.symm.trans hl)
  | @elected server election args reply e hg hgr hst he hn =>
    obtain ⟨e', he', ha⟩ := h.counters.waits _ _ _ hg
    have hid := h.counters.candidate e' (List.mem_of_getElem? he')
    obtain ⟨v, rfl, hv⟩ := hreply _ _ _ _ rfl hgr (ha ▸ hid)
    obtain ⟨-, ⟨S, hc, hS⟩, hcount⟩ := h.counters.count hg he hv
    refine ⟨hcalls (by simp), hcount.of_noNewWait (Raft.noNewWait_append ?_), ?_⟩
    · simp
    · intro _
      have hterm : args.term = p.raft.currentTerm := ht hgr hst ⟨e, he, hn⟩
      refine ⟨S, ?_, hterm ▸ hS⟩
      rw [Majority, Fintype.card_fin, hc, ← hpeers]
      exact hn
  | restart =>
    rw [Raft.make_frame]
    exact ⟨hcalls (by simp), Counters.nil, fun h => NodeState.noConfusion h⟩
  | other he hg hl ho =>
    refine ⟨hcalls fun dst args hm => absurd hm (ho dst args), ?_, ?_⟩
    · show Counters voted i rf'.elections rf'.goroutines
      rw [he]
      exact h.counters.of_noNewWait hg
    · intro hlead
      obtain ⟨hlead, hterm⟩ := hl hlead
      obtain ⟨S, hm, hS⟩ := h.leads hlead
      exact ⟨S, hm, fun v hv => by show voted v rf'.currentTerm; rw [hterm]; exact hS v hv⟩

end Tally

/-! ## The cluster -/

namespace Cluster

variable [DecidableEq C]

/-- `v` has voted for `c` in the term `t`. -/
def Votes (cl : Cluster n C B) (v : Fin n) (t : Int) (c : Fin n) : Prop :=
  (cl v).Voted t (c : Nat)

/-- What holds of elections in every state of a run with timely elections. -/
structure ElectionInv (gob : Labgob C B) (cl : Cluster n C B) : Prop where
  config : ∀ i, (cl i).raft.me = i ∧ (cl i).raft.peers = n
  durable : ∀ i, (cl i).Durable gob
  votes : ∀ i, (cl i).VoteInv
  tally : ∀ i, Tally (fun v t => cl.Votes v t i) i (cl i)

theorem electionInv_init (gob : Labgob C B) (n : Nat) :
    ElectionInv gob (init gob n : Cluster n C B) :=
  ⟨fun _ => ⟨Raft.make_me .., Raft.make_peers ..⟩, fun i => Peer.durable_init gob n i,
    fun i => Peer.voteInv_init gob n i, fun _ => Tally.init gob⟩

theorem votes_mono {gob : Labgob C B} {cl : Cluster n C B} {d : Fin n} {input : Input C _}
    {p : Peer C (List (LogEntry C)) B} (hs : (cl d).step gob input = some p) {v c : Fin n} {t : Int}
    (h : cl.Votes v t c) : (cl.set d p).Votes v t c := by
  unfold Votes at h ⊢
  by_cases hv : v = d
  · subst hv
    rw [set_self]
    have hconfig := (Peer.config_step hs).1
    obtain ⟨⟨rf', out⟩, -, rfl⟩ := Option.map_eq_some_iff.mp hs
    have hme : rf'.me = (cl v).raft.me := hconfig
    simp only [Peer.Voted, hme, ballot_append]
    exact Or.inl h
  · rwa [set_of_ne hv]

theorem namesCandidate_of_allowed {gob : Labgob C B} {cl : Cluster n C B}
    (h : cl.ElectionInv gob) {src dst : Fin n} {input : Input C (List (LogEntry C))}
    (ha : cl.Allowed src dst input) : NamesCandidate input := by
  cases input with
  | requestVote args =>
    have hid := (h.tally src).calls dst args ha
    show args.candidateId ≠ -1
    omega
  | _ => trivial

theorem electionInv_step {gob : Labgob C B} (hg : gob.RoundTrip) {cl cl' : Cluster n C B}
    {e : Event n C} (h : cl.ElectionInv gob) (ht : (cl e.dst).raft.TimelyElection e.input)
    (hs : cl.step gob e = some cl') : cl'.ElectionInv gob := by
  obtain ⟨ha, p, hp, rfl⟩ := step_cases hs
  obtain ⟨hme, hpeers⟩ := h.config e.dst
  have hmono : ∀ i v t, cl.Votes v t i → (cl.set e.dst p).Votes v t i :=
    fun _ _ _ => votes_mono hp
  refine ⟨forall_set (fun i q => q.raft.me = i ∧ q.raft.peers = n) h.config ?_,
    forall_set (fun _ q => q.Durable gob) h.durable (Peer.durable_step hg (h.durable _) hp),
    forall_set (fun _ q => q.VoteInv) h.votes (Peer.voteInv_step (h.durable _) (h.votes _)
      (namesCandidate_of_allowed h ha) hp),
    forall_set (fun i q => Tally (fun v t => (cl.set e.dst p).Votes v t i) i q)
      (fun i => (h.tally i).mono (hmono i)) ?_⟩
  · obtain ⟨hme', hpeers'⟩ := Peer.config_step hp
    exact ⟨hme'.trans hme, hpeers'.trans hpeers⟩
  · have hvotes : ∀ t, Ballot e.dst (p.history) t (e.dst : Nat) →
        (cl.set e.dst p).Votes e.dst t e.dst := by
      intro t hb
      unfold Votes Peer.Voted
      rw [set_self, (Peer.config_step hp).1, hme]
      exact hb
    obtain ⟨⟨rf', out⟩, hr, rfl⟩ := Option.map_eq_some_iff.mp hp
    refine ((h.tally e.dst).mono (hmono e.dst)).step hme hpeers ht
      (Raft.step_election (Raft.step_cases hr)) ?_ ?_
    · intro t hm
      exact hvotes t (Or.inl ⟨List.mem_append_right _ hm, rfl⟩)
    · intro s k args reply hin hgr hid
      rw [hin] at ha
      obtain ⟨rfl, hans⟩ := ha
      exact ⟨e.src, rfl, hmono _ _ _ (Or.inr ⟨args, reply, hans, hgr, rfl, hid⟩)⟩

/-- Two leaders of one term share a voter, who voted once. -/
theorem ElectionInv.leader_unique {gob : Labgob C B} {cl : Cluster n C B}
    (h : cl.ElectionInv gob) {i j : Fin n} (hi : (cl i).raft.state = .leader)
    (hj : (cl j).raft.state = .leader)
    (ht : (cl i).raft.currentTerm = (cl j).raft.currentTerm) : i = j := by
  obtain ⟨S, hS, hvS⟩ := (h.tally i).leads hi
  obtain ⟨T, hT, hvT⟩ := (h.tally j).leads hj
  obtain ⟨v, hv, hv'⟩ := hS.inter hT
  have hc := (h.votes v).unique _ _ _ (hvS v hv) (ht ▸ hvT v hv')
  exact Fin.ext (by omega)

theorem electionInv_of_run {gob : Labgob C B} (hg : gob.RoundTrip) (n : Nat)
    {ok : Cluster n C B → Event n C → Prop}
    (hok : ∀ cl e, ok cl e → (cl e.dst).raft.TimelyElection e.input)
    {es : List (Event n C)} {cl : Cluster n C B} (h : Runs.Run (step gob) ok (init gob n) es cl) :
    cl.ElectionInv gob :=
  h.invariant (ElectionInv gob) (electionInv_init gob n)
    fun _ _ _ hinv ht hs => electionInv_step hg hinv (hok _ _ ht) hs

/-- Election safety: in every state of a run with timely elections, different leaders
are of different terms. -/
theorem election_safety {gob : Labgob C B} (hg : gob.RoundTrip) (n : Nat)
    {es : List (Event n C)} {cl : Cluster n C B}
    (h : Runs.Run (step gob) (fun cl e => (cl e.dst).raft.TimelyElection e.input) (init gob n)
      es cl) :
    ∀ i j, (cl i).raft.state = .leader → (cl j).raft.state = .leader →
      (cl i).raft.currentTerm = (cl j).raft.currentTerm → i = j :=
  fun _ _ hi hj ht => (electionInv_of_run hg n (fun _ _ h => h) h).leader_unique hi hj ht

/-- What `GetState` shows of a peer. -/
def status (cl : Cluster n C B) (i : Fin n) : NodeState × Int :=
  ((cl i).raft.state, (cl i).raft.currentTerm)

/-- The runs below are of three peers, written as numerals. -/
scoped instance neZeroThree : @NeZero Nat Zero.ofOfNat0 3 := ⟨Nat.succ_ne_zero 2⟩

/-- Peer 0 stands and gets the vote of peer 1. -/
def plainElection : List (Event 3 Nat) :=
  [⟨0, 0, .electionTimer⟩, ⟨0, 1, .requestVote ⟨1, 0, 0, 0⟩⟩,
    ⟨1, 0, .voteReply 1 0 ⟨1, 0, 0, 0⟩ ⟨1, true⟩⟩]

theorem election_safety_plainElection :
    ∃ cl : Cluster 3 Nat (Word Nat), cl.status 0 = (.leader, 1) ∧
      ∀ i j, (cl i).raft.state = .leader → (cl j).raft.state = .leader →
        (cl i).raft.currentTerm = (cl j).raft.currentTerm → i = j := by
  have hexec : (Runs.exec (step (Labgob.words Nat))
      (fun cl e => (cl e.dst).raft.TimelyElection e.input) (init (Labgob.words Nat) 3)
      plainElection).map (status · 0) = some (.leader, 1) := by decide +kernel
  obtain ⟨cl, hrun, hst⟩ := Runs.run_of_exec_map _ hexec
  exact ⟨cl, hst, election_safety (Labgob.words_roundTrip Nat) 3 hrun⟩

/-- Peer 1 votes for peer 0 in term 1, but peer 0 stands again before the reply
arrives. Peer 2 wins term 2 with the vote of peer 1; then the reply of term 1 makes
peer 0 a leader of term 2 as well. -/
def staleVote : List (Event 3 Nat) :=
  [⟨0, 0, .electionTimer⟩, ⟨0, 1, .requestVote ⟨1, 0, 0, 0⟩⟩, ⟨0, 0, .electionTimer⟩,
    ⟨2, 2, .electionTimer⟩, ⟨2, 2, .electionTimer⟩, ⟨2, 1, .requestVote ⟨2, 2, 0, 0⟩⟩,
    ⟨1, 2, .voteReply 1 1 ⟨2, 2, 0, 0⟩ ⟨2, true⟩⟩, ⟨1, 0, .voteReply 1 0 ⟨1, 0, 0, 0⟩ ⟨1, true⟩⟩]

theorem two_leaders_of_one_term :
    ∃ (es : List (Event 3 Nat)) (cl : Cluster 3 Nat (Word Nat)),
      Runs.Run (step (Labgob.words Nat)) (fun _ _ => True) (init (Labgob.words Nat) 3) es cl ∧
        cl.status 0 = (.leader, 2) ∧ cl.status 2 = (.leader, 2) := by
  have hexec : (Runs.exec (step (Labgob.words Nat)) (fun _ _ => True)
      (init (Labgob.words Nat) 3) staleVote).map (fun cl => (status cl 0, status cl 2)) =
        some ((.leader, 2), (.leader, 2)) := by decide +kernel
  obtain ⟨cl, hrun, hst⟩ := Runs.run_of_exec_map _ hexec
  exact ⟨staleVote, cl, hrun, congrArg Prod.fst hst, congrArg Prod.snd hst⟩

end Cluster

end DistributionSystem
