import Mathlib.Order.Bounds.Basic
import DistributionSystem.Raft.Agreement

/-! Rejections of `AppendEntries`, and its panics. The follower looks for the first entry of
the conflicting term. The search is exact, but it reads before the log when it starts right
behind a guard of that term; all the other reads and slices of the log and of the sent
entries are in range, up to the commit. -/

namespace DistributionSystem.Raft

variable {C D B : Type}

/-! ## The conflict search -/

theorem conflictSearch_spec {logs : List (LogEntry C)} {t : Int} {k r : Nat}
    (h : conflictSearch logs t k = some r) :
    1 ≤ r ∧ r ≤ k ∧
      (∀ j, r ≤ j → j < k → ∃ e, logs[j]? = some e ∧ e.term = t) ∧
      (1 < r → ∃ e, logs[r - 1]? = some e ∧ e.term ≠ t) := by
  induction k with
  | zero => cases h
  | succ k ih =>
    simp only [conflictSearch] at h
    cases he : logs[k]? with
    | none => rw [he] at h; cases h
    | some e =>
      rw [he] at h
      simp only at h
      by_cases ht : e.term = t
      · rw [if_pos ht] at h
        by_cases hk : k = 1
        · -- the search stops at the first index behind the guard
          rw [if_pos hk] at h
          cases h
          subst hk
          refine ⟨le_refl 1, by omega, fun j h1 h2 => ⟨e, ?_, ht⟩, fun hlt => by omega⟩
          rwa [show j = 1 by omega]
        · rw [if_neg hk] at h
          obtain ⟨hpos, hle, hterms, hstop⟩ := ih h
          refine ⟨hpos, by omega, fun j h1 h2 => ?_, hstop⟩
          by_cases hj : j = k
          · subst hj; exact ⟨e, he, ht⟩
          · exact hterms j h1 (by omega)
      · rw [if_neg ht] at h
        cases h
        exact ⟨by omega, le_refl _, fun j h1 h2 => by omega, fun _ => ⟨e, he, ht⟩⟩

/-- The search leaves the log only if it starts behind a guard of the term. -/
theorem conflictSearch_eq_none_iff {logs : List (LogEntry C)} {t : Int} {k : Nat} (hk : 1 ≤ k)
    (hlen : k ≤ logs.length) :
    conflictSearch logs t k = none ↔ k = 1 ∧ ∃ guard, logs[0]? = some guard ∧ guard.term = t := by
  induction k with
  | zero => omega
  | succ k ih =>
    obtain ⟨e, he⟩ : ∃ e, logs[k]? = some e := ⟨_, List.getElem?_eq_getElem hlen⟩
    simp only [conflictSearch, he]
    by_cases ht : e.term = t
    · rw [if_pos ht]
      by_cases hz : k = 0
      · subst hz
        exact iff_of_true rfl ⟨rfl, e, he, ht⟩
      · by_cases hone : k = 1
        · rw [if_pos hone]
          exact iff_of_false (by simp) fun h => by omega
        · rw [if_neg hone, ih (by omega) (by omega)]
          exact iff_of_false (fun h => by omega) fun h => by omega
    · rw [if_neg ht]
      refine iff_of_false (by simp) ?_
      rintro ⟨hz, guard, hg, hgt⟩
      obtain rfl : k = 0 := by omega
      rw [he] at hg
      cases hg
      exact ht hgt

/-! ## Panics -/

/-- A commit within the log panics only if it starts below the snapshot. -/
theorem setCommitIndex_eq_none_iff {rf : Raft C D B} {c : Int} (hc : c ≤ rf.lastLogIndex) :
    rf.setCommitIndex c = none ↔ rf.lastApplied < c ∧ rf.lastApplied + 1 < rf.snapshottedIndex := by
  unfold lastLogIndex getAbsoluteLogIndex at hc
  unfold setCommitIndex
  simp only [getRelativeLogIndex]
  by_cases hlt : c > rf.lastApplied
  · rw [if_pos hlt]
    by_cases hsnap : rf.lastApplied + 1 < rf.snapshottedIndex
    · have hnone : CheckedSlice.slice rf.logs (rf.lastApplied + 1 - rf.snapshottedIndex)
          (c + 1 - rf.snapshottedIndex) = none := if_neg (by omega)
      rw [hnone]
      exact iff_of_true rfl ⟨hlt, hsnap⟩
    · rw [CheckedSlice.slice_of_le (by omega) (by omega) (by omega)]
      exact iff_of_false (by simp) fun h => hsnap h.2
  · rw [if_neg hlt]
    exact iff_of_false (by simp) fun h => hlt h.1

theorem followCommit_eq_none_iff {rf : Raft C D B} {c : Int} : rf.followCommit c = none ↔
    rf.commitIndex < c ∧ rf.lastApplied < min c rf.lastLogIndex ∧
      rf.lastApplied + 1 < rf.snapshottedIndex := by
  by_cases hlt : rf.commitIndex < c
  · rw [followCommit_of_lt hlt, setCommitIndex_eq_none_iff (Int.min_le_right _ _)]
    exact (and_iff_right hlt).symm
  · rw [followCommit_of_le (Int.not_lt.mp hlt)]
    exact iff_of_false (by simp) fun h => hlt h.1

/-- The comparison and the replacement stay within the log and the sent entries. -/
theorem mergeEntries_total {logs : List (LogEntry C)} (entries : List (LogEntry C)) {r : Nat}
    (hr : r ≤ logs.length) :
    ∃ logs', mergeEntries logs r entries = some logs' ∧ r ≤ logs'.length :=
  ⟨_, mergeEntries_of_le hr, le_length_spliced hr⟩

/-- The conflict search starts right behind a guard of the conflicting term. -/
def SearchesPastGuard (rf : Raft C D B) (args : AppendEntriesArgs C) : Prop :=
  args.prevLogIndex = rf.snapshottedIndex + 1 ∧ ∃ guard e, rf.logs[0]? = some guard ∧
    rf.logs[1]? = some e ∧ e.term ≠ args.prevLogTerm ∧ guard.term = e.term

/-- The message is accepted behind the snapshot and raises the commit index, while entries
that the snapshot covers are not applied yet. -/
def AppliesBelowSnapshot (rf : Raft C D B) (args : AppendEntriesArgs C) : Prop :=
  rf.lastApplied + 1 < rf.snapshottedIndex ∧ rf.commitIndex < args.leaderCommit ∧
    rf.lastApplied < args.leaderCommit ∧ rf.snapshottedIndex < args.prevLogIndex ∧
      ∃ e, rf.logAt args.prevLogIndex = some e ∧ e.term = args.prevLogTerm

theorem logAt_lt {rf : Raft C D B} {i : Int} {e : LogEntry C} (h : rf.logAt i = some e) :
    rf.snapshottedIndex ≤ i ∧ i ≤ rf.lastLogIndex := by
  obtain ⟨hpos, hget⟩ := CheckedSlice.get_eq_some h
  have hlt := (List.getElem?_eq_some_iff.mp hget).1
  unfold getRelativeLogIndex at hpos hlt
  unfold lastLogIndex getAbsoluteLogIndex
  omega

theorem logAt_of_le {rf : Raft C D B} {i : Int} (h : rf.snapshottedIndex ≤ i)
    (h' : i ≤ rf.lastLogIndex) : ∃ e, rf.logAt i = some e := by
  unfold lastLogIndex getAbsoluteLogIndex at h'
  unfold logAt CheckedSlice.get getRelativeLogIndex
  rw [if_pos (by omega)]
  exact ⟨_, List.getElem?_eq_getElem (by omega)⟩

theorem appendToSnapshot_total {rf : Raft C D B} (hne : rf.logs ≠ [])
    {args : AppendEntriesArgs C} (hprev : args.prevLogIndex ≤ rf.snapshottedIndex) :
    ∃ r, rf.appendToSnapshot args = some r := by
  have hpos : 0 < rf.logs.length := List.length_pos_of_ne_nil hne
  unfold appendToSnapshot
  split
  · simp only [CheckedSlice.take, CheckedSlice.drop]
    rw [if_pos (by omega), if_pos (by omega)]
    exact ⟨_, rfl⟩
  · exact ⟨_, rfl⟩

theorem conflictReply_eq_none_iff {rf : Raft C D B} {args : AppendEntriesArgs C} {e : LogEntry C}
    (hprev : rf.snapshottedIndex < args.prevLogIndex)
    (he : rf.logAt args.prevLogIndex = some e) (ht : e.term ≠ args.prevLogTerm) :
    rf.conflictReply args e.term = none ↔ rf.SearchesPastGuard args := by
  obtain ⟨-, hget⟩ := CheckedSlice.get_eq_some he
  have hlt := (List.getElem?_eq_some_iff.mp hget).1
  unfold getRelativeLogIndex at hget hlt
  unfold conflictReply
  rw [Option.map_eq_none_iff]
  unfold getRelativeLogIndex
  rw [conflictSearch_eq_none_iff (by omega) (by omega)]
  constructor
  · rintro ⟨hone, guard, hg, hgt⟩
    rw [hone] at hget
    exact ⟨by omega, guard, e, hg, hget, ht, hgt⟩
  · rintro ⟨hp, guard, e', hg, he', -, hgt⟩
    have hone : (args.prevLogIndex - rf.snapshottedIndex).toNat = 1 := by omega
    rw [hone, he'] at hget
    cases hget
    exact ⟨hone, guard, hg, hgt⟩

/-- The accepting branch merges the entries and panics only in the commit. -/
theorem merged_commit {rf : Raft C D B} {args : AppendEntriesArgs C} {e : LogEntry C}
    (hprev : rf.snapshottedIndex < args.prevLogIndex)
    (he : rf.logAt args.prevLogIndex = some e) (ht : e.term = args.prevLogTerm) :
    ∃ logs, mergeEntries rf.logs (rf.getRelativeLogIndex (args.prevLogIndex + 1))
        args.logEntries = some logs ∧
      (followCommit { rf with logs := logs } args.leaderCommit = none ↔
        rf.AppliesBelowSnapshot args) := by
  have hlast := (logAt_lt he).2
  unfold lastLogIndex getAbsoluteLogIndex at hlast
  obtain ⟨r, hr⟩ : ∃ r : Nat, args.prevLogIndex + 1 - rf.snapshottedIndex = r :=
    ⟨(args.prevLogIndex + 1 - rf.snapshottedIndex).toNat, by omega⟩
  unfold getRelativeLogIndex
  rw [hr]
  obtain ⟨logs, hmerge, hlen⟩ := mergeEntries_total args.logEntries
    (show r ≤ rf.logs.length by omega)
  refine ⟨logs, hmerge, followCommit_eq_none_iff.trans ?_⟩
  simp only [lastLogIndex, getAbsoluteLogIndex, AppliesBelowSnapshot]
  constructor
  · rintro ⟨hcommit, happ, hsnap⟩
    exact ⟨hsnap, hcommit, by omega, hprev, e, he, ht⟩
  · rintro ⟨hsnap, hcommit, happ, -⟩
    exact ⟨hcommit, by omega, hsnap⟩

/-- When the handler panics. Everything but the commit stays in range, up to the search. -/
theorem appendAccepted_eq_none_iff {rf : Raft C D B} (hne : rf.logs ≠ [])
    {args : AppendEntriesArgs C} : rf.appendAccepted args = none ↔
      rf.SearchesPastGuard args ∨ rf.AppliesBelowSnapshot args := by
  unfold appendAccepted
  by_cases hprev : args.prevLogIndex ≤ rf.snapshottedIndex
  · obtain ⟨r, hr⟩ := appendToSnapshot_total hne hprev
    rw [if_pos hprev, hr]
    refine iff_of_false (by simp) ?_
    rintro (⟨hp, -⟩ | ⟨-, -, -, hp, -⟩) <;> omega
  rw [if_neg hprev]
  have hsnap : rf.snapshottedIndex < args.prevLogIndex := Int.not_le.mp hprev
  by_cases hlast : rf.lastLogIndex < args.prevLogIndex
  · rw [if_pos hlast]
    refine iff_of_false (by simp) ?_
    rintro (⟨hp, guard, e, -, he, -⟩ | ⟨-, -, -, -, e, he, -⟩)
    · have hlt := (List.getElem?_eq_some_iff.mp he).1
      unfold lastLogIndex getAbsoluteLogIndex at hlast
      omega
    · have := (logAt_lt he).2
      omega
  rw [if_neg hlast]
  obtain ⟨e, he⟩ := logAt_of_le (Int.le_of_lt hsnap) (Int.not_lt.mp hlast)
  have hget : CheckedSlice.get rf.logs (rf.getRelativeLogIndex args.prevLogIndex) = some e := he
  rw [hget]
  by_cases ht : e.term = args.prevLogTerm
  · have hnot : ¬ rf.SearchesPastGuard args := by
      rintro ⟨hp, guard, e', -, he', hne', -⟩
      unfold logAt getRelativeLogIndex at he
      rw [hp, show rf.snapshottedIndex + 1 - rf.snapshottedIndex = ((1 : Nat) : Int) by omega,
        CheckedSlice.get_of_nat, he'] at he
      cases he
      exact hne' ht
    obtain ⟨logs', hmerge, hcommit⟩ := merged_commit hsnap he ht
    simp only [ne_eq, ht, not_true_eq_false, if_false, hmerge, Option.map_eq_none_iff]
    rw [hcommit]
    exact (or_iff_right hnot).symm
  · simp only [ne_eq, ht, not_false_eq_true, if_true, Option.map_eq_none_iff]
    rw [conflictReply_eq_none_iff hsnap he ht]
    refine ⟨Or.inl, ?_⟩
    rintro (h | ⟨-, -, -, -, e', he', ht'⟩)
    · exact h
    · rw [he] at he'
      cases he'
      exact absurd ht' ht

/-! ## Rejections -/

/-- A rejection changes nothing and names the end of a short log, or where the run of the
conflicting term begins. -/
theorem appendAccepted_rejected {rf r : Raft C D B} {args : AppendEntriesArgs C}
    {reply : AppendEntriesReply} (h : rf.appendAccepted args = some (r, reply))
    (hs : reply.success = false) :
    r = rf ∧ reply.term = rf.currentTerm ∧ rf.snapshottedIndex < args.prevLogIndex ∧
      ((rf.lastLogIndex < args.prevLogIndex ∧ reply.conflictTerm = -1 ∧
          reply.conflictIndex = rf.lastLogIndex + 1) ∨
        ∃ e k, rf.logAt args.prevLogIndex = some e ∧ reply.conflictTerm = e.term ∧
          conflictSearch rf.logs e.term (args.prevLogIndex - rf.snapshottedIndex).toNat = some k ∧
          reply.conflictIndex = k + rf.snapshottedIndex) := by
  unfold appendAccepted at h
  split at h
  · obtain ⟨r', -, he⟩ := Option.map_eq_some_iff.mp h
    cases he
    cases hs
  rename_i hprev
  have hsnap : rf.snapshottedIndex < args.prevLogIndex := Int.not_le.mp hprev
  split at h
  · rename_i hlast
    cases h
    exact ⟨rfl, rfl, hsnap, Or.inl ⟨hlast, rfl, rfl⟩⟩
  split at h
  · cases h
  rename_i e hget
  split at h
  · obtain ⟨rep, hrep, he⟩ := Option.map_eq_some_iff.mp h
    cases he
    obtain ⟨k, hk, rfl⟩ := Option.map_eq_some_iff.mp hrep
    exact ⟨rfl, rfl, hsnap, Or.inr ⟨e, k, hget, rfl, hk, rfl⟩⟩
  · split at h
    · cases h
    · obtain ⟨r', -, he⟩ := Option.map_eq_some_iff.mp h
      cases he
      cases hs

/-- The absolute indices above the snapshot from which on the log has only entries of the
term, up to `last`. -/
def runStarts (rf : Raft C D B) (term last : Int) : Set Int :=
  { i | rf.snapshottedIndex < i ∧
    ∀ k, i ≤ k → k ≤ last → (rf.logAt k).map LogEntry.term = some term }

theorem logAt_eq_getElem? {rf : Raft C D B} {k : Nat} :
    rf.logAt (rf.snapshottedIndex + k) = rf.logs[k]? := by
  unfold logAt getRelativeLogIndex
  rw [show rf.snapshottedIndex + (k : Int) - rf.snapshottedIndex = (k : Int) by omega,
    CheckedSlice.get_of_nat]

theorem conflictSearch_isLeast {rf : Raft C D B} {last : Int} {e : LogEntry C} {k : Nat}
    (hlast : rf.snapshottedIndex < last) (he : rf.logAt last = some e)
    (h : conflictSearch rf.logs e.term (last - rf.snapshottedIndex).toNat = some k) :
    IsLeast (rf.runStarts e.term last) (k + rf.snapshottedIndex) := by
  obtain ⟨hpos, hle, hterms, hstop⟩ := conflictSearch_spec h
  refine ⟨⟨by omega, fun i hi hil => ?_⟩, fun i hi => ?_⟩
  · by_cases hend : i = last
    · rw [hend, he]
      rfl
    · obtain ⟨e', he', ht⟩ := hterms (i - rf.snapshottedIndex).toNat (by omega) (by omega)
      rw [show i = rf.snapshottedIndex + (i - rf.snapshottedIndex).toNat by omega,
        logAt_eq_getElem?, he']
      exact congrArg some ht
  · -- an earlier start would put the term where the search has stopped
    by_contra hlt
    obtain ⟨hsnap, hrun⟩ := hi
    have hone : 1 < k := by omega
    have hat := hrun (rf.snapshottedIndex + (k - 1 : Nat)) (by omega) (by omega)
    obtain ⟨e', he', ht⟩ := hstop hone
    rw [logAt_eq_getElem?, he'] at hat
    exact ht (Option.some.inj hat)

/-- The conflict search is in range but for a start behind a guard of the conflicting term
(the other panic is that of the commit), and the index that it replies is exact. -/
theorem conflict_search_exact {gob : Labgob C B} {rf : Raft C D B} {args : AppendEntriesArgs C}
    (hne : rf.logs ≠ []) (hterm : rf.currentTerm ≤ args.term) :
    (rf.appendEntries gob args = none ↔
      rf.SearchesPastGuard args ∨ rf.AppliesBelowSnapshot args) ∧
    ∀ rf' reply, rf.appendEntries gob args = some (rf', reply) → reply.success = false →
      reply.conflictTerm ≠ -1 →
        IsLeast (rf.runStarts reply.conflictTerm args.prevLogIndex) reply.conflictIndex := by
  have hadopt := adoptTerm_frame rf args.term
  unfold appendEntries
  rw [if_neg (Int.not_lt.mpr hterm), hadopt]
  constructor
  · rw [Option.map_eq_none_iff]
    apply appendAccepted_eq_none_iff
    exact hne
  intro rf' reply h hs hct
  obtain ⟨⟨r, rep⟩, hr, hrep⟩ := Option.map_eq_some_iff.mp h
  cases hrep
  obtain ⟨-, -, hprev, hcase⟩ := appendAccepted_rejected hr hs
  rcases hcase with ⟨-, hc, -⟩ | ⟨e, k, he, ht, hk, hi⟩
  · exact absurd hc hct
  · rw [ht, hi]
    exact conflictSearch_isLeast hprev he hk

/-- A message of term 2 that asks for an entry of term 2 at index 2. -/
def probe : AppendEntriesArgs Nat := ⟨2, 0, 2, 2, [], 0⟩

theorem conflict_search_exact_twoEntries : ∃ rf',
    (acknowledged [⟨.client 10, 1⟩, ⟨.client 11, 1⟩]).appendEntries (Labgob.words Nat) probe =
      some (rf', ⟨2, false, 1, 1⟩) ∧
    IsLeast ((acknowledged [⟨.client 10, 1⟩, ⟨.client 11, 1⟩]).runStarts 1 2) 1 := by
  obtain ⟨rf', h⟩ : ∃ rf', (acknowledged [⟨.client 10, 1⟩, ⟨.client 11, 1⟩]).appendEntries
      (Labgob.words Nat) probe = some (rf', ⟨2, false, 1, 1⟩) := ⟨_, rfl⟩
  exact ⟨rf', h, (conflict_search_exact (by decide) (by decide)).2 _ _ h rfl (by decide)⟩

/-- The same log after a snapshot of its first entry: the guard has the term of the entry
behind it, and the search goes on to `rf.logs[-1]`. -/
theorem search_reads_before_log : ∃ (rf : Raft Nat Unit (Word Nat)) (out : List (Output Nat Unit)),
    (acknowledged [⟨.client 10, 1⟩, ⟨.client 11, 1⟩]).replaceLogWithSnapshot (Labgob.words Nat) 1
      none = some (rf, out) ∧
    rf.logs.map LogEntry.term = [1, 1] ∧ rf.currentTerm ≤ probe.term ∧
    rf.snapshottedIndex ≤ rf.lastApplied + 1 ∧
    rf.appendEntries (Labgob.words Nat) probe = none :=
  ⟨_, _, rfl, rfl, by decide, by decide, rfl⟩

end DistributionSystem.Raft
