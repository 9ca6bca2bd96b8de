import DistributionSystem.Raft.Conflict

/-! Compaction is transparent. `ReplaceLogWithSnapshot` drops entries from the front of
`rf.logs` and moves `snapshottedIndex` on by their number, so every operation on absolute
indices behind the new snapshot sees the same log. Each handler commutes with the drop:
the last entry, the comparison with sent entries, the slice of a commit, and the entries
that an installed snapshot retains. -/

namespace DistributionSystem.Raft

variable {C D B : Type}

/-- `rf'` holds the log of `rf` without its first `k` entries, and the same otherwise. All
that the new snapshot covers has been applied, but perhaps for its last entry. -/
structure Compacts (rf rf' : Raft C D B) (k : Nat) : Prop where
  logs : rf'.logs = rf.logs.drop k
  index : rf'.snapshottedIndex = rf.snapshottedIndex + k
  lt : k < rf.logs.length
  applied : rf'.snapshottedIndex ≤ rf.lastApplied + 1
  state : rf'.state = rf.state
  currentTerm : rf'.currentTerm = rf.currentTerm
  votedFor : rf'.votedFor = rf.votedFor
  commitIndex : rf'.commitIndex = rf.commitIndex
  lastApplied : rf'.lastApplied = rf.lastApplied

theorem compacts_of_replaceLogWithSnapshot (gob : Labgob C B) {rf : Raft C D B} {index : Int}
    (data : Option D) (hlt : rf.snapshottedIndex < index) (hle : index ≤ rf.lastLogIndex)
    (happ : index ≤ rf.lastApplied + 1) :
    ∃ rf' out, rf.replaceLogWithSnapshot gob index data = some (rf', out) ∧
      rf'.snapshottedIndex = index ∧ Compacts rf rf' (index - rf.snapshottedIndex).toNat := by
  unfold lastLogIndex getAbsoluteLogIndex at hle
  have hdrop : CheckedSlice.drop rf.logs (rf.getRelativeLogIndex index) =
      some (rf.logs.drop (index - rf.snapshottedIndex).toNat) := by
    unfold getRelativeLogIndex CheckedSlice.drop
    rw [if_pos (by omega)]
  unfold replaceLogWithSnapshot
  rw [if_neg (by omega), hdrop]
  refine ⟨_, _, rfl, rfl, rfl, ?_, by omega, happ, rfl, rfl, rfl, rfl, rfl⟩
  show index = _
  omega

namespace Compacts

variable {rf rf' : Raft C D B} {k : Nat}

theorem length (h : Compacts rf rf' k) : rf'.logs.length = rf.logs.length - k := by
  rw [h.logs, List.length_drop]

theorem lastLogIndex (h : Compacts rf rf' k) : rf'.lastLogIndex = rf.lastLogIndex := by
  have hlen := h.length
  have hidx := h.index
  have hlt := h.lt
  unfold Raft.lastLogIndex getAbsoluteLogIndex
  omega

theorem logAt (h : Compacts rf rf' k) {i : Int} (hi : rf'.snapshottedIndex ≤ i) :
    rf'.logAt i = rf.logAt i := by
  have hidx := h.index
  unfold Raft.logAt getRelativeLogIndex CheckedSlice.get
  rw [if_pos (by omega), if_pos (by omega), h.logs, List.getElem?_drop]
  congr 1
  omega

theorem last (h : Compacts rf rf' k) : CheckedSlice.get rf'.logs (rf'.logs.length - 1) =
    CheckedSlice.get rf.logs (rf.logs.length - 1) := by
  have hlen := h.length
  have hidx := h.index
  have hlt := h.lt
  have hat := h.logAt (i := rf'.lastLogIndex) (by
    unfold Raft.lastLogIndex getAbsoluteLogIndex
    omega)
  have hlast := h.lastLogIndex
  unfold Raft.logAt getRelativeLogIndex at hat
  rw [show rf'.lastLogIndex - rf.snapshottedIndex = (rf.logs.length : Int) - 1 by
    rw [hlast]; unfold Raft.lastLogIndex getAbsoluteLogIndex; omega] at hat
  rw [← hat]
  congr 1
  unfold Raft.lastLogIndex getAbsoluteLogIndex
  omega

theorem moreUpToDate_iff (h : Compacts rf rf' k) (last : LogEntry C) (args : RequestVoteArgs) :
    rf'.moreUpToDate last args ↔ rf.moreUpToDate last args := by
  unfold moreUpToDate
  rw [h.lastLogIndex]

theorem adoptTerm (h : Compacts rf rf' k) (t : Int) :
    Compacts (rf.adoptTerm t) (rf'.adoptTerm t) k := by
  have hrole : (rf'.adoptTerm t).state = (rf.adoptTerm t).state ∧
      (rf'.adoptTerm t).votedFor = (rf.adoptTerm t).votedFor := by
    unfold Raft.adoptTerm convertToFollower
    simp only [h.currentTerm, h.state]
    split
    · split
      · exact ⟨rfl, h.votedFor⟩
      · exact ⟨rfl, rfl⟩
    · exact ⟨h.state, h.votedFor⟩
  have hf := adoptTerm_frame rf t
  have hf' := adoptTerm_frame rf' t
  refine ⟨?_, ?_, ?_, ?_, hrole.1, ?_, hrole.2, ?_, ?_⟩
  · rw [adoptTerm_logs, adoptTerm_logs, h.logs]
  · rw [adoptTerm_snapshottedIndex, adoptTerm_snapshottedIndex, h.index]
  · rw [adoptTerm_logs]
    exact h.lt
  · rw [adoptTerm_snapshottedIndex, adoptTerm_lastApplied]
    exact h.applied
  · rw [adoptTerm_currentTerm, adoptTerm_currentTerm, h.currentTerm]
  · rw [hf', hf]
    exact h.commitIndex
  · rw [adoptTerm_lastApplied, adoptTerm_lastApplied, h.lastApplied]

end Compacts

/-! ## RequestVote -/

/-- What a candidate and the next election see of a handled `RequestVote`. -/
def voteOutcome (r : Raft C D B × RequestVoteReply) : RequestVoteReply × Int × Int :=
  (r.2, r.1.currentTerm, r.1.votedFor)

theorem Compacts.requestVote {rf rf' : Raft C D B} {k : Nat} (h : Compacts rf rf' k)
    (gob : Labgob C B) (args : RequestVoteArgs) :
    (rf'.requestVote gob args).map voteOutcome = (rf.requestVote gob args).map voteOutcome := by
  unfold Raft.requestVote
  rw [h.currentTerm, h.votedFor]
  split
  · simp only [Option.map_some, voteOutcome, persist, h.currentTerm, h.votedFor]
  · have ha := h.adoptTerm args.term
    simp only [ha.last]
    cases CheckedSlice.get (rf.adoptTerm args.term).logs
        ((rf.adoptTerm args.term).logs.length - 1) with
    | none => rfl
    | some last =>
      have hiff := ha.moreUpToDate_iff last args
      by_cases hup : (rf.adoptTerm args.term).moreUpToDate last args
      · simp only [if_pos hup, if_pos (hiff.mpr hup), Option.map_some, voteOutcome, persist,
          ha.currentTerm, ha.votedFor]
      · simp only [if_neg hup, if_neg (fun hc => hup (hiff.mp hc)), Option.map_some, voteOutcome,
          persist, voteFor, ha.currentTerm]

/-! ## AppendEntries -/

/-- The comparison with the sent entries starts behind the dropped ones. -/
theorem mergeEntries_drop {logs entries : List (LogEntry C)} {k r : Nat} (hk : k ≤ r)
    (hr : r ≤ logs.length) :
    mergeEntries (logs.drop k) (r - k : Nat) entries =
      (mergeEntries logs r entries).map (List.drop k) := by
  have hdrop : (logs.drop k).drop (r - k) = logs.drop r := by
    rw [List.drop_drop]
    congr 1
    omega
  rw [mergeEntries_of_le hr, mergeEntries_of_le (by rw [List.length_drop]; omega)]
  refine congrArg some ?_
  unfold spliced
  rw [hdrop]
  cases hf : firstMismatch (logs.drop r) entries with
  | none => rfl
  | some u =>
    have hold := (firstMismatch_le hf).1
    rw [List.length_drop] at hold
    show (logs.drop k).take (r - k + u) ++ _ = (logs.take (r + u) ++ _).drop k
    rw [List.drop_append_of_le_length (by rw [List.length_take]; omega), List.drop_take]
    congr 2
    omega

/-- A commit hands out the same entries. -/
theorem Compacts.setCommitIndex {rf rf' : Raft C D B} {k : Nat} (h : Compacts rf rf' k) {c : Int}
    (hc : c ≤ rf.lastLogIndex) :
    ∃ gs, rf.setCommitIndex c =
        some { rf with commitIndex := c, goroutines := rf.goroutines ++ gs } ∧
      rf'.setCommitIndex c =
        some { rf' with commitIndex := c, goroutines := rf'.goroutines ++ gs } := by
  have hidx := h.index
  have hlen := h.length
  have hlt := h.lt
  have happ := h.applied
  unfold Raft.lastLogIndex getAbsoluteLogIndex at hc
  unfold Raft.setCommitIndex
  simp only [getRelativeLogIndex, h.lastApplied]
  by_cases hgt : c > rf.lastApplied
  · rw [if_pos hgt, if_pos hgt, CheckedSlice.slice_of_le (by omega) (by omega) (by omega),
      CheckedSlice.slice_of_le (by omega) (by omega) (by omega)]
    refine ⟨_, rfl, ?_⟩
    have hsame : (rf'.logs.take (c + 1 - rf'.snapshottedIndex).toNat).drop
          (rf.lastApplied + 1 - rf'.snapshottedIndex).toNat =
        (rf.logs.take (c + 1 - rf.snapshottedIndex).toNat).drop
          (rf.lastApplied + 1 - rf.snapshottedIndex).toNat := by
      rw [h.logs, List.take_drop, List.drop_drop]
      congr 2 <;> omega
    rw [hsame]
    rfl
  · rw [if_neg hgt, if_neg hgt]
    exact ⟨[], by rw [List.append_nil], by rw [List.append_nil]⟩

theorem Compacts.followCommit {rf rf' : Raft C D B} {k : Nat} (h : Compacts rf rf' k) (c : Int) :
    ∃ commit gs, rf.followCommit c =
        some { rf with commitIndex := commit, goroutines := rf.goroutines ++ gs } ∧
      rf'.followCommit c =
        some { rf' with commitIndex := commit, goroutines := rf'.goroutines ++ gs } := by
  have hcommit := h.commitIndex
  by_cases hc : rf.commitIndex < c
  · rw [followCommit_of_lt hc, followCommit_of_lt (by omega), h.lastLogIndex]
    exact ⟨_, h.setCommitIndex (Int.min_le_right _ _)⟩
  · rw [followCommit_of_le (by omega), followCommit_of_le (by omega)]
    refine ⟨rf.commitIndex, [], by rw [List.append_nil], ?_⟩
    rw [List.append_nil, ← hcommit]

/-- The peer after an `AppendEntries` that it answers with success. -/
def onSuccess (r : Option (Raft C D B × AppendEntriesReply)) : Option (Raft C D B) :=
  r.bind fun (rf, reply) => if reply.success = true then some rf else none

/-- Two peers, before and after a message, that do the same above an index. -/
structure SameAppend (index : Int) (s s' r r' : Raft C D B) : Prop where
  logs : ∀ i, index < i → r'.logAt i = r.logAt i
  commitIndex : r'.commitIndex = r.commitIndex
  /-- The goroutines that send to `applyCh` are started with the same entries. -/
  handed : ∃ gs, r.goroutines = s.goroutines ++ gs ∧ r'.goroutines = s'.goroutines ++ gs

theorem onSuccess_conflict (rf : Raft C D B) (args : AppendEntriesArgs C) (t : Int) :
    onSuccess ((rf.conflictReply args t).map (rf, ·)) = none := by
  unfold conflictReply
  cases conflictSearch rf.logs t (rf.getRelativeLogIndex args.prevLogIndex).toNat with
  | none => rfl
  | some r => rfl

theorem onSuccess_map (r : Option (Raft C D B × AppendEntriesReply))
    (f : Raft C D B → Raft C D B) :
    onSuccess (r.map fun (rf, reply) => (f rf, reply)) = (onSuccess r).map f := by
  cases r with
  | none => rfl
  | some r =>
    obtain ⟨rf, reply⟩ := r
    simp only [onSuccess, Option.map_some, Option.bind_some]
    split <;> rfl

theorem Compacts.appendAccepted {rf rf' : Raft C D B} {k : Nat} (h : Compacts rf rf' k)
    {args : AppendEntriesArgs C} (hprev : rf'.snapshottedIndex < args.prevLogIndex) :
    Option.Rel (SameAppend rf'.snapshottedIndex rf rf') (onSuccess (rf.appendAccepted args))
      (onSuccess (rf'.appendAccepted args)) := by
  have hidx := h.index
  have hsame : CheckedSlice.get rf'.logs (rf'.getRelativeLogIndex args.prevLogIndex) =
      CheckedSlice.get rf.logs (rf.getRelativeLogIndex args.prevLogIndex) := h.logAt (by omega)
  have hbehind : ¬ args.prevLogIndex ≤ rf.snapshottedIndex := by omega
  have hbehind' : ¬ args.prevLogIndex ≤ rf'.snapshottedIndex := by omega
  unfold Raft.appendAccepted
  rw [if_neg hbehind, if_neg hbehind', h.lastLogIndex, hsame]
  by_cases hlast : rf.lastLogIndex < args.prevLogIndex
  · rw [if_pos hlast, if_pos hlast]
    exact .none
  rw [if_neg hlast, if_neg hlast]
  cases hget : CheckedSlice.get rf.logs (rf.getRelativeLogIndex args.prevLogIndex) with
  | none => exact .none
  | some prev =>
    by_cases ht : prev.term = args.prevLogTerm
    · simp only [ne_eq, ht, not_true_eq_false, if_false]
      -- both merge; `r` is where the sent entries start
      obtain ⟨r, hr⟩ : ∃ r : Nat, args.prevLogIndex + 1 - rf.snapshottedIndex = r :=
        ⟨(args.prevLogIndex + 1 - rf.snapshottedIndex).toNat, by omega⟩
      have hrel : args.prevLogIndex + 1 - rf'.snapshottedIndex = ((r - k : Nat) : Int) := by omega
      have hlen : r ≤ rf.logs.length := by
        unfold Raft.lastLogIndex getAbsoluteLogIndex at hlast
        omega
      obtain ⟨logs, hmerge, hlogs⟩ := mergeEntries_total args.logEntries hlen
      unfold getRelativeLogIndex
      rw [hr, hrel, h.logs, mergeEntries_drop (by omega) hlen, hmerge]
      simp only [Option.map_some]
      have hnew : Compacts { rf with logs := logs } { rf' with logs := logs.drop k } k :=
        ⟨rfl, h.index, by show k < logs.length; omega, h.applied, h.state, h.currentTerm,
          h.votedFor, h.commitIndex, h.lastApplied⟩
      obtain ⟨commit, gs, hc, hc'⟩ := hnew.followCommit args.leaderCommit
      rw [hc, hc']
      refine .some ⟨fun i hi => ?_, rfl, gs, rfl, rfl⟩
      exact hnew.logAt (i := i) (by show rf'.snapshottedIndex ≤ i; omega)
    · simp only [ne_eq, ht, not_false_eq_true, if_true, onSuccess_conflict]
      exact .none

theorem Compacts.appendEntries {rf rf' : Raft C D B} {k : Nat} (h : Compacts rf rf' k)
    (gob : Labgob C B) {args : AppendEntriesArgs C}
    (hprev : rf'.snapshottedIndex < args.prevLogIndex) :
    Option.Rel (SameAppend rf'.snapshottedIndex rf rf') (onSuccess (rf.appendEntries gob args))
      (onSuccess (rf'.appendEntries gob args)) := by
  unfold Raft.appendEntries
  rw [h.currentTerm]
  by_cases hterm : args.term < rf.currentTerm
  · rw [if_pos hterm, if_pos hterm]
    exact .none
  · rw [if_neg hterm, if_neg hterm, onSuccess_map, onSuccess_map]
    have hsnap := adoptTerm_snapshottedIndex rf' args.term
    have hrel := (h.adoptTerm args.term).appendAccepted (hsnap ▸ hprev)
    rw [hsnap] at hrel
    generalize onSuccess ((rf.adoptTerm args.term).appendAccepted args) = a at hrel ⊢
    generalize onSuccess ((rf'.adoptTerm args.term).appendAccepted args) = b at hrel ⊢
    cases hrel with
    | none => exact .none
    | some hsame =>
      obtain ⟨gs, hgs, hgs'⟩ := hsame.handed
      rw [adoptTerm_goroutines] at hgs hgs'
      exact .some ⟨hsame.logs, hsame.commitIndex, gs, hgs, hgs'⟩

/-! ## InstallSnapshot -/

theorem Compacts.retainedLogs {rf rf' : Raft C D B} {k : Nat} (h : Compacts rf rf' k)
    {args : InstallSnapshotArgs D} (hi : rf'.snapshottedIndex ≤ args.lastIncludedIndex) :
    rf'.retainedLogs args = rf.retainedLogs args := by
  have hidx := h.index
  have hsame : CheckedSlice.get rf'.logs (rf'.getRelativeLogIndex args.lastIncludedIndex) =
      CheckedSlice.get rf.logs (rf.getRelativeLogIndex args.lastIncludedIndex) := h.logAt hi
  have hdrop : rf'.logs.drop (rf'.getRelativeLogIndex args.lastIncludedIndex).toNat =
      rf.logs.drop (rf.getRelativeLogIndex args.lastIncludedIndex).toNat := by
    unfold getRelativeLogIndex
    rw [h.logs, List.drop_drop]
    congr 1
    omega
  unfold Raft.retainedLogs
  simp only [hsame, hdrop]

theorem installSnapshot_accepted (gob : Labgob C B) {rf : Raft C D B}
    {args : InstallSnapshotArgs D} (hterm : rf.currentTerm ≤ args.term)
    (hi : rf.snapshottedIndex ≤ args.lastIncludedIndex) :
    (rf.installSnapshot gob args).1.logs = (rf.adoptTerm args.term).retainedLogs args ∧
      (rf.installSnapshot gob args).1.snapshottedIndex = args.lastIncludedIndex := by
  unfold installSnapshot
  rw [if_neg (by omega)]
  simp only
  split <;> exact ⟨rfl, rfl⟩

theorem Compacts.installSnapshot {rf rf' : Raft C D B} {k : Nat} (h : Compacts rf rf' k)
    (gob : Labgob C B) {args : InstallSnapshotArgs D}
    (hi : rf'.snapshottedIndex ≤ args.lastIncludedIndex) :
    (∀ i, rf'.snapshottedIndex ≤ i →
      (rf'.installSnapshot gob args).1.logAt i = (rf.installSnapshot gob args).1.logAt i) ∧
    (rf.currentTerm ≤ args.term →
      (rf'.installSnapshot gob args).1.logs = (rf.installSnapshot gob args).1.logs ∧
      (rf'.installSnapshot gob args).1.snapshottedIndex =
        (rf.installSnapshot gob args).1.snapshottedIndex) := by
  have hidx := h.index
  have hcur := h.currentTerm
  by_cases hterm : args.term < rf.currentTerm
  · -- both refuse
    refine ⟨fun i hle => ?_, fun hc => absurd hterm (Int.not_lt.mpr hc)⟩
    unfold Raft.installSnapshot
    rw [if_pos (Or.inl (by rw [hcur]; exact hterm)), if_pos (Or.inl hterm)]
    exact h.logAt hle
  · obtain ⟨hlogs, hsnap⟩ := installSnapshot_accepted gob (Int.not_lt.mp hterm)
      (show rf.snapshottedIndex ≤ args.lastIncludedIndex by omega)
    obtain ⟨hlogs', hsnap'⟩ := installSnapshot_accepted gob
      (show rf'.currentTerm ≤ args.term by omega) hi
    have hkept : (rf'.adoptTerm args.term).retainedLogs args =
        (rf.adoptTerm args.term).retainedLogs args :=
      (h.adoptTerm args.term).retainedLogs (by rw [adoptTerm_frame]; exact hi)
    have hsame : (rf'.installSnapshot gob args).1.logs = (rf.installSnapshot gob args).1.logs := by
      rw [hlogs', hlogs, hkept]
    have hindex := hsnap'.trans hsnap.symm
    refine ⟨fun i _ => ?_, fun _ => ⟨hsame, hindex⟩⟩
    unfold Raft.logAt getRelativeLogIndex
    rw [hsame, hindex]

/-! ## The whole interface -/

/-- Log compaction is transparent: at and behind the snapshot's index the log is the same, and
so is what `RequestVote`, `AppendEntries` and `InstallSnapshot` do with it. -/
theorem compaction_transparent (gob : Labgob C B) {s : Raft C D B} {index : Int}
    (data : Option D) (hlt : s.snapshottedIndex < index) (hle : index ≤ s.lastLogIndex)
    (happ : index ≤ s.lastApplied + 1) :
    ∃ s' out, s.replaceLogWithSnapshot gob index data = some (s', out) ∧
      (∀ i, index ≤ i → s'.logAt i = s.logAt i) ∧
      (∀ args, (s'.requestVote gob args).map voteOutcome =
        (s.requestVote gob args).map voteOutcome) ∧
      (∀ args : AppendEntriesArgs C, index < args.prevLogIndex →
        Option.Rel (SameAppend index s s') (onSuccess (s.appendEntries gob args))
          (onSuccess (s'.appendEntries gob args))) ∧
      ∀ args : InstallSnapshotArgs D, index ≤ args.lastIncludedIndex →
        (∀ i, index ≤ i →
          (s'.installSnapshot gob args).1.logAt i = (s.installSnapshot gob args).1.logAt i) ∧
        (s.currentTerm ≤ args.term →
          (s'.installSnapshot gob args).1.logs = (s.installSnapshot gob args).1.logs ∧
          (s'.installSnapshot gob args).1.snapshottedIndex =
            (s.installSnapshot gob args).1.snapshottedIndex) := by
  obtain ⟨s', out, hs, rfl, h⟩ := compacts_of_replaceLogWithSnapshot gob data hlt hle happ
  exact ⟨s', out, hs, fun i => h.logAt, h.requestVote gob, fun _ => h.appendEntries gob,
    fun _ => h.installSnapshot gob⟩

theorem compaction_transparent_twoEntries :
    ∃ (s' : Raft Nat Unit (Word Nat)) (out : List (Output Nat Unit)),
      (acknowledged [⟨.client 10, 1⟩, ⟨.client 11, 1⟩]).replaceLogWithSnapshot (Labgob.words Nat) 1
        none = some (s', out) ∧ s'.logAt 2 = some ⟨.client 11, 1⟩ := by
  obtain ⟨s', out, hs, hlog, -⟩ := compaction_transparent (Labgob.words Nat)
    (s := acknowledged [⟨.client 10, 1⟩, ⟨.client 11, 1⟩]) none (show (0 : Int) < 1 by decide)
    (by decide) (by decide)
  exact ⟨s', out, hs, hlog 2 (by decide)⟩

end DistributionSystem.Raft
