import DistributionSystem.Raft.Peer

/-! What a step of a peer can do, said once: `Step` lists the outcomes of `step`, and
`step_cases` derives them from the functions. Every invariant below is a case
analysis of `Step`. -/

namespace DistributionSystem.Raft

variable {C D B : Type}

/-- The goroutine `g` has left the place where it waited. -/
def leave [DecidableEq C] [DecidableEq D] (rf : Raft C D B) (g : Goroutine C D) : Raft C D B :=
  { rf with goroutines := rf.goroutines.erase g }

/-- `convertTo(Candidate)` sets the state of a follower only. -/
def candidateState (rf : Raft C D B) : Raft C D B :=
  if rf.state = .follower then { rf with state := .candidate } else rf

theorem ne_me_of_mem_others {rf : Raft C D B} {server : Nat} (h : server ∈ rf.others) :
    server ≠ rf.me := by
  simpa using (List.mem_filter.mp h).2

/-! ## Frames: the fields that a change of state touches -/

theorem candidateState_frame (rf : Raft C D B) :
    rf.candidateState = { rf with state := rf.candidateState.state } := by
  unfold candidateState; split <;> rfl

theorem convertToFollower_frame (rf : Raft C D B) : rf.convertToFollower =
    { rf with state := .follower, votedFor := rf.convertToFollower.votedFor } := by
  unfold convertToFollower
  split
  · rename_i h; rw [← h]
  · rfl

theorem adoptTerm_frame (rf : Raft C D B) (t : Int) : rf.adoptTerm t =
    { rf with
      currentTerm := max rf.currentTerm t
      state := (rf.adoptTerm t).state, votedFor := (rf.adoptTerm t).votedFor } := by
  unfold adoptTerm
  split
  · rw [convertToFollower_frame, Int.max_eq_right (by omega)]
  · rw [Int.max_eq_left (by omega)]

theorem adoptTerm_currentTerm (rf : Raft C D B) (t : Int) :
    (rf.adoptTerm t).currentTerm = max rf.currentTerm t := by
  rw [adoptTerm_frame]

@[simp]
theorem adoptTerm_logs (rf : Raft C D B) (t : Int) : (rf.adoptTerm t).logs = rf.logs := by
  rw [adoptTerm_frame]

@[simp]
theorem adoptTerm_snapshottedIndex (rf : Raft C D B) (t : Int) :
    (rf.adoptTerm t).snapshottedIndex = rf.snapshottedIndex := by
  rw [adoptTerm_frame]

@[simp]
theorem adoptTerm_lastApplied (rf : Raft C D B) (t : Int) :
    (rf.adoptTerm t).lastApplied = rf.lastApplied := by
  rw [adoptTerm_frame]

@[simp]
theorem adoptTerm_goroutines (rf : Raft C D B) (t : Int) :
    (rf.adoptTerm t).goroutines = rf.goroutines := by
  rw [adoptTerm_frame]

theorem adoptTerm_of_le {rf : Raft C D B} {t : Int} (h : t ≤ rf.currentTerm) :
    rf.adoptTerm t = rf := by
  unfold adoptTerm; rw [if_neg (by omega)]

theorem adoptTerm_of_lt {rf : Raft C D B} {t : Int} (h : rf.currentTerm < t) :
    (rf.adoptTerm t).state = .follower := by
  unfold adoptTerm
  rw [if_pos h, convertToFollower_frame]

theorem stepDown_frame (gob : Labgob C B) (rf : Raft C D B) (t : Int) : rf.stepDown gob t =
    persist gob { rf with
      currentTerm := t, state := .follower, votedFor := (rf.stepDown gob t).votedFor } := by
  show persist gob (convertToFollower _) = _
  rw [convertToFollower_frame]
  rfl

theorem heartbeatTimeout_frame (rf : Raft C D B) : ∃ gs, rf.heartbeatTimeout = rf.spawn gs ∧
    ∀ g ∈ gs, ∃ server ∈ rf.others, g = .heartbeat server := by
  unfold heartbeatTimeout
  split
  · refine ⟨_, rfl, ?_⟩
    intro g hg
    obtain ⟨server, hs, rfl⟩ := List.mem_map.mp hg
    exact ⟨server, hs, rfl⟩
  · exact ⟨[], by simp [spawn], by simp⟩

/-! ## AppendEntries -/

/-- The outcomes of `AppendEntries` once the term is accepted. -/
inductive AppendStep (rf : Raft C D B) (args : AppendEntriesArgs C) :
    Raft C D B → AppendEntriesReply → Prop
  /-- The snapshot covers all that was sent. -/
  | covered (hprev : args.prevLogIndex ≤ rf.snapshottedIndex)
      (hlen : args.prevLogIndex + args.logEntries.length ≤ rf.snapshottedIndex) :
      AppendStep rf args rf { success := true }
  /-- The sent entries replace the whole log behind the guard. -/
  | replaced {guard : LogEntry C} {rest : List (LogEntry C)}
      (hprev : args.prevLogIndex ≤ rf.snapshottedIndex)
      (hlen : args.prevLogIndex + args.logEntries.length > rf.snapshottedIndex)
      (hlogs : rf.logs = guard :: rest) :
      AppendStep rf args
        { rf with logs := guard ::
          args.logEntries.drop (rf.snapshottedIndex - args.prevLogIndex).toNat }
        { success := true }
  | rejected {reply : AppendEntriesReply}
      (hprev : rf.snapshottedIndex < args.prevLogIndex)
      (hs : reply.success = false) (ht : reply.term = rf.currentTerm)
      (hi : reply.conflictIndex ≤ args.prevLogIndex) :
      AppendStep rf args rf reply
  | merged {prev : LogEntry C} {logs : List (LogEntry C)} {r : Raft C D B}
      (hprev : rf.snapshottedIndex < args.prevLogIndex)
      (hlast : args.prevLogIndex ≤ rf.lastLogIndex)
      (hget : CheckedSlice.get rf.logs (rf.getRelativeLogIndex args.prevLogIndex) = some prev)
      (hterm : prev.term = args.prevLogTerm)
      (hmerge : mergeEntries rf.logs (rf.getRelativeLogIndex (args.prevLogIndex + 1))
        args.logEntries = some logs)
      (hcommit : followCommit { rf with logs := logs } args.leaderCommit = some r) :
      AppendStep rf args r { success := true }

theorem conflictSearch_le {logs : List (LogEntry C)} {t : Int} {k r : Nat}
    (h : conflictSearch logs t k = some r) : r ≤ k := by
  induction k with
  | zero => simp [conflictSearch] at h
  | succ k ih =>
    simp only [conflictSearch] at h
    split at h
    · exact absurd h (by simp)
    · split at h
      · split at h
        · cases h; omega
        · have := ih h; omega
      · cases h; exact Nat.le_refl _

theorem appendAccepted_cases {rf r : Raft C D B} {args : AppendEntriesArgs C}
    {reply : AppendEntriesReply} (h : rf.appendAccepted args = some (r, reply)) :
    AppendStep rf args r reply := by
  simp only [appendAccepted] at h
  split at h
  · rename_i hprev
    obtain ⟨r', hr, he⟩ := Option.map_eq_some_iff.mp h
    cases he
    simp only [appendToSnapshot] at hr
    split at hr
    · rename_i hlen
      split at hr
      · rename_i guard new hg hn
        cases hr
        simp only [CheckedSlice.take, CheckedSlice.drop] at hg hn
        split at hg <;> split at hn <;> simp only [Option.some.injEq, reduceCtorEq] at hg hn
        cases hl : rf.logs with
        | nil => simp_all
        | cons g rest =>
          rw [hl] at hg
          have : guard = [g] := hg.symm
          subst this hn
          exact AppendStep.replaced hprev hlen hl
      · exact absurd hr (by simp)
    · cases hr
      exact AppendStep.covered hprev (by omega)
  · rename_i hprev
    split at h
    · rename_i hlast
      cases h
      exact AppendStep.rejected (by omega) rfl rfl (by show rf.lastLogIndex + 1 ≤ _; omega)
    · rename_i hlast
      split at h
      · exact absurd h (by simp)
      · rename_i prev hget
        split at h
        · obtain ⟨rep, hr, he⟩ := Option.map_eq_some_iff.mp h
          cases he
          obtain ⟨k, hk, rfl⟩ := Option.map_eq_some_iff.mp hr
          have hle := conflictSearch_le hk
          refine AppendStep.rejected (by omega) rfl rfl ?_
          simp only [getAbsoluteLogIndex, getRelativeLogIndex] at hle ⊢
          omega
        · rename_i hterm
          split at h
          · exact absurd h (by simp)
          · rename_i logs hmerge
            obtain ⟨r', hr, he⟩ := Option.map_eq_some_iff.mp h
            cases he
            exact AppendStep.merged (by omega) (by omega) hget (by simpa using hterm) hmerge hr

/-! ## Committing -/

theorem setCommitIndex_cases {rf r : Raft C D B} {c : Int} (h : rf.setCommitIndex c = some r) :
    (c ≤ rf.lastApplied ∧ r = { rf with commitIndex := c }) ∨
      (rf.lastApplied < c ∧ ∃ entries, CheckedSlice.slice rf.logs
          (rf.getRelativeLogIndex (rf.lastApplied + 1)) (rf.getRelativeLogIndex (c + 1)) =
            some entries ∧
        r = { rf with
          commitIndex := c
          goroutines := rf.goroutines ++ [.apply (rf.lastApplied + 1) entries] }) := by
  simp only [setCommitIndex] at h
  split at h
  · rename_i hc
    split at h
    · exact absurd h (by simp)
    · rename_i entries he
      cases h
      exact Or.inr ⟨hc, entries, he, rfl⟩
  · rename_i hc
    cases h
    exact Or.inl ⟨Int.not_lt.mp hc, rfl⟩

theorem followCommit_of_le {rf : Raft C D B} {c : Int} (h : c ≤ rf.commitIndex) :
    rf.followCommit c = some rf :=
  if_neg (Int.not_lt.mpr h)

theorem followCommit_of_lt {rf : Raft C D B} {c : Int} (h : rf.commitIndex < c) :
    rf.followCommit c = rf.setCommitIndex (min c rf.lastLogIndex) := by
  unfold followCommit
  rw [if_pos h]
  by_cases hle : c ≤ rf.lastLogIndex
  · rw [if_pos hle, Int.min_eq_left hle]
  · rw [if_neg hle, Int.min_eq_right (by omega)]

theorem followCommit_cases {rf r : Raft C D B} {c : Int} (h : rf.followCommit c = some r) :
    (c ≤ rf.commitIndex ∧ r = rf) ∨
      (rf.commitIndex < c ∧ rf.setCommitIndex (min c rf.lastLogIndex) = some r) := by
  by_cases hc : rf.commitIndex < c
  · rw [followCommit_of_lt hc] at h
    exact Or.inr ⟨hc, h⟩
  · rw [followCommit_of_le (Int.not_lt.mp hc)] at h
    cases h
    exact Or.inl ⟨Int.not_lt.mp hc, rfl⟩

/-- Committing touches the commit index and the goroutines. -/
theorem setCommitIndex_frame {rf r : Raft C D B} {c : Int} (h : rf.setCommitIndex c = some r) :
    r = { rf with commitIndex := r.commitIndex, goroutines := r.goroutines } := by
  rcases setCommitIndex_cases h with ⟨-, rfl⟩ | ⟨-, entries, -, rfl⟩ <;> rfl

theorem followCommit_frame {rf r : Raft C D B} {c : Int} (h : rf.followCommit c = some r) :
    r = { rf with commitIndex := r.commitIndex, goroutines := r.goroutines } := by
  rcases followCommit_cases h with ⟨-, rfl⟩ | ⟨-, h⟩
  · rfl
  · exact setCommitIndex_frame h

theorem AppendStep.frame {rf r : Raft C D B} {args : AppendEntriesArgs C}
    {reply : AppendEntriesReply} (h : AppendStep rf args r reply) :
    r = { rf with logs := r.logs, commitIndex := r.commitIndex, goroutines := r.goroutines } := by
  cases h with
  | covered | replaced | rejected => rfl
  | merged _ _ _ _ _ hcommit =>
    have hf := followCommit_frame hcommit
    rw [hf]

theorem commitLoop_spec {matchIndex : List Int} {peers k : Nat} {c i : Int}
    (h : commitLoop matchIndex peers c k = some i) :
    c < i ∧ i ≤ c + k ∧ peers / 2 < matched matchIndex i := by
  induction k with
  | zero => simp [commitLoop] at h
  | succ k ih =>
    simp only [commitLoop] at h
    split at h
    · rename_i hc
      cases h
      exact ⟨by omega, by omega, hc⟩
    · obtain ⟨h1, h2, h3⟩ := ih h
      exact ⟨h1, by omega, h3⟩

theorem majorityIndex_spec {rf : Raft C D B} {i : Int} (h : rf.majorityIndex = some i) :
    rf.commitIndex < i ∧ i ≤ rf.lastLogIndex ∧ rf.peers / 2 < matched rf.matchIndex i := by
  obtain ⟨h1, h2, h3⟩ := commitLoop_spec h
  exact ⟨h1, by omega, h3⟩

theorem setCommitIndex_goroutines {rf r : Raft C D B} {c : Int}
    (h : rf.setCommitIndex c = some r) :
    ∃ gs, r.goroutines = rf.goroutines ++ gs ∧ ∀ g ∈ gs, ∃ i es, g = .apply i es := by
  rcases setCommitIndex_cases h with ⟨-, rfl⟩ | ⟨-, entries, -, rfl⟩
  · exact ⟨[], (List.append_nil _).symm, by simp⟩
  · exact ⟨_, rfl, by simp⟩

theorem AppendStep.goroutines {rf r : Raft C D B} {args : AppendEntriesArgs C}
    {reply : AppendEntriesReply} (h : AppendStep rf args r reply) :
    ∃ gs, r.goroutines = rf.goroutines ++ gs ∧ ∀ g ∈ gs, ∃ i es, g = .apply i es := by
  cases h with
  | covered | replaced | rejected => exact ⟨[], (List.append_nil _).symm, by simp⟩
  | merged _ _ _ _ _ hcommit =>
    rcases followCommit_cases hcommit with ⟨-, rfl⟩ | ⟨-, hc⟩
    · exact ⟨[], (List.append_nil _).symm, by simp⟩
    · obtain ⟨gs, hgs, hnew⟩ := setCommitIndex_goroutines hc
      exact ⟨gs, hgs, hnew⟩

/-! ## The other functions -/

theorem startElection_cases {gob : Labgob C B} {rf rf' : Raft C D B}
    {out : List (Output C D)} (h : rf.startElection gob = some (rf', out)) :
    ∃ last, CheckedSlice.get rf.logs (rf.logs.length - 1) = some last ∧
      rf' = (rf.stand (rf.voteArgs last)).persist gob ∧
      out = .stands (rf.currentTerm + 1) ::
        rf.others.map (.call · (.requestVote (rf.voteArgs last))) := by
  simp only [startElection] at h
  split at h
  · exact absurd h (by simp)
  · rename_i last hlast
    cases h
    exact ⟨last, hlast, rfl, rfl⟩

theorem conflictNext_bounds {logs : List (LogEntry C)} {t : Int} {k r : Nat}
    (h : conflictNext logs t k = some (some r)) : 0 < r ∧ r ≤ k := by
  induction k with
  | zero => simp [conflictNext] at h
  | succ k ih =>
    simp only [conflictNext] at h
    split at h
    · exact absurd h (by simp)
    · split at h
      · cases h
        exact ⟨Nat.succ_pos k, Nat.le_refl _⟩
      · obtain ⟨hpos, hle⟩ := ih h
        exact ⟨hpos, by omega⟩

/-- A rejection moves `nextIndex` to the index of the reply, or to one found in the leader's
own log. -/
theorem recordConflict_cases {rf rf' : Raft C D B} {server : Nat} {args : AppendEntriesArgs C}
    {reply : AppendEntriesReply} (h : rf.recordConflict server args reply = some rf') :
    ∃ next, rf' = rf.setNext server next ∧ (next = reply.conflictIndex ∨
      (rf.snapshottedIndex < next ∧ next ≤ max args.prevLogIndex rf.snapshottedIndex)) := by
  simp only [recordConflict] at h
  split at h
  · cases h; exact ⟨_, rfl, Or.inl rfl⟩
  · split at h
    · exact absurd h (by simp)
    · cases h; exact ⟨_, rfl, Or.inl rfl⟩
    · rename_i k hk
      cases h
      obtain ⟨hpos, hle⟩ := conflictNext_bounds hk
      refine ⟨_, rfl, Or.inr ?_⟩
      simp only [getAbsoluteLogIndex, getRelativeLogIndex] at hle ⊢
      omega

/-! ## All steps -/

variable [DecidableEq C] [DecidableEq D]

inductive Step (gob : Labgob C B) (rf : Raft C D B) :
    Input C D → Raft C D B → List (Output C D) → Prop
  | electionTimer {last : LogEntry C}
      (hlast : CheckedSlice.get rf.logs (rf.logs.length - 1) = some last) :
      Step gob rf .electionTimer ((rf.candidateState.stand (rf.voteArgs last)).persist gob)
        (.stands (rf.currentTerm + 1) :: rf.others.map (.call · (.requestVote (rf.voteArgs last))))
  | heartbeatTimer {gs : List (Goroutine C D)}
      (hgs : ∀ g ∈ gs, ∃ server ∈ rf.others, g = .heartbeat server) :
      Step gob rf .heartbeatTimer (rf.spawn gs) []
  | refuseTerm {args : RequestVoteArgs}
      (h : args.term < rf.currentTerm ∨ (args.term = rf.currentTerm ∧ rf.votedFor ≠ -1 ∧
        rf.votedFor ≠ args.candidateId)) :
      Step gob rf (.requestVote args) (rf.persist gob)
        [.reply (.requestVote args) (.requestVote ⟨rf.currentTerm, false⟩)]
  | refuseLog {args : RequestVoteArgs} (hterm : rf.currentTerm ≤ args.term) :
      Step gob rf (.requestVote args) ((rf.adoptTerm args.term).persist gob)
        [.reply (.requestVote args) (.requestVote ⟨args.term, false⟩)]
  | grant {args : RequestVoteArgs} {last : LogEntry C} (hterm : rf.currentTerm ≤ args.term)
      (hvote : args.term = rf.currentTerm → rf.votedFor = -1 ∨ rf.votedFor = args.candidateId)
      (hlast : CheckedSlice.get rf.logs (rf.logs.length - 1) = some last)
      (hlog : ¬ rf.moreUpToDate last args) :
      Step gob rf (.requestVote args)
        (((rf.adoptTerm args.term).voteFor args.candidateId).persist gob)
        [.reply (.requestVote args) (.requestVote ⟨args.term, true⟩)]
  | appendOld {args : AppendEntriesArgs C} (hterm : args.term < rf.currentTerm) :
      Step gob rf (.appendEntries args) (rf.persist gob)
        [.reply (.appendEntries args) (.appendEntries { success := false, term := rf.currentTerm })]
  | append {args : AppendEntriesArgs C} {r : Raft C D B} {reply : AppendEntriesReply}
      (hterm : rf.currentTerm ≤ args.term)
      (h : AppendStep (rf.adoptTerm args.term) args r reply) :
      Step gob rf (.appendEntries args) (r.persist gob)
        [.reply (.appendEntries args) (.appendEntries reply)]
  | snapshotOld {args : InstallSnapshotArgs D}
      (h : args.term < rf.currentTerm ∨ args.lastIncludedIndex < rf.snapshottedIndex) :
      Step gob rf (.installSnapshot args) rf
        [.reply (.installSnapshot args) (.installSnapshot ⟨rf.currentTerm⟩)]
  | snapshot {args : InstallSnapshotArgs D} {gs : List (Goroutine C D)}
      (hterm : rf.currentTerm ≤ args.term) (hindex : rf.snapshottedIndex ≤ args.lastIncludedIndex)
      (hgs : (gs = [] ∧ args.lastIncludedIndex < rf.lastApplied) ∨
        gs = [.install (installSnapshotMsg args.lastIncludedIndex args.data)]) :
      Step gob rf (.installSnapshot args)
        (((rf.adoptTerm args.term).acceptSnapshot gob args).spawn gs)
        [.saved args.lastIncludedIndex args.data,
          .reply (.installSnapshot args) (.installSnapshot ⟨rf.currentTerm⟩)]
  | voteCounted {server election : Nat} {args : RequestVoteArgs} {reply : RequestVoteReply}
      {e : Election} (hg : .awaitVote server election args ∈ rf.goroutines)
      (hgr : reply.voteGranted = true) (hst : rf.state = .candidate)
      (he : rf.elections[election]? = some e) (hn : ¬ e.voteCount + 1 > rf.peers / 2) :
      Step gob rf (.voteReply server election args reply)
        ((rf.leave (.awaitVote server election args)).countVote election e) []
  | elected {server election : Nat} {args : RequestVoteArgs} {reply : RequestVoteReply}
      {e : Election} (hg : .awaitVote server election args ∈ rf.goroutines)
      (hgr : reply.voteGranted = true) (hst : rf.state = .candidate)
      (he : rf.elections[election]? = some e) (hn : e.voteCount + 1 > rf.peers / 2) :
      Step gob rf (.voteReply server election args reply)
        ((rf.leave (.awaitVote server election args)).countVote election e).convertToLeader
        [.leads rf.currentTerm rf.snapshottedIndex]
  | voteStepDown {server election : Nat} {args : RequestVoteArgs} {reply : RequestVoteReply}
      (hg : .awaitVote server election args ∈ rf.goroutines) (ht : reply.term > rf.currentTerm) :
      Step gob rf (.voteReply server election args reply)
        ((rf.leave (.awaitVote server election args)).stepDown gob reply.term) []
  | voteIgnored {server election : Nat} {args : RequestVoteArgs} {reply : RequestVoteReply}
      (hg : .awaitVote server election args ∈ rf.goroutines) :
      Step gob rf (.voteReply server election args reply)
        (rf.leave (.awaitVote server election args)) []
  | appendIgnored {server : Nat} {args : AppendEntriesArgs C} {reply : AppendEntriesReply}
      (hg : .awaitAppend server args ∈ rf.goroutines) :
      Step gob rf (.appendReply server args reply) (rf.leave (.awaitAppend server args)) []
  | appendSuccess {server : Nat} {args : AppendEntriesArgs C} {reply : AppendEntriesReply}
      (hg : .awaitAppend server args ∈ rf.goroutines) (hst : rf.state = .leader)
      (hs : reply.success = true) :
      Step gob rf (.appendReply server args reply)
        ((rf.leave (.awaitAppend server args)).recordSuccess server args) []
  | appendCommit {server : Nat} {args : AppendEntriesArgs C} {reply : AppendEntriesReply}
      {i : Int} {r : Raft C D B}
      (hg : .awaitAppend server args ∈ rf.goroutines) (hst : rf.state = .leader)
      (hs : reply.success = true) (hi : (rf.recordSuccess server args).majorityIndex = some i)
      (hr : ((rf.leave (.awaitAppend server args)).recordSuccess server args).setCommitIndex i =
        some r) :
      Step gob rf (.appendReply server args reply) r []
  | appendStepDown {server : Nat} {args : AppendEntriesArgs C} {reply : AppendEntriesReply}
      (hg : .awaitAppend server args ∈ rf.goroutines) (ht : reply.term > rf.currentTerm) :
      Step gob rf (.appendReply server args reply)
        ((rf.leave (.awaitAppend server args)).stepDown gob reply.term) []
  | appendConflict {server : Nat} {args : AppendEntriesArgs C} {reply : AppendEntriesReply}
      {next : Int} (hg : .awaitAppend server args ∈ rf.goroutines) (hst : rf.state = .leader)
      (hs : reply.success = false) (ht : reply.term ≤ rf.currentTerm)
      (hn : next = reply.conflictIndex ∨ next ≤ max args.prevLogIndex rf.snapshottedIndex) :
      Step gob rf (.appendReply server args reply)
        ((rf.leave (.awaitAppend server args)).setNext server next) []
  | snapshotStepDown {server : Nat} {args : InstallSnapshotArgs D} {reply : InstallSnapshotReply}
      (hg : .awaitSnapshot server args ∈ rf.goroutines) (ht : reply.term > rf.currentTerm) :
      Step gob rf (.snapshotReply server args reply)
        ((rf.leave (.awaitSnapshot server args)).stepDown gob reply.term) []
  | snapshotRecorded {server : Nat} {args : InstallSnapshotArgs D} {reply : InstallSnapshotReply}
      (hg : .awaitSnapshot server args ∈ rf.goroutines) (ht : reply.term ≤ rf.currentTerm) :
      Step gob rf (.snapshotReply server args reply)
        ((rf.leave (.awaitSnapshot server args)).setMatch server
          (max (rf.matchIndex.getD server 0) args.lastIncludedIndex)) []
  | startLeader {command : C} (hst : rf.state = .leader) :
      Step gob rf (.start command) (rf.spawn [.start command rf.currentTerm]) []
  | startOther {command : C} : Step gob rf (.start command) rf []
  | idle {g : Goroutine C D} (hg : g ∈ rf.goroutines) (hp : ¬ g.Pending) :
      Step gob rf (.resume g) (rf.leave g) []
  | heartbeatSync {server : Nat} (hg : .heartbeat server ∈ rf.goroutines) :
      Step gob rf (.resume (.heartbeat server))
        ((rf.leave (.heartbeat server)).spawn [.syncSnapshotWith server]) []
  | heartbeat {server : Nat} {entries : List (LogEntry C)} {prev : LogEntry C} {prevLogIndex : Int}
      (hg : .heartbeat server ∈ rf.goroutines) (hst : rf.state = .leader)
      (hp : rf.snapshottedIndex ≤ prevLogIndex)
      (he : CheckedSlice.drop rf.logs (rf.getRelativeLogIndex (prevLogIndex + 1)) = some entries)
      (hprev : CheckedSlice.get rf.logs (rf.getRelativeLogIndex prevLogIndex) = some prev) :
      Step gob rf (.resume (.heartbeat server))
        ((rf.leave (.heartbeat server)).spawn
          [.awaitAppend server (rf.appendArgs prevLogIndex prev entries)])
        [.call server (.appendEntries (rf.appendArgs prevLogIndex prev entries))]
  | sync {server : Nat} {guard : LogEntry C} (hg : .syncSnapshotWith server ∈ rf.goroutines)
      (hst : rf.state = .leader) (hguard : rf.logs.head? = some guard) :
      Step gob rf (.resume (.syncSnapshotWith server))
        ((rf.leave (.syncSnapshotWith server)).spawn [.awaitSnapshot server (rf.snapshotArgs guard)])
        [.call server (.installSnapshot (rf.snapshotArgs guard))]
  | startAppend {command : C} {term : Int} (hg : .start command term ∈ rf.goroutines) :
      Step gob rf (.resume (.start command term))
        ((rf.leave (.start command term)).startAppend gob command term) []
  | apply {index : Int} {e : LogEntry C} {entries : List (LogEntry C)}
      (hg : .apply index (e :: entries) ∈ rf.goroutines) :
      Step gob rf (.resume (.apply index (e :: entries)))
        { (rf.leave (.apply index (e :: entries))).spawn [.applied index entries] with
          delivered := index :: rf.delivered }
        [.apply (commandMsg index e)]
  | applied {index : Int} {entries : List (LogEntry C)}
      (hg : .applied index entries ∈ rf.goroutines) :
      Step gob rf (.resume (.applied index entries))
        { (rf.leave (.applied index entries)).spawn [.apply (index + 1) entries] with
          lastApplied := max rf.lastApplied index } []
  | install {msg : ApplyMsg C D} (hg : .install msg ∈ rf.goroutines) :
      Step gob rf (.resume (.install msg)) (rf.leave (.install msg)) [.apply msg]
  | replaceIgnored {index : Int} {snapshot : Option D} :
      Step gob rf (.replaceLogWithSnapshot index snapshot) rf []
  | replaced {index : Int} {snapshot : Option D} {logs : List (LogEntry C)}
      (hindex : rf.snapshottedIndex < index)
      (hlogs : CheckedSlice.drop rf.logs (rf.getRelativeLogIndex index) = some logs) :
      Step gob rf (.replaceLogWithSnapshot index snapshot)
        ((saveStateAndSnapshot gob { rf with logs := logs, snapshottedIndex := index }
          snapshot).spawn (rf.others.map .syncSnapshotWith))
        [.saved index snapshot]
  | restart : Step gob rf .restart (make gob rf.peers rf.me rf.persister) []

/-! ## The functions produce only these steps -/

variable {gob : Labgob C B} {rf rf' : Raft C D B} {out : List (Output C D)}

theorem electionTimeout_cases (h : rf.electionTimeout gob = some (rf', out)) :
    Step gob rf .electionTimer rf' out := by
  simp only [electionTimeout] at h
  split at h
  · rename_i hf
    simp only [convertTo, hf, reduceCtorEq, if_false] at h
    obtain ⟨last, hlast, rfl, rfl⟩ := startElection_cases h
    have hc : rf.candidateState = { rf with state := .candidate } := by
      simp [candidateState, hf]
    have hs : Step gob rf .electionTimer _ _ := Step.electionTimer hlast
    rw [hc] at hs
    exact hs
  · rename_i hf
    obtain ⟨last, hlast, rfl, rfl⟩ := startElection_cases h
    have hc : rf.candidateState = rf := by simp [candidateState, hf]
    have hs : Step gob rf .electionTimer _ _ := Step.electionTimer hlast
    rwa [hc] at hs

theorem requestVote_cases {args : RequestVoteArgs} {reply : RequestVoteReply}
    (h : rf.requestVote gob args = some (rf', reply)) :
    Step gob rf (.requestVote args) rf' [.reply (.requestVote args) (.requestVote reply)] := by
  simp only [requestVote] at h
  split at h
  · rename_i hc
    cases h
    exact Step.refuseTerm hc
  · rename_i hc
    simp only [not_or, not_and, not_not] at hc
    have hle : rf.currentTerm ≤ args.term := by omega
    have hl := adoptTerm_logs rf args.term
    have hs := adoptTerm_snapshottedIndex rf args.term
    have ht : (rf.adoptTerm args.term).currentTerm = args.term := by
      rw [adoptTerm_currentTerm, Int.max_eq_right hle]
    rw [ht] at h
    split at h
    · exact absurd h (by simp)
    · rename_i last hlast
      rw [hl] at hlast
      split at h
      · cases h
        exact Step.refuseLog hle
      · rename_i hup
        cases h
        refine Step.grant hle ?_ hlast ?_
        · intro he
          by_cases hv : rf.votedFor = -1
          · exact Or.inl hv
          · exact Or.inr (hc.2 he hv)
        · simpa only [moreUpToDate, lastLogIndex, getAbsoluteLogIndex, hl, hs] using hup

theorem appendEntries_cases {args : AppendEntriesArgs C} {reply : AppendEntriesReply}
    (h : rf.appendEntries gob args = some (rf', reply)) :
    Step gob rf (.appendEntries args) rf' [.reply (.appendEntries args) (.appendEntries reply)] := by
  simp only [appendEntries] at h
  split at h
  · rename_i hc
    cases h
    exact Step.appendOld hc
  · obtain ⟨⟨r, rep⟩, hr, he⟩ := Option.map_eq_some_iff.mp h
    cases he
    exact Step.append (by omega) (appendAccepted_cases hr)

theorem installSnapshot_cases (gob : Labgob C B) (rf : Raft C D B) (args : InstallSnapshotArgs D) :
    Step gob rf (.installSnapshot args) (rf.installSnapshot gob args).1
      ((rf.installSnapshot gob args).2.2 ++
        [.reply (.installSnapshot args) (.installSnapshot (rf.installSnapshot gob args).2.1)]) := by
  simp only [installSnapshot]
  split
  · rename_i hc
    exact Step.snapshotOld hc
  · rename_i hc
    split
    · rename_i happ
      have hkept := adoptTerm_lastApplied rf args.term
      have happ' : max (rf.adoptTerm args.term).lastApplied args.lastIncludedIndex >
        args.lastIncludedIndex := happ
      have hlt : args.lastIncludedIndex < rf.lastApplied := by omega
      have hs : Step gob rf (.installSnapshot args)
          (((rf.adoptTerm args.term).acceptSnapshot gob args).spawn []) _ :=
        Step.snapshot (by omega) (by omega) (Or.inl ⟨rfl, hlt⟩)
      simp only [spawn, List.append_nil] at hs
      exact hs
    · exact Step.snapshot (by omega) (by omega) (Or.inr rfl)

theorem wake_cases {g : Goroutine C D}
    {body : Raft C D B → Option (Raft C D B × List (Output C D))}
    (h : rf.wake g body = some (rf', out)) :
    g ∈ rf.goroutines ∧ body (rf.leave g) = some (rf', out) := by
  simp only [wake] at h
  split at h
  · exact ⟨by assumption, h⟩
  · exact absurd h (by simp)

theorem handleVoteReply_cases {server election : Nat} {args : RequestVoteArgs}
    {reply : RequestVoteReply} (hg : .awaitVote server election args ∈ rf.goroutines)
    (h : (rf.leave (.awaitVote server election args)).handleVoteReply gob election reply =
      some (rf', out)) :
    Step gob rf (.voteReply server election args reply) rf' out := by
  simp only [handleVoteReply] at h
  split at h
  · rename_i hc
    obtain ⟨hgr, hst⟩ := hc
    split at h
    · exact absurd h (by simp)
    · rename_i e he
      split at h
      · rename_i hn
        have hne : ¬ NodeState.leader =
            ((rf.leave (.awaitVote server election args)).countVote election e).state := by
          show ¬ NodeState.leader = (rf.leave (.awaitVote server election args)).state
          rw [hst]; exact NodeState.noConfusion
        simp only [convertTo, if_neg hne] at h
        cases h
        exact Step.elected hg hgr hst he hn
      · rename_i hn
        cases h
        exact Step.voteCounted hg hgr hst he hn
  · split at h
    · rename_i ht
      cases h
      exact Step.voteStepDown hg ht
    · cases h
      exact Step.voteIgnored hg

theorem handleAppendReply_cases {server : Nat} {args : AppendEntriesArgs C}
    {reply : AppendEntriesReply} (hg : .awaitAppend server args ∈ rf.goroutines)
    (h : (rf.leave (.awaitAppend server args)).handleAppendReply gob server args reply =
      some rf') :
    Step gob rf (.appendReply server args reply) rf' [] := by
  simp only [handleAppendReply] at h
  split at h
  · cases h
    exact Step.appendIgnored hg
  · rename_i hst
    have hst' : rf.state = .leader := not_not.mp hst
    split at h
    · rename_i hs
      split at h
      · cases h
        exact Step.appendSuccess hg hst' hs
      · rename_i i hi
        exact Step.appendCommit hg hst' hs hi h
    · rename_i hs
      split at h
      · rename_i ht
        cases h
        exact Step.appendStepDown hg ht
      · rename_i ht
        obtain ⟨next, rfl, hn⟩ := recordConflict_cases h
        exact Step.appendConflict hg hst' (by simpa using hs) (Int.not_lt.mp ht)
          (hn.imp_right And.right)

theorem heartbeat_cases {server : Nat} (hg : .heartbeat server ∈ rf.goroutines)
    (h : (rf.leave (.heartbeat server)).heartbeat server = some (rf', out)) :
    Step gob rf (.resume (.heartbeat server)) rf' out := by
  simp only [Raft.heartbeat] at h
  split at h
  · cases h
    exact Step.idle hg id
  · rename_i hst
    split at h
    · cases h
      exact Step.heartbeatSync hg
    · rename_i hp
      split at h
      · rename_i entries prev he hprev
        cases h
        exact Step.heartbeat hg (not_not.mp hst) (Int.not_lt.mp hp) he hprev
      · exact absurd h (by simp)

theorem syncSnapshotWith_cases {server : Nat} (hg : .syncSnapshotWith server ∈ rf.goroutines)
    (h : (rf.leave (.syncSnapshotWith server)).syncSnapshotWith server = some (rf', out)) :
    Step gob rf (.resume (.syncSnapshotWith server)) rf' out := by
  simp only [syncSnapshotWith] at h
  split at h
  · cases h
    exact Step.idle hg id
  · rename_i hst
    split at h
    · exact absurd h (by simp)
    · rename_i guard hguard
      cases h
      exact Step.sync hg (not_not.mp hst) hguard

theorem resume_cases {g : Goroutine C D} (hg : g ∈ rf.goroutines)
    (h : (rf.leave g).resume gob g = some (rf', out)) : Step gob rf (.resume g) rf' out := by
  cases g with
  | heartbeat server => exact heartbeat_cases hg h
  | syncSnapshotWith server => exact syncSnapshotWith_cases hg h
  | start command term => cases h; exact Step.startAppend hg
  | apply index entries =>
    cases entries with
    | nil => cases h; exact Step.idle hg id
    | cons e entries => cases h; exact Step.apply hg
  | applied index entries => cases h; exact Step.applied hg
  | install msg => cases h; exact Step.install hg
  | awaitVote server election args => exact absurd h (by simp [resume])
  | awaitAppend server args => exact absurd h (by simp [resume])
  | awaitSnapshot server args => exact absurd h (by simp [resume])

theorem replaceLogWithSnapshot_cases {index : Int} {snapshot : Option D}
    (h : rf.replaceLogWithSnapshot gob index snapshot = some (rf', out)) :
    Step gob rf (.replaceLogWithSnapshot index snapshot) rf' out := by
  simp only [replaceLogWithSnapshot] at h
  split at h
  · cases h
    exact Step.replaceIgnored
  · split at h
    · exact absurd h (by simp)
    · rename_i hc _ logs hl
      cases h
      exact Step.replaced (by omega) hl

theorem step_cases {input : Input C D} (h : rf.step gob input = some (rf', out)) :
    Step gob rf input rf' out := by
  cases input with
  | electionTimer => exact electionTimeout_cases h
  | heartbeatTimer =>
    cases h
    obtain ⟨gs, he, hgs⟩ := heartbeatTimeout_frame rf
    rw [he]
    exact Step.heartbeatTimer hgs
  | requestVote args =>
    obtain ⟨⟨r, reply⟩, hr, he⟩ := Option.map_eq_some_iff.mp h
    cases he
    exact requestVote_cases hr
  | appendEntries args =>
    obtain ⟨⟨r, reply⟩, hr, he⟩ := Option.map_eq_some_iff.mp h
    cases he
    exact appendEntries_cases hr
  | installSnapshot args => cases h; exact installSnapshot_cases gob rf args
  | voteReply server election args reply =>
    simp only [step] at h
    obtain ⟨hg, hb⟩ := wake_cases h
    exact handleVoteReply_cases hg hb
  | appendReply server args reply =>
    simp only [step] at h
    obtain ⟨hg, hb⟩ := wake_cases h
    obtain ⟨r, hr, he⟩ := Option.map_eq_some_iff.mp hb
    cases he
    exact handleAppendReply_cases hg hr
  | snapshotReply server args reply =>
    simp only [step] at h
    obtain ⟨hg, hb⟩ := wake_cases h
    cases hb
    simp only [handleSnapshotReply]
    split
    · rename_i ht
      exact Step.snapshotStepDown hg ht
    · rename_i ht
      exact Step.snapshotRecorded hg (Int.not_lt.mp ht)
  | start command =>
    cases h
    split
    · exact Step.startLeader (by assumption)
    · exact Step.startOther
  | resume g =>
    simp only [step] at h
    obtain ⟨hg, hb⟩ := wake_cases h
    exact resume_cases hg hb
  | replaceLogWithSnapshot index snapshot => exact replaceLogWithSnapshot_cases h
  | restart => cases h; exact Step.restart

end DistributionSystem.Raft
