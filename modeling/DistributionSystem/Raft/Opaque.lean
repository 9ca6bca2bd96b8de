import Mathlib.Tactic.Simps.Basic
import DistributionSystem.Raft.Peer

/-! Raft does not look into the snapshots of its service. A map `f` on the snapshots
goes through every type of the model, and a peer takes the same step before and after it
(`step_mapData`); so what is proved with one kind of snapshot holds with another. -/

namespace DistributionSystem

variable {C D D' B : Type}

/-! ## The map on the data -/

def ApplyMsg.mapData (f : D → D') (msg : ApplyMsg C D) : ApplyMsg C D' :=
  ⟨msg.commandValid, msg.command, msg.commandIndex, msg.commandData.map f⟩

def InstallSnapshotArgs.mapData (f : D → D') (args : InstallSnapshotArgs D) :
    InstallSnapshotArgs D' :=
  ⟨args.term, args.leaderId, args.lastIncludedIndex, args.lastIncludedTerm, args.data.map f⟩

def Request.mapData (f : D → D') : Request C D → Request C D'
  | .requestVote args => .requestVote args
  | .appendEntries args => .appendEntries args
  | .installSnapshot args => .installSnapshot (args.mapData f)

def Persister.mapData (f : D → D') (ps : Persister D B) : Persister D' B :=
  ⟨ps.raftstate, ps.snapshot.map f⟩

def Goroutine.mapData (f : D → D') : Goroutine C D → Goroutine C D'
  | .heartbeat server => .heartbeat server
  | .syncSnapshotWith server => .syncSnapshotWith server
  | .awaitVote server election args => .awaitVote server election args
  | .awaitAppend server args => .awaitAppend server args
  | .awaitSnapshot server args => .awaitSnapshot server (args.mapData f)
  | .start command term => .start command term
  | .apply index entries => .apply index entries
  | .applied index entries => .applied index entries
  | .install msg => .install (msg.mapData f)

def Output.mapData (f : D → D') : Output C D → Output C D'
  | .stands term => .stands term
  | .leads term snapshottedIndex => .leads term snapshottedIndex
  | .call server request => .call server (request.mapData f)
  | .reply request r => .reply (request.mapData f) r
  | .apply msg => .apply (msg.mapData f)
  | .saved snapshottedIndex snapshot => .saved snapshottedIndex (snapshot.map f)

def Input.mapData (f : D → D') : Input C D → Input C D'
  | .electionTimer => .electionTimer
  | .heartbeatTimer => .heartbeatTimer
  | .requestVote args => .requestVote args
  | .appendEntries args => .appendEntries args
  | .installSnapshot args => .installSnapshot (args.mapData f)
  | .voteReply server election args r => .voteReply server election args r
  | .appendReply server args r => .appendReply server args r
  | .snapshotReply server args r => .snapshotReply server (args.mapData f) r
  | .start command => .start command
  | .resume g => .resume (g.mapData f)
  | .replaceLogWithSnapshot index snapshot => .replaceLogWithSnapshot index (snapshot.map f)
  | .restart => .restart

namespace Raft

@[simps] def mapData (f : D → D') (rf : Raft C D B) : Raft C D' B where
  persister := rf.persister.mapData f
  me := rf.me
  peers := rf.peers
  currentTerm := rf.currentTerm
  votedFor := rf.votedFor
  state := rf.state
  logs := rf.logs
  commitIndex := rf.commitIndex
  lastApplied := rf.lastApplied
  nextIndex := rf.nextIndex
  matchIndex := rf.matchIndex
  snapshottedIndex := rf.snapshottedIndex
  elections := rf.elections
  goroutines := rf.goroutines.map (Goroutine.mapData f)
  delivered := rf.delivered

/-- The result of a step, with the map on its state and its outputs. -/
def mapResult (f : D → D') (r : Raft C D B × List (Output C D)) :
    Raft C D' B × List (Output C D') :=
  (r.1.mapData f, r.2.map (Output.mapData f))

/-! ## The functions of the source -/

/-- Both sides take the same branch. -/
theorem ite_mapData {α β : Type} {g : α → β} {p : Prop} [Decidable p] {a b : α} {a' b' : β}
    (ha : a' = g a) (hb : b' = g b) : (if p then a' else b') = g (if p then a else b) := by
  split
  · exact ha
  · exact hb

section

variable (f : D → D') (gob : Labgob C B) (rf : Raft C D B)

theorem spawn_mapData (gs : List (Goroutine C D)) :
    (rf.mapData f).spawn (gs.map (Goroutine.mapData f)) = (rf.spawn gs).mapData f := by
  unfold spawn mapData
  rw [List.map_append]

theorem persist_mapData : (rf.mapData f).persist gob = (rf.persist gob).mapData f := rfl

theorem broadcastHeartbeat_mapData :
    (rf.mapData f).broadcastHeartbeat = rf.broadcastHeartbeat.mapData f := by
  unfold broadcastHeartbeat
  rw [← spawn_mapData, List.map_map]
  rfl

theorem stand_mapData (args : RequestVoteArgs) :
    (rf.mapData f).stand args = (rf.stand args).mapData f := by
  unfold stand mapData
  rw [List.map_append, List.map_map]
  rfl

theorem convertToFollower_mapData :
    (rf.mapData f).convertToFollower = rf.convertToFollower.mapData f :=
  ite_mapData rfl rfl

theorem convertToLeader_mapData :
    (rf.mapData f).convertToLeader = rf.convertToLeader.mapData f := by
  unfold convertToLeader
  rw [← broadcastHeartbeat_mapData]
  rfl

theorem adoptTerm_mapData (t : Int) :
    (rf.mapData f).adoptTerm t = (rf.adoptTerm t).mapData f :=
  ite_mapData (convertToFollower_mapData f { rf with currentTerm := t }) rfl

theorem stepDown_mapData (t : Int) :
    (rf.mapData f).stepDown gob t = (rf.stepDown gob t).mapData f := by
  unfold stepDown
  rw [← persist_mapData, ← convertToFollower_mapData]
  rfl

theorem heartbeatTimeout_mapData :
    (rf.mapData f).heartbeatTimeout = rf.heartbeatTimeout.mapData f :=
  ite_mapData (broadcastHeartbeat_mapData f rf) rfl

theorem startElection_mapData :
    (rf.mapData f).startElection gob = (rf.startElection gob).map (mapResult f) := by
  unfold startElection
  simp only [mapData_logs]
  cases CheckedSlice.get rf.logs (rf.logs.length - 1) with
  | none => rfl
  | some last =>
    simp only [Option.map_some, mapResult, ← persist_mapData, ← stand_mapData, List.map_cons,
      List.map_map]
    rfl

theorem convertTo_mapData (s : NodeState) :
    (rf.mapData f).convertTo gob s = (rf.convertTo gob s).map (mapResult f) := by
  refine ite_mapData rfl ?_
  cases s with
  | follower => exact congrArg some (Prod.ext (convertToFollower_mapData f rf) rfl)
  | candidate => exact startElection_mapData f gob { rf with state := .candidate }
  | leader => exact congrArg some (Prod.ext (convertToLeader_mapData f rf) rfl)

theorem electionTimeout_mapData :
    (rf.mapData f).electionTimeout gob = (rf.electionTimeout gob).map (mapResult f) :=
  ite_mapData (convertTo_mapData f gob rf _) (startElection_mapData f gob rf)

theorem requestVote_mapData (args : RequestVoteArgs) :
    (rf.mapData f).requestVote gob args =
      (rf.requestVote gob args).map fun r => (r.1.mapData f, r.2) := by
  refine ite_mapData rfl ?_
  simp only [adoptTerm_mapData, mapData_logs]
  cases CheckedSlice.get (rf.adoptTerm args.term).logs
      ((rf.adoptTerm args.term).logs.length - 1) with
  | none => rfl
  | some last => exact ite_mapData rfl rfl

theorem handleVoteReply_mapData (election : Nat) (reply : RequestVoteReply) :
    (rf.mapData f).handleVoteReply gob election reply =
      (rf.handleVoteReply gob election reply).map (mapResult f) := by
  refine ite_mapData ?_ (ite_mapData (congrArg some (Prod.ext (stepDown_mapData f gob rf _) rfl)) rfl)
  simp only [mapData_elections]
  cases rf.elections[election]? with
  | none => rfl
  | some e => exact ite_mapData (convertTo_mapData f gob (rf.countVote election e) .leader) rfl

theorem setCommitIndex_mapData (c : Int) :
    (rf.mapData f).setCommitIndex c = (rf.setCommitIndex c).map (mapData f) := by
  refine ite_mapData ?_ rfl
  simp only [getRelativeLogIndex, mapData_logs, mapData_lastApplied, mapData_snapshottedIndex]
  cases CheckedSlice.slice rf.logs (rf.lastApplied + 1 - rf.snapshottedIndex)
      (c + 1 - rf.snapshottedIndex) with
  | none => rfl
  | some entries =>
    exact congrArg some (spawn_mapData f { rf with commitIndex := c }
      [.apply (rf.lastApplied + 1) entries])

theorem followCommit_mapData (leaderCommit : Int) :
    (rf.mapData f).followCommit leaderCommit = (rf.followCommit leaderCommit).map (mapData f) :=
  ite_mapData (ite_mapData (setCommitIndex_mapData f rf _) (setCommitIndex_mapData f rf _)) rfl

theorem appendToSnapshot_mapData (args : AppendEntriesArgs C) :
    (rf.mapData f).appendToSnapshot args = (rf.appendToSnapshot args).map (mapData f) := by
  refine ite_mapData ?_ rfl
  simp only [mapData_logs, mapData_snapshottedIndex]
  cases CheckedSlice.take rf.logs 1 with
  | none => rfl
  | some guard =>
    cases CheckedSlice.drop args.logEntries (rf.snapshottedIndex - args.prevLogIndex) with
    | none => rfl
    | some new => rfl

theorem appendAccepted_mapData (args : AppendEntriesArgs C) :
    (rf.mapData f).appendAccepted args =
      (rf.appendAccepted args).map fun r => (r.1.mapData f, r.2) := by
  refine ite_mapData ?_ (ite_mapData rfl ?_)
  · rw [appendToSnapshot_mapData, Option.map_map, Option.map_map]
    rfl
  simp only [getRelativeLogIndex, mapData_logs, mapData_snapshottedIndex]
  cases CheckedSlice.get rf.logs (args.prevLogIndex - rf.snapshottedIndex) with
  | none => rfl
  | some prev =>
    refine ite_mapData ?_ ?_
    · rw [Option.map_map]
      rfl
    cases mergeEntries rf.logs (args.prevLogIndex + 1 - rf.snapshottedIndex) args.logEntries with
    | none => rfl
    | some logs =>
      have hcommit := followCommit_mapData f { rf with logs := logs } args.leaderCommit
      refine (congrArg (Option.map (·, ({ success := true } : AppendEntriesReply))) hcommit).trans ?_
      rw [Option.map_map, Option.map_map]
      rfl

theorem appendEntries_mapData (args : AppendEntriesArgs C) :
    (rf.mapData f).appendEntries gob args =
      (rf.appendEntries gob args).map fun r => (r.1.mapData f, r.2) := by
  refine ite_mapData rfl ?_
  rw [adoptTerm_mapData, appendAccepted_mapData, Option.map_map, Option.map_map]
  rfl

theorem heartbeat_mapData (server : Nat) :
    (rf.mapData f).heartbeat server = (rf.heartbeat server).map (mapResult f) := by
  refine ite_mapData rfl (ite_mapData ?_ ?_)
  · exact congrArg some (Prod.ext (spawn_mapData f rf [.syncSnapshotWith server]) rfl)
  simp only [getRelativeLogIndex, mapData_logs, mapData_snapshottedIndex, mapData_nextIndex]
  cases CheckedSlice.drop rf.logs (rf.nextIndex.getD server 0 - 1 + 1 - rf.snapshottedIndex) with
  | none => rfl
  | some entries =>
    cases CheckedSlice.get rf.logs (rf.nextIndex.getD server 0 - 1 - rf.snapshottedIndex) with
    | none => rfl
    | some prev =>
      exact congrArg some (Prod.ext (spawn_mapData f rf [.awaitAppend server
        (rf.appendArgs (rf.nextIndex.getD server 0 - 1) prev entries)]) rfl)

theorem recordConflict_mapData (server : Nat) (args : AppendEntriesArgs C)
    (reply : AppendEntriesReply) : (rf.mapData f).recordConflict server args reply =
      (rf.recordConflict server args reply).map (mapData f) := by
  refine ite_mapData rfl ?_
  simp only [getRelativeLogIndex, mapData_logs, mapData_snapshottedIndex]
  cases conflictNext rf.logs reply.conflictTerm
      (args.prevLogIndex - rf.snapshottedIndex).toNat with
  | none => rfl
  | some o =>
    cases o with
    | none => rfl
    | some k => rfl

theorem handleAppendReply_mapData (server : Nat) (args : AppendEntriesArgs C)
    (reply : AppendEntriesReply) : (rf.mapData f).handleAppendReply gob server args reply =
      (rf.handleAppendReply gob server args reply).map (mapData f) := by
  refine ite_mapData rfl (ite_mapData ?_ (ite_mapData ?_ (recordConflict_mapData f rf ..)))
  · have hmajority : ((rf.mapData f).recordSuccess server args).majorityIndex =
        (rf.recordSuccess server args).majorityIndex := rfl
    simp only [hmajority]
    cases (rf.recordSuccess server args).majorityIndex with
    | none => rfl
    | some i => exact setCommitIndex_mapData f (rf.recordSuccess server args) i
  · exact congrArg some (stepDown_mapData f gob rf _)

theorem startAppend_mapData (command : C) (term : Int) :
    (rf.mapData f).startAppend gob command term =
      (rf.startAppend gob command term).mapData f := by
  unfold startAppend
  dsimp only
  rw [← broadcastHeartbeat_mapData]
  rfl

theorem replaceLogWithSnapshot_mapData (index : Int) (snapshot : Option D) :
    (rf.mapData f).replaceLogWithSnapshot gob index (snapshot.map f) =
      (rf.replaceLogWithSnapshot gob index snapshot).map (mapResult f) := by
  refine ite_mapData rfl ?_
  simp only [getRelativeLogIndex, mapData_logs, mapData_snapshottedIndex]
  cases CheckedSlice.drop rf.logs (index - rf.snapshottedIndex) with
  | none => rfl
  | some logs =>
    refine congrArg some (Prod.ext ?_ rfl)
    refine Eq.trans ?_ (spawn_mapData f (saveStateAndSnapshot gob
      { rf with logs := logs, snapshottedIndex := index } snapshot) _)
    rw [List.map_map]
    rfl

theorem installSnapshot_mapData (args : InstallSnapshotArgs D) :
    (rf.mapData f).installSnapshot gob (args.mapData f) =
      ((rf.installSnapshot gob args).1.mapData f, (rf.installSnapshot gob args).2.1,
        (rf.installSnapshot gob args).2.2.map (Output.mapData f)) := by
  have hmap : ((rf.mapData f).adoptTerm (args.mapData f).term).acceptSnapshot gob (args.mapData f) =
      ((rf.adoptTerm args.term).acceptSnapshot gob args).mapData f := by
    rw [adoptTerm_mapData]
    rfl
  let g (r : Raft C D B × InstallSnapshotReply × List (Output C D)) :=
    (r.1.mapData f, r.2.1, r.2.2.map (Output.mapData f))
  refine ite_mapData (g := g) rfl ?_
  simp only [hmap]
  refine ite_mapData (g := g) rfl ?_
  simp only [g, ← spawn_mapData]
  rfl

theorem syncSnapshotWith_mapData (server : Nat) :
    (rf.mapData f).syncSnapshotWith server = (rf.syncSnapshotWith server).map (mapResult f) := by
  refine ite_mapData rfl ?_
  simp only [mapData_logs]
  cases rf.logs.head? with
  | none => rfl
  | some guard =>
    exact congrArg some (Prod.ext
      (spawn_mapData f rf [.awaitSnapshot server (rf.snapshotArgs guard)]) rfl)

theorem handleSnapshotReply_mapData (server : Nat) (args : InstallSnapshotArgs D)
    (reply : InstallSnapshotReply) :
    (rf.mapData f).handleSnapshotReply gob server (args.mapData f) reply =
      (rf.handleSnapshotReply gob server args reply).mapData f :=
  ite_mapData (stepDown_mapData f gob rf _) rfl

theorem make_mapData (peers me : Nat) (ps : Persister D B) :
    make gob peers me (ps.mapData f) = (make gob peers me ps : Raft C D B).mapData f := by
  have hread : (blank peers me (ps.mapData f) : Raft C D' B).readPersist gob ps.raftstate =
      ((blank peers me ps).readPersist gob ps.raftstate).mapData f := by
    refine ite_mapData rfl ?_
    cases decodeRaftState gob ps.raftstate with
    | none => rfl
    | some r => rfl
  unfold make
  rw [show (ps.mapData f).raftstate = ps.raftstate from rfl, hread]
  rfl

end

/-! ## The steps -/

/-- The goroutine that goes on with this input. -/
def woken : Input C D → Option (Goroutine C D)
  | .voteReply server election args _ => some (.awaitVote server election args)
  | .appendReply server args _ => some (.awaitAppend server args)
  | .snapshotReply server args _ => some (.awaitSnapshot server args)
  | .resume g => some g
  | _ => none

variable [DecidableEq C] [DecidableEq D] [DecidableEq D']

omit [DecidableEq D'] in
theorem mem_of_woken {gob : Labgob C B} {rf : Raft C D B} {input : Input C D}
    {r : Raft C D B × List (Output C D)} (h : rf.step gob input = some r) {g : Goroutine C D}
    (hg : woken input = some g) : g ∈ rf.goroutines := by
  have hwake : ∀ {g : Goroutine C D} {body}, rf.wake g body = some r → g ∈ rf.goroutines := by
    intro g body hw
    unfold wake at hw
    split at hw
    · assumption
    · exact absurd hw (by simp)
  cases input with
  | voteReply | appendReply | snapshotReply | resume =>
    cases hg
    simp only [step] at h
    exact hwake h
  | _ => exact absurd hg (by simp [woken])

/-- The goroutine waits, and is the first one that looks like it behind the map. -/
def Waits (f : D → D') (rf : Raft C D B) (g : Goroutine C D) : Prop :=
  g ∈ rf.goroutines ∧ (rf.goroutines.map (Goroutine.mapData f)).erase (g.mapData f) =
    (rf.goroutines.erase g).map (Goroutine.mapData f)

theorem exists_waits {f : D → D'} {rf : Raft C D B} {g : Goroutine C D'}
    (h : g ∈ (rf.mapData f).goroutines) : ∃ g', g'.mapData f = g ∧ rf.Waits f g' := by
  unfold Waits
  rw [mapData_goroutines] at h
  revert h
  induction rf.goroutines with
  | nil => exact fun h => absurd h List.not_mem_nil
  | cons a gs ih =>
    intro h
    by_cases ha : a.mapData f = g
    · refine ⟨a, ha, List.mem_cons_self, ?_⟩
      rw [List.map_cons, List.erase_cons_head, List.erase_cons_head]
    · rw [List.map_cons, List.mem_cons] at h
      obtain ⟨g', hg', hm, he⟩ := ih (h.resolve_left fun heq => ha heq.symm)
      have hne : a ≠ g' := fun heq => ha (heq ▸ hg')
      refine ⟨g', hg', List.mem_cons_of_mem _ hm, ?_⟩
      rw [List.map_cons, List.erase_cons_tail (by simpa [hg'] using ha),
        List.erase_cons_tail (by simpa using hne), List.map_cons, he]

section

variable {f : D → D'} {gob : Labgob C B} {rf : Raft C D B}

theorem wake_mapData {g : Goroutine C D} (hw : rf.Waits f g)
    {body : Raft C D B → Option (Raft C D B × List (Output C D))}
    {body' : Raft C D' B → Option (Raft C D' B × List (Output C D'))}
    (hbody : ∀ rf, body' (rf.mapData f) = (body rf).map (mapResult f)) :
    (rf.mapData f).wake (g.mapData f) body' = (rf.wake g body).map (mapResult f) := by
  unfold wake
  rw [if_pos (show g.mapData f ∈ (rf.mapData f).goroutines from List.mem_map_of_mem hw.1),
    if_pos hw.1, ← hbody]
  congr 1
  unfold mapData
  rw [← hw.2]

omit [DecidableEq C] [DecidableEq D] [DecidableEq D'] in
theorem resume_mapData (rf : Raft C D B) (g : Goroutine C D) :
    (rf.mapData f).resume gob (g.mapData f) = (rf.resume gob g).map (mapResult f) := by
  cases g with
  | heartbeat server => exact heartbeat_mapData f rf server
  | syncSnapshotWith server => exact syncSnapshotWith_mapData f rf server
  | start command term =>
    exact congrArg some (Prod.ext (startAppend_mapData f gob rf command term) rfl)
  | apply index entries =>
    cases entries with
    | nil => rfl
    | cons e entries =>
      refine congrArg some (Prod.ext ?_ rfl)
      exact congrArg (fun r : Raft C D' B => { r with delivered := index :: rf.delivered })
        (spawn_mapData f rf [.applied index entries])
  | applied index entries =>
    refine congrArg some (Prod.ext ?_ rfl)
    exact congrArg (fun r : Raft C D' B => { r with lastApplied := max rf.lastApplied index })
      (spawn_mapData f rf [.apply (index + 1) entries])
  | install msg => rfl
  | awaitVote | awaitAppend | awaitSnapshot => rfl

/-- A peer takes the same step with other snapshots. -/
theorem step_mapData (input : Input C D) (hw : ∀ g, woken input = some g → rf.Waits f g) :
    (rf.mapData f).step gob (input.mapData f) = (rf.step gob input).map (mapResult f) := by
  cases input with
  | electionTimer => exact electionTimeout_mapData f gob rf
  | heartbeatTimer => exact congrArg some (Prod.ext (heartbeatTimeout_mapData f rf) rfl)
  | requestVote args =>
    simp only [step, Input.mapData, requestVote_mapData, Option.map_map]
    rfl
  | appendEntries args =>
    simp only [step, Input.mapData, appendEntries_mapData, Option.map_map]
    rfl
  | installSnapshot args =>
    simp only [step, Input.mapData, installSnapshot_mapData, Option.map_some, mapResult,
      List.map_append]
    rfl
  | voteReply server election args reply =>
    simp only [step, Input.mapData]
    exact wake_mapData (hw _ rfl) fun rf => handleVoteReply_mapData f gob rf election reply
  | appendReply server args reply =>
    simp only [step, Input.mapData]
    refine wake_mapData (hw _ rfl) fun rf => ?_
    rw [handleAppendReply_mapData, Option.map_map, Option.map_map]
    rfl
  | snapshotReply server args reply =>
    simp only [step, Input.mapData]
    refine wake_mapData (hw _ rfl) fun rf => ?_
    exact congrArg some (Prod.ext (handleSnapshotReply_mapData f gob rf server args reply) rfl)
  | start command =>
    refine congrArg some (Prod.ext ?_ rfl)
    exact ite_mapData (spawn_mapData f rf [.start command rf.currentTerm]) rfl
  | resume g =>
    simp only [step, Input.mapData]
    exact wake_mapData (hw _ rfl) fun rf => resume_mapData rf g
  | replaceLogWithSnapshot index snapshot =>
    exact replaceLogWithSnapshot_mapData f gob rf index snapshot
  | restart => exact congrArg some (Prod.ext (make_mapData f gob rf.peers rf.me rf.persister) rfl)

end

end Raft

end DistributionSystem
