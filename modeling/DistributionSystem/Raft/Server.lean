import DistributionSystem.Lib.Slice
import DistributionSystem.Raft.State

/-! The functions of `raft.go`, each as one critical section of `rf.mu`. A function
that can panic returns an `Option`, and `none` is the panic. Timers hold no data:
a timer event may be handled at any moment, so `resetTimer` and `Stop` do nothing. An
`int` is an unbounded integer here; `TermWrap` has the terms in 64 bits. -/

namespace DistributionSystem.Raft

variable {C D B : Type}

def getRelativeLogIndex (rf : Raft C D B) (index : Int) : Int := index - rf.snapshottedIndex

def getAbsoluteLogIndex (rf : Raft C D B) (index : Int) : Int := index + rf.snapshottedIndex

/-- The absolute index of the last entry of `rf.logs`. -/
def lastLogIndex (rf : Raft C D B) : Int := rf.getAbsoluteLogIndex (rf.logs.length - 1)

/-- The peers other than `rf.me`, in the order of `range rf.peers`. -/
def others (rf : Raft C D B) : List Nat := (List.range rf.peers).filter (· ≠ rf.me)

def spawn (rf : Raft C D B) (gs : List (Goroutine C D)) : Raft C D B :=
  { rf with goroutines := rf.goroutines ++ gs }

/-! ## Persisted state -/

def encodeRaftState (gob : Labgob C B) (rf : Raft C D B) : List B :=
  gob.encodeInt rf.currentTerm ++ (gob.encodeInt rf.votedFor ++
    (gob.encodeInt rf.snapshottedIndex ++ gob.encodeLogs rf.logs))

/-- `persister.SaveRaftState` of the encoded state. -/
def persist (gob : Labgob C B) (rf : Raft C D B) : Raft C D B :=
  { rf with persister := { rf.persister with raftstate := rf.encodeRaftState gob } }

/-- `persister.SaveStateAndSnapshot` of the encoded state and a snapshot. -/
def saveStateAndSnapshot (gob : Labgob C B) (rf : Raft C D B) (snapshot : Option D) :
    Raft C D B :=
  { rf with persister := ⟨rf.encodeRaftState gob, snapshot⟩ }

/-- The four reads of `readPersist`, in their order. -/
def decodeRaftState (gob : Labgob C B) (data : List B) :
    Option (Int × Int × Int × List (LogEntry C)) := do
  let (currentTerm, data) ← gob.decodeInt data
  let (votedFor, data) ← gob.decodeInt data
  let (snapshottedIndex, data) ← gob.decodeInt data
  let (logs, _) ← gob.decodeLogs data
  some (currentTerm, votedFor, snapshottedIndex, logs)

def readPersist (gob : Labgob C B) (rf : Raft C D B) (data : List B) : Raft C D B :=
  if data.length < 1 then rf
  else match decodeRaftState gob data with
    | none => rf
    | some (currentTerm, votedFor, snapshottedIndex, logs) =>
      { rf with
        currentTerm := currentTerm, votedFor := votedFor
        snapshottedIndex := snapshottedIndex, logs := logs
        commitIndex := snapshottedIndex, lastApplied := snapshottedIndex }

/-- The peer that `Make` has built when it calls `readPersist`. -/
def blank (peers me : Nat) (persister : Persister D B) : Raft C D B :=
  { persister := persister, me := me, peers := peers
    currentTerm := 0, votedFor := -1, state := .follower
    logs := [⟨.nil, 0⟩], commitIndex := 0, lastApplied := 0
    nextIndex := [], matchIndex := [], snapshottedIndex := 0
    elections := [], goroutines := [], delivered := [] }

def make (gob : Labgob C B) (peers me : Nat) (persister : Persister D B) : Raft C D B :=
  let rf := (blank peers me persister).readPersist gob persister.raftstate
  { rf with
    nextIndex := List.replicate peers (rf.logs.length : Int)
    matchIndex := List.replicate peers 0 }

/-! ## Elections and changes of state -/

/-- Start one goroutine of `broadcastHeartbeat` for each other peer. -/
def broadcastHeartbeat (rf : Raft C D B) : Raft C D B :=
  rf.spawn (rf.others.map .heartbeat)

/-- The request of the election that the peer is about to start. -/
def voteArgs (rf : Raft C D B) (last : LogEntry C) : RequestVoteArgs :=
  { term := rf.currentTerm + 1, candidateId := rf.me
    lastLogIndex := rf.lastLogIndex, lastLogTerm := last.term }

/-- The candidate of the next term, who has voted for itself and waits for the rest. -/
def stand (rf : Raft C D B) (args : RequestVoteArgs) : Raft C D B :=
  { rf with
    currentTerm := rf.currentTerm + 1, votedFor := rf.me
    elections := rf.elections ++ [⟨args, 1⟩]
    goroutines := rf.goroutines ++ rf.others.map (.awaitVote · rf.elections.length args) }

def startElection (gob : Labgob C B) (rf : Raft C D B) :
    Option (Raft C D B × List (Output C D)) :=
  match CheckedSlice.get rf.logs (rf.logs.length - 1) with
  | none => none
  | some last =>
    some ((rf.stand (rf.voteArgs last)).persist gob,
      .stands (rf.currentTerm + 1) :: rf.others.map (.call · (.requestVote (rf.voteArgs last))))

def convertToFollower (rf : Raft C D B) : Raft C D B :=
  if rf.state = .follower then rf else { rf with state := .follower, votedFor := -1 }

/-- `nextIndex` starts behind the last entry, `matchIndex` at the snapshot. -/
def convertToLeader (rf : Raft C D B) : Raft C D B :=
  broadcastHeartbeat { rf with
    state := .leader
    nextIndex := rf.nextIndex.map fun _ => rf.getAbsoluteLogIndex rf.logs.length
    matchIndex := rf.matchIndex.map fun _ => rf.snapshottedIndex }

def convertTo (gob : Labgob C B) (rf : Raft C D B) (s : NodeState) :
    Option (Raft C D B × List (Output C D)) :=
  if s = rf.state then some (rf, [])
  else match s with
    | .follower => some (rf.convertToFollower, [])
    | .candidate => startElection gob { rf with state := .candidate }
    | .leader => some (rf.convertToLeader, [.leads rf.currentTerm rf.snapshottedIndex])

/-- The `electionTimer` branch of the timer loop. -/
def electionTimeout (gob : Labgob C B) (rf : Raft C D B) :
    Option (Raft C D B × List (Output C D)) :=
  if rf.state = .follower then rf.convertTo gob .candidate else rf.startElection gob

/-- The `heartbeatTimer` branch of the timer loop. -/
def heartbeatTimeout (rf : Raft C D B) : Raft C D B :=
  if rf.state = .leader then rf.broadcastHeartbeat else rf

/-- A request of a higher term makes its receiver a follower of that term. -/
def adoptTerm (rf : Raft C D B) (term : Int) : Raft C D B :=
  if term > rf.currentTerm then convertToFollower { rf with currentTerm := term } else rf

/-- A reply with a higher term does the same, and the change is persisted. -/
def stepDown (gob : Labgob C B) (rf : Raft C D B) (term : Int) : Raft C D B :=
  (convertToFollower { rf with currentTerm := term }).persist gob

/-! ## RequestVote -/

/-- The receiver's log is more up-to-date than the candidate's. -/
def moreUpToDate (rf : Raft C D B) (last : LogEntry C) (args : RequestVoteArgs) : Prop :=
  args.lastLogTerm < last.term ∨
    (args.lastLogTerm = last.term ∧ args.lastLogIndex < rf.lastLogIndex)

instance (rf : Raft C D B) (last : LogEntry C) (args : RequestVoteArgs) :
    Decidable (rf.moreUpToDate last args) :=
  inferInstanceAs (Decidable (_ ∨ _))

def voteFor (rf : Raft C D B) (candidateId : Int) : Raft C D B :=
  { rf with votedFor := candidateId }

def requestVote (gob : Labgob C B) (rf : Raft C D B) (args : RequestVoteArgs) :
    Option (Raft C D B × RequestVoteReply) :=
  if args.term < rf.currentTerm ∨ (args.term = rf.currentTerm ∧ rf.votedFor ≠ -1 ∧
      rf.votedFor ≠ args.candidateId) then
    some (rf.persist gob, ⟨rf.currentTerm, false⟩)
  else
    let rf := rf.adoptTerm args.term
    match CheckedSlice.get rf.logs (rf.logs.length - 1) with
    | none => none
    | some last =>
      if rf.moreUpToDate last args then
        some (rf.persist gob, ⟨rf.currentTerm, false⟩)
      else
        some ((rf.voteFor args.candidateId).persist gob, ⟨rf.currentTerm, true⟩)

/-- `atomic.AddInt32(&voteCount, 1)` on the counter of one election. -/
def countVote (rf : Raft C D B) (election : Nat) (e : Election) : Raft C D B :=
  { rf with elections := rf.elections.set election { e with voteCount := e.voteCount + 1 } }

def handleVoteReply (gob : Labgob C B) (rf : Raft C D B) (election : Nat)
    (reply : RequestVoteReply) : Option (Raft C D B × List (Output C D)) :=
  if reply.voteGranted = true ∧ rf.state = .candidate then
    match rf.elections[election]? with
    | none => none
    | some e =>
      let rf := rf.countVote election e
      if e.voteCount + 1 > rf.peers / 2 then rf.convertTo gob .leader else some (rf, [])
  else if reply.term > rf.currentTerm then some (rf.stepDown gob reply.term, [])
  else some (rf, [])

/-! ## Committing and applying -/

def setCommitIndex (rf : Raft C D B) (commitIndex : Int) : Option (Raft C D B) :=
  let rf := { rf with commitIndex := commitIndex }
  if rf.commitIndex > rf.lastApplied then
    match CheckedSlice.slice rf.logs (rf.getRelativeLogIndex (rf.lastApplied + 1))
        (rf.getRelativeLogIndex (rf.commitIndex + 1)) with
    | none => none
    | some entriesToApply => some (rf.spawn [.apply (rf.lastApplied + 1) entriesToApply])
  else some rf

/-- The number of peers whose `matchIndex` reaches `i`. -/
def matched (matchIndex : List Int) (i : Int) : Nat :=
  (matchIndex.filter (i ≤ ·)).length

/-- The commit loop from `i = commitIndex + k` down: the first index that most of
the peers reach. -/
def commitLoop (matchIndex : List Int) (peers : Nat) (commitIndex : Int) : Nat → Option Int
  | 0 => none
  | k + 1 =>
    if matched matchIndex (commitIndex + (k + 1)) > peers / 2 then some (commitIndex + (k + 1))
    else commitLoop matchIndex peers commitIndex k

/-- The index that the commit loop finds in the present state. -/
def majorityIndex (rf : Raft C D B) : Option Int :=
  commitLoop rf.matchIndex rf.peers rf.commitIndex (rf.lastLogIndex - rf.commitIndex).toNat

/-! ## AppendEntries -/

/-- The backward search for the first entry of the conflicting term. The argument
is `conflictIndex` relative to the snapshot; at 0 the test reads `rf.logs[-1]`. -/
def conflictSearch (logs : List (LogEntry C)) (conflictTerm : Int) : Nat → Option Nat
  | 0 => none
  | r + 1 =>
    match logs[r]? with
    | none => none
    | some e =>
      if e.term = conflictTerm then
        if r = 1 then some r else conflictSearch logs conflictTerm r
      else some (r + 1)

/-- The loop for `unmatch_idx`, from the relative log index `rel` on; the result
is relative to the entries that are left. -/
def unmatchIdx (logs : List (LogEntry C)) (rel : Int) : List (LogEntry C) → Option (Option Nat)
  | [] => some none
  | e :: entries =>
    if (logs.length : Int) < rel + 1 then some (some 0)
    else match CheckedSlice.get logs rel with
      | none => none
      | some old =>
        if old.term ≠ e.term then some (some 0)
        else (unmatchIdx logs (rel + 1) entries).map (·.map (· + 1))

/-- The log after the comparison with the sent entries. -/
def mergeEntries (logs : List (LogEntry C)) (rel : Int) (entries : List (LogEntry C)) :
    Option (List (LogEntry C)) :=
  match unmatchIdx logs rel entries with
  | none => none
  | some none => some logs
  | some (some unmatch) =>
    match CheckedSlice.take logs (rel + unmatch), CheckedSlice.drop entries unmatch with
    | some kept, some new => some (kept ++ new)
    | _, _ => none

/-- The branch for a `PrevLogIndex` that the snapshot covers. -/
def appendToSnapshot (rf : Raft C D B) (args : AppendEntriesArgs C) : Option (Raft C D B) :=
  if args.prevLogIndex + args.logEntries.length > rf.snapshottedIndex then
    let startIdx := rf.snapshottedIndex - args.prevLogIndex
    match CheckedSlice.take rf.logs 1, CheckedSlice.drop args.logEntries startIdx with
    | some guard, some new => some { rf with logs := guard ++ new }
    | _, _ => none
  else some rf

/-- The reply for a log that does not hold `PrevLogTerm` at `PrevLogIndex`. -/
def conflictReply (rf : Raft C D B) (args : AppendEntriesArgs C) (conflictTerm : Int) :
    Option AppendEntriesReply :=
  (conflictSearch rf.logs conflictTerm (rf.getRelativeLogIndex args.prevLogIndex).toNat).map
    fun (r : Nat) =>
      { term := rf.currentTerm, success := false, conflictTerm := conflictTerm
        conflictIndex := rf.getAbsoluteLogIndex r }

/-- Follow the leader's commit index, as far as the log goes. -/
def followCommit (rf : Raft C D B) (leaderCommit : Int) : Option (Raft C D B) :=
  if leaderCommit > rf.commitIndex then
    if leaderCommit ≤ rf.lastLogIndex then rf.setCommitIndex leaderCommit
    else rf.setCommitIndex rf.lastLogIndex
  else some rf

/-- `AppendEntries` once the term is accepted, without the deferred `persist`. -/
def appendAccepted (rf : Raft C D B) (args : AppendEntriesArgs C) :
    Option (Raft C D B × AppendEntriesReply) :=
  if args.prevLogIndex ≤ rf.snapshottedIndex then
    (rf.appendToSnapshot args).map (·, { success := true })
  else if rf.lastLogIndex < args.prevLogIndex then
    some (rf, { term := rf.currentTerm, success := false
                conflictIndex := rf.lastLogIndex + 1, conflictTerm := -1 })
  else match CheckedSlice.get rf.logs (rf.getRelativeLogIndex args.prevLogIndex) with
    | none => none
    | some prev =>
      if prev.term ≠ args.prevLogTerm then (rf.conflictReply args prev.term).map (rf, ·)
      else match mergeEntries rf.logs (rf.getRelativeLogIndex (args.prevLogIndex + 1))
          args.logEntries with
        | none => none
        | some logs =>
          (followCommit { rf with logs := logs } args.leaderCommit).map (·, { success := true })

def appendEntries (gob : Labgob C B) (rf : Raft C D B) (args : AppendEntriesArgs C) :
    Option (Raft C D B × AppendEntriesReply) :=
  if args.term < rf.currentTerm then
    some (rf.persist gob, { success := false, term := rf.currentTerm })
  else
    ((rf.adoptTerm args.term).appendAccepted args).map fun (rf, reply) => (rf.persist gob, reply)

/-! ## The leader's side of AppendEntries -/

def appendArgs (rf : Raft C D B) (prevLogIndex : Int) (prev : LogEntry C)
    (entries : List (LogEntry C)) : AppendEntriesArgs C :=
  { term := rf.currentTerm, leaderId := rf.me, prevLogIndex := prevLogIndex
    prevLogTerm := prev.term, logEntries := entries, leaderCommit := rf.commitIndex }

/-- One goroutine of `broadcastHeartbeat` up to its call. -/
def heartbeat (rf : Raft C D B) (server : Nat) : Option (Raft C D B × List (Output C D)) :=
  if rf.state ≠ .leader then some (rf, [])
  else
    let prevLogIndex := rf.nextIndex.getD server 0 - 1
    if prevLogIndex < rf.snapshottedIndex then some (rf.spawn [.syncSnapshotWith server], [])
    else match CheckedSlice.drop rf.logs (rf.getRelativeLogIndex (prevLogIndex + 1)),
        CheckedSlice.get rf.logs (rf.getRelativeLogIndex prevLogIndex) with
      | some entries, some prev =>
        let args := rf.appendArgs prevLogIndex prev entries
        some (rf.spawn [.awaitAppend server args], [.call server (.appendEntries args)])
      | _, _ => none

/-- The search of the leader's log for the conflicting term, from
`i = snapshottedIndex + k` down. -/
def conflictNext (logs : List (LogEntry C)) (conflictTerm : Int) : Nat → Option (Option Nat)
  | 0 => some none
  | k + 1 =>
    match logs[k]? with
    | none => none
    | some e =>
      if e.term = conflictTerm then some (some (k + 1)) else conflictNext logs conflictTerm k

/-- Record that `server` holds the log up to `index`. -/
def setMatch (rf : Raft C D B) (server : Nat) (index : Int) : Raft C D B :=
  { rf with
    matchIndex := rf.matchIndex.set server index
    nextIndex := rf.nextIndex.set server (index + 1) }

def recordSuccess (rf : Raft C D B) (server : Nat) (args : AppendEntriesArgs C) : Raft C D B :=
  rf.setMatch server (args.prevLogIndex + args.logEntries.length)

/-- The next trial sends the entries from `index` on. -/
def setNext (rf : Raft C D B) (server : Nat) (index : Int) : Raft C D B :=
  { rf with nextIndex := rf.nextIndex.set server index }

/-- Move `nextIndex` back after a rejection. -/
def recordConflict (rf : Raft C D B) (server : Nat) (args : AppendEntriesArgs C)
    (reply : AppendEntriesReply) : Option (Raft C D B) :=
  if reply.conflictTerm = -1 then
    some (rf.setNext server reply.conflictIndex)
  else
    match conflictNext rf.logs reply.conflictTerm (rf.getRelativeLogIndex args.prevLogIndex).toNat with
    | none => none
    | some none => some (rf.setNext server reply.conflictIndex)
    | some (some k) => some (rf.setNext server (rf.getAbsoluteLogIndex k))

def handleAppendReply (gob : Labgob C B) (rf : Raft C D B) (server : Nat)
    (args : AppendEntriesArgs C) (reply : AppendEntriesReply) : Option (Raft C D B) :=
  if rf.state ≠ .leader then some rf
  else if reply.success = true then
    let rf := rf.recordSuccess server args
    match rf.majorityIndex with
    | none => some rf
    | some i => rf.setCommitIndex i
  else if reply.term > rf.currentTerm then some (rf.stepDown gob reply.term)
  else rf.recordConflict server args reply

/-! ## Start -/

/-- The second critical section of `Start`, which appends the command. -/
def startAppend (gob : Labgob C B) (rf : Raft C D B) (command : C) (term : Int) : Raft C D B :=
  let index := rf.getAbsoluteLogIndex rf.logs.length
  let rf : Raft C D B := { rf with logs := rf.logs ++ [⟨.client command, term⟩] }
  ((rf.setMatch rf.me index).persist gob).broadcastHeartbeat

/-! ## Snapshots -/

def replaceLogWithSnapshot (gob : Labgob C B) (rf : Raft C D B) (appliedIndex : Int)
    (kvSnapshot : Option D) : Option (Raft C D B × List (Output C D)) :=
  if appliedIndex ≤ rf.snapshottedIndex then some (rf, [])
  else match CheckedSlice.drop rf.logs (rf.getRelativeLogIndex appliedIndex) with
    | none => none
    | some logs =>
      let rf := saveStateAndSnapshot gob
        { rf with logs := logs, snapshottedIndex := appliedIndex } kvSnapshot
      some (rf.spawn (rf.others.map .syncSnapshotWith), [.saved appliedIndex kvSnapshot])

/-- The log that `InstallSnapshot` keeps: the entries from the last included one on
when the log holds it, else a guard alone. -/
def retainedLogs (rf : Raft C D B) (args : InstallSnapshotArgs D) : List (LogEntry C) :=
  let rel := rf.getRelativeLogIndex args.lastIncludedIndex
  match CheckedSlice.get rf.logs rel with
  | some e => if e.term = args.lastIncludedTerm then rf.logs.drop rel.toNat
    else [⟨.nil, args.lastIncludedTerm⟩]
  | none => [⟨.nil, args.lastIncludedTerm⟩]

def installSnapshotMsg (index : Int) (data : Option D) : ApplyMsg C D :=
  { commandValid := false, command := .installSnapshot, commandIndex := index, commandData := data }

/-- `InstallSnapshot` once the snapshot is accepted, up to the save. -/
def acceptSnapshot (gob : Labgob C B) (rf : Raft C D B) (args : InstallSnapshotArgs D) :
    Raft C D B :=
  saveStateAndSnapshot gob
    { rf with
      logs := rf.retainedLogs args
      snapshottedIndex := args.lastIncludedIndex
      commitIndex := max rf.commitIndex args.lastIncludedIndex
      lastApplied := max rf.lastApplied args.lastIncludedIndex } args.data

def installSnapshot (gob : Labgob C B) (rf : Raft C D B) (args : InstallSnapshotArgs D) :
    Raft C D B × InstallSnapshotReply × List (Output C D) :=
  let reply : InstallSnapshotReply := ⟨rf.currentTerm⟩
  if args.term < rf.currentTerm ∨ args.lastIncludedIndex < rf.snapshottedIndex then (rf, reply, [])
  else
    let rf := (rf.adoptTerm args.term).acceptSnapshot gob args
    let out := [.saved rf.snapshottedIndex args.data]
    -- a snapshot older than the service's state is not handed to the service
    if rf.lastApplied > rf.snapshottedIndex then (rf, reply, out)
    else (rf.spawn [.install (installSnapshotMsg rf.snapshottedIndex rf.persister.snapshot)], reply, out)

def snapshotArgs (rf : Raft C D B) (guard : LogEntry C) : InstallSnapshotArgs D :=
  { term := rf.currentTerm, leaderId := rf.me, lastIncludedIndex := rf.snapshottedIndex
    lastIncludedTerm := guard.term, data := rf.persister.snapshot }

/-- `syncSnapshotWith` up to its call. -/
def syncSnapshotWith (rf : Raft C D B) (server : Nat) :
    Option (Raft C D B × List (Output C D)) :=
  if rf.state ≠ .leader then some (rf, [])
  else match rf.logs.head? with
    | none => none
    | some guard =>
      let args := rf.snapshotArgs guard
      some (rf.spawn [.awaitSnapshot server args], [.call server (.installSnapshot args)])

def handleSnapshotReply (gob : Labgob C B) (rf : Raft C D B) (server : Nat)
    (args : InstallSnapshotArgs D) (reply : InstallSnapshotReply) : Raft C D B :=
  if reply.term > rf.currentTerm then rf.stepDown gob reply.term
  else
    rf.setMatch server (max (rf.matchIndex.getD server 0) args.lastIncludedIndex)

end DistributionSystem.Raft
