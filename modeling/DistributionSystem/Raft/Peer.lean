import DistributionSystem.Lib.Runs
import DistributionSystem.Raft.Server

/-! One peer with the history of what it has shown to the outside, and its atomic
steps. `step` is the whole behaviour of a peer: the environment chooses the inputs. -/

namespace DistributionSystem

variable {C D B : Type} [DecidableEq C] [DecidableEq D]

namespace Raft

/-- Run the critical section in which the waiting goroutine `g` goes on. -/
def wake (rf : Raft C D B) (g : Goroutine C D)
    (body : Raft C D B → Option (Raft C D B × List (Output C D))) :
    Option (Raft C D B × List (Output C D)) :=
  if g ∈ rf.goroutines then body { rf with goroutines := rf.goroutines.erase g } else none

/-- The message for the entry at `index`. -/
def commandMsg (index : Int) (e : LogEntry C) : ApplyMsg C D :=
  { commandValid := true, command := e.command, commandIndex := index, commandData := none }

/-- The next critical section of a goroutine that waits for no answer. -/
def resume (gob : Labgob C B) (rf : Raft C D B) :
    Goroutine C D → Option (Raft C D B × List (Output C D))
  | .heartbeat server => rf.heartbeat server
  | .syncSnapshotWith server => rf.syncSnapshotWith server
  | .start command term => some (rf.startAppend gob command term, [])
  | .apply _ [] => some (rf, [])
  | .apply index (e :: entries) =>
    some ({ rf.spawn [.applied index entries] with delivered := index :: rf.delivered },
      [.apply (commandMsg index e)])
  | .applied index entries =>
    some ({ rf.spawn [.apply (index + 1) entries] with
      lastApplied := max rf.lastApplied index }, [])
  | .install msg => some (rf, [.apply msg])
  | .awaitVote _ _ _ | .awaitAppend _ _ | .awaitSnapshot _ _ => none

def step (gob : Labgob C B) (rf : Raft C D B) :
    Input C D → Option (Raft C D B × List (Output C D))
  | .electionTimer => rf.electionTimeout gob
  | .heartbeatTimer => some (rf.heartbeatTimeout, [])
  | .requestVote args =>
    (rf.requestVote gob args).map fun r => (r.1, [.reply (.requestVote args) (.requestVote r.2)])
  | .appendEntries args =>
    (rf.appendEntries gob args).map fun r =>
      (r.1, [.reply (.appendEntries args) (.appendEntries r.2)])
  | .installSnapshot args =>
    let r := rf.installSnapshot gob args
    some (r.1, r.2.2 ++ [.reply (.installSnapshot args) (.installSnapshot r.2.1)])
  | .voteReply server election args reply =>
    rf.wake (.awaitVote server election args) (·.handleVoteReply gob election reply)
  | .appendReply server args reply =>
    rf.wake (.awaitAppend server args) fun rf =>
      (rf.handleAppendReply gob server args reply).map (·, [])
  | .snapshotReply server args reply =>
    rf.wake (.awaitSnapshot server args) fun rf =>
      some (rf.handleSnapshotReply gob server args reply, [])
  | .start command =>
    some (if rf.state = .leader then rf.spawn [.start command rf.currentTerm] else rf, [])
  | .resume g => rf.wake g (·.resume gob g)
  | .replaceLogWithSnapshot appliedIndex kvSnapshot =>
    rf.replaceLogWithSnapshot gob appliedIndex kvSnapshot
  | .restart => some (make gob rf.peers rf.me rf.persister, [])

end Raft

structure Peer (C D B : Type) where
  raft : Raft C D B
  history : List (Output C D)

namespace Peer

/-- A peer that has never run before. -/
def init (gob : Labgob C B) (peers me : Nat) : Peer C D B :=
  ⟨Raft.make gob peers me makePersister, []⟩

def step (gob : Labgob C B) (p : Peer C D B) (input : Input C D) : Option (Peer C D B) :=
  (p.raft.step gob input).map fun r => ⟨r.1, p.history ++ r.2⟩

end Peer

end DistributionSystem
