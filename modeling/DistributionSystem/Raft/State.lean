import Mathlib.Data.List.Basic

/-! The data of one Raft peer: the fields of `Raft`, the RPC structures, the
persister, and the goroutines that a peer has started and that are not done.

`C` is the type of the client commands, `D` the type of the service's snapshots
and `B` the type of the bytes that labgob writes. Go's `int` is `Int`. -/

namespace DistributionSystem

inductive NodeState where
  | follower | candidate | leader
  deriving DecidableEq, Repr

/-- What an `interface{}` command holds: nothing (the guard entry), a client's
command, or the text that marks a snapshot message. -/
inductive Command (C : Type) where
  | nil
  | client (c : C)
  | installSnapshot
  deriving DecidableEq, Repr

structure LogEntry (C : Type) where
  command : Command C
  term : Int
  deriving DecidableEq, Repr

structure ApplyMsg (C D : Type) where
  commandValid : Bool
  command : Command C
  commandIndex : Int
  commandData : Option D
  deriving DecidableEq, Repr

structure RequestVoteArgs where
  term : Int
  candidateId : Int
  lastLogIndex : Int
  lastLogTerm : Int
  deriving DecidableEq, Repr

structure RequestVoteReply where
  term : Int
  voteGranted : Bool
  deriving DecidableEq, Repr

structure AppendEntriesArgs (C : Type) where
  term : Int
  leaderId : Int
  prevLogIndex : Int
  prevLogTerm : Int
  logEntries : List (LogEntry C)
  leaderCommit : Int
  deriving DecidableEq, Repr

structure AppendEntriesReply where
  term : Int := 0
  success : Bool := false
  conflictTerm : Int := 0
  conflictIndex : Int := 0
  deriving DecidableEq, Repr

structure InstallSnapshotArgs (D : Type) where
  term : Int
  leaderId : Int
  lastIncludedIndex : Int
  lastIncludedTerm : Int
  data : Option D
  deriving DecidableEq, Repr

structure InstallSnapshotReply where
  term : Int
  deriving DecidableEq, Repr

inductive Request (C D : Type) where
  | requestVote (args : RequestVoteArgs)
  | appendEntries (args : AppendEntriesArgs C)
  | installSnapshot (args : InstallSnapshotArgs D)
  deriving DecidableEq, Repr

inductive Reply where
  | requestVote (reply : RequestVoteReply)
  | appendEntries (reply : AppendEntriesReply)
  | installSnapshot (reply : InstallSnapshotReply)
  deriving DecidableEq, Repr

/-- The persister: the encoded Raft state (empty before the first save) and the
service's snapshot (`none` for `nil`). -/
structure Persister (D B : Type) where
  raftstate : List B
  snapshot : Option D

def makePersister {D B : Type} : Persister D B := ⟨[], none⟩

/-- The part of labgob that the persisted state goes through: each value is
written behind the ones before it and read off the front of the buffer. -/
structure Labgob (C B : Type) where
  encodeInt : Int → List B
  decodeInt : List B → Option (Int × List B)
  encodeLogs : List (LogEntry C) → List B
  decodeLogs : List B → Option (List (LogEntry C) × List B)

/-- Decoding undoes encoding, and an encoded integer is not empty. -/
structure Labgob.RoundTrip {C B : Type} (gob : Labgob C B) : Prop where
  int : ∀ x rest, gob.decodeInt (gob.encodeInt x ++ rest) = some (x, rest)
  logs : ∀ l rest, gob.decodeLogs (gob.encodeLogs l ++ rest) = some (l, rest)
  int_ne : ∀ x, gob.encodeInt x ≠ []

/-- One word of the buffer for each encoded value. -/
inductive Word (C : Type) where
  | int (x : Int)
  | logs (l : List (LogEntry C))

/-- The simplest codec with the round trip. -/
def Labgob.words (C : Type) : Labgob C (Word C) where
  encodeInt x := [.int x]
  decodeInt
    | .int x :: rest => some (x, rest)
    | _ => none
  encodeLogs l := [.logs l]
  decodeLogs
    | .logs l :: rest => some (l, rest)
    | _ => none

theorem Labgob.words_roundTrip (C : Type) : (Labgob.words C).RoundTrip :=
  ⟨fun _ _ => rfl, fun _ _ => rfl, fun _ h => by cases h⟩

/-- The variables that the closures of one `startElection` call share. -/
structure Election where
  args : RequestVoteArgs
  voteCount : Nat
  deriving DecidableEq, Repr

/-- A goroutine at the point where it waits: for the lock, for the answer to a
call, or for the receiver of `applyCh`. -/
inductive Goroutine (C D : Type) where
  /-- The closure of `broadcastHeartbeat` for one peer, before it takes the lock. -/
  | heartbeat (server : Nat)
  | syncSnapshotWith (server : Nat)
  | awaitVote (server election : Nat) (args : RequestVoteArgs)
  | awaitAppend (server : Nat) (args : AppendEntriesArgs C)
  | awaitSnapshot (server : Nat) (args : InstallSnapshotArgs D)
  /-- `Start` after `GetState` answered that the peer leads `term`. -/
  | start (command : C) (term : Int)
  /-- The goroutine of `setCommitIndex`, about to send the first of `entries`. -/
  | apply (index : Int) (entries : List (LogEntry C))
  /-- The same goroutine, about to record `index` in `lastApplied`. -/
  | applied (index : Int) (entries : List (LogEntry C))
  | install (msg : ApplyMsg C D)
  deriving DecidableEq, Repr

/-- The goroutine has a message for `applyCh`, or the index of one to record. -/
def Goroutine.Pending {C D : Type} : Goroutine C D → Prop
  | .apply _ (_ :: _) | .applied _ _ | .install _ => True
  | _ => False

instance {C D : Type} (g : Goroutine C D) : Decidable g.Pending :=
  match g with
  | .apply _ (_ :: _) | .applied _ _ | .install _ => .isTrue trivial
  | .apply _ [] | .heartbeat _ | .syncSnapshotWith _ | .awaitVote .. | .awaitAppend ..
  | .awaitSnapshot .. | .start .. => .isFalse id

structure Raft (C D B : Type) where
  persister : Persister D B
  me : Nat
  /-- `len(rf.peers)`. -/
  peers : Nat
  currentTerm : Int
  votedFor : Int
  state : NodeState
  logs : List (LogEntry C)
  commitIndex : Int
  lastApplied : Int
  nextIndex : List Int
  matchIndex : List Int
  snapshottedIndex : Int
  elections : List Election
  goroutines : List (Goroutine C D)
  /-- The indices of the commands the service took from `applyCh` since `Make`. -/
  delivered : List Int

/-- What a step of a peer shows to the outside. -/
inductive Output (C D : Type) where
  /-- `startElection` made the peer a candidate of `term`. -/
  | stands (term : Int)
  /-- `convertTo(Leader)` ran in `term`, with this `snapshottedIndex`. -/
  | leads (term snapshottedIndex : Int)
  | call (server : Nat) (request : Request C D)
  | reply (request : Request C D) (reply : Reply)
  | apply (msg : ApplyMsg C D)
  /-- `SaveStateAndSnapshot` stored `snapshot` beside a state with this
  `snapshottedIndex`. -/
  | saved (snapshottedIndex : Int) (snapshot : Option D)
  deriving DecidableEq, Repr

/-- One atomic step of a peer: a critical section of `rf.mu`, a message through
`applyCh`, or a crash with the restart that follows it. -/
inductive Input (C D : Type) where
  | electionTimer
  | heartbeatTimer
  | requestVote (args : RequestVoteArgs)
  | appendEntries (args : AppendEntriesArgs C)
  | installSnapshot (args : InstallSnapshotArgs D)
  | voteReply (server election : Nat) (args : RequestVoteArgs) (reply : RequestVoteReply)
  | appendReply (server : Nat) (args : AppendEntriesArgs C) (reply : AppendEntriesReply)
  | snapshotReply (server : Nat) (args : InstallSnapshotArgs D) (reply : InstallSnapshotReply)
  /-- `Start` asks `GetState`. -/
  | start (command : C)
  /-- A goroutine that waits for no answer goes on. -/
  | resume (goroutine : Goroutine C D)
  | replaceLogWithSnapshot (appliedIndex : Int) (kvSnapshot : Option D)
  | restart
  deriving DecidableEq, Repr

end DistributionSystem
