import DistributionSystem.KV.ApplyRange
import DistributionSystem.KV.Install
import DistributionSystem.KV.System
import DistributionSystem.Raft.Refine

/-! The whole service: clerks, and replicas that are Raft peers with their key/value
servers, over a network that may delay, reorder and lose the clerks' RPCs, and repeat
those of the peers as well. The ordered log of `System` is gone; what a server is handed
is what its Raft peer sends. A crash loses the handlers and all of a peer but its
persister. -/

namespace DistributionSystem

structure Service (n : Nat) (W B : Type) where
  replicas : Replicas n W B
  /-- The clerks by their `clientId`. -/
  clerks : Int → Clerk
  /-- The server behind each of the handles of a clerk. -/
  handles : Int → Nat → Nat
  /-- The RPCs made so far; the number of one is its place. -/
  rpcs : List RPC
  /-- The numbers of the requests on their way. -/
  requests : List Nat
  replies : List (Nat × KVReply)
  /-- The calls of `rf.Start` between `GetState` and the append: the RPC of the handler, and
  the term that it leads. -/
  starting : Fin n → List (Nat × Int)
  /-- The calls of the clerks and their returns. -/
  calls : List (Linearizability.Event (Int × Int) KVCall (Option String))

inductive ServiceEvent (n : Nat) (B : Type) where
  /-- A caller calls a method of a clerk. -/
  | invoke (client : Int) (call : KVCall)
  /-- The clerk calls `servers[leaderId].Call`. -/
  | send (client : Int)
  /-- `Call` returns false. -/
  | fail (client : Int)
  | reply (client : Int) (reply : KVReply)
  /-- A request arrives. -/
  | request (server : Fin n) (rpc : Nat)
  /-- The handler calls `rf.Start`, up to the answer of `GetState`. -/
  | start (server : Fin n) (rpc : Nat) (op : Op)
  /-- `rf.Start` appends the op and returns. -/
  | append (server : Fin n) (rpc : Nat) (op : Op) (term : Int)
  /-- A handler or the apply loop of a server goes on. -/
  | kv (server : Fin n) (input : KVInput B)
  /-- A Raft peer goes on, on its own or by a message from `src`. -/
  | raft (src dst : Fin n) (input : Input Op (List B))
  /-- `takeSnapshot` calls `ReplaceLogWithSnapshot`. -/
  | replaceLog (server : Fin n) (index : Int) (data : List B)
  /-- A replica crashes and starts again. -/
  | crash (server : Fin n)

namespace Service

variable {n : Nat} {W B : Type}

def init (rgob : Labgob Op W) (gob : KVGob B) (n : Nat) (handles : Int → Nat → Nat) :
    Service n W B where
  replicas := Replicas.init rgob gob n
  clerks _ := makeClerk
  handles := handles
  rpcs := []
  requests := []
  replies := []
  starting _ := []
  calls := []

def setReplica (s : Service n W B) (i : Fin n) (rep : Replica W B) : Service n W B :=
  { s with replicas := Function.update s.replicas i rep }

def setClerk (s : Service n W B) (client : Int) (ck : Clerk) : Service n W B :=
  { s with clerks := Function.update s.clerks client ck }

def setStarting (s : Service n W B) (i : Fin n) (l : List (Nat × Int)) : Service n W B :=
  { s with starting := Function.update s.starting i l }

/-- A call or a return becomes part of the history. -/
def note (s : Service n W B) (e : Linearizability.Event (Int × Int) KVCall (Option String)) :
    Service n W B :=
  { s with calls := s.calls ++ [e] }

/-- The replies of a server reach the network. -/
def emit (s : Service n W B) (out : List KVOutput) : Service n W B :=
  { s with
    replies := s.replies ++ out.filterMap fun
      | .reply rpc reply => some (rpc, reply)
      | .start _ => none }

/-- The inputs that a server takes of its own accord; those around `rf.Start` are events of
the whole replica. -/
def Inner : KVInput B → Prop
  | .request .. | .receive _ | .started .. => False
  | _ => True

instance (input : KVInput B) : Decidable (Inner input) :=
  match input with
  | .request .. | .receive _ | .started .. => .isFalse id
  | .timeout .. | .resume _ | .apply | .takeSnapshot => .isTrue trivial

/-- The inputs of a Raft peer that are not part of a call of `rf.Start`. -/
def Apart : Input Op (List B) → Prop
  | .start _ | .resume (.start ..) => False
  | _ => True

instance (input : Input Op (List B)) : Decidable (Apart input) :=
  match input with
  | .start _ | .resume (.start ..) => .isFalse id
  | .electionTimer | .heartbeatTimer | .requestVote _ | .appendEntries _ | .installSnapshot _
  | .voteReply .. | .appendReply .. | .snapshotReply .. | .replaceLogWithSnapshot .. | .restart
  | .resume (.heartbeat _) | .resume (.syncSnapshotWith _) | .resume (.awaitVote ..)
  | .resume (.awaitAppend ..) | .resume (.awaitSnapshot ..) | .resume (.apply ..)
  | .resume (.applied ..) | .resume (.install _) => .isTrue trivial

/-- A step of the server of replica `i`. -/
def kvStep (gob : KVGob B) (s : Service n W B) (i : Fin n) (input : KVInput B) :
    Option (Service n W B) :=
  ((s.replicas i).kv.step gob input).map fun r =>
    (s.setReplica i { s.replicas i with kv := r.1, fed := (s.replicas i).fedAfter input }).emit r.2

variable [DecidableEq B]

/-- A step of the Raft peer of replica `i`, whose messages its server receives. -/
def raftStep (rgob : Labgob Op W) (gob : KVGob B) (s : Service n W B) (i : Fin n)
    (input : Input Op (List B)) : Option (Service n W B) :=
  ((s.replicas i).raftStep rgob gob input).map (s.setReplica i)

/-- `rf.Start` up to the answer of `GetState`: a peer that does not lead makes the handler
answer at once. -/
def startOp (rgob : Labgob Op W) (gob : KVGob B) (s : Service n W B) (i : Fin n) (rpc : Nat)
    (op : Op) : Option (Service n W B) :=
  let rf := (s.replicas i).peer.raft
  if .start rpc op ∈ (s.replicas i).kv.handlers ∧ rpc ∉ (s.starting i).map Prod.fst then
    if rf.state = .leader then
      (s.raftStep rgob gob i (.start op)).map
        (·.setStarting i (s.starting i ++ [(rpc, rf.currentTerm)]))
    else s.kvStep gob i (.started rpc op (-1) false)
  else none

/-- The rest of `rf.Start`, and its return of the index that the op gets. -/
def appendOp (rgob : Labgob Op W) (gob : KVGob B) (s : Service n W B) (i : Fin n) (rpc : Nat)
    (op : Op) (term : Int) : Option (Service n W B) :=
  let rf := (s.replicas i).peer.raft
  if (rpc, term) ∈ s.starting i then
    ((s.raftStep rgob gob i (.resume (.start op term))).bind
      (·.kvStep gob i (.started rpc op (rf.getAbsoluteLogIndex rf.logs.length) true))).map
        (·.setStarting i ((s.starting i).erase (rpc, term)))
  else none

def step (rgob : Labgob Op W) (gob : KVGob B) (s : Service n W B) :
    ServiceEvent n B → Option (Service n W B)
  | .invoke client call =>
    let ck := s.clerks client
    match ck.current with
    | none => some ((s.setClerk client { ck with current := some (call, none) }).note
        (.invoke (client, ck.requestId) call))
    | some _ => none
  | .send client =>
    let ck := s.clerks client
    match ck.current with
    | some (call, none) =>
      some { s.setClerk client { ck with current := some (call, some s.rpcs.length) } with
        rpcs := s.rpcs ++ [⟨s.handles client ck.leaderId, call.op client ck.requestId⟩]
        requests := s.requests ++ [s.rpcs.length] }
    | _ => none
  | .fail client =>
    let ck := s.clerks client
    match ck.current with
    | some (call, some _) => some (s.setClerk client (ck.retry n call))
    | _ => none
  | .reply client reply =>
    let ck := s.clerks client
    match ck.current with
    | some (call, some rpc) =>
      if s.replies.contains (rpc, reply) then
        if reply.wrongLeader = true then some (s.setClerk client (ck.retry n call))
        else some ((s.setClerk client ck.done).note
          (.respond (client, ck.requestId) (call.result reply)))
      else none
    | _ => none
  | .request i rpc =>
    match s.rpcs[rpc]? with
    | some r =>
      if rpc ∈ s.requests ∧ r.server = i then
        (s.kvStep gob i (.request rpc r.op)).map
          fun s' => { s' with requests := s.requests.erase rpc }
      else none
    | none => none
  | .start i rpc op => s.startOp rgob gob i rpc op
  | .append i rpc op term => s.appendOp rgob gob i rpc op term
  | .kv i input => if Inner input then s.kvStep gob i input else none
  | .raft src dst input =>
    if Apart input ∧ s.replicas.Arrives src dst input then s.raftStep rgob gob dst input else none
  | .replaceLog i index data =>
    ((s.replicas i).step rgob gob (.replaceLog index data)).map (s.setReplica i)
  | .crash i =>
    ((s.replicas i).step rgob gob .restart).map fun rep => (s.setReplica i rep).setStarting i []

/-- Elections and appends are as the protocol wants them, and the server receives its
messages in order; the code has runs that break each of these. -/
def Steady (s : Service n W B) : ServiceEvent n B → Prop
  | .raft _ dst input => (s.replicas dst).peer.raft.TimelyElection input ∧
    (s.replicas dst).peer.raft.Careful input ∧ (s.replicas dst).InOrder (.raft input)
  | .append i _ op term => (s.replicas i).peer.raft.Careful (.resume (.start op term))
  | _ => True

instance (s : Service n W B) (e : ServiceEvent n B) : Decidable (s.Steady e) :=
  match e with
  | .raft .. => inferInstanceAs (Decidable (_ ∧ _ ∧ _))
  | .append i _ op term =>
    inferInstanceAs (Decidable ((s.replicas i).peer.raft.Careful (.resume (.start op term))))
  | .invoke .. | .send _ | .fail _ | .reply .. | .request .. | .start .. | .kv ..
  | .replaceLog .. | .crash _ => .isTrue trivial

end Service

end DistributionSystem
