import DistributionSystem.KV.Service
import DistributionSystem.Rpc.Network

/-! The test bed of `kvraft/config.go`: replicas and clerks over the simulated network of labrpc.
A server that is shut down does not stop, since `Kill` does nothing: its old instance goes on with
the persister that it had, and the next one starts from a copy. The names of the ends are random
strings in the code; here they say whose they are, so that no two are the same. -/

namespace DistributionSystem

/-! ## What is sent -/

/-- The values that labgob encodes for a call or its reply. -/
inductive Wire (B : Type) where
  | request (request : Request Op (List B))
  | reply (reply : Reply)
  /-- The arguments of `Get` or `PutAppend`, as the op that the handler makes of them. -/
  | kvArgs (op : Op)
  | kvReply (reply : KVReply)
  deriving DecidableEq

structure WireGob (B P : Type) where
  encode : Wire B → List P
  decode : List P → Option (Wire B)

/-- Decoding undoes encoding. -/
def WireGob.RoundTrip {B P : Type} (wgob : WireGob B P) : Prop :=
  ∀ w, wgob.decode (wgob.encode w) = some w

/-- One word for each value. -/
def WireGob.words (B : Type) : WireGob B (Wire B) where
  encode w := [w]
  decode
    | [w] => some w
    | _ => none

theorem WireGob.words_roundTrip (B : Type) : (WireGob.words B).RoundTrip := fun _ => rfl

def Request.svcMeth {C D : Type} : Request C D → String
  | .requestVote _ => "Raft.RequestVote"
  | .appendEntries _ => "Raft.AppendEntries"
  | .installSnapshot _ => "Raft.InstallSnapshot"

/-- The critical section of the handler. -/
def Request.input {C D : Type} : Request C D → Input C D
  | .requestVote args => .requestVote args
  | .appendEntries args => .appendEntries args
  | .installSnapshot args => .installSnapshot args

/-- The critical section of the goroutine that made the call, for an answer of `server`. -/
def Request.answered {C D : Type} (server election : Nat) :
    Request C D → Reply → Option (Input C D)
  | .requestVote args, .requestVote reply => some (.voteReply server election args reply)
  | .appendEntries args, .appendEntries reply => some (.appendReply server args reply)
  | .installSnapshot args, .installSnapshot reply => some (.snapshotReply server args reply)
  | _, _ => none

def Op.svcMeth (op : Op) : String :=
  if op.name = .get then "KVServer.Get" else "KVServer.PutAppend"

/-- `labrpc.MakeService(cfg.kvservers[i])`. -/
def kvService : Labrpc.Service :=
  Labrpc.makeService "KVServer"
    [⟨"Get", true, 3, true, 0⟩, ⟨"Kill", true, 1, false, 0⟩, ⟨"PutAppend", true, 3, true, 0⟩]

/-- `labrpc.MakeService(cfg.kvservers[i].rf)`. -/
def raftService : Labrpc.Service :=
  Labrpc.makeService "Raft"
    [⟨"AppendEntries", true, 3, true, 0⟩, ⟨"GetRaftStateSize", true, 1, false, 1⟩,
      ⟨"GetState", true, 1, false, 2⟩, ⟨"InstallSnapshot", true, 3, true, 0⟩,
      ⟨"Kill", true, 1, false, 0⟩, ⟨"ReplaceLogWithSnapshot", true, 3, false, 0⟩,
      ⟨"RequestVote", true, 3, true, 0⟩, ⟨"Start", true, 2, false, 3⟩,
      ⟨"String", true, 1, false, 1⟩]

/-- The name of an end, with the server that it is connected to. -/
inductive EndName (n : Nat) where
  /-- Of the instance that the `start`-th `StartServer(server)` makes. -/
  | server (server : Fin n) (start : Nat) (dst : Fin n)
  | clerk (client : Int) (dst : Fin n)
  deriving DecidableEq

def EndName.dst {n : Nat} : EndName n → Fin n
  | .server _ _ dst | .clerk _ dst => dst

/-! ## Instances of servers -/

/-- What one `StartKVServer` has started. -/
structure Instance (n : Nat) (W B : Type) where
  number : Fin n
  /-- Which `StartServer(number)` has started it. -/
  start : Nat
  replica : Replica W B
  /-- As in `Service`. -/
  starting : List (Nat × Int)
  /-- The calls that goroutines of Raft are about to make. -/
  unsent : List (Nat × Request Op (List B))
  /-- What the handlers of `KVServer` have returned. -/
  replied : List (Nat × KVReply)

inductive InstanceEvent (B : Type) where
  /-- A timer fires, or a goroutine of Raft goes on. -/
  | raft (input : Input Op (List B))
  | start (rpc : Nat) (op : Op)
  | append (rpc : Nat) (op : Op) (term : Int)
  | kv (input : KVInput B)
  | replaceLog (index : Int) (data : List B)

namespace Instance

variable {n : Nat} {W B : Type}

/-- `StartKVServer`. -/
def boot (rgob : Labgob Op W) (gob : KVGob B) (number : Fin n) (start : Nat)
    (persister : Persister (List B) W) : Instance n W B where
  number := number
  start := start
  replica :=
    let rf : Raft Op (List B) W := Raft.make rgob n number persister
    ⟨⟨rf, []⟩, KVServer.startKVServer gob persister.snapshot, rf.snapshottedIndex⟩
  starting := []
  unsent := []
  replied := []

def endname (inst : Instance n W B) (dst : Fin n) : EndName n :=
  .server inst.number inst.start dst

/-- The start that has made the instance. -/
def place (inst : Instance n W B) : Fin n × Nat := (inst.number, inst.start)

/-- The inputs of a Raft peer that are neither messages nor part of a call of `rf.Start`. -/
def Own : Input Op (List B) → Prop
  | .electionTimer | .heartbeatTimer => True
  | .resume (.start ..) => False
  | .resume _ => True
  | _ => False

instance (input : Input Op (List B)) : Decidable (Own input) :=
  match input with
  | .electionTimer | .heartbeatTimer | .resume (.heartbeat _) | .resume (.syncSnapshotWith _)
  | .resume (.awaitVote ..) | .resume (.awaitAppend ..) | .resume (.awaitSnapshot ..)
  | .resume (.apply ..) | .resume (.applied ..) | .resume (.install _) => .isTrue trivial
  | .resume (.start ..) | .requestVote _ | .appendEntries _ | .installSnapshot _ | .voteReply ..
  | .appendReply .. | .snapshotReply .. | .start _ | .replaceLogWithSnapshot .. | .restart =>
    .isFalse id

/-- The replica changes, and its Raft peer starts goroutines for the calls that it shows. -/
def setReplica (inst : Instance n W B) (rep : Replica W B) : Instance n W B :=
  { inst with
    replica := rep
    unsent := inst.unsent ++
      (rep.peer.history.drop inst.replica.peer.history.length).filterMap fun
        | .call server request => some (server, request)
        | _ => none }

def kvStep (gob : KVGob B) (inst : Instance n W B) (input : KVInput B) :
    Option (Instance n W B) :=
  (inst.replica.kv.step gob input).map fun r =>
    { inst with
      replica := { inst.replica with kv := r.1, fed := inst.replica.fedAfter input }
      replied := inst.replied ++ r.2.filterMap fun
        | .reply rpc reply => some (rpc, reply)
        | .start _ => none }

variable [DecidableEq B]

def raftStep (rgob : Labgob Op W) (gob : KVGob B) (inst : Instance n W B)
    (input : Input Op (List B)) : Option (Instance n W B) :=
  (inst.replica.raftStep rgob gob input).map inst.setReplica

/-- `rf.Start` up to the answer of `GetState`. -/
def startOp (rgob : Labgob Op W) (gob : KVGob B) (inst : Instance n W B) (rpc : Nat) (op : Op) :
    Option (Instance n W B) :=
  let rf := inst.replica.peer.raft
  if .start rpc op ∈ inst.replica.kv.handlers ∧ rpc ∉ inst.starting.map Prod.fst then
    if rf.state = .leader then
      (inst.raftStep rgob gob (.start op)).map fun inst' =>
        { inst' with starting := inst.starting ++ [(rpc, rf.currentTerm)] }
    else inst.kvStep gob (.started rpc op (-1) false)
  else none

/-- The rest of `rf.Start`. -/
def appendOp (rgob : Labgob Op W) (gob : KVGob B) (inst : Instance n W B) (rpc : Nat) (op : Op)
    (term : Int) : Option (Instance n W B) :=
  let rf := inst.replica.peer.raft
  if inst.starting.contains (rpc, term) then
    ((inst.raftStep rgob gob (.resume (.start op term))).bind
      (·.kvStep gob (.started rpc op (rf.getAbsoluteLogIndex rf.logs.length) true))).map
        fun inst' => { inst' with starting := inst.starting.erase (rpc, term) }
  else none

def step (rgob : Labgob Op W) (gob : KVGob B) (inst : Instance n W B) :
    InstanceEvent B → Option (Instance n W B)
  | .raft input => if Own input then inst.raftStep rgob gob input else none
  | .start rpc op => inst.startOp rgob gob rpc op
  | .append rpc op term => inst.appendOp rgob gob rpc op term
  | .kv input => if Service.Inner input then inst.kvStep gob input else none
  | .replaceLog index data =>
    (inst.replica.step rgob gob (.replaceLog index data)).map inst.setReplica

end Instance

/-! ## The test bed -/

/-- What `saved[i]` and `kvservers[i]` hold. -/
inductive Slot (W B : Type) where
  /-- No server; the persister is nil before the first start. -/
  | down (saved : Option (Persister (List B) W))
  /-- `StartServer` has made the ends and the persister. -/
  | prepared (saved : Persister (List B) W)
  /-- The instance `inst` runs and has the persister; `added` once `AddServer` was called. -/
  | running (inst : Nat) (added : Bool)

def Slot.alive {W B : Type} : Slot W B → Bool
  | .down _ => false
  | .prepared _ | .running .. => true

/-- No `StartServer` is under way. -/
def Slot.settled {W B : Type} : Slot W B → Bool
  | .down _ | .running _ true => true
  | .prepared _ | .running _ false => false

def Slot.runs {W B : Type} (slot : Slot W B) (a : Nat) : Bool :=
  match slot with
  | .running b _ => b == a
  | _ => false

/-- What the functions of `config` do one after the other with `cfg.mu` held. -/
inductive Operation (n : Nat) where
  | makeEnd (endname : EndName n)
  /-- `Connect(endnames[j], j)`. -/
  | connect (endname : EndName n)
  | enable (endname : EndName n) (enabled : Bool)
  | deleteServer (server : Fin n)
  /-- `ShutdownServer` puts a copy in the place of the persister. -/
  | copy (server : Fin n)
  /-- `StartServer` makes a persister or copies the old one. -/
  | prepare (server : Fin n)
  | makeClerk (client : Int)
  deriving DecidableEq

inductive ConfigCall (n : Nat) where
  | connect (i : Fin n) (others : List (Fin n))
  | disconnect (i : Fin n) (away : List (Fin n))
  | connectAll
  | partition (p1 p2 : List (Fin n))
  | makeClient (client : Int) (others : List (Fin n))
  | connectClient (client : Int) (others : List (Fin n))
  | disconnectClient (client : Int) (away : List (Fin n))
  | shutdownServer (i : Fin n)
  /-- Up to the `Unlock`. -/
  | startServer (i : Fin n)

/-- A goroutine of Raft that waits for the return of a call of the network. -/
structure Waiting (n : Nat) (B : Type) where
  call : Nat
  inst : Nat
  server : Fin n
  request : Request Op (List B)
  deriving DecidableEq

structure Config (n : Nat) (W B P : Type) where
  net : Labrpc.Network (EndName n) (Fin n) P
  /-- All instances that were started. The server object of each has its number. -/
  instances : List (Instance n W B)
  slots : Fin n → Slot W B
  /-- How often `StartServer` was called; `endnames[i]` is nil before. -/
  starts : Fin n → Nat
  /-- What is left of the function that holds `cfg.mu`. -/
  doing : List (Operation n)
  /-- The clerks by their `clientId`. -/
  clerks : Int → Clerk
  /-- What `random_handles` makes of the ends of each clerk. -/
  handles : Int → Nat → Nat
  /-- The clerks that `makeClient` has made. -/
  made : List Int
  waiting : List (Waiting n B)
  /-- The number of each RPC of a clerk among the calls of the network. -/
  rpcs : List Nat
  /-- The calls of the clerks and their returns. -/
  calls : List (Linearizability.Event (Int × Int) KVCall (Option String))

inductive ConfigEvent (n : Nat) (B P : Type) where
  /-- A function of `config` takes `cfg.mu`. -/
  | enter (call : ConfigCall n)
  /-- It takes its next step. -/
  | operate
  /-- `StartServer` behind the `Unlock`, up to `AddServer`. -/
  | boot (i : Fin n)
  | addServer (i : Fin n)
  /-- The network and its calls go on. -/
  | net (e : Labrpc.NetEvent (EndName n) (Fin n) P)
  /-- An instance goes on. -/
  | inst (a : Nat) (e : InstanceEvent B)
  /-- A goroutine of Raft makes its call. -/
  | call (a : Nat) (server : Fin n) (request : Request Op (List B))
  /-- The network calls the handler of Raft. -/
  | dispatch (call : Nat)
  /-- The handler of Raft runs and returns. -/
  | serve (call : Nat)
  /-- The call has returned true, and the goroutine goes on. -/
  | answer (w : Waiting n B) (election : Nat)
  /-- The network calls a handler of `KVServer`. -/
  | request (rpc : Nat)
  /-- The handler returns. -/
  | finish (rpc : Nat) (reply : KVReply)
  | invoke (client : Int) (call : KVCall)
  | send (client : Int)
  /-- The `Call` of the clerk returns. -/
  | receive (client : Int)

namespace Config

variable {n : Nat} {W B P : Type}

/-- Before the first `StartServer` of `make_config`. -/
def init (n : Nat) (handles : Int → Nat → Nat) : Config n W B P where
  net := .makeNetwork
  instances := []
  slots _ := .down none
  starts _ := 0
  doing := []
  clerks _ := makeClerk
  handles := handles
  made := []
  waiting := []
  rpcs := []
  calls := []

/-! ### The functions of `config` -/

def endnames (cfg : Config n W B P) (i : Fin n) : Option (Fin n → EndName n) :=
  if cfg.starts i = 0 then none else some (.server i (cfg.starts i))

/-- `All`. -/
def all (n : Nat) : List (Fin n) := List.finRange n

/-- `none` is the panic of an index into a nil slice. -/
def connectUnlocked (cfg : Config n W B P) (i : Fin n) (others : List (Fin n)) :
    Option (List (Operation n)) := do
  let outgoing ← others.mapM fun j => (cfg.endnames i).map fun names => .enable (names j) true
  let incoming ← others.mapM fun j => (cfg.endnames j).map fun names => .enable (names i) true
  some (outgoing ++ incoming)

def disconnectUnlocked (cfg : Config n W B P) (i : Fin n) (away : List (Fin n)) :
    Option (List (Operation n)) := do
  let outgoing := match cfg.endnames i with
    | some names => away.map fun j => .enable (names j) false
    | none => []
  let incoming ← away.zipIdx.mapM fun (j, k) =>
    -- the test is of the entry at the place in the list, not at the server
    if h : k < n then
      match cfg.endnames ⟨k, h⟩ with
      | some _ => (cfg.endnames j).map fun names => [.enable (names i) false]
      | none => some []
    else none
  some (outgoing ++ incoming.flatten)

def partitionHalf (cfg : Config n W B P) (p q : List (Fin n)) : Option (List (Operation n)) :=
  (p.mapM fun i => do
    let cut ← cfg.disconnectUnlocked i q
    let join ← cfg.connectUnlocked i p
    some (cut ++ join)).map List.flatten

/-- `endnames` of a clerk, which is nil if there is no such clerk. -/
def enableClient (cfg : Config n W B P) (client : Int) (yes : Bool) (others : List (Fin n)) :
    Option (List (Operation n)) :=
  others.mapM fun j => if client ∈ cfg.made then some (.enable (.clerk client j) yes) else none

/-- A fresh set of ends. -/
def makeEnds (endname : Fin n → EndName n) : List (Operation n) :=
  (all n).flatMap fun j => [.makeEnd (endname j), .connect (endname j)]

def body (cfg : Config n W B P) : ConfigCall n → Option (List (Operation n))
  | .connect i others => cfg.connectUnlocked i others
  | .disconnect i away => cfg.disconnectUnlocked i away
  | .connectAll => ((all n).mapM fun i => cfg.connectUnlocked i (all n)).map List.flatten
  | .partition p1 p2 => do
    let first ← cfg.partitionHalf p1 p2
    let second ← cfg.partitionHalf p2 p1
    some (first ++ second)
  | .makeClient client others => some (makeEnds (.clerk client) ++ [.makeClerk client] ++
      others.map fun j => .enable (.clerk client j) true)
  | .connectClient client others => cfg.enableClient client true others
  | .disconnectClient client away => cfg.enableClient client false away
  | .shutdownServer i =>
    (cfg.disconnectUnlocked i (all n)).map (· ++ [.deleteServer i, .copy i])
  | .startServer i => some (makeEnds (.server i (cfg.starts i)) ++ [.prepare i])

/-- `StartServer` has new names for its ends. -/
def named (cfg : Config n W B P) : ConfigCall n → Config n W B P
  | .startServer i => { cfg with starts := Function.update cfg.starts i (cfg.starts i + 1) }
  | _ => cfg

def setSlot (cfg : Config n W B P) (i : Fin n) (slot : Slot W B) : Config n W B P :=
  { cfg with slots := Function.update cfg.slots i slot }

/-- `cfg.saved[i]`: the persister of a server that runs is the one that it writes to. -/
def saved (cfg : Config n W B P) (i : Fin n) : Option (Persister (List B) W) :=
  match cfg.slots i with
  | .down saved => saved
  | .prepared saved => some saved
  | .running a _ => cfg.instances[a]?.map (·.replica.peer.raft.persister)

/-- The network takes the step `e`. -/
def netStep (cfg : Config n W B P) (e : Labrpc.NetEvent (EndName n) (Fin n) P) :
    Option (Config n W B P) :=
  (cfg.net.step e).map fun net => { cfg with net := net }

def operation (cfg : Config n W B P) : Operation n → Option (Config n W B P)
  | .makeEnd endname => cfg.netStep (.makeEnd endname)
  | .connect endname => cfg.netStep (.connect endname endname.dst)
  | .enable endname enabled => cfg.netStep (.enable endname enabled)
  | .deleteServer i => cfg.netStep (.deleteServer i)
  | .copy i => some (cfg.setSlot i (.down (cfg.saved i)))
  | .prepare i => some (cfg.setSlot i (.prepared ((cfg.saved i).getD makePersister)))
  | .makeClerk client => some { cfg with made := cfg.made ++ [client] }

/-! ### The steps -/

/-- What the network does of itself, and what needs no other part of the test bed. -/
def Free : Labrpc.NetEvent (EndName n) (Fin n) P → Prop
  | .setReliable _ | .cleanup | .quit => True
  | .act _ .dispatch | .act _ (.handled _) => False
  | .act .. => True
  | _ => False

instance (e : Labrpc.NetEvent (EndName n) (Fin n) P) : Decidable (Free e) :=
  match e with
  | .setReliable _ | .cleanup | .quit | .act _ .accept | .act _ .abandon | .act _ .process
  | .act _ .dropRequest | .act _ .execute | .act _ .receive | .act _ .poll | .act _ .drain
  | .act _ .check | .act _ .dropReply | .act _ .send | .act _ .deliver => .isTrue trivial
  | .act _ .dispatch | .act _ (.handled _) | .makeEnd _ | .makeServer | .addService .. | .addServer ..
  | .deleteServer _ | .connect .. | .enable .. | .call .. => .isFalse id

def setInstance (cfg : Config n W B P) (a : Nat) (inst : Instance n W B) : Config n W B P :=
  { cfg with instances := cfg.instances.set a inst }

def setClerk (cfg : Config n W B P) (client : Int) (ck : Clerk) : Config n W B P :=
  { cfg with clerks := Function.update cfg.clerks client ck }

def note (cfg : Config n W B P) (e : Linearizability.Event (Int × Int) KVCall (Option String)) :
    Config n W B P :=
  { cfg with calls := cfg.calls ++ [e] }

/-- The instance at which the handler of a call runs. -/
def running (cfg : Config n W B P) (call : Nat) :
    Option (Labrpc.Call (EndName n) (Fin n) P × Nat × Instance n W B) :=
  cfg.net.calls[call]?.bind fun c =>
    match c.handler with
    | .running b => cfg.instances[b]?.map fun inst => (c, b, inst)
    | _ => none

/-- What a call has returned. -/
def returned (cfg : Config n W B P) (call : Nat) : Option (Labrpc.ReplyMsg P) :=
  cfg.net.calls[call]?.bind fun c =>
    match c.phase with
    | .returned reply => some reply
    | _ => none

def boot (rgob : Labgob Op W) (gob : KVGob B) (cfg : Config n W B P) (i : Fin n) :
    Option (Config n W B P) :=
  match cfg.slots i with
  | .prepared persister => do
    let a := cfg.instances.length
    let net ← cfg.net.step .makeServer
    let net ← net.step (.addService a kvService)
    let net ← net.step (.addService a raftService)
    some { cfg.setSlot i (.running a false) with
      net := net
      instances := cfg.instances ++ [Instance.boot rgob gob i (cfg.starts i) persister] }
  | _ => none

def addServer (cfg : Config n W B P) (i : Fin n) : Option (Config n W B P) :=
  match cfg.slots i with
  | .running a false =>
    (cfg.netStep (.addServer i a)).map (·.setSlot i (.running a true))
  | _ => none

variable [DecidableEq B]

/-- The goroutine is in `Call` from now on. -/
def call (wgob : WireGob B P) (cfg : Config n W B P) (a : Nat) (server : Fin n)
    (request : Request Op (List B)) : Option (Config n W B P) :=
  match cfg.instances[a]? with
  | some inst =>
    if (server.val, request) ∈ inst.unsent then
      (cfg.netStep (.call (inst.endname server) request.svcMeth
        (wgob.encode (.request request)))).map fun cfg' =>
          { cfg'.setInstance a { inst with unsent := inst.unsent.erase (server.val, request) } with
            waiting := cfg.waiting ++ [⟨cfg.net.calls.length, a, server, request⟩] }
    else none
  | none => none

/-- The reply is what the peer shows last. -/
def serve (rgob : Labgob Op W) (gob : KVGob B) (wgob : WireGob B P) (cfg : Config n W B P)
    (call : Nat) : Option (Config n W B P) := do
  let (c, b, inst) ← cfg.running call
  let .request request ← wgob.decode c.args | none
  let inst' ← inst.raftStep rgob gob request.input
  let .reply _ reply ← inst'.replica.peer.history.getLast? | none
  (cfg.setInstance b inst').netStep (.act call (.handled (wgob.encode (.reply reply))))

/-- The section that a waiting goroutine runs next, if its call has returned true. -/
def answerInput (wgob : WireGob B P) (cfg : Config n W B P) (w : Waiting n B) (election : Nat) :
    Option (Input Op (List B)) := do
  let reply ← cfg.returned w.call
  if reply.ok = true then
    let .reply reply ← wgob.decode reply.reply | none
    w.request.answered w.server election reply
  else none

def answer (rgob : Labgob Op W) (gob : KVGob B) (wgob : WireGob B P) (cfg : Config n W B P)
    (w : Waiting n B) (election : Nat) : Option (Config n W B P) :=
  if w ∈ cfg.waiting then do
    let input ← cfg.answerInput wgob w election
    let inst ← cfg.instances[w.inst]?
    let inst' ← inst.raftStep rgob gob input
    some { cfg.setInstance w.inst inst' with waiting := cfg.waiting.erase w }
  else none

def request (gob : KVGob B) (wgob : WireGob B P) (cfg : Config n W B P) (rpc : Nat) :
    Option (Config n W B P) := do
  let call ← cfg.rpcs[rpc]?
  let cfg' ← cfg.netStep (.act call .dispatch)
  -- `log.Fatalf` before the method is called
  if cfg'.net.fatal.isSome = true then some cfg'
  else
    let (c, b, inst) ← cfg'.running call
    let .kvArgs op ← wgob.decode c.args | none
    let inst' ← inst.kvStep gob (.request rpc op)
    some (cfg'.setInstance b inst')

def finish (wgob : WireGob B P) (cfg : Config n W B P) (rpc : Nat) (reply : KVReply) :
    Option (Config n W B P) := do
  let call ← cfg.rpcs[rpc]?
  let (_, _, inst) ← cfg.running call
  if inst.replied.contains (rpc, reply) then
    cfg.netStep (.act call (.handled (wgob.encode (.kvReply reply))))
  else none

def send (wgob : WireGob B P) (cfg : Config n W B P) (client : Int) : Option (Config n W B P) :=
  let ck := cfg.clerks client
  match ck.current with
  | some (call, none) =>
    let op := call.op client ck.requestId
    if h : cfg.handles client ck.leaderId < n then
      (cfg.netStep (.call (.clerk client ⟨_, h⟩) op.svcMeth (wgob.encode (.kvArgs op)))).map
        fun cfg' => { cfg'.setClerk client { ck with current := some (call, some cfg.rpcs.length) }
          with rpcs := cfg.rpcs ++ [cfg.net.calls.length] }
    else none
  | _ => none

def receive (wgob : WireGob B P) (cfg : Config n W B P) (client : Int) :
    Option (Config n W B P) :=
  let ck := cfg.clerks client
  match ck.current with
  | some (call, some rpc) => do
    let reply ← cfg.rpcs[rpc]?.bind cfg.returned
    if reply.ok = true then
      let .kvReply reply ← wgob.decode reply.reply | none
      if reply.wrongLeader = true then some (cfg.setClerk client (ck.retry n call))
      else some ((cfg.setClerk client ck.done).note
        (.respond (client, ck.requestId) (call.result reply)))
    else some (cfg.setClerk client (ck.retry n call))
  | _ => none

def next (rgob : Labgob Op W) (gob : KVGob B) (wgob : WireGob B P) (cfg : Config n W B P) :
    ConfigEvent n B P → Option (Config n W B P)
  | .enter call =>
    if cfg.doing = [] then
      ((cfg.named call).body call).map fun ops => { cfg.named call with doing := ops }
    else none
  | .operate =>
    match cfg.doing with
    | op :: rest => (cfg.operation op).map fun cfg' => { cfg' with doing := rest }
    | [] => none
  | .boot i => cfg.boot rgob gob i
  | .addServer i => cfg.addServer i
  | .net e => if Free e then cfg.netStep e else none
  | .inst a e =>
    cfg.instances[a]?.bind fun inst => (inst.step rgob gob e).map (cfg.setInstance a)
  | .call a server request => cfg.call wgob a server request
  | .dispatch call => if call ∈ cfg.rpcs then none else cfg.netStep (.act call .dispatch)
  | .serve call => cfg.serve rgob gob wgob call
  | .answer w election => cfg.answer rgob gob wgob w election
  | .request rpc => cfg.request gob wgob rpc
  | .finish rpc reply => cfg.finish wgob rpc reply
  | .invoke client call =>
    let ck := cfg.clerks client
    if ck.current.isNone = true ∧ client ∈ cfg.made then
      some ((cfg.setClerk client { ck with current := some (call, none) }).note
        (.invoke (client, ck.requestId) call))
    else none
  | .send client => cfg.send wgob client
  | .receive client => cfg.receive wgob client

/-- One step; the process may have ended. -/
def step (rgob : Labgob Op W) (gob : KVGob B) (wgob : WireGob B P) (cfg : Config n W B P)
    (e : ConfigEvent n B P) : Option (Config n W B P) :=
  if cfg.net.fatal.isSome = true then none else cfg.next rgob gob wgob e

/-! ### How the tests use it -/

/-- A server is shut down before it is started again, not while it is being started, and
`connect` is not called for one that is down. -/
def Orderly (cfg : Config n W B P) : ConfigEvent n B P → Prop
  | .enter (.connect i others) => ∀ j ∈ i :: others, (cfg.slots j).alive = true
  | .enter .connectAll => ∀ i, (cfg.slots i).alive = true
  | .enter (.partition p1 p2) => ∀ i ∈ p1 ++ p2, (cfg.slots i).alive = true
  | .enter (.startServer i) => (cfg.slots i).alive = false
  | .enter (.shutdownServer i) => (cfg.slots i).settled = true
  | _ => True

instance (cfg : Config n W B P) (e : ConfigEvent n B P) : Decidable (cfg.Orderly e) :=
  match e with
  | .enter (.connect i others) =>
    inferInstanceAs (Decidable (∀ j ∈ i :: others, (cfg.slots j).alive = true))
  | .enter .connectAll => inferInstanceAs (Decidable (∀ i, (cfg.slots i).alive = true))
  | .enter (.partition p1 p2) =>
    inferInstanceAs (Decidable (∀ i ∈ p1 ++ p2, (cfg.slots i).alive = true))
  | .enter (.startServer i) => inferInstanceAs (Decidable ((cfg.slots i).alive = false))
  | .enter (.shutdownServer i) => inferInstanceAs (Decidable ((cfg.slots i).settled = true))
  | .enter (.disconnect ..) | .enter (.makeClient ..) | .enter (.connectClient ..)
  | .enter (.disconnectClient ..) | .operate | .boot _ | .addServer _ | .net _ | .inst ..
  | .call .. | .dispatch _ | .serve _ | .answer .. | .request _ | .finish .. | .invoke ..
  | .send _ | .receive _ => .isTrue trivial

/-- The Raft peer that takes part in an event, and its input. -/
def input? (wgob : WireGob B P) (cfg : Config n W B P) :
    ConfigEvent n B P → Option (Nat × Input Op (List B))
  | .inst a (.raft input) => some (a, input)
  | .inst a (.append _ op term) => some (a, .resume (.start op term))
  | .serve call => do
    let (c, b, _) ← cfg.running call
    let .request request ← wgob.decode c.args | none
    some (b, request.input)
  | .answer w election => (cfg.answerInput wgob w election).map (w.inst, ·)
  | _ => none

/-- The servers that are not shut down are steady, as in `Service.Steady`. -/
def Steady (wgob : WireGob B P) (cfg : Config n W B P) (e : ConfigEvent n B P) : Prop :=
  ∀ p ∈ cfg.input? wgob e, ∀ inst ∈ cfg.instances[p.1]?, (cfg.slots inst.number).runs p.1 = true →
    inst.replica.peer.raft.TimelyElection p.2 ∧ inst.replica.peer.raft.Careful p.2 ∧
      inst.replica.InOrder (.raft p.2)

instance (wgob : WireGob B P) (cfg : Config n W B P) (e : ConfigEvent n B P) :
    Decidable (cfg.Steady wgob e) :=
  inferInstanceAs (Decidable (∀ p ∈ cfg.input? wgob e, ∀ inst ∈ cfg.instances[p.1]?, _ → _))

end Config

end DistributionSystem
