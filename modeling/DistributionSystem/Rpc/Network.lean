import Mathlib.Logic.Function.Basic
import DistributionSystem.Lib.Runs

/-! The simulated network of `labrpc.go`. One call of `ClientEnd.Call` is the work of three
goroutines: that of the caller, that of `ProcessReq`, and the one that runs the handler at the
server. Time is not part of the model: any step may come late, which covers the random delays,
`LongDelays` and `LongReordering`; what the code decides by chance is decided by the event. -/

namespace DistributionSystem.Labrpc

/-! ## Services and servers -/

/-- What `reflect` tells of a method. -/
structure Method where
  name : String
  /-- `PkgPath` is empty. -/
  exported : Bool
  numIn : Nat
  /-- The third parameter, if there are three, is a pointer. -/
  replyIsPtr : Bool
  numOut : Nat

/-- The method looks like a handler. -/
def Method.suitable (m : Method) : Bool :=
  m.exported && m.numIn == 3 && m.replyIsPtr && m.numOut == 0

structure Service where
  name : String
  methods : List String
  deriving DecidableEq, Repr

def makeService (name : String) (methods : List Method) : Service :=
  ⟨name, (methods.filter Method.suitable).map Method.name⟩

structure Server where
  services : List Service
  count : Nat

def makeServer : Server := ⟨[], 0⟩

/-- `rs.services[svc.name] = svc`. -/
def Server.addService (rs : Server) (svc : Service) : Server :=
  { rs with services := rs.services.filter (fun s => s.name ≠ svc.name) ++ [svc] }

/-- How the process can end: by `log.Fatalf` or a panic. -/
inductive Fatal where
  /-- `MakeEnd`: the name exists. -/
  | endExists
  /-- `Cleanup` closes a channel that is closed. -/
  | closedTwice
  /-- `req.svcMeth[:dot]` without a dot. -/
  | sliceBounds (svcMeth : String)
  | unknownService (serviceName methodName : String) (choices : List String)
  | unknownMethod (methname svcMeth : String) (choices : List String)
  deriving DecidableEq, Repr

/-- The texts before and behind the last dot. -/
def splitSvcMeth (svcMeth : String) : Option (String × String) :=
  match svcMeth.toList.reverse.span (· ≠ '.') with
  | (_, []) => none
  | (meth, _ :: service) => some (String.ofList service.reverse, String.ofList meth.reverse)

def Service.dispatch (svc : Service) (methname svcMeth : String) : Except Fatal Unit :=
  if methname ∈ svc.methods then .ok () else .error (.unknownMethod methname svcMeth svc.methods)

/-- `dispatch` of a server and of its service, up to the call of the method. -/
def Server.dispatch (rs : Server) (svcMeth : String) : Server × Except Fatal Unit :=
  ({ rs with count := rs.count + 1 },
    match splitSvcMeth svcMeth with
    | none => .error (.sliceBounds svcMeth)
    | some (serviceName, methodName) =>
      match rs.services.find? fun s => s.name = serviceName with
      | some service => service.dispatch methodName svcMeth
      | none => .error (.unknownService serviceName methodName (rs.services.map Service.name)))

/-! ## Calls -/

structure ReplyMsg (B : Type) where
  ok : Bool
  reply : List B
  deriving DecidableEq, Repr

/-- `replyMsg{false, nil}`. -/
def noReply {B : Type} : ReplyMsg B := ⟨false, []⟩

/-- What `ReadEndnameInfo` returns for an end that leads to a server. -/
structure Route (S : Type) where
  servername : S
  /-- The pointer to the server: its place among those that were made. -/
  server : Nat
  reliable : Bool
  deriving DecidableEq, Repr

/-- Where the call and its `ProcessReq` are. -/
inductive Phase (S B : Type) where
  /-- In the `select` of `Call`. -/
  | sending
  /-- The goroutine of the network has taken the request. -/
  | accepted
  /-- Behind `ReadEndnameInfo`. -/
  | routed (r : Route S)
  /-- In the loop that waits for the handler. -/
  | waiting (r : Route S)
  /-- Behind the loop, with the answer of the handler. -/
  | got (r : Route S) (reply : ReplyMsg B)
  /-- Behind the loop, because the server is dead. -/
  | gaveUp (r : Route S)
  /-- The server was not dead at the last look. -/
  | checked (r : Route S) (reply : ReplyMsg B)
  /-- About to send on `replyCh`. -/
  | replying (reply : ReplyMsg B)
  /-- `Call` has returned what the reply says. -/
  | returned (reply : ReplyMsg B)
  deriving DecidableEq, Repr

/-- The goroutine that runs the handler at the server `server`. -/
inductive Handler (B : Type) where
  | idle
  | started (server : Nat)
  | running (server : Nat)
  /-- About to send on `ech`. -/
  | finished (reply : ReplyMsg B)
  | gone
  deriving DecidableEq, Repr

structure Call (E S B : Type) where
  endname : E
  svcMeth : String
  args : List B
  phase : Phase S B
  handler : Handler B
  /-- A goroutine waits to drain `ech`. -/
  draining : Bool
  deriving DecidableEq, Repr

/-- What the tester sets up, under `rn.mu`. -/
structure Setup (E S : Type) where
  reliable : Bool
  /-- The names of the ends. -/
  ends : List E
  enabled : E → Bool
  servers : S → Option Nat
  connections : E → Option S
  /-- `rn.done` is closed. -/
  done : Bool
  /-- The goroutine of `MakeNetwork` is in its loop. -/
  accepting : Bool

structure Network (E S B : Type) extends Setup E S where
  /-- An `int32`. -/
  count : BitVec 32
  /-- The servers that `MakeServer` has made. -/
  objects : List Server
  calls : List (Call E S B)
  fatal : Option Fatal

/-- A step of one of the goroutines of a call. -/
inductive Action (B : Type) where
  /-- The goroutine of the network takes the request. -/
  | accept
  /-- `Call` sees that the network is cleaned up. -/
  | abandon
  /-- `ReadEndnameInfo`. -/
  | process
  | dropRequest
  /-- The goroutine of the handler is started. -/
  | execute
  /-- `server.dispatch` finds the method and calls it. -/
  | dispatch
  /-- The method returns, and its reply is encoded. -/
  | handled (reply : List B)
  /-- The loop receives from `ech`. -/
  | receive
  /-- The 100 ms of a round of the loop are over. -/
  | poll
  | drain
  /-- The look at the server behind the loop. -/
  | check
  | dropReply
  | send
  /-- `Call` receives from `replyCh`. -/
  | deliver
  deriving DecidableEq, Repr

inductive NetEvent (E S B : Type) where
  | makeEnd (endname : E)
  | makeServer
  | addService (server : Nat) (svc : Service)
  | addServer (servername : S) (server : Nat)
  | deleteServer (servername : S)
  | connect (endname : E) (servername : S)
  | enable (endname : E) (enabled : Bool)
  | setReliable (yes : Bool)
  | cleanup
  /-- The goroutine of `MakeNetwork` sees `rn.done`. -/
  | quit
  /-- A client calls `Call` on an end. -/
  | call (endname : E) (svcMeth : String) (args : List B)
  | act (call : Nat) (action : Action B)
  deriving DecidableEq

namespace Setup

variable {E S : Type}

/-- `none` if the request gets to no server: the end is not enabled or not connected, or the
server is nil. -/
def readEndnameInfo (rn : Setup E S) (endname : E) : Option (Route S) :=
  if rn.enabled endname = true then
    match rn.connections endname with
    | none => none
    | some servername => (rn.servers servername).map (⟨servername, ·, rn.reliable⟩)
  else none

def isServerDead (rn : Setup E S) (endname : E) (r : Route S) : Bool :=
  rn.enabled endname = false || rn.servers r.servername ≠ some r.server

/-- `MakeEnd` for a name that is new. -/
def makeEnd [DecidableEq E] (rn : Setup E S) (endname : E) : Setup E S :=
  { rn with
    ends := rn.ends ++ [endname]
    enabled := Function.update rn.enabled endname false
    connections := Function.update rn.connections endname none }

def addServer [DecidableEq S] (rn : Setup E S) (servername : S) (server : Nat) : Setup E S :=
  { rn with servers := Function.update rn.servers servername (some server) }

def deleteServer [DecidableEq S] (rn : Setup E S) (servername : S) : Setup E S :=
  { rn with servers := Function.update rn.servers servername none }

def connect [DecidableEq E] (rn : Setup E S) (endname : E) (servername : S) : Setup E S :=
  { rn with connections := Function.update rn.connections endname (some servername) }

def enable [DecidableEq E] (rn : Setup E S) (endname : E) (enabled : Bool) : Setup E S :=
  { rn with enabled := Function.update rn.enabled endname enabled }

/-- `Reliable`. -/
def setReliable (rn : Setup E S) (yes : Bool) : Setup E S := { rn with reliable := yes }

end Setup

namespace Network

variable {E S B : Type}

def makeNetwork : Network E S B where
  reliable := true
  ends := []
  enabled _ := false
  servers _ := none
  connections _ := none
  done := false
  accepting := true
  count := 0
  objects := []
  calls := []
  fatal := none

end Network

section step

variable {E S B : Type}

def Call.goTo (c : Call E S B) (phase : Phase S B) : Call E S B := { c with phase := phase }

/-- What a step does to the call itself. -/
def Call.step (rn : Setup E S) (c : Call E S B) (a : Action B) : Option (Call E S B) :=
  match a, c.phase with
  | .accept, .sending => if rn.accepting = true then some (c.goTo .accepted) else none
  | .abandon, .sending => if rn.done = true then some (c.goTo (.returned noReply)) else none
  | .process, .accepted =>
    match rn.readEndnameInfo c.endname with
    | some r => some (c.goTo (.routed r))
    | none => some (c.goTo (.replying noReply))
  | .dropRequest, .routed r =>
    if r.reliable = false then some (c.goTo (.replying noReply)) else none
  | .execute, .routed r => some { c.goTo (.waiting r) with handler := .started r.server }
  | .receive, .waiting r =>
    match c.handler with
    | .finished reply => some { c.goTo (.got r reply) with handler := .gone }
    | _ => none
  | .poll, .waiting r =>
    if rn.isServerDead c.endname r = true then some { c.goTo (.gaveUp r) with draining := true }
    else some c
  | .check, .got r reply =>
    if rn.isServerDead c.endname r = true then some (c.goTo (.replying noReply))
    else some (c.goTo (.checked r reply))
  | .check, .gaveUp _ => some (c.goTo (.replying noReply))
  | .dropReply, .checked r _ =>
    if r.reliable = false then some (c.goTo (.replying noReply)) else none
  | .send, .checked _ reply => some (c.goTo (.replying reply))
  | .deliver, .replying reply => some (c.goTo (.returned reply))
  | .dispatch, _ =>
    match c.handler with
    | .started server => some { c with handler := .running server }
    | _ => none
  | .handled reply, _ =>
    match c.handler with
    | .running _ => some { c with handler := .finished ⟨true, reply⟩ }
    | _ => none
  | .drain, _ =>
    match c.handler with
    | .finished _ =>
      if c.draining = true then some { c with handler := .gone, draining := false } else none
    | _ => none
  | _, _ => none

namespace Network

/-- What a step of a call does to the network around it. -/
def around (rn : Network E S B) (c : Call E S B) : Action B → Network E S B
  | .accept => { rn with count := rn.count + 1 }
  | .dispatch =>
    match c.handler with
    | .started server =>
      match rn.objects[server]? with
      | some rs =>
        let r := rs.dispatch c.svcMeth
        { rn with
          objects := rn.objects.set server r.1
          fatal := match r.2 with
            | .ok _ => none
            | .error f => some f }
      | none => rn
    | _ => rn
  | _ => rn

def setCall (rn : Network E S B) (i : Nat) (c : Call E S B) : Network E S B :=
  { rn with calls := rn.calls.set i c }

variable [DecidableEq E] [DecidableEq S]

def next (rn : Network E S B) : NetEvent E S B → Option (Network E S B)
  | .makeEnd endname =>
    if endname ∈ rn.ends then some { rn with fatal := some .endExists }
    else some { rn with toSetup := rn.makeEnd endname }
  | .makeServer => some { rn with objects := rn.objects ++ [Labrpc.makeServer] }
  | .addService server svc =>
    match rn.objects[server]? with
    | some rs => some { rn with objects := rn.objects.set server (rs.addService svc) }
    | none => none
  | .addServer servername server =>
    if server < rn.objects.length then
      some { rn with toSetup := rn.addServer servername server }
    else none
  | .deleteServer servername => some { rn with toSetup := rn.deleteServer servername }
  | .connect endname servername => some { rn with toSetup := rn.connect endname servername }
  | .enable endname enabled => some { rn with toSetup := rn.enable endname enabled }
  | .setReliable yes => some { rn with toSetup := rn.setReliable yes }
  | .cleanup =>
    if rn.done = true then some { rn with fatal := some .closedTwice }
    else some { rn with done := true }
  | .quit =>
    if rn.done = true ∧ rn.accepting = true then some { rn with accepting := false } else none
  | .call endname svcMeth args =>
    if endname ∈ rn.ends then
      some { rn with calls := rn.calls ++ [⟨endname, svcMeth, args, .sending, .idle, false⟩] }
    else none
  | .act i a =>
    match rn.calls[i]? with
    | none => none
    | some c => (c.step rn.toSetup a).map ((rn.around c a).setCall i)

/-- One step; none is possible once the process has ended. -/
def step (rn : Network E S B) (e : NetEvent E S B) : Option (Network E S B) :=
  if rn.fatal.isSome = true then none else rn.next e

end Network

end step

end DistributionSystem.Labrpc
