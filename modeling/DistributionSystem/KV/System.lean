import DistributionSystem.Lib.Linearizable
import DistributionSystem.Lib.Runs
import DistributionSystem.KV.Step

/-! The clerks of `kvraft/client.go` and the servers over an ordered log: an op that was
passed to `Start` may come up in the log from then on, and every server receives the log
in its order. A request or a reply that is lost is one that is never delivered. -/

namespace DistributionSystem

open Linearizability

/-! ## Clerks -/

/-- The methods of a clerk. -/
inductive KVCall where
  | get (key : String)
  | put (key value : String)
  | append (key value : String)
  deriving DecidableEq, Repr

/-- The op that a handler makes of the arguments of a call. -/
def KVCall.op (call : KVCall) (clientId requestId : Int) : Op :=
  match call with
  | .get key => ⟨key, "", .get, clientId, requestId⟩
  | .put key value => ⟨key, value, .put, clientId, requestId⟩
  | .append key value => ⟨key, value, .append, clientId, requestId⟩

/-- What a clerk hands to its caller: `Get` returns a value, the others return. -/
def KVCall.result (call : KVCall) (reply : KVReply) : Option String :=
  match call with
  | .get _ => some reply.value
  | .put .. | .append .. => none

structure Clerk where
  leaderId : Nat
  lastRequestId : Int
  /-- The call under way, and the number of the RPC that it waits for. -/
  current : Option (KVCall × Option Nat)

def makeClerk : Clerk := ⟨0, 0, none⟩

namespace Clerk

def requestId (ck : Clerk) : Int := ck.lastRequestId + 1

/-- The next trial goes to the next server. -/
def retry (servers : Nat) (ck : Clerk) (call : KVCall) : Clerk :=
  { ck with leaderId := (ck.leaderId + 1) % servers, current := some (call, none) }

/-- The call is done. -/
def done (ck : Clerk) : Clerk :=
  { ck with lastRequestId := ck.requestId, current := none }

end Clerk

/-! ## The system -/

/-- A call of a clerk or its return, with the length of the log at that time. -/
abbrev Stamped := Nat × Event (Int × Int) KVCall (Option String)

/-- An RPC: the server it goes to and the op it carries. -/
structure RPC where
  server : Nat
  op : Op
  deriving DecidableEq

structure System (n : Nat) (B : Type) where
  servers : Fin n → KVServer B
  /-- The clerks by their `clientId`. -/
  clerks : Int → Clerk
  /-- The RPCs made so far; the number of one is its place. -/
  rpcs : List RPC
  /-- The numbers of the requests on their way. -/
  requests : List Nat
  replies : List (Nat × KVReply)
  /-- The ops that were passed to `Start` and have not come up. -/
  started : List Op
  /-- The ordered log, as far as it was delivered to some server. -/
  log : List Op
  /-- How far it was delivered to each server. -/
  delivered : Fin n → Nat
  history : List Stamped

inductive SystemEvent (n : Nat) (B : Type) where
  /-- A caller calls a method of a clerk. -/
  | invoke (client : Int) (call : KVCall)
  /-- The clerk calls `servers[leaderId].Call`. -/
  | send (client : Int)
  /-- `Call` returns false. -/
  | fail (client : Int)
  | reply (client : Int) (reply : KVReply)
  /-- A request arrives. -/
  | request (server : Fin n) (rpc : Nat)
  /-- A handler or the apply loop of a server goes on. -/
  | server (server : Fin n) (input : KVInput B)
  /-- `applyCh` of a server yields the next op of the log. -/
  | deliver (server : Fin n) (op : Op)

namespace System

variable {n : Nat} {B : Type}

def init (gob : KVGob B) (n : Nat) : System n B where
  servers _ := KVServer.startKVServer gob none
  clerks _ := makeClerk
  rpcs := []
  requests := []
  replies := []
  started := []
  log := []
  delivered _ := 0
  history := []

def setServer (sys : System n B) (i : Fin n) (kv : KVServer B) : System n B :=
  { sys with servers := Function.update sys.servers i kv }

def setClerk (sys : System n B) (client : Int) (ck : Clerk) : System n B :=
  { sys with clerks := Function.update sys.clerks client ck }

/-- A call or a return becomes part of the history. -/
def note (sys : System n B) (e : Event (Int × Int) KVCall (Option String)) : System n B :=
  { sys with history := sys.history ++ [(sys.log.length, e)] }

/-- What a server has put out reaches the log and the network. -/
def emit (sys : System n B) (out : List KVOutput) : System n B :=
  { sys with
    started := sys.started ++ out.filterMap fun
      | .start op => some op
      | _ => none
    replies := sys.replies ++ out.filterMap fun
      | .reply rpc reply => some (rpc, reply)
      | _ => none }

/-- The inputs that a server takes of its own accord. -/
def Inner : KVInput B → Prop
  | .request _ _ | .receive _ => False
  | _ => True

instance (input : KVInput B) : Decidable (Inner input) :=
  match input with
  | .request _ _ | .receive _ => .isFalse id
  | .started .. | .timeout .. | .resume _ | .apply | .takeSnapshot => .isTrue trivial

/-- The op is the next one for the server: the log has it, or it comes up now. -/
def nextLog (sys : System n B) (i : Fin n) (op : Op) : Option (List Op × List Op) :=
  match sys.log[sys.delivered i]? with
  | some op' => if op = op' then some (sys.log, sys.started) else none
  | none => if op ∈ sys.started then some (sys.log ++ [op], sys.started.erase op) else none

def step (gob : KVGob B) (sys : System n B) : SystemEvent n B → Option (System n B)
  | .invoke client call =>
    let ck := sys.clerks client
    match ck.current with
    | none => some ((sys.setClerk client { ck with current := some (call, none) }).note
        (.invoke (client, ck.requestId) call))
    | some _ => none
  | .send client =>
    let ck := sys.clerks client
    match ck.current with
    | some (call, none) =>
      some { sys.setClerk client { ck with current := some (call, some sys.rpcs.length) } with
        rpcs := sys.rpcs ++ [⟨ck.leaderId, call.op client ck.requestId⟩]
        requests := sys.requests ++ [sys.rpcs.length] }
    | _ => none
  | .fail client =>
    let ck := sys.clerks client
    match ck.current with
    | some (call, some _) => some (sys.setClerk client (ck.retry n call))
    | _ => none
  | .reply client reply =>
    let ck := sys.clerks client
    match ck.current with
    | some (call, some rpc) =>
      if (rpc, reply) ∈ sys.replies then
        if reply.wrongLeader = true then some (sys.setClerk client (ck.retry n call))
        else some ((sys.setClerk client ck.done).note
          (.respond (client, ck.requestId) (call.result reply)))
      else none
    | _ => none
  | .request i rpc =>
    match sys.rpcs[rpc]? with
    | some r =>
      if rpc ∈ sys.requests ∧ r.server = i then
        ((sys.servers i).step gob (.request rpc r.op)).map fun x =>
          { sys.setServer i x.1 with requests := sys.requests.erase rpc }
      else none
    | none => none
  | .server i input =>
    if Inner input then
      ((sys.servers i).step gob input).map fun x => (sys.setServer i x.1).emit x.2
    else none
  | .deliver i op =>
    (sys.nextLog i op).bind fun r =>
      ((sys.servers i).step gob (.receive (entryMsg (sys.delivered i + 1) op))).map fun x =>
        { sys.setServer i x.1 with
          log := r.1, started := r.2
          delivered := Function.update sys.delivered i (sys.delivered i + 1) }

end System

/-! ## The object -/

/-- A map of strings, with the empty string for a key that is not there. -/
def mapSpec (m : String → String) : KVCall → (String → String) × Option String
  | .get key => (m, some (m key))
  | .put key value => (Function.update m key value, none)
  | .append key value => (Function.update m key (m key ++ value), none)

/-- The calls and returns without their stamps. -/
def System.calls {n : Nat} {B : Type} (sys : System n B) :
    List (Event (Int × Int) KVCall (Option String)) :=
  sys.history.map Prod.snd

end DistributionSystem
