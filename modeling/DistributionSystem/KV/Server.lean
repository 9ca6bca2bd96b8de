import Mathlib.Data.Finmap
import DistributionSystem.Raft.State

/-! The key/value service of `kvraft/server.go`: the apply loop, the handlers of `Get`
and `PutAppend` as goroutines between their critical sections, and snapshots. -/

namespace DistributionSystem

inductive OpName where
  | get | put | append
  deriving DecidableEq, Repr

structure Op where
  key : String
  value : String
  name : OpName
  clientId : Int
  requestId : Int
  deriving DecidableEq, Repr

structure Notification where
  clientId : Int
  requestId : Int
  deriving DecidableEq, Repr

/-- The zero value of `Err`, and the one that `Get` sets. -/
inductive Err where
  | blank | errNoKey
  deriving DecidableEq, Repr

/-- `GetReply`; `PutAppendReply` has no value. -/
structure KVReply where
  wrongLeader : Bool
  err : Err
  value : String
  deriving DecidableEq, Repr

/-! ## The replicated state -/

abbrev GoMap (α β : Type) := Finmap fun _ : α => β

/-- The two maps that a snapshot saves. -/
structure Store where
  db : GoMap String String
  lastAppliedRequestId : GoMap Int Int
  deriving DecidableEq

namespace Store

def empty : Store := ⟨∅, ∅⟩

def isDuplicateRequest (kv : Store) (clientId requestId : Int) : Bool :=
  match kv.lastAppliedRequestId.lookup clientId with
  | none => false
  | some appliedRequestId => !decide (requestId > appliedRequestId)

/-- The `switch` of the apply loop, and the request that it records. -/
def execute (kv : Store) (op : Op) : Store where
  db := match op.name with
    | .put => kv.db.insert op.key op.value
    | .append => kv.db.insert op.key ((kv.db.lookup op.key).getD "" ++ op.value)
    | .get => kv.db
  lastAppliedRequestId := kv.lastAppliedRequestId.insert op.clientId op.requestId

/-- What one entry of the log does to the maps. -/
def apply (kv : Store) (op : Op) : Store :=
  if kv.isDuplicateRequest op.clientId op.requestId then kv else kv.execute op

/-- Each entry of a log applied once, in order. -/
def replay (log : List Op) : Store := log.foldl apply empty

/-- Decoding `new` into the maps of `old`: gob sets the keys it reads and leaves the
others alone. -/
def overlay (new old : Store) : Store where
  db := new.db ∪ old.db
  lastAppliedRequestId := new.lastAppliedRequestId ∪ old.lastAppliedRequestId

end Store

/-- The part of labgob that snapshots go through. A read gives the entries that it has set in the
map, and the bytes behind the map; there are none if it fails, be it in the middle of the map. -/
structure KVGob (B : Type) where
  encodeDb : GoMap String String → List B
  decodeDb : List B → GoMap String String × Option (List B)
  encodeIds : GoMap Int Int → List B
  decodeIds : List B → GoMap Int Int × Option (List B)

/-- Decoding undoes encoding. -/
structure KVGob.RoundTrip {B : Type} (gob : KVGob B) : Prop where
  db : ∀ m rest, gob.decodeDb (gob.encodeDb m ++ rest) = (m, some rest)
  ids : ∀ m rest, gob.decodeIds (gob.encodeIds m ++ rest) = (m, some rest)

inductive KVWord where
  | db (m : GoMap String String)
  | ids (m : GoMap Int Int)
  /-- Maps whose bytes end behind the entries of `m`. -/
  | cutDb (m : GoMap String String)
  | cutIds (m : GoMap Int Int)
  deriving DecidableEq

/-- One word of the buffer for each map. -/
def KVGob.words : KVGob KVWord where
  encodeDb m := [.db m]
  decodeDb
    | .db m :: rest => (m, some rest)
    | .cutDb m :: _ => (m, none)
    | _ => (∅, none)
  encodeIds m := [.ids m]
  decodeIds
    | .ids m :: rest => (m, some rest)
    | .cutIds m :: _ => (m, none)
    | _ => (∅, none)

theorem KVGob.words_roundTrip : KVGob.words.RoundTrip := ⟨fun _ _ => rfl, fun _ _ => rfl⟩

def Store.encode {B : Type} (gob : KVGob B) (kv : Store) : List B :=
  gob.encodeDb kv.db ++ gob.encodeIds kv.lastAppliedRequestId

/-- The two reads of `installSnapshot`, the second only if the first succeeds. What a read has set
stays, for a failure is only logged. -/
def Store.decode {B : Type} (gob : KVGob B) (kv : Store) (data : List B) : Store :=
  let db := gob.decodeDb data
  let kv := overlay ⟨db.1, ∅⟩ kv
  match db.2 with
  | none => kv
  | some data => overlay ⟨∅, (gob.decodeIds data).1⟩ kv

/-! ## The server -/

/-- A handler between two critical sections. `call` is the RPC it answers. -/
inductive Handler where
  /-- `waitApplying` before `rf.Start`. -/
  | start (call : Nat) (op : Op)
  /-- `waitApplying` once `Start` has returned `index`. -/
  | register (call : Nat) (op : Op) (index : Int)
  /-- In the `select`, on the channel `ch`. -/
  | select (call : Nat) (op : Op) (index : Int) (ch : Nat)
  /-- Before the `delete` from the dispatcher. -/
  | finish (call : Nat) (op : Op) (index : Int) (wrongLeader : Bool)
  /-- `Get` before it reads `db`. -/
  | read (call : Nat) (op : Op)
  deriving DecidableEq, Repr

structure KVServer (B : Type) extends Store where
  dispatcher : GoMap Int Nat
  /-- The channels made so far, each with its buffer for one notification. -/
  channels : List (Option Notification)
  appliedRaftLogIndex : Int
  /-- The message that the apply loop has received and is not done with. -/
  received : Option (ApplyMsg Op (List B))
  handlers : List Handler
  /-- What `takeSnapshot` has read and not yet passed to `ReplaceLogWithSnapshot`. -/
  snapshots : List (Int × List B)

/-- One step of the service. -/
inductive KVInput (B : Type) where
  | request (call : Nat) (op : Op)
  /-- `rf.Start` returns. -/
  | started (call : Nat) (op : Op) (index : Int) (isLeader : Bool)
  /-- The `time.After` branch of the `select`. -/
  | timeout (call : Nat) (op : Op) (index : Int) (ch : Nat)
  /-- The handler goes on; in the `select`, by the notification. -/
  | resume (h : Handler)
  | receive (msg : ApplyMsg Op (List B))
  /-- The apply loop handles what it has received. -/
  | apply
  | takeSnapshot

/-- The message for an entry of the log. -/
def entryMsg {B : Type} (index : Int) (op : Op) : ApplyMsg Op (List B) :=
  ⟨true, .client op, index, none⟩

inductive KVOutput where
  /-- `rf.Start(op)` was called on a leader. -/
  | start (op : Op)
  | reply (call : Nat) (reply : KVReply)
  deriving DecidableEq, Repr

namespace KVServer

variable {B : Type}

/-- `StartKVServer` before it installs a snapshot. -/
def blank : KVServer B :=
  { Store.empty with
    dispatcher := ∅, channels := [], appliedRaftLogIndex := 0
    received := none, handlers := [], snapshots := [] }

def installSnapshot (gob : KVGob B) (kv : KVServer B) : Option (List B) → KVServer B
  | none => kv
  | some data => { kv with toStore := kv.toStore.decode gob data }

def startKVServer (gob : KVGob B) (snapshot : Option (List B)) : KVServer B :=
  blank.installSnapshot gob snapshot

theorem startKVServer_frame (gob : KVGob B) (snapshot : Option (List B)) :
    startKVServer gob snapshot = { blank with toStore := (startKVServer gob snapshot).toStore } := by
  cases snapshot <;> rfl

/-! ### The apply loop -/

/-- `ch <- notify`, which waits with the lock held while the buffer is full: the section
it is in happens once there is room. -/
def notify (kv : KVServer B) (ch : Nat) (n : Notification) : Option (KVServer B) :=
  match kv.channels[ch]? with
  | some none => some { kv with channels := kv.channels.set ch (some n) }
  | _ => none

def applyCommand (kv : KVServer B) (index : Int) (op : Op) : Option (KVServer B) :=
  if kv.isDuplicateRequest op.clientId op.requestId then some kv
  else
    let kv := { kv with toStore := kv.execute op, appliedRaftLogIndex := index }
    match kv.dispatcher.lookup index with
    | none => some kv
    | some ch => kv.notify ch ⟨op.clientId, op.requestId⟩

/-- The body of the apply loop; a failing type assertion panics. -/
def applyMsg (gob : KVGob B) (kv : KVServer B) (msg : ApplyMsg Op (List B)) :
    Option (KVServer B) :=
  if msg.commandValid = false then
    match msg.command with
    | .installSnapshot => some (kv.installSnapshot gob msg.commandData)
    | _ => none
  else
    match msg.command with
    | .client op => kv.applyCommand msg.commandIndex op
    | _ => none

/-! ### The handlers -/

/-- `dispatcher[index]`, made if it is not there. -/
def register (kv : KVServer B) (index : Int) : KVServer B × Nat :=
  match kv.dispatcher.lookup index with
  | some ch => (kv, ch)
  | none =>
    ({ kv with
      dispatcher := kv.dispatcher.insert index kv.channels.length
      channels := kv.channels ++ [none] }, kv.channels.length)

def addHandler (kv : KVServer B) (h : Handler) : KVServer B :=
  { kv with handlers := kv.handlers ++ [h] }

/-- `Get` and `PutAppend` behind `waitApplying`: only a `Get` that was applied goes on. -/
def answer (kv : KVServer B) (call : Nat) (op : Op) (wrongLeader : Bool) :
    KVServer B × List KVOutput :=
  if op.name = .get ∧ wrongLeader = false then (kv.addHandler (.read call op), [])
  else (kv, [.reply call ⟨wrongLeader, .blank, ""⟩])

def readReply (kv : KVServer B) (key : String) : KVReply :=
  match kv.db.lookup key with
  | some value => ⟨false, .blank, value⟩
  | none => ⟨false, .errNoKey, ""⟩

def resume (kv : KVServer B) : Handler → Option (KVServer B × List KVOutput)
  | .start _ _ => none
  | .register call op index =>
    let r := kv.register index
    some (r.1.addHandler (.select call op index r.2), [])
  | .select call op index ch =>
    match kv.channels[ch]? with
    | some (some n) =>
      some ({ kv with channels := kv.channels.set ch none }.addHandler
        (.finish call op index (decide (n.clientId ≠ op.clientId ∨ n.requestId ≠ op.requestId))), [])
    | _ => none
  | .finish call op index wrongLeader =>
    some ({ kv with dispatcher := kv.dispatcher.erase index }.answer
      call op wrongLeader)
  | .read call op => some (kv, [.reply call (kv.readReply op.key)])

/-- Run the section in which the handler `h` goes on. -/
def wake (kv : KVServer B) (h : Handler)
    (body : KVServer B → Option (KVServer B × List KVOutput)) :
    Option (KVServer B × List KVOutput) :=
  if h ∈ kv.handlers then body { kv with handlers := kv.handlers.erase h } else none

def step (gob : KVGob B) (kv : KVServer B) :
    KVInput B → Option (KVServer B × List KVOutput)
  | .request call op => some (kv.addHandler (.start call op), [])
  | .started call op index isLeader =>
    kv.wake (.start call op) fun kv =>
      if isLeader = false then some (kv.answer call op true)
      else some (kv.addHandler (.register call op index), [.start op])
  | .timeout call op index ch =>
    kv.wake (.select call op index ch) fun kv =>
      some (kv.addHandler (.finish call op index
        (!kv.isDuplicateRequest op.clientId op.requestId)), [])
  | .resume h => kv.wake h (·.resume h)
  | .receive msg =>
    match kv.received with
    | none => some ({ kv with received := some msg }, [])
    | some _ => none
  | .apply =>
    match kv.received with
    | none => none
    | some msg => ({ kv with received := none }.applyMsg gob msg).map (·, [])
  | .takeSnapshot =>
    some ({ kv with snapshots := kv.snapshots ++ [(kv.appliedRaftLogIndex, kv.encode gob)] }, [])

end KVServer

end DistributionSystem
