import Mathlib.Data.Fintype.Basic
import Mathlib.Logic.Function.Basic
import DistributionSystem.Raft.Peer

/-! The cluster: `n` peers over a network that may delay, reorder, lose and repeat
messages. A message is in the network once its sender's history holds it, and it
stays there. The handlers store and forward a snapshot without looking into it;
here it is the list of the entries it stands for. -/

namespace DistributionSystem

variable {C B : Type} [DecidableEq C]

/-- The entries a snapshot stands for (`nil` stands for none). -/
def covered (snapshot : Option (List (LogEntry C))) : List (LogEntry C) := snapshot.getD []

namespace Raft

/-- The log from index 1 on: what the snapshot covers, then what `rf.logs` holds
behind its guard. -/
def fullLog (rf : Raft C (List (LogEntry C)) B) : List (LogEntry C) :=
  covered rf.persister.snapshot ++ rf.logs.tail

/-- The entry at an absolute index, be it in the snapshot or in the log. -/
def entryAt (rf : Raft C (List (LogEntry C)) B) (index : Int) : Option (LogEntry C) :=
  CheckedSlice.get rf.fullLog (index - 1)

/-- The snapshot of a service that has applied the log up to `index`. -/
def snapshotAt (rf : Raft C (List (LogEntry C)) B) (index : Int) : List (LogEntry C) :=
  rf.fullLog.take index.toNat

end Raft

/-- An input of the peer `dst`; a message among the inputs comes from `src`. -/
structure Event (n : Nat) (C : Type) where
  src : Fin n
  dst : Fin n
  input : Input C (List (LogEntry C))

abbrev Cluster (n : Nat) (C B : Type) := Fin n → Peer C (List (LogEntry C)) B

namespace Cluster

variable {n : Nat}

def init (gob : Labgob C B) (n : Nat) : Cluster n C B := fun i => Peer.init gob n i

/-- The request is in the network. -/
def Sent (cl : Cluster n C B) (src dst : Fin n) (request : Request C (List (LogEntry C))) : Prop :=
  .call dst request ∈ (cl src).history

/-- The answer of `src` to a request is in the network. -/
def Answered (cl : Cluster n C B) (src : Fin n) (request : Request C (List (LogEntry C)))
    (reply : Reply) : Prop :=
  .reply request reply ∈ (cl src).history

/-- What the network and the service allow: only messages that were sent arrive,
and the service compacts at an index it has received, with the snapshot for it. -/
def Allowed (cl : Cluster n C B) (src dst : Fin n) : Input C (List (LogEntry C)) → Prop
  | .requestVote args => cl.Sent src dst (.requestVote args)
  | .appendEntries args => cl.Sent src dst (.appendEntries args)
  | .installSnapshot args => cl.Sent src dst (.installSnapshot args)
  | .voteReply server _ args reply =>
    server = src.val ∧ cl.Answered src (.requestVote args) (.requestVote reply)
  | .appendReply server args reply =>
    server = src.val ∧ cl.Answered src (.appendEntries args) (.appendEntries reply)
  | .snapshotReply server args reply =>
    server = src.val ∧ cl.Answered src (.installSnapshot args) (.installSnapshot reply)
  | .replaceLogWithSnapshot index snapshot =>
    index ∈ (cl dst).raft.delivered ∧ snapshot = some ((cl dst).raft.snapshotAt index)
  | _ => True

instance (cl : Cluster n C B) (src dst : Fin n) (request : Request C (List (LogEntry C))) :
    Decidable (cl.Sent src dst request) :=
  inferInstanceAs (Decidable (_ ∈ _))

instance (cl : Cluster n C B) (src : Fin n) (request : Request C (List (LogEntry C)))
    (reply : Reply) : Decidable (cl.Answered src request reply) :=
  inferInstanceAs (Decidable (_ ∈ _))

instance (cl : Cluster n C B) (src dst : Fin n) (input : Input C (List (LogEntry C))) :
    Decidable (cl.Allowed src dst input) :=
  match input with
  | .requestVote _ | .appendEntries _ | .installSnapshot _ =>
    inferInstanceAs (Decidable (cl.Sent _ _ _))
  | .voteReply .. | .appendReply .. | .snapshotReply .. =>
    inferInstanceAs (Decidable (_ ∧ cl.Answered _ _ _))
  | .replaceLogWithSnapshot _ _ => inferInstanceAs (Decidable (_ ∧ _))
  | .electionTimer | .heartbeatTimer | .start _ | .resume _ | .restart => .isTrue trivial

/-- The peer `i` becomes `p`. -/
def set (cl : Cluster n C B) (i : Fin n) (p : Peer C (List (LogEntry C)) B) : Cluster n C B :=
  Function.update cl i p

def step (gob : Labgob C B) (cl : Cluster n C B) (e : Event n C) : Option (Cluster n C B) :=
  if cl.Allowed e.src e.dst e.input then
    ((cl e.dst).step gob e.input).map (cl.set e.dst)
  else none

theorem step_cases {gob : Labgob C B} {cl cl' : Cluster n C B} {e : Event n C}
    (h : cl.step gob e = some cl') : cl.Allowed e.src e.dst e.input ∧
      ∃ p, (cl e.dst).step gob e.input = some p ∧ cl' = cl.set e.dst p := by
  unfold step at h
  split at h
  · obtain ⟨p, hp, he⟩ := Option.map_eq_some_iff.mp h
    exact ⟨by assumption, p, hp, he.symm⟩
  · exact absurd h (by simp)

section

variable {cl : Cluster n C B} {d : Fin n} {p : Peer C (List (LogEntry C)) B}

omit [DecidableEq C]

@[simp] theorem set_self : cl.set d p d = p := Function.update_self ..

theorem set_of_ne {i : Fin n} (h : i ≠ d) : cl.set d p i = cl i := Function.update_of_ne h ..

/-- A fact about every peer survives a step if it does so for the peer that moves. -/
theorem forall_set (P : Fin n → Peer C (List (LogEntry C)) B → Prop) (h : ∀ i, P i (cl i))
    (hp : P d p) (i : Fin n) : P i (cl.set d p i) :=
  (Function.forall_update_iff cl P).mpr ⟨hp, fun i _ => h i⟩ i

end

end Cluster

end DistributionSystem
