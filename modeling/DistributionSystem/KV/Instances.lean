import DistributionSystem.KV.ConfigSteps

/-! An instance of a server and the replica of `Service` that it stands for: they have the same
state, while the replica remembers more, namely what the instances before have shown. Whatever
the instance does the replica can do as well. -/

namespace DistributionSystem

variable {n : Nat} {W B : Type}

/-! ## Replicas -/

/-- The same replica, with a longer memory of what was shown. -/
structure Replica.Same (s s' : Replica W B) : Prop where
  raft : s'.peer.raft = s.peer.raft
  kv : s'.kv = s.kv
  fed : s'.fed = s.fed
  history : s.peer.history ⊆ s'.peer.history

namespace Replica.Same

variable {rgob : Labgob Op W} {gob : KVGob B} {s s' t : Replica W B}

theorem steady [DecidableEq B] (h : s.Same s') {input : Input Op (List B)}
    (hs : s.peer.raft.TimelyElection input ∧ s.peer.raft.Careful input ∧ s.InOrder (.raft input)) :
    s'.peer.raft.TimelyElection input ∧ s'.peer.raft.Careful input ∧ s'.InOrder (.raft input) := by
  obtain ⟨ht, hc, ho⟩ := hs
  rw [h.raft]
  refine ⟨ht, hc, ?_⟩
  unfold Replica.InOrder at ho ⊢
  rw [h.fed]
  exact ho

variable [DecidableEq B]

theorem raftStep (h : s.Same s') {input : Input Op (List B)}
    (hs : s.raftStep rgob gob input = some t) :
    ∃ t', s'.raftStep rgob gob input = some t' ∧ t.Same t' ∧
      s'.peer.history ⊆ t'.peer.history ∧ t'.peer.raft.me = s'.peer.raft.me ∧
      t'.peer.raft.peers = s'.peer.raft.peers := by
  obtain ⟨rf, out, kv, hstep, hkv, rfl⟩ := Replica.raftStep_cases hs
  refine ⟨{ s' with peer := ⟨rf, s'.peer.history ++ out⟩, kv := kv }, ?_, ⟨rfl, rfl, h.fed, ?_⟩,
    fun _ ho => List.mem_append_left _ ho, ?_⟩
  · unfold Replica.raftStep
    rw [h.raft, hstep, h.kv, Option.bind_some, hkv]
    rfl
  · intro o ho
    rcases List.mem_append.mp ho with ho | ho
    · exact List.mem_append_left _ (h.history ho)
    · exact List.mem_append_right _ ho
  · rw [h.raft]
    exact Raft.step_config (Raft.step_cases hstep)

end Replica.Same

/-! ## Instances -/

/-- The instance stands for replica `i`. -/
structure Instance.Mirrors (inst : Instance n W B) (s : Service n W B) (i : Fin n) : Prop where
  same : inst.replica.Same (s.replicas i)
  starting : s.starting i = inst.starting
  replied : inst.replied ⊆ s.replies

/-- A step of replica `i`. -/
structure Service.Moves (i : Fin n) (s s' : Service n W B) : Prop where
  replicas : ∀ j, j ≠ i → s'.replicas j = s.replicas j
  starting : ∀ j, j ≠ i → s'.starting j = s.starting j
  history : (s.replicas i).peer.history ⊆ (s'.replicas i).peer.history
  config : (s'.replicas i).peer.raft.me = (s.replicas i).peer.raft.me ∧
    (s'.replicas i).peer.raft.peers = (s.replicas i).peer.raft.peers
  replies : s.replies ⊆ s'.replies
  clerks : s'.clerks = s.clerks
  handles : s'.handles = s.handles
  rpcs : s'.rpcs = s.rpcs
  requests : s'.requests = s.requests
  calls : s'.calls = s.calls

theorem Service.Moves.refl (i : Fin n) (s : Service n W B) : Moves i s s where
  replicas _ _ := rfl
  starting _ _ := rfl
  history := fun _ ho => ho
  config := ⟨rfl, rfl⟩
  replies := fun _ ho => ho
  clerks := rfl
  handles := rfl
  rpcs := rfl
  requests := rfl
  calls := rfl

theorem Service.Moves.trans {i : Fin n} {s₁ s₂ s₃ : Service n W B} (h : Moves i s₁ s₂)
    (h' : Moves i s₂ s₃) : Moves i s₁ s₃ where
  replicas j hj := (h'.replicas j hj).trans (h.replicas j hj)
  starting j hj := (h'.starting j hj).trans (h.starting j hj)
  history := fun _ ho => h'.history (h.history ho)
  config := ⟨h'.config.1.trans h.config.1, h'.config.2.trans h.config.2⟩
  replies := fun _ ho => h'.replies (h.replies ho)
  clerks := h'.clerks.trans h.clerks
  handles := h'.handles.trans h.handles
  rpcs := h'.rpcs.trans h.rpcs
  requests := h'.requests.trans h.requests
  calls := h'.calls.trans h.calls

theorem Service.setReplica_self (s : Service n W B) (i : Fin n) (rep : Replica W B) :
    (s.setReplica i rep).replicas i = rep :=
  Function.update_self ..

theorem Service.moves_setReplica {s : Service n W B} {i : Fin n} {rep : Replica W B}
    (hh : (s.replicas i).peer.history ⊆ rep.peer.history)
    (hc : rep.peer.raft.me = (s.replicas i).peer.raft.me ∧
      rep.peer.raft.peers = (s.replicas i).peer.raft.peers) : Moves i s (s.setReplica i rep) where
  replicas _ hj := Function.update_of_ne hj ..
  starting _ _ := rfl
  history := by
    rw [setReplica_self]
    exact hh
  config := by
    rw [setReplica_self]
    exact hc
  replies := fun _ ho => ho
  clerks := rfl
  handles := rfl
  rpcs := rfl
  requests := rfl
  calls := rfl

theorem Service.Moves.emit {s s' : Service n W B} {i : Fin n} (h : Moves i s s')
    (out : List KVOutput) : Moves i s (s'.emit out) :=
  { h with replies := fun _ ho => List.mem_append_left _ (h.replies ho) }

theorem Service.Moves.setStarting {s s' : Service n W B} {i : Fin n} (h : Moves i s s')
    (l : List (Nat × Int)) : Moves i s (s'.setStarting i l) :=
  { h with starting := fun j hj => (Function.update_of_ne hj ..).trans (h.starting j hj) }

namespace Instance.Mirrors

variable {rgob : Labgob Op W} {gob : KVGob B} {inst inst' : Instance n W B} {s : Service n W B}
  {i : Fin n}

theorem kvStep (h : inst.Mirrors s i) {input : KVInput B}
    (hs : inst.kvStep gob input = some inst') :
    ∃ s', s.kvStep gob i input = some s' ∧ inst'.Mirrors s' i ∧ Service.Moves i s s' := by
  obtain ⟨r, hr, rfl⟩ := Option.map_eq_some_iff.mp hs
  have hfed : (s.replicas i).fedAfter input = inst.replica.fedAfter input := by
    unfold Replica.fedAfter
    rw [h.same.kv, h.same.fed]
  have hstep : s.kvStep gob i input = some ((s.setReplica i
      { s.replicas i with kv := r.1, fed := inst.replica.fedAfter input }).emit r.2) := by
    unfold Service.kvStep
    rw [h.same.kv, hr, hfed]
    rfl
  have hmv : Service.Moves i s (s.setReplica i
      { s.replicas i with kv := r.1, fed := inst.replica.fedAfter input }) :=
    Service.moves_setReplica (fun _ ho => ho) ⟨rfl, rfl⟩
  refine ⟨_, hstep, ⟨?_, h.starting, ?_⟩, hmv.emit _⟩
  · show Replica.Same _ ((s.setReplica i _).replicas i)
    rw [Service.setReplica_self]
    exact ⟨h.same.raft, rfl, rfl, h.same.history⟩
  · intro p hp
    rcases List.mem_append.mp hp with hp | hp
    · exact List.mem_append_left _ (h.replied hp)
    · exact List.mem_append_right _ hp

theorem setReplica (h : inst.Mirrors s i) {rep rep' : Replica W B} (hs : rep.Same rep') :
    (inst.setReplica rep).Mirrors (s.setReplica i rep') i := by
  refine ⟨?_, h.starting, h.replied⟩
  rw [Service.setReplica_self]
  exact hs

theorem setStarting (h : inst.Mirrors s i) (l : List (Nat × Int)) :
    ({ inst with starting := l } : Instance n W B).Mirrors (s.setStarting i l) i :=
  ⟨h.same, Function.update_self .., h.replied⟩

variable [DecidableEq B]

theorem raftStep (h : inst.Mirrors s i) {input : Input Op (List B)}
    (hs : inst.raftStep rgob gob input = some inst') :
    ∃ s', s.raftStep rgob gob i input = some s' ∧ inst'.Mirrors s' i ∧ Service.Moves i s s' := by
  obtain ⟨rep, hrep, rfl⟩ := Option.map_eq_some_iff.mp hs
  obtain ⟨rep', hrep', hsame, hhist, hconf⟩ := h.same.raftStep hrep
  refine ⟨s.setReplica i rep', ?_, h.setReplica hsame, Service.moves_setReplica hhist hconf⟩
  unfold Service.raftStep
  rw [hrep']
  rfl

theorem startOp (h : inst.Mirrors s i) {rpc : Nat} {op : Op}
    (hs : inst.startOp rgob gob rpc op = some inst') :
    ∃ s', s.startOp rgob gob i rpc op = some s' ∧ inst'.Mirrors s' i ∧ Service.Moves i s s' := by
  simp only [Instance.startOp] at hs
  split at hs
  · rename_i hguard
    have hguard' : .start rpc op ∈ (s.replicas i).kv.handlers ∧
        rpc ∉ (s.starting i).map Prod.fst := by
      rw [h.same.kv, h.starting]
      exact hguard
    unfold Service.startOp
    rw [if_pos hguard', h.same.raft, h.starting]
    split at hs
    · rename_i hlead
      obtain ⟨inst₁, h₁, rfl⟩ := Option.map_eq_some_iff.mp hs
      obtain ⟨s₁, hs₁, hm, hmv⟩ := h.raftStep h₁
      rw [if_pos hlead, hs₁]
      exact ⟨_, rfl, hm.setStarting _, hmv.setStarting _⟩
    · rename_i hlead
      rw [if_neg hlead]
      exact h.kvStep hs
  · exact absurd hs (by simp)

theorem appendOp (h : inst.Mirrors s i) {rpc : Nat} {op : Op} {term : Int}
    (hs : inst.appendOp rgob gob rpc op term = some inst') :
    ∃ s', s.appendOp rgob gob i rpc op term = some s' ∧ inst'.Mirrors s' i ∧
      Service.Moves i s s' := by
  simp only [Instance.appendOp] at hs
  split at hs
  · rename_i hguard
    have hguard' : (rpc, term) ∈ s.starting i := by
      rw [h.starting]
      exact List.contains_iff_mem.mp hguard
    obtain ⟨inst₂, h₂, rfl⟩ := Option.map_eq_some_iff.mp hs
    obtain ⟨inst₁, h₁, h₂⟩ := Option.bind_eq_some_iff.mp h₂
    obtain ⟨s₁, hs₁, hm₁, hmv₁⟩ := h.raftStep h₁
    obtain ⟨s₂, hs₂, hm₂, hmv₂⟩ := hm₁.kvStep h₂
    unfold Service.appendOp
    rw [if_pos hguard', hs₁, Option.bind_some, h.same.raft, hs₂, h.starting]
    exact ⟨_, rfl, hm₂.setStarting _, (hmv₁.trans hmv₂).setStarting _⟩
  · exact absurd hs (by simp)

theorem replaceLog (h : inst.Mirrors s i) {index : Int} {data : List B} {rep : Replica W B}
    (hs : inst.replica.step rgob gob (.replaceLog index data) = some rep) :
    ∃ rep', (s.replicas i).step rgob gob (.replaceLog index data) = some rep' ∧
      (inst.setReplica rep).Mirrors (s.setReplica i rep') i ∧
      Service.Moves i s (s.setReplica i rep') := by
  simp only [Replica.step] at hs ⊢
  split at hs
  · rename_i hmem
    have hdrop : Replica.Same
        { inst.replica with kv := { inst.replica.kv with
          snapshots := inst.replica.kv.snapshots.erase (index, data) } }
        { s.replicas i with kv := { inst.replica.kv with
          snapshots := inst.replica.kv.snapshots.erase (index, data) } } :=
      ⟨h.same.raft, rfl, h.same.fed, h.same.history⟩
    obtain ⟨rep', hrep', hsame, hhist, hconf⟩ := hdrop.raftStep hs
    rw [h.same.kv, if_pos hmem, hrep']
    exact ⟨rep', rfl, h.setReplica hsame, Service.moves_setReplica hhist hconf⟩
  · exact absurd hs (by simp)

end Instance.Mirrors

/-! ## Events -/

/-- What the replica does when its instance does `e`. -/
def InstanceEvent.atReplica (i : Fin n) : InstanceEvent B → ServiceEvent n B
  | .raft input => .raft i i input
  | .start rpc op => .start i rpc op
  | .append rpc op term => .append i rpc op term
  | .kv input => .kv i input
  | .replaceLog index data => .replaceLog i index data

theorem Instance.own_arrives {input : Input Op (List B)} (h : Own input)
    (reps : Replicas n W B) (i : Fin n) : Service.Apart input ∧ reps.Arrives i i input := by
  cases input with
  | electionTimer | heartbeatTimer => exact ⟨trivial, trivial⟩
  | resume g =>
    cases g with
    | start => exact absurd h id
    | _ => exact ⟨trivial, trivial⟩
  | _ => exact absurd h id

theorem Instance.Mirrors.step [DecidableEq B] {rgob : Labgob Op W} {gob : KVGob B}
    {inst inst' : Instance n W B} {s : Service n W B} {i : Fin n} (h : inst.Mirrors s i)
    {e : InstanceEvent B} (hs : inst.step rgob gob e = some inst') :
    ∃ s', s.step rgob gob (e.atReplica i) = some s' ∧ inst'.Mirrors s' i ∧
      Service.Moves i s s' := by
  cases e with
  | raft input =>
    simp only [Instance.step] at hs
    split at hs
    · rename_i hown
      simp only [InstanceEvent.atReplica, Service.step]
      rw [if_pos (Instance.own_arrives hown s.replicas i)]
      exact h.raftStep hs
    · exact absurd hs (by simp)
  | start rpc op => exact h.startOp hs
  | append rpc op term => exact h.appendOp hs
  | kv input =>
    simp only [Instance.step] at hs
    split at hs
    · rename_i hin
      simp only [InstanceEvent.atReplica, Service.step]
      rw [if_pos hin]
      exact h.kvStep hs
    · exact absurd hs (by simp)
  | replaceLog index data =>
    obtain ⟨rep, hrep, rfl⟩ := Option.map_eq_some_iff.mp hs
    obtain ⟨rep', hrep', hm, hmv⟩ := h.replaceLog hrep
    simp only [InstanceEvent.atReplica, Service.step]
    rw [hrep']
    exact ⟨_, rfl, hm, hmv⟩

end DistributionSystem
