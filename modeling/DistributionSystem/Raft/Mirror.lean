import DistributionSystem.Raft.Opaque
import DistributionSystem.Raft.Safety

/-! Peers with snapshots of any kind, beside a cluster whose snapshots are lists of
entries. `Mirrors` says that the peers are those of the cluster behind a map on the
snapshots; a step of a peer is then one of the cluster (`Mirrors.step`), and what the
cluster's history of leaders says holds for the peers. -/

namespace DistributionSystem

open LeaderLog

variable {C D D' B : Type} {n : Nat}

/-! ## The conditions on a step -/

namespace Raft

variable (f : D → D') (rf : Raft C D B)

theorem timelyElection_mapData {input : Input C D}
    (h : (rf.mapData f).TimelyElection (input.mapData f)) : rf.TimelyElection input := by
  cases input with
  | electionTimer | voteReply => exact h
  | _ => trivial

theorem careful_mapData {input : Input C D} (h : (rf.mapData f).Careful (input.mapData f)) :
    rf.Careful input := by
  cases input with
  | appendReply | appendEntries => exact h
  | resume g =>
    cases g with
    | start => exact h
    | _ => trivial
  | _ => trivial

end Raft

def Peer.mapData (f : D → D') (p : Peer C D B) : Peer C D' B :=
  ⟨p.raft.mapData f, p.history.map (Output.mapData f)⟩

/-! ## Requests and replies behind the map -/

section

variable {f : D → D'} {history : List (Output C D)}

theorem call_of_mapData {server : Nat} {request : Request C D'}
    (h : .call server request ∈ history.map (Output.mapData f)) :
    ∃ r, .call server r ∈ history ∧ r.mapData f = request := by
  obtain ⟨o, ho, heq⟩ := List.mem_map.mp h
  cases o with
  | call server' r =>
    cases heq
    exact ⟨r, ho, rfl⟩
  | _ => exact absurd heq (by simp [Output.mapData])

theorem reply_of_mapData {request : Request C D'} {reply : Reply}
    (h : .reply request reply ∈ history.map (Output.mapData f)) :
    ∃ r, .reply r reply ∈ history ∧ r.mapData f = request := by
  obtain ⟨o, ho, heq⟩ := List.mem_map.mp h
  cases o with
  | reply r reply' =>
    cases heq
    exact ⟨r, ho, rfl⟩
  | _ => exact absurd heq (by simp [Output.mapData])

theorem requestVote_of_mapData {r : Request C D} {args : RequestVoteArgs}
    (h : r.mapData f = .requestVote args) : r = .requestVote args := by
  cases r with
  | requestVote => exact congrArg Request.requestVote (Request.requestVote.inj h)
  | _ => exact absurd h (by simp [Request.mapData])

theorem appendEntries_of_mapData {r : Request C D} {args : AppendEntriesArgs C}
    (h : r.mapData f = .appendEntries args) : r = .appendEntries args := by
  cases r with
  | appendEntries => exact congrArg Request.appendEntries (Request.appendEntries.inj h)
  | _ => exact absurd h (by simp [Request.mapData])

theorem installSnapshot_of_mapData {r : Request C D} {args : InstallSnapshotArgs D'}
    (h : r.mapData f = .installSnapshot args) :
    ∃ args', r = .installSnapshot args' ∧ args'.mapData f = args := by
  cases r with
  | installSnapshot args' => exact ⟨args', rfl, Request.installSnapshot.inj h⟩
  | _ => exact absurd h (by simp [Request.mapData])

end

/-! ## The traffic of snapshots -/

namespace Raft

variable [DecidableEq C] [DecidableEq D] {gob : Labgob C B} {rf rf' : Raft C D B}
  {input : Input C D} {out : List (Output C D)}

/-- A goroutine that waits for the answer to a snapshot has just sent it, or waited before. -/
theorem step_awaitSnapshot (h : Step gob rf input rf' out) {server : Nat}
    {args : InstallSnapshotArgs D} (hg : .awaitSnapshot server args ∈ rf'.goroutines) :
    .awaitSnapshot server args ∈ rf.goroutines ∨ .call server (.installSnapshot args) ∈ out := by
  have hspawn : ∀ {gs new : List (Goroutine C D)}, (∀ g ∈ gs, g ∈ rf.goroutines) →
      .awaitSnapshot server args ∈ gs ++ new → .awaitSnapshot server args ∉ new →
      .awaitSnapshot server args ∈ rf.goroutines := fun hgs hm hnew =>
    (List.mem_append.mp hm).elim (hgs _) fun hm => absurd hm hnew
  have herase : ∀ {g₀ : Goroutine C D}, ∀ g ∈ rf.goroutines.erase g₀, g ∈ rf.goroutines :=
    fun g => List.mem_of_mem_erase
  cases h with
  | electionTimer =>
    rw [candidateState_frame] at hg
    exact Or.inl (hspawn (fun _ hm => hm) hg (by simp))
  | heartbeatTimer hgs =>
    refine Or.inl (hspawn (fun _ hm => hm) hg fun hm => ?_)
    obtain ⟨k, -, heq⟩ := hgs _ hm
    cases heq
  | refuseLog | grant =>
    rw [adoptTerm_frame] at hg
    exact Or.inl hg
  | @append args' r reply hterm happ =>
    obtain ⟨gs, hgs, hnew⟩ := happ.goroutines
    have hg' : .awaitSnapshot server args ∈ r.goroutines := hg
    rw [hgs, adoptTerm_goroutines] at hg'
    refine Or.inl (hspawn (fun _ hm => hm) hg' fun hm => ?_)
    obtain ⟨_, _, heq⟩ := hnew _ hm
    cases heq
  | snapshot _ _ hgs =>
    rw [adoptTerm_frame] at hg
    refine Or.inl (hspawn (fun _ hm => hm) hg fun hm => ?_)
    rcases hgs with ⟨rfl, -⟩ | rfl
    · exact absurd hm List.not_mem_nil
    · cases List.mem_singleton.mp hm
  | voteStepDown | appendStepDown | snapshotStepDown =>
    rw [stepDown_frame] at hg
    exact Or.inl (herase _ hg)
  | voteCounted | voteIgnored | appendIgnored | appendSuccess | appendConflict
  | snapshotRecorded | idle | install => exact Or.inl (herase _ hg)
  | elected | startAppend => exact Or.inl (hspawn herase hg (by simp))
  | appendCommit _ _ _ _ hc =>
    obtain ⟨gs, hgs, hnew⟩ := setCommitIndex_goroutines hc
    rw [hgs] at hg
    refine Or.inl (hspawn herase hg fun hm => ?_)
    obtain ⟨_, _, heq⟩ := hnew _ hm
    cases heq
  | startLeader | replaced => exact Or.inl (hspawn (fun _ hm => hm) hg (by simp))
  | heartbeatSync | heartbeat | apply | applied => exact Or.inl (hspawn herase hg (by simp))
  | sync =>
    rcases List.mem_append.mp hg with hg | hg
    · exact Or.inl (herase _ hg)
    · cases List.mem_singleton.mp hg
      exact Or.inr List.mem_cons_self
  | restart =>
    rw [make_frame] at hg
    exact absurd hg List.not_mem_nil
  | _ => exact Or.inl hg

/-- The answer to a snapshot is given to its request. -/
theorem step_replies (h : Step gob rf input rf' out) {args : InstallSnapshotArgs D} {reply : Reply}
    (ho : .reply (.installSnapshot args) reply ∈ out) : input = .installSnapshot args := by
  cases h with
  | snapshotOld => cases List.mem_singleton.mp ho; rfl
  | snapshot =>
    rcases List.mem_cons.mp ho with ho | ho
    · cases ho
    · cases List.mem_singleton.mp ho; rfl
  | electionTimer => simp at ho
  | refuseTerm | refuseLog | grant | appendOld | append | elected | heartbeat | sync | apply
  | install | replaced => cases List.mem_singleton.mp ho
  | _ => exact absurd ho List.not_mem_nil

end Raft

namespace Cluster

variable [DecidableEq C]

/-- The snapshots that peers wait for and have answered were sent. -/
structure Traffic (cl : Cluster n C B) : Prop where
  awaited : ∀ i server args, .awaitSnapshot server args ∈ (cl i).raft.goroutines →
    .call server (.installSnapshot args) ∈ (cl i).history
  answered : ∀ j args reply, .reply (.installSnapshot args) reply ∈ (cl j).history →
    ∃ i, .call j (.installSnapshot args) ∈ (cl i).history

omit [DecidableEq C] in
theorem traffic_init (gob : Labgob C B) (n : Nat) : (init gob n : Cluster n C B).Traffic := by
  refine ⟨fun i server args hm => ?_, fun j args reply hm => absurd hm List.not_mem_nil⟩
  have hgs : ((init gob n : Cluster n C B) i).raft.goroutines = [] := by
    unfold init Peer.init
    rw [Raft.make_frame]
    rfl
  rw [hgs] at hm
  exact absurd hm List.not_mem_nil

theorem Traffic.step {gob : Labgob C B} {cl cl' : Cluster n C B} {e : Event n C}
    (h : cl.Traffic) (hs : cl.step gob e = some cl') : cl'.Traffic := by
  obtain ⟨ha, p, hp, rfl⟩ := step_cases hs
  obtain ⟨⟨rf', out⟩, hr, rfl⟩ := Option.map_eq_some_iff.mp hp
  have hst := Raft.step_cases hr
  -- what was sent before the step is still there
  have hold : ∀ i o, o ∈ (cl i).history → o ∈ (cl.set e.dst ⟨rf', (cl e.dst).history ++ out⟩ i).history := by
    intro i o ho
    by_cases hi : i = e.dst
    · subst hi
      rw [set_self]
      exact List.mem_append_left _ ho
    · rwa [set_of_ne hi]
  refine ⟨fun i server args hm => ?_, fun j args reply hm => ?_⟩
  · by_cases hi : i = e.dst
    · subst hi
      rw [set_self] at hm ⊢
      rcases Raft.step_awaitSnapshot hst hm with hm | hm
      · exact List.mem_append_left _ (h.awaited _ _ _ hm)
      · exact List.mem_append_right _ hm
    · rw [set_of_ne hi] at hm ⊢
      exact h.awaited _ _ _ hm
  · by_cases hj : j = e.dst
    · subst hj
      rw [set_self] at hm
      rcases List.mem_append.mp hm with hm | hm
      · obtain ⟨i, hi⟩ := h.answered _ _ _ hm
        exact ⟨i, hold i _ hi⟩
      · rw [Raft.step_replies hst hm] at ha
        exact ⟨e.src, hold _ _ ha⟩
    · rw [set_of_ne hj] at hm
      obtain ⟨i, hi⟩ := h.answered _ _ _ hm
      exact ⟨i, hold i _ hi⟩

end Cluster

/-! ## The mirror -/

variable [DecidableEq C] [DecidableEq D']

structure Mirrors (gob : Labgob C B) (f : List (LogEntry C) → D') (peers : Fin n → Peer C D' B)
    (cl : Cluster n C B) (A : Ledger n C) : Prop where
  peers : ∀ i, peers i = (cl i).mapData f
  election : cl.ElectionInv gob
  refines : Refines cl A
  traffic : cl.Traffic

/-- Only messages that were sent arrive, and the service compacts at an index that it has
received, with the snapshot that the entries up to there stand for. -/
def Mirrored (f : List (LogEntry C) → D') (peers : Fin n → Peer C D' B) (cl : Cluster n C B)
    (src dst : Fin n) : Input C D' → Prop
  | .requestVote args => .call dst (.requestVote args) ∈ (peers src).history
  | .appendEntries args => .call dst (.appendEntries args) ∈ (peers src).history
  | .installSnapshot args => .call dst (.installSnapshot args) ∈ (peers src).history
  | .voteReply server _ args reply => server = src.val ∧
    .reply (.requestVote args) (.requestVote reply) ∈ (peers src).history
  | .appendReply server args reply => server = src.val ∧
    .reply (.appendEntries args) (.appendEntries reply) ∈ (peers src).history
  | .snapshotReply server args reply => server = src.val ∧
    .reply (.installSnapshot args) (.installSnapshot reply) ∈ (peers src).history
  | .replaceLogWithSnapshot index snapshot => index ∈ (cl dst).raft.delivered ∧
    snapshot = some (f ((cl dst).raft.snapshotAt index))
  | _ => True

namespace Mirrors

variable {gob : Labgob C B} {f : List (LogEntry C) → D'} {peers : Fin n → Peer C D' B}
  {cl : Cluster n C B} {A : Ledger n C}

omit [DecidableEq D'] in
theorem init (gob : Labgob C B) (f : List (LogEntry C) → D') (n : Nat) :
    Mirrors gob f (fun i : Fin n => Peer.init gob n i) (Cluster.init gob n)
      (LeaderLog.init (Fin n) (LogEntry C)) := by
  refine ⟨fun i => ?_, Cluster.electionInv_init gob n, refines_init gob n,
    Cluster.traffic_init gob n⟩
  unfold Cluster.init Peer.init Peer.mapData
  rw [← Raft.make_mapData]
  rfl

omit [DecidableEq D'] in
/-- Snapshots that were sent with one index hold the same entries. -/
theorem covered_unique (h : Mirrors gob f peers cl A) {i j : Fin n} {server server' : Nat}
    {args args' : InstallSnapshotArgs (List (LogEntry C))}
    (hm : .call server (.installSnapshot args) ∈ (cl i).history)
    (hm' : .call server' (.installSnapshot args') ∈ (cl j).history)
    (hindex : args.lastIncludedIndex = args'.lastIncludedIndex) :
    covered args.data = covered args'.data := by
  obtain ⟨-, hok⟩ := h.refines.sent i _ hm
  obtain ⟨-, hok'⟩ := h.refines.sent j _ hm'
  have hlen : (covered args.data).length = (covered args'.data).length := by
    have h1 := hok.index
    have h2 := hok'.index
    omega
  rcases com_comparable h.refines.sound hok.commit hok'.commit with hp | hp
  · exact hp.eq_of_length hlen
  · exact (hp.eq_of_length hlen.symm).symm

omit [DecidableEq D'] in
/-- The request that a goroutine waits for and the one that was answered are the same if
they are so behind the map. -/
theorem snapshotArgs_unique (h : Mirrors gob f peers cl A) {i j : Fin n} {server server' : Nat}
    {args args' : InstallSnapshotArgs (List (LogEntry C))}
    (hm : .call server (.installSnapshot args) ∈ (cl i).history)
    (hm' : .call server' (.installSnapshot args') ∈ (cl j).history)
    (heq : args.mapData f = args'.mapData f) : args = args' := by
  obtain ⟨term, leaderId, index, lastTerm, data⟩ := args
  obtain ⟨term', leaderId', index', lastTerm', data'⟩ := args'
  simp only [InstallSnapshotArgs.mapData, InstallSnapshotArgs.mk.injEq] at heq
  obtain ⟨rfl, rfl, rfl, rfl, hdata⟩ := heq
  have hcov : covered data = covered data' := h.covered_unique hm hm' rfl
  cases data with
  | none =>
    cases data' with
    | none => rfl
    | some l => exact absurd hdata (by simp)
  | some l =>
    cases data' with
    | none => exact absurd hdata (by simp)
    | some l' =>
      obtain rfl : l = l' := hcov
      rfl

/-- The input of a peer is one of the cluster. -/
theorem lift (h : Mirrors gob f peers cl A) {src dst : Fin n} {input : Input C D'}
    {r : Raft C D' B × List (Output C D')} (hs : (peers dst).raft.step gob input = some r)
    (ha : Mirrored f peers cl src dst input) :
    ∃ input', input'.mapData f = input ∧ cl.Allowed src dst input' ∧
      ∀ g, Raft.woken input' = some g → (cl dst).raft.Waits f g := by
  have hhist : ∀ i, (peers i).history = (cl i).history.map (Output.mapData f) := fun i => by
    rw [h.peers]
    rfl
  -- a goroutine that goes on waits in the cluster too
  have hwaits : ∀ g, Raft.woken input = some g →
      ∃ g', g'.mapData f = g ∧ (cl dst).raft.Waits f g' := by
    intro g hg
    have hm := Raft.mem_of_woken hs hg
    rw [h.peers] at hm
    exact Raft.exists_waits hm
  cases input with
  | electionTimer => exact ⟨.electionTimer, rfl, trivial, fun _ hg => by cases hg⟩
  | heartbeatTimer => exact ⟨.heartbeatTimer, rfl, trivial, fun _ hg => by cases hg⟩
  | start command => exact ⟨.start command, rfl, trivial, fun _ hg => by cases hg⟩
  | restart => exact ⟨.restart, rfl, trivial, fun _ hg => by cases hg⟩
  | replaceLogWithSnapshot index snapshot =>
    obtain ⟨hdel, rfl⟩ := ha
    exact ⟨.replaceLogWithSnapshot index (some ((cl dst).raft.snapshotAt index)), rfl,
      ⟨hdel, rfl⟩, fun _ hg => by cases hg⟩
  | requestVote args =>
    simp only [Mirrored, hhist] at ha
    obtain ⟨q, hm, hq⟩ := call_of_mapData ha
    rw [requestVote_of_mapData hq] at hm
    exact ⟨.requestVote args, rfl, hm, fun _ hg => by cases hg⟩
  | appendEntries args =>
    simp only [Mirrored, hhist] at ha
    obtain ⟨q, hm, hq⟩ := call_of_mapData ha
    rw [appendEntries_of_mapData hq] at hm
    exact ⟨.appendEntries args, rfl, hm, fun _ hg => by cases hg⟩
  | installSnapshot args =>
    simp only [Mirrored, hhist] at ha
    obtain ⟨q, hm, hq⟩ := call_of_mapData ha
    obtain ⟨args', rfl, rfl⟩ := installSnapshot_of_mapData hq
    exact ⟨.installSnapshot args', rfl, hm, fun _ hg => by cases hg⟩
  | voteReply server election args reply =>
    simp only [Mirrored, hhist] at ha
    obtain ⟨q, hm, hq⟩ := reply_of_mapData ha.2
    rw [requestVote_of_mapData hq] at hm
    obtain ⟨g, hg, hw⟩ := hwaits _ rfl
    refine ⟨.voteReply server election args reply, rfl, ⟨ha.1, hm⟩, ?_⟩
    rintro _ ⟨⟩
    cases g with
    | awaitVote => cases hg; exact hw
    | _ => exact absurd hg (by simp [Goroutine.mapData])
  | appendReply server args reply =>
    simp only [Mirrored, hhist] at ha
    obtain ⟨q, hm, hq⟩ := reply_of_mapData ha.2
    rw [appendEntries_of_mapData hq] at hm
    obtain ⟨g, hg, hw⟩ := hwaits _ rfl
    refine ⟨.appendReply server args reply, rfl, ⟨ha.1, hm⟩, ?_⟩
    rintro _ ⟨⟩
    cases g with
    | awaitAppend => cases hg; exact hw
    | _ => exact absurd hg (by simp [Goroutine.mapData])
  | snapshotReply server args reply =>
    simp only [Mirrored, hhist] at ha
    obtain ⟨q, hm, hq⟩ := reply_of_mapData ha.2
    obtain ⟨args', rfl, hargs'⟩ := installSnapshot_of_mapData hq
    obtain ⟨g, hg, hw⟩ := hwaits _ rfl
    cases g with
    | awaitSnapshot server' args'' =>
      simp only [Goroutine.mapData, Goroutine.awaitSnapshot.injEq] at hg
      obtain ⟨rfl, hargs''⟩ := hg
      obtain ⟨k, hk⟩ := h.traffic.answered _ _ _ hm
      obtain rfl := h.snapshotArgs_unique (h.traffic.awaited _ _ _ hw.1) hk
        (hargs''.trans hargs'.symm)
      refine ⟨.snapshotReply server' args'' reply, ?_, ⟨ha.1, hm⟩, ?_⟩
      · rw [← hargs'']
        rfl
      · rintro _ ⟨⟩
        exact hw
    | _ => exact absurd hg (by simp [Goroutine.mapData])
  | resume g =>
    obtain ⟨g', rfl, hw⟩ := hwaits _ rfl
    refine ⟨.resume g', rfl, trivial, ?_⟩
    rintro _ ⟨⟩
    exact hw

/-- A step of a peer is one of the cluster. -/
theorem step (hg : gob.RoundTrip) (h : Mirrors gob f peers cl A) {src dst : Fin n}
    {input : Input C D'} {rf : Raft C D' B} {out : List (Output C D')}
    (hs : (peers dst).raft.step gob input = some (rf, out))
    (ha : Mirrored f peers cl src dst input) (ht : (peers dst).raft.TimelyElection input)
    (hc : (peers dst).raft.Careful input) :
    ∃ rf' out' A', rf = rf'.mapData f ∧ out = out'.map (Output.mapData f) ∧ Extends A A' ∧
      Mirrors gob f (Function.update peers dst ⟨rf, (peers dst).history ++ out⟩)
        (cl.set dst ⟨rf', (cl dst).history ++ out'⟩) A' := by
  obtain ⟨input', rfl, hallow, hw⟩ := h.lift hs ha
  have hpeer : (peers dst).raft = (cl dst).raft.mapData f := by rw [h.peers]; rfl
  rw [hpeer] at hs ht hc
  rw [Raft.step_mapData input' hw] at hs
  obtain ⟨⟨rf', out'⟩, hs', heq⟩ := Option.map_eq_some_iff.mp hs
  obtain ⟨rfl, rfl⟩ := Prod.mk.inj heq
  have hsafe : cl.Safe ⟨src, dst, input'⟩ :=
    ⟨Raft.timelyElection_mapData f _ ht, Raft.careful_mapData f _ hc⟩
  have hstep : cl.step gob ⟨src, dst, input'⟩ =
      some (cl.set dst ⟨rf', (cl dst).history ++ out'⟩) := by
    unfold Cluster.step Peer.step
    rw [if_pos hallow, hs']
    rfl
  obtain ⟨hi, A', hx, hA'⟩ := electionInv_refines_step hg h.election h.refines hsafe hstep
  refine ⟨rf', out', A', rfl, rfl, hx, ?_, hi, hA', h.traffic.step hstep⟩
  intro i
  by_cases hid : i = dst
  · subst hid
    rw [Function.update_self, Cluster.set_self, Peer.mapData, List.map_append, h.peers]
    rfl
  · rw [Function.update_of_ne hid, Cluster.set_of_ne hid]
    exact h.peers i

end Mirrors

end DistributionSystem
