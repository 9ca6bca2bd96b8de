import DistributionSystem.Raft.Durable

/-! The order of delivery on `applyCh`. A call of `setCommitIndex` with a value above
`lastApplied` starts a goroutine that sends from `lastApplied + 1` on, and `lastApplied`
moves only behind the sends. `commitCall` names these calls, `DeliveryStep` is what a step
does to the goroutines that send, and `delivered_in_order` is the order in which the
service receives the log when no call overtakes a goroutine that is still sending. -/

namespace DistributionSystem

variable {C D B : Type}

namespace Raft

/-! ## The goroutines that send -/

/-- The goroutines that have something to send or to record. -/
def pendingOf (gs : List (Goroutine C D)) : List (Goroutine C D) :=
  gs.filter fun g => decide g.Pending

theorem mem_pendingOf {gs : List (Goroutine C D)} {g : Goroutine C D} (hg : g ∈ gs)
    (hp : g.Pending) : g ∈ pendingOf gs :=
  List.mem_filter.mpr ⟨hg, decide_eq_true hp⟩

theorem pendingOf_append (a b : List (Goroutine C D)) :
    pendingOf (a ++ b) = pendingOf a ++ pendingOf b :=
  List.filter_append ..

theorem pendingOf_eq_nil {gs : List (Goroutine C D)} (h : ∀ g ∈ gs, ¬ g.Pending) :
    pendingOf gs = [] :=
  List.filter_eq_nil_iff.mpr fun g hg => by simpa using h g hg

/-- The indices of the messages among some outputs. -/
def receivedIndices (out : List (Output C D)) : List Int :=
  out.filterMap fun
    | .apply msg => some msg.commandIndex
    | _ => none

/-- The input is of one incarnation of the peer, and no snapshot to install. -/
def Ongoing : Input C D → Prop
  | .installSnapshot _ | .restart => False
  | _ => True

instance (input : Input C D) : Decidable (Ongoing input) :=
  match input with
  | .installSnapshot _ | .restart => .isFalse id
  | .electionTimer | .heartbeatTimer | .requestVote _ | .appendEntries _ | .voteReply ..
  | .appendReply .. | .snapshotReply .. | .start _ | .resume _ | .replaceLogWithSnapshot .. =>
    .isTrue trivial

/-! ## The calls of `setCommitIndex` -/

/-- The call in `AppendEntries`: the state it is made in and the value it passes. -/
def appendCommit (rf : Raft C D B) (args : AppendEntriesArgs C) : Option (Raft C D B × Int) :=
  if args.prevLogIndex ≤ rf.snapshottedIndex then none
  else if rf.lastLogIndex < args.prevLogIndex then none
  else match CheckedSlice.get rf.logs (rf.getRelativeLogIndex args.prevLogIndex) with
    | none => none
    | some prev =>
      if prev.term ≠ args.prevLogTerm then none
      else match mergeEntries rf.logs (rf.getRelativeLogIndex (args.prevLogIndex + 1))
          args.logEntries with
        | none => none
        | some logs =>
          let rf := { rf with logs := logs }
          if args.leaderCommit > rf.commitIndex then
            some (rf, if args.leaderCommit ≤ rf.lastLogIndex then args.leaderCommit
              else rf.lastLogIndex)
          else none

variable [DecidableEq C] [DecidableEq D]

/-- The call of `setCommitIndex` that a step makes, if it makes one. -/
def commitCall (rf : Raft C D B) : Input C D → Option (Raft C D B × Int)
  | .appendEntries args =>
    if args.term < rf.currentTerm then none else (rf.adoptTerm args.term).appendCommit args
  | .appendReply server args reply =>
    if rf.goroutines.contains (.awaitAppend server args) ∧ rf.state = .leader ∧
        reply.success = true then
      let rf := (rf.leave (.awaitAppend server args)).recordSuccess server args
      rf.majorityIndex.map (rf, ·)
    else none
  | _ => none

omit [DecidableEq C] [DecidableEq D] in
theorem appendCommit_iff {rf r : Raft C D B} {args : AppendEntriesArgs C} {c : Int} :
    rf.appendCommit args = some (r, c) ↔ ∃ prev logs,
      rf.snapshottedIndex < args.prevLogIndex ∧ args.prevLogIndex ≤ rf.lastLogIndex ∧
      CheckedSlice.get rf.logs (rf.getRelativeLogIndex args.prevLogIndex) = some prev ∧
      prev.term = args.prevLogTerm ∧
      mergeEntries rf.logs (rf.getRelativeLogIndex (args.prevLogIndex + 1)) args.logEntries =
        some logs ∧
      rf.commitIndex < args.leaderCommit ∧ r = { rf with logs := logs } ∧
      c = min args.leaderCommit r.lastLogIndex := by
  have hmin : ∀ a b : Int, (if a ≤ b then a else b) = min a b := fun a b => by split <;> omega
  simp only [appendCommit, hmin]
  constructor
  · intro h
    split at h
    · exact absurd h (by simp)
    split at h
    · exact absurd h (by simp)
    split at h
    · exact absurd h (by simp)
    rename_i prev hget
    split at h
    · exact absurd h (by simp)
    rename_i hterm
    split at h
    · exact absurd h (by simp)
    rename_i logs hmerge
    split at h
    · rename_i hc
      cases h
      exact ⟨prev, logs, by omega, by omega, hget, not_not.mp hterm, hmerge, hc, rfl, rfl⟩
    · exact absurd h (by simp)
  · rintro ⟨prev, logs, hprev, hlast, hget, hterm, hmerge, hc, rfl, rfl⟩
    simp only [if_neg (Int.not_le.mpr hprev), if_neg (Int.not_lt.mpr hlast), hget, hterm,
      ne_eq, not_true_eq_false, if_false, hmerge, if_pos (show args.leaderCommit > _ from hc)]

variable {gob : Labgob C B} {rf rf' : Raft C D B} {input : Input C D} {out : List (Output C D)}

theorem pendingOf_erase (gs : List (Goroutine C D)) (g : Goroutine C D) :
    pendingOf (gs.erase g) = (pendingOf gs).erase g :=
  List.erase_filter.symm

theorem pendingOf_leave (gs : List (Goroutine C D)) {g : Goroutine C D} (h : ¬ g.Pending) :
    pendingOf (gs.erase g) = pendingOf gs := by
  rw [pendingOf_erase]
  refine List.erase_of_not_mem fun hm => h ?_
  simpa using (List.mem_filter.mp hm).2

/-- What a step that installs no snapshot does to the goroutines that send. -/
inductive DeliveryStep (rf : Raft C D B) (input : Input C D) (rf' : Raft C D B)
    (out : List (Output C D)) : Prop
  | same (hp : pendingOf rf'.goroutines = pendingOf rf.goroutines)
      (hl : rf'.lastApplied = rf.lastApplied) (ho : receivedIndices out = [])
  | commit {r : Raft C D B} {c : Int} {entries : List (LogEntry C)}
      (hc : rf.commitCall input = some (r, c)) (hlt : rf.lastApplied < c)
      (hp : pendingOf rf'.goroutines =
        pendingOf rf.goroutines ++ pendingOf [.apply (rf.lastApplied + 1) entries])
      (hl : rf'.lastApplied = rf.lastApplied) (ho : receivedIndices out = [])
  | send {index : Int} {e : LogEntry C} {entries : List (LogEntry C)}
      (hg : .apply index (e :: entries) ∈ pendingOf rf.goroutines)
      (hp : pendingOf rf'.goroutines =
        (pendingOf rf.goroutines).erase (.apply index (e :: entries)) ++ [.applied index entries])
      (hl : rf'.lastApplied = rf.lastApplied) (ho : receivedIndices out = [index])
  | record {index : Int} {entries : List (LogEntry C)}
      (hg : .applied index entries ∈ pendingOf rf.goroutines)
      (hp : pendingOf rf'.goroutines =
        (pendingOf rf.goroutines).erase (.applied index entries) ++
          pendingOf [.apply (index + 1) entries])
      (hl : rf'.lastApplied = max rf.lastApplied index) (ho : receivedIndices out = [])
  | install {msg : ApplyMsg C D} (hg : .install msg ∈ pendingOf rf.goroutines)

theorem DeliveryStep.spawn {new : List (Goroutine C D)}
    (hg : rf'.goroutines = rf.goroutines ++ new) (hnew : ∀ g ∈ new, ¬ g.Pending)
    (hl : rf'.lastApplied = rf.lastApplied) (ho : receivedIndices out = []) :
    DeliveryStep rf input rf' out := by
  refine .same ?_ hl ho
  rw [hg, pendingOf_append, pendingOf_eq_nil hnew, List.append_nil]

theorem DeliveryStep.leave {g : Goroutine C D} {new : List (Goroutine C D)} (hp : ¬ g.Pending)
    (hg : rf'.goroutines = rf.goroutines.erase g ++ new) (hnew : ∀ g ∈ new, ¬ g.Pending)
    (hl : rf'.lastApplied = rf.lastApplied) (ho : receivedIndices out = []) :
    DeliveryStep rf input rf' out := by
  refine .same ?_ hl ho
  rw [hg, pendingOf_append, pendingOf_eq_nil hnew, List.append_nil, pendingOf_leave _ hp]

/-- A call of `setCommitIndex` starts a goroutine if it passes `lastApplied`. -/
theorem DeliveryStep.call {r r' : Raft C D B} {c : Int} (hc : rf.commitCall input = some (r, c))
    (hr : r.setCommitIndex c = some r') (hla : r.lastApplied = rf.lastApplied)
    (hgs : pendingOf r.goroutines = pendingOf rf.goroutines)
    (hg : rf'.goroutines = r'.goroutines) (hl : rf'.lastApplied = rf.lastApplied)
    (ho : receivedIndices out = []) : DeliveryStep rf input rf' out := by
  rcases setCommitIndex_cases hr with ⟨-, rfl⟩ | ⟨hlt, entries, -, rfl⟩
  · exact .same ((congrArg pendingOf hg).trans hgs) hl ho
  · rw [hla] at hlt
    have hp : pendingOf rf'.goroutines =
        pendingOf rf.goroutines ++ pendingOf [.apply (rf.lastApplied + 1) entries] := by
      rw [hg, pendingOf_append, hgs, hla]
    exact .commit hc hlt hp hl ho

theorem deliveryStep_append {args : AppendEntriesArgs C} {r : Raft C D B}
    {reply : AppendEntriesReply} (hterm : rf.currentTerm ≤ args.term)
    (h : AppendStep (rf.adoptTerm args.term) args r reply) :
    DeliveryStep rf (.appendEntries args) (r.persist gob)
      [.reply (.appendEntries args) (.appendEntries reply)] := by
  have hgs := adoptTerm_goroutines rf args.term
  have hla := adoptTerm_lastApplied rf args.term
  cases h with
  | covered | replaced | rejected => exact .same (congrArg pendingOf hgs) hla rfl
  | @merged prev logs _ hprev hlast hget hpt hmerge hcommit =>
    have hf := followCommit_frame hcommit
    have hla' : r.lastApplied = rf.lastApplied := by rw [hf]; exact hla
    rcases followCommit_cases hcommit with ⟨-, rfl⟩ | ⟨hlt, hset⟩
    · exact .same (congrArg pendingOf hgs) hla rfl
    · refine .call ?_ hset hla (congrArg pendingOf hgs) rfl hla' rfl
      simp only [commitCall, if_neg (Int.not_lt.mpr hterm)]
      exact appendCommit_iff.mpr ⟨prev, logs, hprev, hlast, hget, hpt, hmerge, hlt, rfl, rfl⟩

theorem step_delivery (h : Step gob rf input rf' out) (hi : Ongoing input) :
    DeliveryStep rf input rf' out := by
  cases h with
  | snapshotOld | snapshot | restart => exact absurd hi id
  | electionTimer =>
    rw [candidateState_frame]
    exact .spawn rfl (by simp [Goroutine.Pending]) rfl (by simp [receivedIndices])
  | heartbeatTimer hgs =>
    refine .spawn rfl (fun g hg => ?_) rfl rfl
    obtain ⟨server, -, rfl⟩ := hgs g hg
    exact id
  | refuseTerm | appendOld | startOther | replaceIgnored => exact .same rfl rfl rfl
  | refuseLog | grant =>
    rw [adoptTerm_frame]
    exact .same rfl rfl rfl
  | append hterm happ => exact deliveryStep_append hterm happ
  | voteStepDown | appendStepDown | snapshotStepDown =>
    rw [stepDown_frame]
    exact .leave id (List.append_nil _).symm (by simp) rfl rfl
  | voteCounted | voteIgnored | appendIgnored | appendSuccess | appendConflict
  | snapshotRecorded => exact .leave id (List.append_nil _).symm (by simp) rfl rfl
  | idle _ hp => exact .leave hp (List.append_nil _).symm (by simp) rfl rfl
  | elected | heartbeatSync | heartbeat | sync | startAppend =>
    exact .leave id rfl (by simp [Goroutine.Pending]) rfl rfl
  | @appendCommit server args reply i r hg hst hs hmajority hset =>
    have hf := setCommitIndex_frame hset
    refine .call ?_ hset rfl (pendingOf_leave _ id) rfl (by rw [hf]; rfl) rfl
    have hcall : rf.goroutines.contains (.awaitAppend server args) ∧ rf.state = .leader ∧
        reply.success = true := ⟨List.contains_iff_mem.mpr hg, hst, hs⟩
    simp only [commitCall, if_pos hcall]
    exact Option.map_eq_some_iff.mpr ⟨i, hmajority, rfl⟩
  | startLeader | replaced => exact .spawn rfl (by simp [Goroutine.Pending]) rfl rfl
  | apply hg =>
    refine .send (mem_pendingOf hg trivial) ?_ rfl rfl
    show pendingOf (rf.goroutines.erase _ ++ [_]) = _
    rw [pendingOf_append, pendingOf_erase]
    rfl
  | applied hg =>
    refine .record (mem_pendingOf hg trivial) ?_ rfl rfl
    show pendingOf (rf.goroutines.erase _ ++ [_]) = _
    rw [pendingOf_append, pendingOf_erase]
  | install hg => exact .install (mem_pendingOf hg trivial)

/-! ## One goroutine at a time -/

/-- `setCommitIndex` passes `lastApplied` only when every goroutine of an earlier call has
sent its entries and recorded them. -/
def Unhurried (rf : Raft C D B) (input : Input C D) : Prop :=
  ∀ call ∈ rf.commitCall input, rf.lastApplied < call.2 → ∀ g ∈ rf.goroutines, ¬ g.Pending

instance (rf : Raft C D B) (input : Input C D) : Decidable (rf.Unhurried input) :=
  match h : rf.commitCall input with
  | none => .isTrue fun call hc => by rw [h] at hc; cases hc
  | some call => decidable_of_iff (rf.lastApplied < call.2 → ∀ g ∈ rf.goroutines, ¬ g.Pending)
      ⟨fun hu call' hc => by rw [h] at hc; cases hc; exact hu, fun hu => hu call h⟩

/-- The goroutines that send when the last index received is `d`: none, one about to send
the next entry, or one about to record `d`. -/
inductive Delivering (d lastApplied : Int) : List (Goroutine C D) → Prop
  | idle (h : lastApplied = d) : Delivering d lastApplied []
  | sending {entries : List (LogEntry C)} (h : lastApplied = d) :
      Delivering d lastApplied [.apply (d + 1) entries]
  | recording {entries : List (LogEntry C)} (h : lastApplied + 1 = d) :
      Delivering d lastApplied [.applied d entries]

omit [DecidableEq C] [DecidableEq D] in
theorem Delivering.start {d lastApplied : Int} (h : lastApplied = d)
    (entries : List (LogEntry C)) :
    Delivering d lastApplied (pendingOf [(.apply (d + 1) entries : Goroutine C D)]) := by
  cases entries with
  | nil => exact .idle h
  | cons e entries => exact .sending h

/-- One step: the index received, if any, is the next one. -/
theorem DeliveryStep.delivering {d : Int} (h : DeliveryStep rf input rf' out)
    (hu : rf.Unhurried input) (hd : Delivering d rf.lastApplied (pendingOf rf.goroutines)) :
    (receivedIndices out = [] ∧ Delivering d rf'.lastApplied (pendingOf rf'.goroutines)) ∨
      (receivedIndices out = [d + 1] ∧
        Delivering (d + 1) rf'.lastApplied (pendingOf rf'.goroutines)) := by
  cases h with
  | same hp hl ho =>
    rw [hp, hl]
    exact Or.inl ⟨ho, hd⟩
  | commit hc hlt hp hl ho =>
    have hnone := pendingOf_eq_nil (hu _ hc hlt)
    rw [hnone] at hd hp
    rw [hp, hl]
    cases hd with
    | idle hla =>
      rw [hla]
      exact Or.inl ⟨ho, .start rfl _⟩
  | send hg hp hl ho =>
    rw [hp, hl, ho]
    generalize pendingOf rf.goroutines = gs at hg hd
    cases hd with
    | idle => exact absurd hg (by simp)
    | sending hla =>
      simp only [List.mem_singleton, Goroutine.apply.injEq] at hg
      obtain ⟨rfl, rfl⟩ := hg
      rw [List.erase_cons_head]
      exact Or.inr ⟨rfl, .recording (by omega)⟩
    | recording => exact absurd hg (by simp)
  | record hg hp hl ho =>
    rw [hp, hl]
    generalize pendingOf rf.goroutines = gs at hg hd
    cases hd with
    | idle => exact absurd hg (by simp)
    | sending => exact absurd hg (by simp)
    | recording hla =>
      simp only [List.mem_singleton, Goroutine.applied.injEq] at hg
      obtain ⟨rfl, rfl⟩ := hg
      rw [List.erase_cons_head]
      exact Or.inl ⟨ho, .start (by omega) _⟩
  | install hg =>
    generalize pendingOf rf.goroutines = gs at hg hd
    cases hd <;> exact absurd hg (by simp)

end Raft

namespace Peer

variable [DecidableEq C] [DecidableEq D]

/-- The first `k` indices after `base` were received, and the goroutines go on from there. -/
def DeliveredFrom (base : Int) (p : Peer C D B) : Prop :=
  ∃ k : Nat, Raft.receivedIndices p.history = (List.range k).map (fun i : Nat => base + 1 + i) ∧
    Raft.Delivering (base + k) p.raft.lastApplied (Raft.pendingOf p.raft.goroutines)

theorem deliveredFrom_step {gob : Labgob C B} {base : Int} {p q : Peer C D B}
    {input : Input C D} (hi : Raft.Ongoing input) (hu : p.raft.Unhurried input)
    (h : p.DeliveredFrom base) (hs : p.step gob input = some q) : q.DeliveredFrom base := by
  obtain ⟨⟨rf', out⟩, hr, rfl⟩ := Option.map_eq_some_iff.mp hs
  obtain ⟨k, hk, hd⟩ := h
  have happ : Raft.receivedIndices (p.history ++ out) =
      Raft.receivedIndices p.history ++ Raft.receivedIndices out := List.filterMap_append
  rcases (Raft.step_delivery (Raft.step_cases hr) hi).delivering hu hd with ⟨ho, hd'⟩ | ⟨ho, hd'⟩
  · refine ⟨k, ?_, hd'⟩
    rw [happ, ho, List.append_nil, hk]
  · refine ⟨k + 1, ?_, ?_⟩
    · rw [happ, ho, hk, List.range_succ, List.map_append]
      simp [Int.add_right_comm]
    · have hnext : base + ((k + 1 : Nat) : Int) = base + k + 1 := by omega
      rw [hnext]
      exact hd'

/-- In-order single delivery: in one incarnation of a peer without snapshot installation,
as long as no call of `setCommitIndex` overtakes a goroutine that is still sending, the
service receives the indices after the restored `lastApplied`, each once and in order. -/
theorem delivered_in_order (gob : Labgob C B) (peers me : Nat) (persister : Persister D B)
    {es : List (Input C D)} {p : Peer C D B}
    (h : Runs.Run (step gob) (fun s e => Raft.Ongoing e ∧ s.raft.Unhurried e)
      ⟨Raft.make gob peers me persister, []⟩ es p) :
    Raft.receivedIndices p.history =
      (List.range (Raft.receivedIndices p.history).length).map
        fun i : Nat => (Raft.make gob peers me persister : Raft C D B).lastApplied + 1 + i := by
  have hinv := h.invariant
    (DeliveredFrom (Raft.make gob peers me persister : Raft C D B).lastApplied)
    ⟨0, rfl, by
      have hgs : (Raft.make gob peers me persister : Raft C D B).goroutines = [] := by
        rw [Raft.make_frame]; rfl
      rw [hgs]
      exact .idle (by simp)⟩
    fun _ _ _ hd hok hs => deliveredFrom_step hok.1 hok.2 hd hs
  obtain ⟨k, hk, -⟩ := hinv
  rw [hk]
  simp

def first : LogEntry Nat := ⟨.client 10, 1⟩

def second : LogEntry Nat := ⟨.client 11, 1⟩

/-- A follower with two entries hears that the first is committed, and then the second. -/
def committedOneByOne (sends : List (Input Nat Nat)) : List (Input Nat Nat) :=
  [.appendEntries ⟨1, 1, 0, 0, [first, second], 0⟩, .appendEntries ⟨1, 1, 2, 1, [], 1⟩] ++
    sends ++ [.appendEntries ⟨1, 1, 2, 1, [], 2⟩]

theorem delivered_in_order_oneByOne :
    ∃ p : Peer Nat Nat (Word Nat), Raft.receivedIndices p.history = [1, 2] ∧
      Raft.receivedIndices p.history =
        (List.range (Raft.receivedIndices p.history).length).map fun i : Nat =>
          (Raft.make (Labgob.words Nat) 3 0 makePersister :
            Raft Nat Nat (Word Nat)).lastApplied + 1 + i := by
  have hexec : (Runs.exec (step (Labgob.words Nat)) (fun s e => Raft.Ongoing e ∧ s.raft.Unhurried e)
      ⟨Raft.make (Labgob.words Nat) 3 0 makePersister, []⟩
      (committedOneByOne [.resume (.apply 1 [first]), .resume (.applied 1 [])] ++
        [.resume (.apply 2 [second])])).map (fun p => Raft.receivedIndices p.history) =
          some [1, 2] := by decide +kernel
  obtain ⟨p, hrun, hp⟩ := Runs.run_of_exec_map _ hexec
  exact ⟨p, hp, delivered_in_order (Labgob.words Nat) 3 0 makePersister hrun⟩

/-- The second call starts at index 1 as well, since the first goroutine has not sent its
entry yet. It sends both entries, and then the first goroutine sends index 1 again. -/
theorem delivered_again :
    ¬ ∀ (es : List (Input Nat Nat)) (p : Peer Nat Nat (Word Nat)),
      Runs.Run (step (Labgob.words Nat)) (fun _ e => Raft.Ongoing e)
        ⟨Raft.make (Labgob.words Nat) 3 0 makePersister, []⟩ es p →
      Raft.receivedIndices p.history =
        (List.range (Raft.receivedIndices p.history).length).map fun i : Nat =>
          (Raft.make (Labgob.words Nat) 3 0 makePersister :
            Raft Nat Nat (Word Nat)).lastApplied + 1 + i := by
  intro h
  have hexec : (Runs.exec (step (Labgob.words Nat)) (fun _ e => Raft.Ongoing e)
      ⟨Raft.make (Labgob.words Nat) 3 0 makePersister, []⟩
      (committedOneByOne [] ++ [.resume (.apply 1 [first, second]), .resume (.applied 1 [second]),
        .resume (.apply 2 [second]), .resume (.apply 1 [first])])).map
          (fun p => Raft.receivedIndices p.history) = some [1, 2, 1] := by decide +kernel
  obtain ⟨p, hrun, hp⟩ := Runs.run_of_exec_map _ hexec
  have hbad := h _ p hrun
  rw [hp] at hbad
  exact absurd hbad (by decide)

end Peer

end DistributionSystem
