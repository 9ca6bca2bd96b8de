import DistributionSystem.Raft.Durable

/-! What a step does to one part of the state: to the log (`LogStep`), to the goroutines
(`Spawns`) and to `lastApplied` (`AppliedStep`). An invariant of that part needs no other
case analysis of `Step`. -/

namespace DistributionSystem.Raft

variable {C D B : Type}

/-! ## The log -/

inductive LogStep (rf : Raft C D B) (input : Input C D) (rf' : Raft C D B) : Prop
  | same (hl : rf'.logs = rf.logs) (hs : rf'.snapshottedIndex = rf.snapshottedIndex)
  | replaced {args : AppendEntriesArgs C} {guard : LogEntry C} {rest : List (LogEntry C)}
      (hi : input = .appendEntries args) (hterm : rf.currentTerm ≤ args.term)
      (hprev : args.prevLogIndex ≤ rf.snapshottedIndex)
      (hlen : args.prevLogIndex + args.logEntries.length > rf.snapshottedIndex)
      (hlogs : rf.logs = guard :: rest)
      (hl : rf'.logs = guard ::
        args.logEntries.drop (rf.snapshottedIndex - args.prevLogIndex).toNat)
      (hs : rf'.snapshottedIndex = rf.snapshottedIndex) (ht : rf'.currentTerm = args.term)
  | merged {args : AppendEntriesArgs C} {prev : LogEntry C}
      (hi : input = .appendEntries args) (hterm : rf.currentTerm ≤ args.term)
      (hprev : rf.snapshottedIndex < args.prevLogIndex)
      (hget : CheckedSlice.get rf.logs (rf.getRelativeLogIndex args.prevLogIndex) = some prev)
      (hpt : prev.term = args.prevLogTerm)
      (hl : mergeEntries rf.logs (rf.getRelativeLogIndex (args.prevLogIndex + 1))
        args.logEntries = some rf'.logs)
      (hs : rf'.snapshottedIndex = rf.snapshottedIndex) (ht : rf'.currentTerm = args.term)
  | installed {args : InstallSnapshotArgs D} (hi : input = .installSnapshot args)
      (hterm : rf.currentTerm ≤ args.term) (hindex : rf.snapshottedIndex ≤ args.lastIncludedIndex)
      (hl : rf'.logs = rf.retainedLogs args) (hs : rf'.snapshottedIndex = args.lastIncludedIndex)
      (ht : rf'.currentTerm = args.term)
      (ha : rf'.lastApplied = max rf.lastApplied args.lastIncludedIndex)
  | appended {command : C} {term : Int} (hi : input = .resume (.start command term))
      (hg : .start command term ∈ rf.goroutines)
      (hl : rf'.logs = rf.logs ++ [⟨.client command, term⟩])
      (hs : rf'.snapshottedIndex = rf.snapshottedIndex)
  | compacted {index : Int} {snapshot : Option D}
      (hi : input = .replaceLogWithSnapshot index snapshot) (hindex : rf.snapshottedIndex < index)
      (hl : CheckedSlice.drop rf.logs (rf.getRelativeLogIndex index) = some rf'.logs)
      (hs : rf'.snapshottedIndex = index)

theorem logStep_append {rf r : Raft C D B} {gob : Labgob C B} {args : AppendEntriesArgs C}
    {reply : AppendEntriesReply} (hterm : rf.currentTerm ≤ args.term)
    (h : AppendStep (rf.adoptTerm args.term) args r reply) :
    LogStep rf (.appendEntries args) (r.persist gob) := by
  have ht : max rf.currentTerm args.term = args.term := Int.max_eq_right hterm
  rw [adoptTerm_frame] at h
  cases h with
  | covered | rejected => exact .same rfl rfl
  | replaced hprev hlen hlogs => exact .replaced rfl hterm hprev hlen hlogs rfl rfl ht
  | merged hprev _ hget hpt hmerge hcommit =>
    have hf := followCommit_frame hcommit
    refine .merged rfl hterm hprev hget hpt ?_ ?_ ?_
    · show _ = some r.logs
      rw [hf]
      exact hmerge
    · show r.snapshottedIndex = _
      rw [hf]
    · show r.currentTerm = _
      rw [hf]
      exact ht

variable [DecidableEq C] [DecidableEq D]

theorem step_log {gob : Labgob C B} {rf rf' : Raft C D B} {input : Input C D}
    {out : List (Output C D)} (hrec : rf.Recovers gob) (h : Step gob rf input rf' out) :
    LogStep rf input rf' := by
  cases h with
  | electionTimer => rw [candidateState_frame]; exact .same rfl rfl
  | refuseLog | grant => rw [adoptTerm_frame]; exact .same rfl rfl
  | append hterm h => exact logStep_append hterm h
  | snapshot hterm hindex =>
    rw [adoptTerm_frame]
    exact .installed rfl hterm hindex rfl rfl (Int.max_eq_right hterm) rfl
  | voteStepDown | appendStepDown | snapshotStepDown =>
    rw [stepDown_frame]
    exact .same rfl rfl
  | appendCommit _ _ _ _ hr => rw [setCommitIndex_frame hr]; exact .same rfl rfl
  | startAppend hg => exact .appended rfl hg rfl rfl
  | replaced hindex hlogs => exact .compacted rfl hindex hlogs rfl
  | restart => exact .same hrec.2.2.2 hrec.2.2.1
  | _ => exact .same rfl rfl

/-! ## The goroutines -/

/-- The goroutine appends nothing, and has nothing to do with `applyCh`. -/
def Calls : Goroutine C D → Prop
  | .heartbeat _ | .syncSnapshotWith _ | .awaitVote .. | .awaitAppend .. | .awaitSnapshot .. => True
  | .start .. | .apply .. | .applied .. | .install _ => False

/-- The goroutines that a step may start. -/
inductive Spawns (rf : Raft C D B) : Input C D → Goroutine C D → Prop
  | calls {input : Input C D} {g : Goroutine C D} (h : Calls g) : Spawns rf input g
  | start {command : C} (hst : rf.state = .leader) :
      Spawns rf (.start command) (.start command rf.currentTerm)
  | apply {input : Input C D} {entries : List (LogEntry C)} :
      Spawns rf input (.apply (rf.lastApplied + 1) entries)
  | applied {index : Int} {e : LogEntry C} {entries : List (LogEntry C)}
      (hg : .apply index (e :: entries) ∈ rf.goroutines) :
      Spawns rf (.resume (.apply index (e :: entries))) (.applied index entries)
  | next {index : Int} {entries : List (LogEntry C)} :
      Spawns rf (.resume (.applied index entries)) (.apply (index + 1) entries)
  | install {args : InstallSnapshotArgs D} : Spawns rf (.installSnapshot args)
      (.install (installSnapshotMsg args.lastIncludedIndex args.data))

omit [DecidableEq C] [DecidableEq D] in
theorem setCommitIndex_spawns (rf : Raft C D B) (input : Input C D) {r r' : Raft C D B} {c : Int}
    (h : r.setCommitIndex c = some r') (hl : r.lastApplied = rf.lastApplied) :
    ∀ g ∈ r'.goroutines, g ∈ r.goroutines ∨ Spawns rf input g := by
  rcases setCommitIndex_cases h with ⟨-, rfl⟩ | ⟨-, entries, -, rfl⟩
  · exact fun g hg => Or.inl hg
  · intro g hg
    refine (List.mem_append.mp hg).imp_right fun hg => ?_
    rw [List.mem_singleton.mp hg, hl]
    exact .apply

theorem step_goroutines {gob : Labgob C B} {rf rf' : Raft C D B} {input : Input C D}
    {out : List (Output C D)} (h : Step gob rf input rf' out) :
    ∀ g ∈ rf'.goroutines, g ∈ rf.goroutines ∨ Spawns rf input g := by
  have hspawn : ∀ {gs : List (Goroutine C D)}, (∀ g ∈ gs, Spawns rf input g) →
      ∀ g ∈ rf.goroutines ++ gs, g ∈ rf.goroutines ∨ Spawns rf input g :=
    fun hgs g hg => (List.mem_append.mp hg).imp_right (hgs g)
  have hleave : ∀ {g₀ : Goroutine C D} {gs : List (Goroutine C D)},
      (∀ g ∈ gs, Spawns rf input g) →
      ∀ g ∈ rf.goroutines.erase g₀ ++ gs, g ∈ rf.goroutines ∨ Spawns rf input g :=
    fun hgs g hg => (List.mem_append.mp hg).imp List.mem_of_mem_erase (hgs g)
  have hcalls : ∀ {l : List Nat} {f : Nat → Goroutine C D}, (∀ k, Calls (f k)) →
      ∀ g ∈ l.map f, Spawns rf input g := by
    intro l f hf g hg
    obtain ⟨k, -, rfl⟩ := List.mem_map.mp hg
    exact .calls (hf k)
  have hone : ∀ {g₀ : Goroutine C D}, Spawns rf input g₀ → ∀ g ∈ [g₀], Spawns rf input g :=
    fun h g hg => List.mem_singleton.mp hg ▸ h
  cases h with
  | electionTimer =>
    rw [candidateState_frame]
    exact hspawn (hcalls fun _ => trivial)
  | heartbeatTimer hgs =>
    refine hspawn fun g hg => ?_
    obtain ⟨server, -, rfl⟩ := hgs g hg
    exact .calls trivial
  | refuseLog | grant =>
    rw [adoptTerm_frame]
    exact fun g => Or.inl
  | @append args r reply hterm happ =>
    show ∀ g ∈ r.goroutines, _
    rw [adoptTerm_frame] at happ
    cases happ with
    | covered | replaced | rejected => exact fun g => Or.inl
    | merged _ _ _ _ _ hcommit =>
      rcases followCommit_cases hcommit with ⟨-, rfl⟩ | ⟨-, hc⟩
      · exact fun g => Or.inl
      · have hs := setCommitIndex_spawns rf (.appendEntries args) hc rfl
        exact hs
  | snapshot _ _ hgs =>
    rw [adoptTerm_frame]
    refine hspawn fun g hg => ?_
    rcases hgs with ⟨rfl, -⟩ | rfl
    · exact absurd hg List.not_mem_nil
    · rw [List.mem_singleton.mp hg]
      exact .install
  | voteStepDown | appendStepDown | snapshotStepDown =>
    rw [stepDown_frame]
    exact fun g hg => Or.inl (List.mem_of_mem_erase hg)
  | voteCounted | voteIgnored | appendIgnored | appendSuccess | appendConflict
  | snapshotRecorded | idle | install => exact fun g hg => Or.inl (List.mem_of_mem_erase hg)
  | elected | startAppend => exact hleave (hcalls fun _ => trivial)
  | appendCommit _ _ _ _ hc =>
    exact fun g hg => (setCommitIndex_spawns rf _ hc rfl g hg).imp_left List.mem_of_mem_erase
  | startLeader hst => exact hspawn (hone (.start hst))
  | heartbeatSync | heartbeat | sync => exact hleave (hone (.calls trivial))
  | apply hg => exact hleave (hone (.applied hg))
  | applied => exact hleave (hone .next)
  | replaced => exact hspawn (hcalls fun _ => trivial)
  | restart =>
    rw [make_frame]
    exact fun g hg => absurd hg List.not_mem_nil
  | _ => exact fun g => Or.inl

/-! ## `lastApplied` -/

inductive AppliedStep (rf : Raft C D B) (input : Input C D) (rf' : Raft C D B) : Prop
  | same (hi : ∀ index entries, input ≠ .resume (.applied index entries))
      (hl : rf'.lastApplied = rf.lastApplied)
  | recorded {index : Int} {entries : List (LogEntry C)}
      (hi : input = .resume (.applied index entries))
      (hl : rf'.lastApplied = max rf.lastApplied index)
  | installed {args : InstallSnapshotArgs D} (hi : input = .installSnapshot args)
      (hl : rf'.lastApplied = max rf.lastApplied args.lastIncludedIndex)
  | restarted (hi : input = .restart) (hg : rf'.goroutines = [])
      (hl : rf'.lastApplied = rf'.snapshottedIndex)

theorem step_lastApplied {gob : Labgob C B} {rf rf' : Raft C D B} {input : Input C D}
    {out : List (Output C D)} (h : Step gob rf input rf' out) : AppliedStep rf input rf' := by
  cases h with
  | electionTimer => rw [candidateState_frame]; exact .same (by simp) rfl
  | refuseLog | grant => rw [adoptTerm_frame]; exact .same (by simp) rfl
  | append _ h => rw [h.frame, adoptTerm_frame]; exact .same (by simp) rfl
  | snapshot => rw [adoptTerm_frame]; exact .installed rfl rfl
  | voteStepDown | appendStepDown | snapshotStepDown => rw [stepDown_frame]; exact .same (by simp) rfl
  | appendCommit _ _ _ _ hr => rw [setCommitIndex_frame hr]; exact .same (by simp) rfl
  | idle _ hp =>
    refine .same (fun index entries he => ?_) rfl
    cases he
    exact hp trivial
  | applied => exact .recorded rfl rfl
  | restart =>
    refine .restarted rfl ?_ (make_indices ..).2
    rw [make_frame]
    rfl
  | _ => exact .same (by simp) rfl

end DistributionSystem.Raft
