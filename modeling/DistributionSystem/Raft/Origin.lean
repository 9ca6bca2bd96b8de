import DistributionSystem.Raft.Effects
import DistributionSystem.Raft.FullLog

/-! Where the entries come from. A peer appends what `Start` was given, takes entries from
the requests of other peers, and hands out what is in its log; so a property of all
commands that are passed to `Start` is one of all entries (`Only`). The guard of a log is
no entry, unless it is the next one to hand out. In the same way a property of the
snapshots that the service makes is one of all snapshots (`Archives`). -/

namespace DistributionSystem.Raft

variable {C D B : Type}

/-- The goroutine carries entries with `P` only. -/
def Holds (P : LogEntry C → Prop) : Goroutine C D → Prop
  | .start command term => P ⟨.client command, term⟩
  | .apply _ entries | .applied _ entries => ∀ e ∈ entries, P e
  | .install msg => msg.commandValid = false
  | _ => True

structure Only (P : LogEntry C → Prop) (rf : Raft C D B) : Prop where
  le : rf.snapshottedIndex ≤ rf.lastApplied + 1
  tail : ∀ e ∈ rf.logs.tail, P e
  guard : rf.snapshottedIndex = rf.lastApplied + 1 → ∀ e, rf.logs.head? = some e → P e
  goroutines : ∀ g ∈ rf.goroutines, Holds P g

/-- What the other peers and the service pass to a peer. -/
def Brings (P : LogEntry C → Prop) (rf : Raft C D B) : Input C D → Prop
  | .appendEntries args => ∀ e ∈ args.logEntries, P e
  | .start command => P ⟨.client command, rf.currentTerm⟩
  | .replaceLogWithSnapshot index _ => index ≤ rf.lastApplied + 1
  | _ => True

/-- What a peer passes to the other peers and the service. -/
def Shows (P : LogEntry C → Prop) : Output C D → Prop
  | .call _ (.appendEntries args) => ∀ e ∈ args.logEntries, P e
  | .apply msg => msg.commandValid = true → ∃ e, P e ∧ msg.command = e.command
  | _ => True

variable {P : LogEntry C → Prop} {rf rf' : Raft C D B} {input : Input C D}

theorem Holds.mono {Q : LogEntry C → Prop} (h : ∀ e, P e → Q e) {g : Goroutine C D}
    (hg : Holds P g) : Holds Q g := by
  cases g with
  | start => exact h _ hg
  | apply | applied => exact fun e he => h e (hg e he)
  | install => exact hg
  | _ => trivial

theorem Only.mono {Q : LogEntry C → Prop} (hok : rf.Only P) (h : ∀ e, P e → Q e) : rf.Only Q :=
  ⟨hok.le, fun e he => h e (hok.tail e he), fun hg e he => h e (hok.guard hg e he),
    fun g hg => (hok.goroutines g hg).mono h⟩

theorem Shows.mono {Q : LogEntry C → Prop} (h : ∀ e, P e → Q e) {o : Output C D}
    (ho : Shows P o) : Shows Q o := by
  cases o with
  | call server request =>
    cases request with
    | appendEntries args => exact fun e he => h e (ho e he)
    | _ => trivial
  | apply msg =>
    intro hv
    obtain ⟨e, he, hc⟩ := ho hv
    exact ⟨e, h e he, hc⟩
  | _ => trivial

/-! ## The log -/

/-- The part of `Only` about the log. -/
structure LogOnly (P : LogEntry C → Prop) (logs : List (LogEntry C)) (snap applied : Int) :
    Prop where
  le : snap ≤ applied + 1
  tail : ∀ e ∈ logs.tail, P e
  guard : snap = applied + 1 → ∀ e, logs.head? = some e → P e

theorem Only.log (h : rf.Only P) : LogOnly P rf.logs rf.snapshottedIndex rf.lastApplied :=
  ⟨h.le, h.tail, h.guard⟩

theorem LogOnly.applied {logs : List (LogEntry C)} {snap applied applied' : Int}
    (h : LogOnly P logs snap applied) (hle : applied ≤ applied') : LogOnly P logs snap applied' := by
  have hsnap := h.le
  exact ⟨by omega, h.tail, fun heq => h.guard (by omega)⟩

/-- The entries that a merge leaves behind the guard. -/
theorem LogOnly.merge {logs entries logs' : List (LogEntry C)} {snap applied prevLogIndex : Int}
    {prev : LogEntry C} (h : LogOnly P logs snap applied) (he : ∀ e ∈ entries, P e)
    (hprev : snap < prevLogIndex) (hget : CheckedSlice.get logs (prevLogIndex - snap) = some prev)
    (hm : mergeEntries logs (prevLogIndex + 1 - snap) entries = some logs') :
    LogOnly P logs' snap applied := by
  obtain ⟨-, hget⟩ := CheckedSlice.get_eq_some hget
  have hlt := (List.getElem?_eq_some_iff.mp hget).1
  rw [show prevLogIndex + 1 - snap = (((prevLogIndex - snap).toNat + 1 : Nat) : Int) by omega] at hm
  rcases mergeEntries_eq hlt hm with ⟨-, rfl⟩ | ⟨u, -, rfl⟩
  · exact h
  · cases logs with
    | nil => exact absurd hlt (by simp)
    | cons g rest =>
      rw [show (prevLogIndex - snap).toNat + 1 + u = ((prevLogIndex - snap).toNat + u) + 1 by omega,
        List.take_succ_cons]
      refine ⟨h.le, fun e hmem => ?_, h.guard⟩
      rcases List.mem_append.mp hmem with hmem | hmem
      · exact h.tail e (List.mem_of_mem_take hmem)
      · exact he e (List.mem_of_mem_drop hmem)

theorem mem_tail_of_mem_drop {logs : List (LogEntry C)} {k : Nat} (hk : 0 < k) {e : LogEntry C}
    (h : e ∈ logs.drop k) : e ∈ logs.tail := by
  rw [show k = 1 + (k - 1) by omega, ← List.drop_drop, List.drop_one] at h
  exact List.mem_of_mem_drop h

theorem LogStep.logOnly (h : LogStep rf input rf') (hle : rf.lastApplied ≤ rf'.lastApplied)
    (hok : rf.Only P) (hin : rf.Brings P input) :
    LogOnly P rf'.logs rf'.snapshottedIndex rf'.lastApplied := by
  have hlog := hok.log.applied hle
  cases h with
  | same hl hs =>
    rw [hl, hs]
    exact hlog
  | @replaced args guard rest hi _ _ _ hlogs hl hs =>
    subst hi
    rw [hlogs] at hlog
    rw [hl, hs]
    exact ⟨hlog.le, fun e he => hin e (List.mem_of_mem_drop he), hlog.guard⟩
  | @merged args prev hi _ hprev hget _ hl hs =>
    subst hi
    rw [hs]
    exact hlog.merge hin hprev hget hl
  | @installed args hi _ hindex hl hs _ ha =>
    refine ⟨by omega, ?_, fun heq => by omega⟩
    rw [hl]
    simp only [retainedLogs]
    intro e he
    split at he
    · split at he
      · rw [← List.drop_one, List.drop_drop] at he
        exact hok.tail e (mem_tail_of_mem_drop (by omega) he)
      · exact absurd he (by simp)
    · exact absurd he (by simp)
  | @appended command term hi hg hl hs =>
    have hnew : P ⟨.client command, term⟩ := hok.goroutines _ hg
    rw [hl, hs]
    cases hlogs : rf.logs with
    | nil => exact ⟨hlog.le, by simp, fun _ e he => by cases he; exact hnew⟩
    | cons g rest =>
      rw [hlogs] at hlog
      refine ⟨hlog.le, fun e he => ?_, hlog.guard⟩
      rcases List.mem_append.mp he with he | he
      · exact hlog.tail e he
      · exact List.mem_singleton.mp he ▸ hnew
  | @compacted index snapshot hi hindex hl hs =>
    subst hi
    have hin' : index ≤ rf.lastApplied + 1 := hin
    obtain ⟨-, -, hl⟩ := CheckedSlice.drop_eq_some hl
    -- the new log is a part of the old one behind its guard
    have hmem : ∀ e ∈ rf'.logs, P e := by
      intro e he
      rw [hl] at he
      refine hok.tail e (mem_tail_of_mem_drop ?_ he)
      simp only [getRelativeLogIndex]
      omega
    exact ⟨by omega, fun e he => hmem e (List.mem_of_mem_tail he),
      fun _ e he => hmem e (List.mem_of_mem_head? he)⟩

/-! ## The goroutines -/

/-- What `setCommitIndex` is about to hand out is in the log. -/
theorem LogOnly.slice {r : Raft C D B} (h : LogOnly P r.logs r.snapshottedIndex r.lastApplied)
    {c : Int} {entries : List (LogEntry C)}
    (hs : CheckedSlice.slice r.logs (r.getRelativeLogIndex (r.lastApplied + 1)) c = some entries) :
    ∀ e ∈ entries, P e := by
  have hle := h.le
  obtain ⟨hpos, -, -, rfl⟩ := CheckedSlice.slice_eq_some hs
  intro e he
  simp only [getRelativeLogIndex] at he
  by_cases hguard : r.snapshottedIndex = r.lastApplied + 1
  · have hmem := List.mem_of_mem_take (List.mem_of_mem_drop he)
    cases hlogs : r.logs with
    | nil => rw [hlogs] at hmem; exact absurd hmem List.not_mem_nil
    | cons g rest =>
      rw [hlogs] at hmem h
      rcases List.mem_cons.mp hmem with rfl | hmem
      · exact h.guard hguard _ rfl
      · exact h.tail e hmem
  · rw [List.drop_take] at he
    exact h.tail e (mem_tail_of_mem_drop (by omega) (List.mem_of_mem_take he))

theorem setCommitIndex_holds {r r' : Raft C D B}
    (hlog : LogOnly P r.logs r.snapshottedIndex r.lastApplied)
    (hgs : ∀ g ∈ r.goroutines, Holds P g) {c : Int} (h : r.setCommitIndex c = some r') :
    ∀ g ∈ r'.goroutines, Holds P g := by
  rcases setCommitIndex_cases h with ⟨-, rfl⟩ | ⟨-, entries, hslice, rfl⟩
  · exact hgs
  · intro g hg
    rcases List.mem_append.mp hg with hg | hg
    · exact hgs g hg
    · rw [List.mem_singleton.mp hg]
      exact hlog.slice hslice

theorem AppendStep.holds {r : Raft C D B} {args : AppendEntriesArgs C} {reply : AppendEntriesReply}
    (hok : rf.Only P) (he : ∀ e ∈ args.logEntries, P e) (h : AppendStep rf args r reply) :
    ∀ g ∈ r.goroutines, Holds P g := by
  cases h with
  | covered | replaced | rejected => exact hok.goroutines
  | @merged prev logs r hprev hlast hget hpt hmerge hcommit =>
    have hlog := hok.log.merge he hprev hget hmerge
    rcases followCommit_cases hcommit with ⟨-, rfl⟩ | ⟨-, hset⟩
    · exact hok.goroutines
    · refine setCommitIndex_holds ?_ ?_ hset
      · exact hlog
      · exact hok.goroutines

variable [DecidableEq C] [DecidableEq D] {gob : Labgob C B} {out : List (Output C D)}

theorem step_holds (hok : rf.Only P) (hin : rf.Brings P input) (h : Step gob rf input rf' out) :
    ∀ g ∈ rf'.goroutines, Holds P g := by
  have hspawn : ∀ {gs new : List (Goroutine C D)}, (∀ g ∈ gs, g ∈ rf.goroutines) →
      (∀ g ∈ new, Holds P g) → ∀ g ∈ gs ++ new, Holds P g := fun hgs hnew g hg =>
    (List.mem_append.mp hg).elim (fun hg => hok.goroutines g (hgs g hg)) (hnew g)
  have hleave : ∀ {g₀ : Goroutine C D}, ∀ g ∈ rf.goroutines.erase g₀, Holds P g :=
    fun g hg => hok.goroutines g (List.mem_of_mem_erase hg)
  have hcalls : ∀ {l : List Nat} {f : Nat → Goroutine C D}, (∀ k, Calls (f k)) →
      ∀ g ∈ l.map f, Holds P g := by
    intro l f hf g hg
    obtain ⟨k, -, rfl⟩ := List.mem_map.mp hg
    have hk := hf k
    cases hfk : f k with
    | start | apply | applied | install => rw [hfk] at hk; exact absurd hk id
    | _ => trivial
  have hone : ∀ {g₀ : Goroutine C D}, Holds P g₀ → ∀ g ∈ [g₀], Holds P g :=
    fun h g hg => List.mem_singleton.mp hg ▸ h
  have hmem : ∀ {g₀ : Goroutine C D}, ∀ g ∈ rf.goroutines.erase g₀, g ∈ rf.goroutines :=
    fun g => List.mem_of_mem_erase
  cases h with
  | electionTimer =>
    rw [candidateState_frame]
    exact hspawn (fun _ hg => hg) (hcalls fun _ => trivial)
  | heartbeatTimer hgs =>
    refine hspawn (fun _ hg => hg) fun g hg => ?_
    obtain ⟨server, -, rfl⟩ := hgs g hg
    trivial
  | refuseLog | grant =>
    rw [adoptTerm_frame]
    exact hok.goroutines
  | @append args r reply hterm happ =>
    have hok' : (rf.adoptTerm args.term).Only P := by
      rw [adoptTerm_frame]
      exact ⟨hok.le, hok.tail, hok.guard, hok.goroutines⟩
    have hgs := happ.holds hok' hin
    exact hgs
  | snapshot _ _ hgs =>
    rw [adoptTerm_frame]
    refine hspawn (fun _ hg => hg) fun g hg => ?_
    rcases hgs with ⟨rfl, -⟩ | rfl
    · exact absurd hg List.not_mem_nil
    · rw [List.mem_singleton.mp hg]
      rfl
  | voteStepDown | appendStepDown | snapshotStepDown =>
    rw [stepDown_frame]
    exact hleave
  | voteCounted | voteIgnored | appendIgnored | appendSuccess | appendConflict
  | snapshotRecorded | idle | install => exact hleave
  | elected | startAppend => exact hspawn hmem (hcalls fun _ => trivial)
  | appendCommit _ _ _ _ hc =>
    refine setCommitIndex_holds ?_ ?_ hc
    · exact hok.log
    · exact hleave
  | startLeader => exact hspawn (fun _ hg => hg) (hone hin)
  | heartbeatSync | heartbeat | sync => exact hspawn hmem (hone trivial)
  | apply hg =>
    exact hspawn hmem (hone fun e he => hok.goroutines _ hg e (List.mem_cons_of_mem _ he))
  | applied hg =>
    have hes := hok.goroutines _ hg
    exact hspawn hmem (hone hes)
  | replaced => exact hspawn (fun _ hg => hg) (hcalls fun _ => trivial)
  | restart =>
    rw [make_frame]
    exact fun g hg => absurd hg List.not_mem_nil
  | _ => exact hok.goroutines

/-! ## Steps -/

/-- A peer that holds entries with `P` only takes and shows no others. -/
theorem step_only (hrec : rf.Recovers gob) (hok : rf.Only P) (hin : rf.Brings P input)
    (h : Step gob rf input rf' out) : rf'.Only P := by
  have hgs := step_holds hok hin h
  have hlog : rf.lastApplied ≤ rf'.lastApplied → rf'.Only P := fun hle =>
    have hlog := (step_log hrec h).logOnly hle hok hin
    ⟨hlog.le, hlog.tail, hlog.guard, hgs⟩
  cases step_lastApplied h with
  | same _ hl => exact hlog (by omega)
  | recorded _ hl => exact hlog (by omega)
  | installed _ hl => exact hlog (by omega)
  | restarted hi _ hl =>
    subst hi
    cases h with
    | restart =>
      refine ⟨by omega, ?_, fun heq => by omega, hgs⟩
      rw [hrec.2.2.2]
      exact hok.tail

theorem step_shows (hok : rf.Only P) (h : Step gob rf input rf' out) : ∀ o ∈ out, Shows P o := by
  intro o ho
  cases h with
  | electionTimer =>
    rcases List.mem_cons.mp ho with rfl | ho
    · trivial
    · obtain ⟨server, -, rfl⟩ := List.mem_map.mp ho
      trivial
  | @heartbeat server entries prev prevLogIndex hg hst hp hdrop hprev =>
    rw [List.mem_singleton.mp ho]
    obtain ⟨hpos, -⟩ := CheckedSlice.get_eq_some hprev
    obtain ⟨-, -, rfl⟩ := CheckedSlice.drop_eq_some hdrop
    refine fun e he => hok.tail e (mem_tail_of_mem_drop ?_ he)
    simp only [getRelativeLogIndex] at hpos ⊢
    omega
  | @apply index e entries hg =>
    rw [List.mem_singleton.mp ho]
    exact fun _ => ⟨e, hok.goroutines _ hg e List.mem_cons_self, rfl⟩
  | install hg =>
    rw [List.mem_singleton.mp ho]
    exact fun hv => absurd (hv.symm.trans (hok.goroutines _ hg)) (by decide)
  | snapshot =>
    rcases List.mem_cons.mp ho with rfl | ho
    · trivial
    · rw [List.mem_singleton.mp ho]
      trivial
  | sync | refuseTerm | refuseLog | grant | appendOld | append | snapshotOld | elected | replaced =>
    rw [List.mem_singleton.mp ho]
    trivial
  | _ => exact absurd ho List.not_mem_nil

/-! ## Snapshots -/

section

variable {Q : Int → Option D → Prop}

/-- The snapshots of a peer, each with its index: the saved one, and those on their way to
the service, which are not above it. -/
structure Archives (Q : Int → Option D → Prop) (rf : Raft C D B) : Prop where
  saved : Q rf.snapshottedIndex rf.persister.snapshot
  installs : ∀ msg, .install msg ∈ rf.goroutines → msg.commandValid = false ∧
    Q msg.commandIndex msg.commandData ∧ msg.commandIndex ≤ rf.snapshottedIndex

/-- The snapshots that the other peers and the service pass to a peer. -/
def Takes (Q : Int → Option D → Prop) (rf : Raft C D B) : Input C D → Prop
  | .installSnapshot args => Q args.lastIncludedIndex args.data
  | .replaceLogWithSnapshot index snapshot => rf.snapshottedIndex < index → Q index snapshot
  | _ => True

omit [DecidableEq C] [DecidableEq D] in
theorem Archives.mono {Q' : Int → Option D → Prop} (h : rf.Archives Q)
    (hq : ∀ index data, Q index data → Q' index data) : rf.Archives Q' := by
  refine ⟨hq _ _ h.saved, fun msg hm => ?_⟩
  obtain ⟨hv, hd, hle⟩ := h.installs msg hm
  exact ⟨hv, hq _ _ hd, hle⟩

theorem step_snapshottedIndex (hrec : rf.Recovers gob) (h : Step gob rf input rf' out) :
    rf.snapshottedIndex ≤ rf'.snapshottedIndex := by
  cases step_log hrec h with
  | same _ hs => omega
  | replaced _ _ _ _ _ _ hs => omega
  | merged _ _ _ _ _ _ hs => omega
  | installed _ _ hindex _ hs => omega
  | appended _ _ _ hs => omega
  | compacted _ hindex _ hs => omega

theorem step_delivered (h : Step gob rf input rf' out) (hne : input ≠ .restart) {index : Int}
    (hd : index ∈ rf.delivered) : index ∈ rf'.delivered := by
  cases h with
  | electionTimer => rw [candidateState_frame]; exact hd
  | refuseLog | grant | snapshot => rw [adoptTerm_frame]; exact hd
  | append _ h => rw [h.frame, adoptTerm_frame]; exact hd
  | voteStepDown | appendStepDown | snapshotStepDown => rw [stepDown_frame]; exact hd
  | appendCommit _ _ _ _ hr => rw [setCommitIndex_frame hr]; exact hd
  | apply => exact List.mem_cons_of_mem _ hd
  | restart => exact absurd rfl hne
  | _ => exact hd

theorem step_saved (hrec : rf.Recovers gob) (hq : Q rf.snapshottedIndex rf.persister.snapshot)
    (hin : rf.Takes Q input) (h : Step gob rf input rf' out) :
    Q rf'.snapshottedIndex rf'.persister.snapshot := by
  cases h with
  | electionTimer => rw [candidateState_frame]; exact hq
  | refuseLog | grant => rw [adoptTerm_frame]; exact hq
  | append _ h => rw [h.frame, adoptTerm_frame]; exact hq
  | snapshot => exact hin
  | voteStepDown | appendStepDown | snapshotStepDown => rw [stepDown_frame]; exact hq
  | appendCommit _ _ _ _ hr => rw [setCommitIndex_frame hr]; exact hq
  | replaced hindex => exact hin hindex
  | restart =>
    rw [hrec.2.2.1, make_persister]
    exact hq
  | _ => exact hq

/-- A peer with snapshots that have `Q` takes no others. -/
theorem step_archives (hrec : rf.Recovers gob) (hok : rf.Archives Q) (hin : rf.Takes Q input)
    (h : Step gob rf input rf' out) : rf'.Archives Q := by
  have hle := step_snapshottedIndex hrec h
  refine ⟨step_saved hrec hok.saved hin h, fun msg hm => ?_⟩
  rcases step_goroutines h _ hm with hm | hnew
  · obtain ⟨hv, hq, hi⟩ := hok.installs msg hm
    exact ⟨hv, hq, by omega⟩
  · cases hnew with
    | calls hc => exact absurd hc id
    | install =>
      cases h with
      | snapshotOld =>
        obtain ⟨hv, hq, hi⟩ := hok.installs _ hm
        exact ⟨hv, hq, hi⟩
      | snapshot =>
        rw [adoptTerm_frame]
        exact ⟨rfl, hin, Int.le_refl _⟩

/-- It sends no others. -/
theorem step_sends (hok : rf.Archives Q) (h : Step gob rf input rf' out) {server : Nat}
    {args : InstallSnapshotArgs D} (ho : .call server (.installSnapshot args) ∈ out) :
    Q args.lastIncludedIndex args.data := by
  cases h with
  | electionTimer => simp at ho
  | sync =>
    cases List.mem_singleton.mp ho
    exact hok.saved
  | snapshot => simp at ho
  | refuseTerm | refuseLog | grant | appendOld | append | snapshotOld | elected | heartbeat
  | apply | install | replaced => cases List.mem_singleton.mp ho
  | _ => exact absurd ho List.not_mem_nil

end

end DistributionSystem.Raft
