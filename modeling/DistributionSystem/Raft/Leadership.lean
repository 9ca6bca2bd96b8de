import DistributionSystem.Raft.Backup
import DistributionSystem.Raft.Election

/-! The records that a leader keeps of its followers. Each reply overwrites them from its
own request, so they move forward only if the replies of a follower are handled in the order in
which the requests were sent to it. The requests whose turn has not passed are a queue for each
follower (`Leadership`). A request reaches at least as far as the ones before it, so nothing that
is still in the queue can take `matchIndex` back (`Sound`). -/

namespace DistributionSystem

variable {C D B : Type}

/-- A request that brings the log of a follower forward. -/
inductive Replication (C D : Type) where
  | append (args : AppendEntriesArgs C)
  | snapshot (args : InstallSnapshotArgs D)
  deriving DecidableEq, Repr

namespace Replication

/-- The last index that the request speaks of. -/
def reach : Replication C D → Int
  | append args => args.prevLogIndex + args.logEntries.length
  | snapshot args => args.lastIncludedIndex

def request : Replication C D → Request C D
  | append args => .appendEntries args
  | snapshot args => .installSnapshot args

/-- The requests among the outputs that go to the server. -/
def sentTo (server : Nat) (out : List (Output C D)) : List (Replication C D) :=
  out.filterMap fun
    | .call s (.appendEntries args) => if s = server then some (append args) else none
    | .call s (.installSnapshot args) => if s = server then some (snapshot args) else none
    | _ => none

theorem call_of_mem_sentTo {server : Nat} {out : List (Output C D)} {r : Replication C D}
    (h : r ∈ sentTo server out) : .call server r.request ∈ out := by
  obtain ⟨o, ho, hr⟩ := List.mem_filterMap.mp h
  split at hr
  · split at hr <;> cases hr
    rename_i hs
    exact hs ▸ ho
  · split at hr <;> cases hr
    rename_i hs
    exact hs ▸ ho
  · cases hr

variable [DecidableEq C] [DecidableEq D]

/-- The requests behind the first one that is `r`. -/
def behind (r : Replication C D) (queue : List (Replication C D)) : List (Replication C D) :=
  queue.drop (queue.idxOf r + 1)

theorem behind_suffix (r : Replication C D) (queue : List (Replication C D)) :
    behind r queue <:+ queue :=
  List.drop_suffix _ _

theorem cons_behind_suffix {r : Replication C D} {queue : List (Replication C D)}
    (h : r ∈ queue) : r :: behind r queue <:+ queue := by
  have hlt := List.idxOf_lt_length_iff.mpr h
  have hdrop := List.drop_eq_getElem_cons hlt
  rw [List.getElem_idxOf hlt] at hdrop
  exact hdrop ▸ List.drop_suffix _ _

end Replication

/-- A leader, and what its replies are measured by: the requests to each peer whose turn
has not passed, the oldest first, the peers that have accepted one, and the `snapshottedIndex` at
which the leadership began. -/
structure Leadership (C D B : Type) where
  raft : Raft C D B
  queue : Nat → List (Replication C D)
  accepted : List Nat
  base : Int

namespace Raft

/-- No follower's `matchIndex` reaches its `nextIndex`. -/
def Behind (rf : Raft C D B) : Prop :=
  ∀ (j : Nat) (m k : Int), j ≠ rf.me → rf.matchIndex[j]? = some m → rf.nextIndex[j]? = some k →
    m < k

/-- No follower's `matchIndex` has gone down from `rf` to `rf'`. -/
def Forward (rf rf' : Raft C D B) : Prop :=
  rf'.me = rf.me ∧ ∀ (j : Nat) (m : Int), j ≠ rf.me → rf.matchIndex[j]? = some m →
    ∃ m', rf'.matchIndex[j]? = some m' ∧ m ≤ m'

theorem Forward.refl (rf : Raft C D B) : rf.Forward rf :=
  ⟨rfl, fun _ m _ h => ⟨m, h, le_refl m⟩⟩

theorem Forward.trans {rf rf' rf'' : Raft C D B} (h : rf.Forward rf') (h' : rf'.Forward rf'') :
    rf.Forward rf'' := by
  refine ⟨h'.1.trans h.1, fun j m hj hm => ?_⟩
  obtain ⟨m', hm', hle⟩ := h.2 j m hj hm
  obtain ⟨m'', hm'', hle'⟩ := h'.2 j m' (by rw [h.1]; exact hj) hm'
  exact ⟨m'', hm'', hle.trans hle'⟩

end Raft

namespace Leadership

/-- The leadership of a peer that becomes leader now. -/
def start (rf : Raft C D B) : Leadership C D B :=
  ⟨rf.convertToLeader, fun _ => [], [], rf.snapshottedIndex⟩

variable [DecidableEq C] [DecidableEq D]

/-- The server has answered `r`. -/
def answer (l : Leadership C D B) (server : Nat) (r : Replication C D) (success : Bool) :
    Leadership C D B :=
  { l with
    queue := Function.update l.queue server (r.behind (l.queue server))
    accepted := if success = true then server :: l.accepted else l.accepted }

def handle (l : Leadership C D B) : Input C D → Leadership C D B
  | .appendReply server args reply => l.answer server (.append args) reply.success
  | .snapshotReply server args _ => l.answer server (.snapshot args) true
  | _ => l

/-- The step of the leader, its reply and its requests. -/
def step (gob : Labgob C B) (l : Leadership C D B) (input : Input C D) :
    Option (Leadership C D B) :=
  (l.raft.step gob input).map fun r =>
    { l.handle input with
      raft := r.1
      queue := fun s => (l.handle input).queue s ++ Replication.sentTo s r.2 }

/-- A reply answers a request of this leadership, behind those whose replies have been
handled. A peer that has accepted none may reject it, and names an index behind `base`. And
the requests of other servers are not of the leader's own term. -/
def InTurn (l : Leadership C D B) : Input C D → Prop
  | .appendReply server args reply => .append args ∈ l.queue server ∧
    (reply.success = true ∨ (server ∉ l.accepted ∧ l.base < reply.conflictIndex))
  | .snapshotReply server args _ => .snapshot args ∈ l.queue server
  | .appendEntries args => args.term ≠ l.raft.currentTerm
  | .installSnapshot args => args.term ≠ l.raft.currentTerm
  | _ => True

instance (l : Leadership C D B) (input : Input C D) : Decidable (l.InTurn input) :=
  match input with
  | .appendReply _ _ _ => inferInstanceAs (Decidable (_ ∧ (_ ∨ (_ ∧ _))))
  | .snapshotReply _ _ _ => inferInstanceAs (Decidable (_ ∈ _))
  | .appendEntries _ | .installSnapshot _ => inferInstanceAs (Decidable (_ ≠ _))
  | .electionTimer | .heartbeatTimer | .requestVote _ | .voteReply .. | .start _ | .resume _
  | .replaceLogWithSnapshot .. | .restart => .isTrue trivial

/-- The peer stays leader, and handles the replies in turn. -/
def Onward (gob : Labgob C B) (l : Leadership C D B) (input : Input C D) : Prop :=
  (∀ r ∈ l.raft.step gob input, r.1.state = .leader) ∧ l.InTurn input

instance (gob : Labgob C B) (l : Leadership C D B) (input : Input C D) :
    Decidable (l.Onward gob input) :=
  inferInstanceAs (Decidable (_ ∧ _))

end Leadership

/-! ## What a step of a leader does to its records -/

namespace Raft

/-- What a step of a leader that stays leader does to its records. -/
inductive RecordStep (rf rf' : Raft C D B) : Input C D → Prop
  | kept {input : Input C D} (hm : rf'.matchIndex = rf.matchIndex)
      (hn : rf'.nextIndex = rf.nextIndex) : RecordStep rf rf' input
  | own {input : Input C D} {i : Int} (hm : rf'.matchIndex = rf.matchIndex.set rf.me i)
      (hn : rf'.nextIndex = rf.nextIndex.set rf.me (i + 1)) : RecordStep rf rf' input
  | success {server : Nat} {args : AppendEntriesArgs C} {reply : AppendEntriesReply}
      (hs : reply.success = true)
      (hm : rf'.matchIndex =
        rf.matchIndex.set server (args.prevLogIndex + args.logEntries.length))
      (hn : rf'.nextIndex =
        rf.nextIndex.set server (args.prevLogIndex + args.logEntries.length + 1)) :
      RecordStep rf rf' (.appendReply server args reply)
  | conflict {server : Nat} {args : AppendEntriesArgs C} {reply : AppendEntriesReply} {next : Int}
      (hs : ¬ reply.success = true) (hm : rf'.matchIndex = rf.matchIndex)
      (hn : rf'.nextIndex = rf.nextIndex.set server next)
      (hi : next = reply.conflictIndex ∨ rf.snapshottedIndex < next) :
      RecordStep rf rf' (.appendReply server args reply)
  | snapshot {server : Nat} {args : InstallSnapshotArgs D} {reply : InstallSnapshotReply}
      (hm : rf'.matchIndex = rf.matchIndex.set server
        (max (rf.matchIndex.getD server 0) args.lastIncludedIndex))
      (hn : rf'.nextIndex = rf.nextIndex.set server
        (max (rf.matchIndex.getD server 0) args.lastIncludedIndex + 1)) :
      RecordStep rf rf' (.snapshotReply server args reply)

theorem RecordStep.length {rf rf' : Raft C D B} {input : Input C D} (h : RecordStep rf rf' input) :
    rf'.matchIndex.length = rf.matchIndex.length := by
  cases h with
  | kept hm | conflict _ hm => rw [hm]
  | own hm | success _ hm | snapshot hm => rw [hm, List.length_set]

theorem recordStep_handle {gob : Labgob C B} {rf r : Raft C D B} {gs : List (Goroutine C D)}
    {server : Nat} {args : AppendEntriesArgs C} {reply : AppendEntriesReply}
    (hst : rf.state = .leader) (hst' : r.state = .leader)
    (h : handleAppendReply gob { rf with goroutines := gs } server args reply = some r) :
    RecordStep rf r (.appendReply server args reply) := by
  unfold handleAppendReply at h
  rw [if_neg (not_not.mpr hst)] at h
  by_cases hs : reply.success = true
  · simp only [if_pos hs] at h
    split at h
    · cases h
      exact .success hs rfl rfl
    · have hr := setCommitIndex_frame h
      exact .success hs (by rw [hr]; rfl) (by rw [hr]; rfl)
  · rw [if_neg hs] at h
    split at h
    · cases h
      rw [stepDown_frame] at hst'
      cases hst'
    · obtain ⟨next, rfl, hi⟩ := recordConflict_cases h
      exact .conflict hs rfl rfl (hi.imp_right And.left)

theorem eq_of_getElem?_set {l : List Int} {j : Nat} {i k : Int} (h : (l.set j i)[j]? = some k) :
    k = i := by
  rw [List.getElem?_set, if_pos rfl] at h
  split at h
  · exact (Option.some.inj h).symm
  · cases h

theorem getD_of_getElem? {l : List Int} {j : Nat} {m : Int} (h : l[j]? = some m) :
    l.getD j 0 = m := by
  rw [List.getD_eq_getElem?_getD, h, Option.getD_some]

section

variable [DecidableEq C] [DecidableEq D] {gob : Labgob C B}

theorem recordStep_appendReply {rf rf' : Raft C D B} {server : Nat}
    {args : AppendEntriesArgs C} {reply : AppendEntriesReply} {out : List (Output C D)}
    (h : rf.step gob (.appendReply server args reply) = some (rf', out))
    (hst : rf.state = .leader) (hst' : rf'.state = .leader) :
    RecordStep rf rf' (.appendReply server args reply) := by
  simp only [step] at h
  obtain ⟨-, hb⟩ := wake_cases h
  obtain ⟨r, hr, he⟩ := Option.map_eq_some_iff.mp hb
  cases he
  exact recordStep_handle hst hst' hr

theorem recordStep_of_step {rf rf' : Raft C D B} {input : Input C D} {out : List (Output C D)}
    (h : rf.step gob input = some (rf', out)) (hst : rf.state = .leader)
    (hst' : rf'.state = .leader) : RecordStep rf rf' input := by
  have hstep := step_cases h
  cases hstep with
  | electionTimer =>
    have hf := candidateState_frame rf
    exact .kept (by rw [hf]; rfl) (by rw [hf]; rfl)
  | refuseLog | grant | snapshot =>
    exact .kept (by rw [adoptTerm_frame]; rfl) (by rw [adoptTerm_frame]; rfl)
  | append _ ha =>
    have hf := ha.frame
    rw [adoptTerm_frame] at hf
    exact .kept (by rw [hf]; rfl) (by rw [hf]; rfl)
  | voteStepDown | snapshotStepDown =>
    rw [stepDown_frame] at hst'
    cases hst'
  | elected _ _ hc | voteCounted _ _ hc =>
    rw [hst] at hc
    cases hc
  | appendIgnored | appendSuccess | appendCommit | appendStepDown | appendConflict =>
    exact recordStep_appendReply h hst hst'
  | snapshotRecorded => exact .snapshot rfl rfl
  | startAppend => exact .own rfl rfl
  | restart =>
    rw [make_frame] at hst'
    cases hst'
  | _ => exact .kept rfl rfl

/-- The log of a leader only grows: a server that takes up a later term, or its log from
another leader, is no leader any more. -/
theorem log_grows {rf rf' : Raft C D B} {input : Input C D} {out : List (Output C D)}
    (h : Step gob rf input rf' out) (hst' : rf'.state = .leader)
    (happend : ∀ args, input = .appendEntries args → args.term ≠ rf.currentTerm)
    (hinstall : ∀ args, input = .installSnapshot args → args.term ≠ rf.currentTerm) :
    rf.lastLogIndex ≤ rf'.lastLogIndex ∧ rf.snapshottedIndex ≤ rf'.snapshottedIndex := by
  cases h with
  | electionTimer =>
    rw [candidateState_frame]
    exact ⟨le_refl _, le_refl _⟩
  | refuseLog | grant =>
    rw [adoptTerm_frame]
    exact ⟨le_refl _, le_refl _⟩
  | @append args r reply hterm ha =>
    have hlt : rf.currentTerm < args.term := by
      have := happend args rfl
      omega
    have hf := ha.frame
    have hst : (rf.adoptTerm args.term).state = .leader := by
      rw [hf] at hst'
      exact hst'
    rw [adoptTerm_of_lt hlt] at hst
    cases hst
  | @snapshot args gs hterm =>
    have hlt : rf.currentTerm < args.term := by
      have := hinstall args rfl
      omega
    have hst : (rf.adoptTerm args.term).state = .leader := hst'
    rw [adoptTerm_of_lt hlt] at hst
    cases hst
  | voteStepDown | appendStepDown | snapshotStepDown =>
    rw [stepDown_frame] at hst'
    cases hst'
  | appendCommit _ _ _ _ hr =>
    rw [setCommitIndex_frame hr]
    exact ⟨le_refl _, le_refl _⟩
  | @startAppend command term =>
    refine ⟨?_, le_refl _⟩
    show ((rf.logs.length - 1 : Int)) + rf.snapshottedIndex ≤
      ((rf.logs ++ [(⟨.client command, term⟩ : LogEntry C)]).length - 1 : Int) + rf.snapshottedIndex
    rw [List.length_append]
    omega
  | @replaced index snapshot logs hindex hlogs =>
    refine ⟨?_, le_of_lt hindex⟩
    obtain ⟨-, hle, rfl⟩ := CheckedSlice.drop_eq_some hlogs
    show ((rf.logs.length - 1 : Int)) + rf.snapshottedIndex ≤
      ((rf.logs.drop (index - rf.snapshottedIndex).toNat).length - 1 : Int) + index
    unfold getRelativeLogIndex at hle
    rw [List.length_drop]
    omega
  | restart =>
    rw [make_frame] at hst'
    cases hst'
  | _ => exact ⟨le_refl _, le_refl _⟩

/-- An `AppendEntries` request is sent with all that the leader has. -/
theorem sentTo_reach {rf rf' : Raft C D B} {input : Input C D} {out : List (Output C D)}
    (h : Step gob rf input rf' out) {s : Nat} {r : Replication C D}
    (hr : r ∈ Replication.sentTo s out) :
    r.reach ≤ rf'.lastLogIndex ∧ ∀ args, r = .append args → r.reach = rf'.lastLogIndex := by
  have hcall := Replication.call_of_mem_sentTo hr
  cases h with
  | @heartbeat server entries prev prevLogIndex _ _ _ he =>
    obtain ⟨-, hle, rfl⟩ := CheckedSlice.drop_eq_some he
    have hreach : prevLogIndex + ((rf.logs.drop
        (rf.getRelativeLogIndex (prevLogIndex + 1)).toNat).length : Int) = rf.lastLogIndex := by
      simp only [getRelativeLogIndex, lastLogIndex, getAbsoluteLogIndex, List.length_drop] at hle ⊢
      omega
    cases r with
    | append args =>
      simp only [List.mem_singleton, Output.call.injEq, Replication.request,
        Request.appendEntries.injEq] at hcall
      rw [hcall.2]
      exact ⟨le_of_eq hreach, fun _ _ => hreach⟩
    | snapshot args => simp [Replication.request] at hcall
  | @sync server guard _ _ hguard =>
    have hpos : 0 < rf.logs.length := by
      cases hl : rf.logs with
      | nil => simp [hl] at hguard
      | cons e es => simp
    cases r with
    | append args => simp [Replication.request] at hcall
    | snapshot args =>
      simp only [List.mem_singleton, Output.call.injEq, Replication.request,
        Request.installSnapshot.injEq] at hcall
      rw [hcall.2]
      refine ⟨?_, fun _ he => by cases he⟩
      show rf.snapshottedIndex ≤ ((rf.logs.length - 1 : Int)) + rf.snapshottedIndex
      omega
  | electionTimer => cases r <;> simp [Replication.request] at hcall
  | _ => simp at hcall

end

theorem convertToLeader_behind {rf : Raft C D B} (hne : rf.logs ≠ []) :
    rf.convertToLeader.Behind := by
  have hpos : 0 < rf.logs.length := List.length_pos_of_ne_nil hne
  intro j m k _ hm hk
  have hm' : (rf.matchIndex.map fun _ => rf.snapshottedIndex)[j]? = some m := hm
  have hk' : (rf.nextIndex.map fun _ => rf.getAbsoluteLogIndex rf.logs.length)[j]? = some k := hk
  rw [List.getElem?_map] at hm' hk'
  obtain ⟨-, -, rfl⟩ := Option.map_eq_some_iff.mp hm'
  obtain ⟨-, -, rfl⟩ := Option.map_eq_some_iff.mp hk'
  unfold getAbsoluteLogIndex
  omega

end Raft

/-! ## The records and the requests that are still to be answered -/

namespace Leadership

/-- What the record `m` of the peer `s` has to do with the requests to `s`. -/
structure Tracks (l : Leadership C D B) (s : Nat) (m : Int) : Prop where
  le : m ≤ l.raft.lastLogIndex
  unanswered : ∀ args, .append args ∈ l.queue s → m ≤ (Replication.append args : Replication C D).reach
  fresh : s ∉ l.accepted → m = l.base

/-- An `AppendEntries` request reaches as far as every request before it. -/
def Before (a b : Replication C D) : Prop := ∀ args, b = .append args → a.reach ≤ b.reach

structure Sound (l : Leadership C D B) : Prop where
  leads : l.raft.state = .leader
  base_le : l.base ≤ l.raft.snapshottedIndex
  reach_le : ∀ s, ∀ r ∈ l.queue s, r.reach ≤ l.raft.lastLogIndex
  sorted : ∀ s, (l.queue s).Pairwise Before
  tracks : ∀ s m, s ≠ l.raft.me → l.raft.matchIndex[s]? = some m → l.Tracks s m
  behind : l.raft.Behind

theorem sound_start {rf : Raft C D B} (hne : rf.logs ≠ []) : (start rf).Sound where
  leads := rfl
  base_le := le_refl _
  reach_le := fun _ _ h => absurd h List.not_mem_nil
  sorted := fun _ => List.Pairwise.nil
  tracks := by
    intro s m _ hm
    have hm' : (rf.matchIndex.map fun _ => rf.snapshottedIndex)[s]? = some m := hm
    rw [List.getElem?_map] at hm'
    obtain ⟨-, -, rfl⟩ := Option.map_eq_some_iff.mp hm'
    have hpos : 0 < rf.logs.length := List.length_pos_of_ne_nil hne
    refine ⟨?_, fun _ h => absurd h List.not_mem_nil, fun _ => rfl⟩
    show rf.snapshottedIndex ≤ ((rf.logs.length - 1 : Int)) + rf.snapshottedIndex
    omega
  behind := Raft.convertToLeader_behind hne

/-- New requests go to the end of the queues, and `AppendEntries` requests reach to the end
of the log. -/
theorem Sound.send {l : Leadership C D B} (h : l.Sound) {out : List (Output C D)}
    (hout : ∀ s, ∀ r ∈ Replication.sentTo s out, r.reach ≤ l.raft.lastLogIndex ∧
      ∀ args, r = .append args → r.reach = l.raft.lastLogIndex) :
    Sound { l with queue := fun s => l.queue s ++ Replication.sentTo s out } := by
  have hreach : ∀ s, ∀ r ∈ l.queue s ++ Replication.sentTo s out, r.reach ≤ l.raft.lastLogIndex := by
    intro s r hr
    rcases List.mem_append.mp hr with hr | hr
    · exact h.reach_le s r hr
    · exact (hout s r hr).1
  refine ⟨h.leads, h.base_le, hreach, fun s => ?_, fun s m hs hm => ?_, h.behind⟩
  · have hlast : ∀ a ∈ l.queue s ++ Replication.sentTo s out, ∀ b ∈ Replication.sentTo s out,
        Before a b := fun a ha b hb args he => (hout s b hb).2 args he ▸ hreach s a ha
    refine List.pairwise_append.mpr ⟨h.sorted s, ?_, fun a ha b hb => ?_⟩
    · exact List.pairwise_of_forall_mem_list fun a ha b hb =>
        hlast a (List.mem_append_right _ ha) b hb
    · exact hlast a (List.mem_append_left _ ha) b hb
  · have ht := h.tracks s m hs hm
    refine ⟨ht.le, fun args hargs => ?_, ht.fresh⟩
    rcases List.mem_append.mp hargs with hargs | hargs
    · exact ht.unanswered args hargs
    · exact (hout s _ hargs).2 args rfl ▸ ht.le

variable [DecidableEq C] [DecidableEq D]

theorem answer_queue (l : Leadership C D B) (server : Nat) (r : Replication C D) (success : Bool)
    (s : Nat) : (l.answer server r success).queue s <:+ l.queue s := by
  by_cases hs : s = server
  · subst hs
    simp only [answer, Function.update_self]
    exact Replication.behind_suffix r _
  · simp only [answer, Function.update_of_ne hs]
    exact List.suffix_refl _

theorem handle_queue (l : Leadership C D B) (input : Input C D) (s : Nat) :
    (l.handle input).queue s <:+ l.queue s := by
  cases input with
  | appendReply | snapshotReply => exact answer_queue _ _ _ _ _
  | _ => exact List.suffix_refl _

theorem handle_accepted (l : Leadership C D B) (input : Input C D) :
    l.accepted ⊆ (l.handle input).accepted := by
  cases input with
  | appendReply | snapshotReply =>
    simp only [handle, answer]
    split
    · exact List.subset_cons_self _ _
    · exact List.Subset.refl _
  | _ => exact List.Subset.refl _

theorem handle_base (l : Leadership C D B) (input : Input C D) : (l.handle input).base = l.base := by
  cases input <;> rfl

/-- The leader has handled the input and is now `rf`. -/
def after (l : Leadership C D B) (input : Input C D) (rf : Raft C D B) : Leadership C D B :=
  { l.handle input with raft := rf }

variable {l : Leadership C D B} {input : Input C D} {rf : Raft C D B}

theorem Tracks.after {s : Nat} {m : Int} (h : l.Tracks s m)
    (hlog : l.raft.lastLogIndex ≤ rf.lastLogIndex) : (l.after input rf).Tracks s m where
  le := le_trans h.le hlog
  unanswered := fun args hargs => h.unanswered args ((handle_queue l input s).mem hargs)
  fresh := fun hs => (h.fresh fun ha => hs (handle_accepted l input ha)).trans
    (handle_base l input).symm

/-- How the record of one follower goes on. -/
structure Moves (l l' : Leadership C D B) (s : Nat) (m m' : Int) : Prop where
  now : l'.raft.matchIndex[s]? = some m'
  le : m ≤ m'
  tracks : l'.Tracks s m'
  behind : ∀ k, l'.raft.nextIndex[s]? = some k → m' < k

theorem Sound.moves_kept (h : l.Sound) (hlog : l.raft.lastLogIndex ≤ rf.lastLogIndex) {s : Nat}
    {m : Int} (hs : s ≠ l.raft.me) (hm : l.raft.matchIndex[s]? = some m)
    (hm' : rf.matchIndex[s]? = l.raft.matchIndex[s]?)
    (hn' : rf.nextIndex[s]? = l.raft.nextIndex[s]?) : Moves l (l.after input rf) s m m where
  now := hm'.trans hm
  le := le_refl m
  tracks := (h.tracks s m hs hm).after hlog
  behind := fun k hk => h.behind s m k hs hm (hn'.symm.trans hk)

theorem Sound.moves_elsewhere (h : l.Sound) (hlog : l.raft.lastLogIndex ≤ rf.lastLogIndex)
    {s j : Nat} {m i k : Int} (hs : s ≠ l.raft.me) (hm : l.raft.matchIndex[s]? = some m)
    (hj : j ≠ s) (hm' : rf.matchIndex = l.raft.matchIndex.set j i)
    (hn' : rf.nextIndex = l.raft.nextIndex.set j k) : Moves l (l.after input rf) s m m := by
  refine h.moves_kept hlog hs hm ?_ ?_
  · rw [hm', List.getElem?_set_ne hj]
  · rw [hn', List.getElem?_set_ne hj]

/-- A request that is accepted in its turn brings the record forward, and the requests
behind it reach as far. -/
theorem Sound.moves_answered (h : l.Sound) (hlog : l.raft.lastLogIndex ≤ rf.lastLogIndex) {s : Nat}
    {m : Int} {r : Replication C D} (hs : s ≠ l.raft.me) (hm : l.raft.matchIndex[s]? = some m)
    (hr : r ∈ l.queue s) (hin : l.handle input = l.answer s r true)
    (hm' : rf.matchIndex = l.raft.matchIndex.set s (max m r.reach))
    (hn' : rf.nextIndex = l.raft.nextIndex.set s (max m r.reach + 1)) :
    Moves l (l.after input rf) s m (max m r.reach) := by
  have ht := h.tracks s m hs hm
  have hqueue : (l.after input rf).queue s = r.behind (l.queue s) := by
    simp only [Leadership.after, hin, answer, Function.update_self]
  have hsorted := (h.sorted s).sublist (Replication.cons_behind_suffix hr).sublist
  refine ⟨?_, le_max_left _ _, ⟨?_, ?_, ?_⟩, ?_⟩
  · show rf.matchIndex[s]? = _
    rw [hm', List.getElem?_set_self (List.getElem?_eq_some_iff.mp hm).1]
  · exact max_le (le_trans ht.le hlog) (le_trans (h.reach_le s r hr) hlog)
  · intro args hargs
    rw [hqueue] at hargs
    exact max_le (ht.unanswered args ((Replication.behind_suffix r _).mem hargs))
      (List.rel_of_pairwise_cons hsorted hargs args rfl)
  · intro hfresh
    simp only [Leadership.after, hin, answer, if_true] at hfresh
    exact absurd List.mem_cons_self hfresh
  · intro k hk
    have hk' : rf.nextIndex[s]? = some k := hk
    rw [hn'] at hk'
    rw [Raft.eq_of_getElem?_set hk']
    omega

/-- A rejection comes from a peer that has accepted nothing, so its record is `base`. -/
theorem Sound.moves_rejected (h : l.Sound) (hlog : l.raft.lastLogIndex ≤ rf.lastLogIndex) {s : Nat}
    {m next : Int} (hs : s ≠ l.raft.me) (hm : l.raft.matchIndex[s]? = some m)
    (hfresh : s ∉ l.accepted) (hnext : l.base < next)
    (hm' : rf.matchIndex = l.raft.matchIndex) (hn' : rf.nextIndex = l.raft.nextIndex.set s next) :
    Moves l (l.after input rf) s m m := by
  have ht := h.tracks s m hs hm
  refine ⟨?_, le_refl m, ht.after hlog, ?_⟩
  · show rf.matchIndex[s]? = _
    rw [hm', hm]
  · intro k hk
    have hk' : rf.nextIndex[s]? = some k := hk
    rw [hn'] at hk'
    rw [Raft.eq_of_getElem?_set hk', ht.fresh hfresh]
    exact hnext

theorem Sound.moves (h : l.Sound) (hin : l.InTurn input) (hrec : l.raft.RecordStep rf input)
    (hlog : l.raft.lastLogIndex ≤ rf.lastLogIndex) {s : Nat} {m : Int} (hs : s ≠ l.raft.me)
    (hm : l.raft.matchIndex[s]? = some m) : ∃ m', Moves l (l.after input rf) s m m' := by
  cases hrec with
  | kept hm' hn' => exact ⟨m, h.moves_kept hlog hs hm (by rw [hm']) (by rw [hn'])⟩
  | own hm' hn' => exact ⟨m, h.moves_elsewhere hlog hs hm (Ne.symm hs) hm' hn'⟩
  | @success server args reply hok hm' hn' =>
    by_cases he : server = s
    · subst he
      have hmax : max m (Replication.append args : Replication C D).reach =
          args.prevLogIndex + args.logEntries.length :=
        max_eq_right ((h.tracks server m hs hm).unanswered args hin.1)
      exact ⟨_, h.moves_answered hlog hs hm hin.1 (by rw [handle, hok]) (by rw [hmax]; exact hm')
        (by rw [hmax]; exact hn')⟩
    · exact ⟨m, h.moves_elsewhere hlog hs hm he hm' hn'⟩
  | @conflict server args reply next hno hm' hn' hi =>
    by_cases he : server = s
    · subst he
      obtain ⟨hfresh, hbase⟩ := hin.2.resolve_left hno
      have hnext : l.base < next := by
        rcases hi with rfl | hi
        · exact hbase
        · exact lt_of_le_of_lt h.base_le hi
      exact ⟨m, h.moves_rejected hlog hs hm hfresh hnext hm' hn'⟩
    · refine ⟨m, h.moves_kept hlog hs hm (by rw [hm']) ?_⟩
      rw [hn', List.getElem?_set_ne he]
  | @snapshot server args reply hm' hn' =>
    by_cases he : server = s
    · subst he
      rw [Raft.getD_of_getElem? hm] at hm' hn'
      exact ⟨_, h.moves_answered hlog hs hm hin rfl hm' hn'⟩
    · exact ⟨m, h.moves_elsewhere hlog hs hm he hm' hn'⟩

theorem Sound.after (h : l.Sound) (hin : l.InTurn input) (hrec : l.raft.RecordStep rf input)
    (hlog : l.raft.lastLogIndex ≤ rf.lastLogIndex ∧ l.raft.snapshottedIndex ≤ rf.snapshottedIndex)
    (hst : rf.state = .leader) (hme : rf.me = l.raft.me) :
    (l.after input rf).Sound ∧ l.raft.Forward rf := by
  have hmoves : ∀ s m', s ≠ rf.me → rf.matchIndex[s]? = some m' →
      (l.after input rf).Tracks s m' ∧ ∀ k, rf.nextIndex[s]? = some k → m' < k := by
    intro s m' hs hm'
    have hlt := (List.getElem?_eq_some_iff.mp hm').1
    rw [hrec.length] at hlt
    obtain ⟨m'', hmv⟩ := h.moves hin hrec hlog.1 (hme ▸ hs) (List.getElem?_eq_getElem hlt)
    obtain rfl : m'' = m' := Option.some.inj (hmv.now.symm.trans hm')
    exact ⟨hmv.tracks, hmv.behind⟩
  refine ⟨⟨hst, ?_, ?_, ?_, ?_, ?_⟩, hme, ?_⟩
  · show (l.handle input).base ≤ _
    rw [handle_base]
    exact le_trans h.base_le hlog.2
  · intro s r hr
    exact le_trans (h.reach_le s r ((handle_queue l input s).mem hr)) hlog.1
  · exact fun s => (h.sorted s).sublist (handle_queue l input s).sublist
  · exact fun s m' hs hm' => (hmoves s m' hs hm').1
  · exact fun s m' k hs hm' => (hmoves s m' hs hm').2 k
  · intro s m hs hm
    obtain ⟨m', hmv⟩ := h.moves hin hrec hlog.1 hs hm
    exact ⟨m', hmv.now, hmv.le⟩

variable {gob : Labgob C B} {l' : Leadership C D B}

theorem Sound.step (h : l.Sound) (hok : l.Onward gob input) (hs : l.step gob input = some l') :
    l'.Sound ∧ l.raft.Forward l'.raft := by
  obtain ⟨⟨rf, out⟩, hstep, rfl⟩ := Option.map_eq_some_iff.mp hs
  have hst : rf.state = .leader := hok.1 _ hstep
  have hcases := Raft.step_cases hstep
  have hlog := Raft.log_grows hcases hst (fun _ he => by subst he; exact hok.2)
    (fun _ he => by subst he; exact hok.2)
  obtain ⟨hafter, hfwd⟩ := h.after hok.2 (Raft.recordStep_of_step hstep h.leads hst) hlog hst
    (Raft.step_config hcases).1
  exact ⟨hafter.send fun _ _ hr => Raft.sentTo_reach hcases hr, hfwd⟩

theorem Sound.run {es : List (Input C D)} (h : l.Sound)
    (hrun : Runs.Run (Leadership.step gob) (Onward gob) l es l') :
    l'.Sound ∧ l.raft.Forward l'.raft := by
  refine hrun.invariant (fun t => t.Sound ∧ l.raft.Forward t.raft) ⟨h, Raft.Forward.refl _⟩ ?_
  rintro t input u ⟨ht, hf⟩ hok hs
  obtain ⟨hu, hf'⟩ := ht.step hok hs
  exact ⟨hu, hf.trans hf'⟩

end Leadership

namespace Raft

/-- Progress records move forward: in a leadership that handles the replies of each
follower in the order of its requests, no follower's `matchIndex` goes down from one moment to a
later one, and it stays below `nextIndex`. -/
theorem progress_moves_forward [DecidableEq C] [DecidableEq D] {gob : Labgob C B}
    {rf₀ : Raft C D B} (hne : rf₀.logs ≠ []) {l₁ l₂ : Leadership C D B}
    {es₁ es₂ : List (Input C D)}
    (h₁ : Runs.Run (Leadership.step gob) (Leadership.Onward gob) (.start rf₀) es₁ l₁)
    (h₂ : Runs.Run (Leadership.step gob) (Leadership.Onward gob) l₁ es₂ l₂) :
    l₁.raft.Forward l₂.raft ∧ l₂.raft.Behind := by
  have hsound := ((Leadership.sound_start hne).run h₁).1
  obtain ⟨hsound', hfwd⟩ := hsound.run h₂
  exact ⟨hfwd, hsound'.behind⟩

/-- A new leader sends its empty log to peer 1, appends an entry and sends it as well. -/
def sendsTwice : List (Input Nat Unit) :=
  [.resume (.heartbeat 1), .start 10, .resume (.start 10 0), .resume (.heartbeat 1)]

/-- Peer 1 has accepted both requests. -/
def twiceAccepted : List (Input Nat Unit) :=
  [.appendReply 1 ⟨0, 0, 0, 0, [], 0⟩ { success := true },
    .appendReply 1 ⟨0, 0, 0, 0, [⟨.client 10, 0⟩], 0⟩ { success := true }]

theorem progress_moves_forward_twiceAccepted :
    ∃ l₁ l₂ : Leadership Nat Unit (Word Nat), l₁.raft.matchIndex = [1, 0, 0] ∧
      l₂.raft.matchIndex = [1, 1, 0] ∧ l₁.raft.Forward l₂.raft ∧ l₂.raft.Behind := by
  have hexec : (Runs.exec (Leadership.step (Labgob.words Nat))
      (Leadership.Onward (Labgob.words Nat)) (.start (make (Labgob.words Nat) 3 0 makePersister))
      sendsTwice).map (·.raft.matchIndex) = some [1, 0, 0] := by decide +kernel
  have hexec₂ : (Runs.exec (Leadership.step (Labgob.words Nat))
      (Leadership.Onward (Labgob.words Nat)) (.start (make (Labgob.words Nat) 3 0 makePersister))
      (sendsTwice ++ twiceAccepted)).map (·.raft.matchIndex) = some [1, 1, 0] := by decide +kernel
  obtain ⟨l₁, h₁, hm₁⟩ := Runs.run_of_exec_map _ hexec
  obtain ⟨l₂, h₂, hm₂⟩ := Runs.run_of_exec_map _ hexec₂
  exact ⟨l₁, l₂, hm₁, hm₂, progress_moves_forward (by decide) h₁ (h₁.rest h₂)⟩

end Raft

namespace Cluster

/-- The leader sends its empty log, then its first entry, to peer 1, which accepts both. The
reply to the second request comes first. -/
def repliesCrossed : List (Event 3 Nat) :=
  plainElection ++ [⟨0, 0, .resume (.heartbeat 1)⟩, ⟨0, 0, .start 10⟩,
    ⟨0, 0, .resume (.start 10 1)⟩, ⟨0, 0, .resume (.heartbeat 1)⟩,
    ⟨0, 1, .appendEntries ⟨1, 0, 0, 0, [], 0⟩⟩,
    ⟨0, 1, .appendEntries ⟨1, 0, 0, 0, [⟨.client 10, 1⟩], 0⟩⟩,
    ⟨1, 0, .appendReply 1 ⟨1, 0, 0, 0, [⟨.client 10, 1⟩], 0⟩ { success := true }⟩]

/-- Then the reply to the first request takes `matchIndex` back. -/
theorem late_reply_lowers_matchIndex :
    ∃ (es : List (Event 3 Nat)) (cl₁ cl₂ : Cluster 3 Nat (Word Nat)),
      Runs.Run (step (Labgob.words Nat)) (fun _ _ => True) (init (Labgob.words Nat) 3) es cl₁ ∧
      cl₁.step (Labgob.words Nat)
        ⟨1, 0, .appendReply 1 ⟨1, 0, 0, 0, [], 0⟩ { success := true }⟩ = some cl₂ ∧
      cl₁.status 0 = (.leader, 1) ∧ cl₂.status 0 = (.leader, 1) ∧
      (cl₁ 0).raft.matchIndex = [1, 1, 0] ∧ (cl₂ 0).raft.matchIndex = [1, 0, 0] := by
  have hexec : (Runs.exec (step (Labgob.words Nat)) (fun _ _ => True) (init (Labgob.words Nat) 3)
      repliesCrossed).map (fun cl => (cl.status 0, (cl 0).raft.matchIndex)) =
        some ((.leader, 1), [1, 1, 0]) := by decide +kernel
  have hexec₂ : (Runs.exec (step (Labgob.words Nat)) (fun _ _ => True) (init (Labgob.words Nat) 3)
      (repliesCrossed ++ [⟨1, 0, .appendReply 1 ⟨1, 0, 0, 0, [], 0⟩ { success := true }⟩])).map
        (fun cl => (cl.status 0, (cl 0).raft.matchIndex)) =
          some ((.leader, 1), [1, 0, 0]) := by decide +kernel
  obtain ⟨cl₁, cl₂, h₁, -, hs, -, hv₁, hv₂⟩ := Runs.step_of_exec_map _ _ hexec hexec₂
  exact ⟨repliesCrossed, cl₁, cl₂, h₁, hs, congrArg Prod.fst hv₁, congrArg Prod.fst hv₂,
    congrArg Prod.snd hv₁, congrArg Prod.snd hv₂⟩

end Cluster

end DistributionSystem
