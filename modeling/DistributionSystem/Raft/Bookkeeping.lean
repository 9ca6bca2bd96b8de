import DistributionSystem.Raft.Safety

/-! The leader's books, `matchIndex` and `nextIndex`, in the runs of careful steps in
which a leader also uses a reply only for what it answers. What a leader has counted for
a peer, the peer holds until it hears from a leader of a later term; only the value that
`matchIndex` starts with, the `snapshottedIndex` at the election, says nothing about
the peer. -/

namespace DistributionSystem

open LeaderLog

variable {C D B : Type} {n : Nat}

/-- The term of a request that only leaders send. -/
def Request.leaderTerm : Request C D → Option Int
  | .requestVote _ => none
  | .appendEntries args => some args.term
  | .installSnapshot args => some args.term

/-- A leader of the term `t` was answered. -/
def Hears (out : List (Output C D)) (t : Int) : Prop :=
  ∃ request reply, .reply request reply ∈ out ∧ request.leaderTerm = some t

/-- A leader of a term later than `t` was answered. -/
def HearsAfter (history : List (Output C D)) (t : Int) : Prop :=
  ∃ t', t < t' ∧ Hears history t'

theorem HearsAfter.append {history : List (Output C D)} {t : Int} (h : HearsAfter history t)
    (out : List (Output C D)) : HearsAfter (history ++ out) t := by
  obtain ⟨t', hlt, request, reply, hm, ht⟩ := h
  exact ⟨t', hlt, request, reply, List.mem_append_left _ hm, ht⟩

/-! ## One step -/

namespace Raft

/-- A rejection is used only in the term of its request, and a reply to a snapshot only
if the snapshot was not refused for its term. -/
def TimelyReply (rf : Raft C D B) : Input C D → Prop
  | .appendReply _ args reply => rf.state = .leader → reply.success = false →
    reply.term ≤ rf.currentTerm → args.term = rf.currentTerm
  | .snapshotReply _ args reply => rf.state = .leader → reply.term ≤ rf.currentTerm →
    reply.term ≤ args.term
  | _ => True

instance (rf : Raft C D B) (input : Input C D) : Decidable (rf.TimelyReply input) :=
  match input with
  | .appendReply .. => inferInstanceAs (Decidable (_ → _ → _ → _))
  | .snapshotReply .. => inferInstanceAs (Decidable (_ → _ → _))
  | .electionTimer | .heartbeatTimer | .requestVote _ | .appendEntries _ | .installSnapshot _
  | .voteReply .. | .start _ | .resume _ | .replaceLogWithSnapshot .. | .restart => .isTrue trivial

theorem adoptTerm_eq {rf : Raft C D B} {t : Int} (h : rf.currentTerm ≤ t) :
    (rf.adoptTerm t).currentTerm = t := by
  rw [adoptTerm_currentTerm]
  omega

theorem AppendStep.currentTerm {rf r : Raft C D B} {args : AppendEntriesArgs C}
    {reply : AppendEntriesReply} (h : AppendStep (rf.adoptTerm args.term) args r reply)
    (ht : rf.currentTerm ≤ args.term) : r.currentTerm = args.term := by
  rw [h.frame]
  exact adoptTerm_eq ht

section

variable [DecidableEq C] [DecidableEq D] {gob : Labgob C B} {rf rf' : Raft C D B}
  {input : Input C D} {out : List (Output C D)}

/-- What a reply to `AppendEntries` says about the replier. -/
theorem step_appendReply (hs : Step gob rf input rf' out) {args : AppendEntriesArgs C}
    {reply : AppendEntriesReply}
    (hm : .reply (.appendEntries args) (.appendEntries reply) ∈ out) :
    input = .appendEntries args ∧ (reply.success = true → rf'.currentTerm = args.term) ∧
      (reply.success = false → reply.conflictIndex ≤ max args.prevLogIndex 0) := by
  cases hs with
  | appendOld hterm =>
    simp only [List.mem_singleton, Output.reply.injEq, Request.appendEntries.injEq,
      Reply.appendEntries.injEq] at hm
    obtain ⟨rfl, rfl⟩ := hm
    exact ⟨rfl, fun hc => absurd hc (by simp), fun _ => Int.le_max_right _ _⟩
  | @append args' r reply' hterm happ =>
    simp only [List.mem_singleton, Output.reply.injEq, Request.appendEntries.injEq,
      Reply.appendEntries.injEq] at hm
    obtain ⟨rfl, rfl⟩ := hm
    refine ⟨rfl, fun _ => happ.currentTerm hterm, fun hf => ?_⟩
    cases happ with
    | covered | replaced | merged => exact absurd hf (by simp)
    | rejected _ _ _ hi => exact Int.le_trans hi (Int.le_max_left _ _)
  | _ => simp at hm

/-- A snapshot that was not refused for its term is below the replier's own. -/
theorem step_snapshotReply (hs : Step gob rf input rf' out) {args : InstallSnapshotArgs D}
    {reply : InstallSnapshotReply}
    (hm : .reply (.installSnapshot args) (.installSnapshot reply) ∈ out)
    (hterm : reply.term ≤ args.term) : args.lastIncludedIndex ≤ rf'.snapshottedIndex := by
  cases hs with
  | snapshotOld h =>
    simp only [List.mem_singleton, Output.reply.injEq, Request.installSnapshot.injEq,
      Reply.installSnapshot.injEq] at hm
    obtain ⟨rfl, rfl⟩ := hm
    have hterm' : rf.currentTerm ≤ args.term := hterm
    show args.lastIncludedIndex ≤ rf.snapshottedIndex
    omega
  | snapshot =>
    simp only [List.mem_cons, List.not_mem_nil, or_false, reduceCtorEq, false_or,
      Output.reply.injEq, Request.installSnapshot.injEq] at hm
    obtain ⟨rfl, -⟩ := hm
    exact Int.le_refl _
  | _ => simp at hm

end

end Raft

variable [DecidableEq C]

section

variable {gob : Labgob C B} {cl : Cluster n C B} {A : Ledger n C} {src d : Fin n}
  {input : Input C (List (LogEntry C))} {rf' : Raft C (List (LogEntry C)) B}
  {out : List (Output C (List (LogEntry C)))}

/-- A peer loses entries only to a leader of its term, and its snapshot only grows. -/
theorem Refines.step_log (h : Refines cl A) (hi : cl.ElectionInv gob)
    (ha : cl.Allowed src d input) (hs : Raft.Step gob (cl d).raft input rf' out) :
    (cl d).raft.snapshottedIndex ≤ rf'.snapshottedIndex ∧
      ((cl d).raft.fullLog <+: rf'.fullLog ∨ Hears out rf'.currentTerm) := by
  have hpeer := h.peer d
  cases hs with
  | electionTimer =>
    rw [Raft.candidateState_frame]
    exact ⟨Int.le_refl _, Or.inl (List.prefix_refl _)⟩
  | refuseLog | grant =>
    rw [Raft.adoptTerm_frame]
    exact ⟨Int.le_refl _, Or.inl (List.prefix_refl _)⟩
  | append hterm happ =>
    refine ⟨?_, Or.inr ⟨_, _, List.mem_singleton_self _,
      congrArg some (happ.currentTerm hterm).symm⟩⟩
    rw [happ.frame, Raft.adoptTerm_frame]
    exact Int.le_refl _
  | snapshot hterm hindex =>
    exact ⟨hindex, Or.inr ⟨_, _, List.mem_cons_of_mem _ (List.mem_singleton_self _),
      congrArg some (Raft.adoptTerm_eq hterm).symm⟩⟩
  | voteStepDown | appendStepDown | snapshotStepDown =>
    rw [Raft.stepDown_frame]
    exact ⟨Int.le_refl _, Or.inl (List.prefix_refl _)⟩
  | appendCommit _ _ _ _ hr =>
    rw [Raft.setCommitIndex_frame hr]
    exact ⟨Int.le_refl _, Or.inl (List.prefix_refl _)⟩
  | @startAppend command term =>
    obtain ⟨g, rest, hlogs, -⟩ := hpeer.shape.guard
    refine ⟨Int.le_refl _, Or.inl ⟨[⟨.client command, term⟩], ?_⟩⟩
    show (covered _ ++ (cl d).raft.logs.tail) ++ _ = covered _ ++ ((cl d).raft.logs ++ _).tail
    rw [hlogs, List.append_assoc]
    rfl
  | replaced hindex hlogs =>
    obtain ⟨hd, rfl⟩ := ha
    obtain ⟨-, hfull⟩ := hpeer.compact gob hindex hd hlogs
    refine ⟨Int.le_of_lt hindex, Or.inl ?_⟩
    exact hfull ▸ List.prefix_refl _
  | restart =>
    have hrec := (hi.durable d).recovers
    obtain ⟨-, hfull⟩ := hpeer.restart hrec (hi.config d).2
    exact ⟨Int.le_of_eq hrec.2.2.1.symm, Or.inl (hfull ▸ List.prefix_refl _)⟩
  | _ => exact ⟨Int.le_refl _, Or.inl (List.prefix_refl _)⟩

end

/-! ## Replies -/

/-- The number of entries that a request asks its receiver to hold. -/
def AppendEntriesArgs.matchIndex (args : AppendEntriesArgs C) : Int :=
  args.prevLogIndex + args.logEntries.length

/-- What the replies of a peer stand for. -/
structure Replies (A : Ledger n C) (p : Peer C (List (LogEntry C)) B) : Prop where
  kept : ∀ (args : AppendEntriesArgs C) (reply : AppendEntriesReply),
    .reply (.appendEntries args) (.appendEntries reply) ∈ p.history →
    reply.success = true → HearsAfter p.history args.term ∨
      (A.leaderLog args.term).take args.matchIndex.toNat <+: p.raft.fullLog
  rejected : ∀ (args : AppendEntriesArgs C) (reply : AppendEntriesReply),
    .reply (.appendEntries args) (.appendEntries reply) ∈ p.history →
    reply.success = false → reply.conflictIndex ≤ args.prevLogIndex ∧
      args.prevLogIndex ≤ (A.leaderLog args.term).length
  installed : ∀ args reply, .reply (.installSnapshot args) (.installSnapshot reply) ∈ p.history →
    reply.term ≤ args.term → args.lastIncludedIndex ≤ p.raft.snapshottedIndex

section

variable {gob : Labgob C B} {cl : Cluster n C B} {A A' : Ledger n C} {src d : Fin n}
  {input : Input C (List (LogEntry C))} {rf' : Raft C (List (LogEntry C)) B}
  {out : List (Output C (List (LogEntry C)))}

/-- A reply that reports success is an acknowledgement. -/
theorem Refines.acknowledged (h : Refines cl A) {j : Fin n} {args : AppendEntriesArgs C}
    {reply : AppendEntriesReply}
    (hm : .reply (.appendEntries args) (.appendEntries reply) ∈ (cl j).history)
    (hs : reply.success = true) : A.ack j args.term args.matchIndex.toNat ∧
      args.matchIndex ≤ (A.leaderLog args.term).length := by
  obtain ⟨k, hk, hack⟩ := h.sent j _ hm hs
  have hk' : args.matchIndex = k := hk
  have hlen := h.sound.acks.ack_length _ _ _ hack
  rw [hk', Int.toNat_natCast]
  exact ⟨hack, by omega⟩

/-- A peer that is still in the term of its acknowledgement holds what it has
acknowledged. -/
theorem Refines.holds (h : Refines cl A) {j : Fin n} {args : AppendEntriesArgs C}
    {reply : AppendEntriesReply}
    (hm : .reply (.appendEntries args) (.appendEntries reply) ∈ (cl j).history)
    (hs : reply.success = true) (ht : (cl j).raft.currentTerm ≤ args.term) :
    (A.leaderLog args.term).take args.matchIndex.toNat <+: (cl j).raft.fullLog := by
  obtain ⟨hack, -⟩ := h.acknowledged hm hs
  rcases h.sound.acks.ack_log _ _ _ hack with hp | ⟨t', -, -, hlt, hle, -⟩
  · rwa [h.log] at hp
  · rw [h.now] at hle
    omega

theorem Replies.mono (hr : Replies A (cl d)) (h : Refines cl A) (hx : Extends A A') :
    Replies A' (cl d) := by
  refine ⟨fun args reply hm hs => ?_, fun args reply hm hs => ?_, hr.installed⟩
  · obtain ⟨-, hlen⟩ := h.acknowledged hm hs
    rw [take_leaderLog (hx.leaderLog _) (by omega)]
    exact hr.kept args reply hm hs
  · obtain ⟨hle, hprev⟩ := hr.rejected args reply hm hs
    have := (hx.leaderLog args.term).length_le
    exact ⟨hle, by omega⟩

theorem Replies.step (hr : Replies A (cl d)) (h : Refines cl A) (hi : cl.ElectionInv gob)
    (ha : cl.Allowed src d input) (hs : Raft.Step gob (cl d).raft input rf' out)
    (hx : Extends A A') (h' : Refines (cl.set d ⟨rf', (cl d).history ++ out⟩) A') :
    Replies A' ⟨rf', (cl d).history ++ out⟩ := by
  have hold := hr.mono h hx
  obtain ⟨hsnap, hlog⟩ := h.step_log hi ha hs
  refine ⟨fun args reply hm hsucc => ?_, fun args reply hm hf => ?_, fun args reply hm ht => ?_⟩
  · have hholds : rf'.currentTerm ≤ args.term →
        (A'.leaderLog args.term).take args.matchIndex.toNat <+: rf'.fullLog := by
      intro ht
      have hm' : .reply (.appendEntries args) (.appendEntries reply) ∈
          (cl.set d ⟨rf', (cl d).history ++ out⟩ d).history := by
        rw [Cluster.set_self]
        exact hm
      have hp := h'.holds hm' hsucc (by rw [Cluster.set_self]; exact ht)
      rwa [Cluster.set_self] at hp
    rcases List.mem_append.mp hm with hm | hm
    · rcases hold.kept args reply hm hsucc with hheard | hp
      · exact Or.inl (hheard.append out)
      · rcases hlog with hle | ⟨request, rep, hmem, hterm⟩
        · exact Or.inr (hp.trans hle)
        · -- the leader that was answered is of a later term or of the same one
          by_cases hlt : args.term < rf'.currentTerm
          · exact Or.inl ⟨_, hlt, request, rep, List.mem_append_right _ hmem, hterm⟩
          · exact Or.inr (hholds (Int.not_lt.mp hlt))
    · exact Or.inr (hholds (Int.le_of_eq ((Raft.step_appendReply hs hm).2.1 hsucc)))
  · rcases List.mem_append.mp hm with hm | hm
    · exact hold.rejected args reply hm hf
    · obtain ⟨rfl, -, hconf⟩ := Raft.step_appendReply hs hm
      obtain ⟨-, sent, hargs⟩ := h.sent src _ ha
      have hpos := hargs.prev_nonneg
      have hprev := hargs.prev_le
      have hsent := (hargs.sent_le.trans (hx.leaderLog _)).length_le
      have hc := hconf hf
      exact ⟨by omega, by omega⟩
  · rcases List.mem_append.mp hm with hm | hm
    · exact Int.le_trans (hold.installed args reply hm ht) hsnap
    · exact Raft.step_snapshotReply hs hm ht

end

/-! ## The books -/

/-- What a leader of the term `t` may have counted for the peer `p`: the value it started
with, what the peer has acknowledged, or what is in the snapshots of both. -/
def Counted (p : Peer C (List (LogEntry C)) B) (t snap start m : Int) : Prop :=
  m ≤ start ∨
    (∃ (args : AppendEntriesArgs C) (reply : AppendEntriesReply),
      .reply (.appendEntries args) (.appendEntries reply) ∈ p.history ∧ reply.success = true ∧
        args.term = t ∧ m = args.matchIndex) ∨
    (m ≤ snap ∧ m ≤ p.raft.snapshottedIndex)

structure Books (cl : Cluster n C B) (i : Fin n) (p : Peer C (List (LogEntry C)) B) : Prop where
  matched : ∃ start, .leads p.raft.currentTerm start ∈ p.history ∧
    start ≤ p.raft.snapshottedIndex ∧ ∀ j, j ≠ i → ∀ m, p.raft.matchIndex[j.val]? = some m →
      Counted (cl j) p.raft.currentTerm p.raft.snapshottedIndex start m
  next : ∀ j : Fin n, j ≠ i → ∀ x, p.raft.nextIndex[j.val]? = some x →
    x ≤ p.raft.fullLog.length + 1

namespace Books

variable {cl cl' : Cluster n C B} {i : Fin n} {rf rf' : Raft C (List (LogEntry C)) B}
  {history : List (Output C (List (LogEntry C)))}

omit [DecidableEq C]

/-- The other peers go on. -/
theorem mono {p : Peer C (List (LogEntry C)) B} (h : Books cl i p)
    (hcl : ∀ j, j ≠ i → (∀ o ∈ (cl j).history, o ∈ (cl' j).history) ∧
      (cl j).raft.snapshottedIndex ≤ (cl' j).raft.snapshottedIndex) : Books cl' i p := by
  obtain ⟨start, hleads, hstart, hm⟩ := h.matched
  refine ⟨⟨start, hleads, hstart, fun j hj m hget => ?_⟩, h.next⟩
  obtain ⟨hhist, hsnap⟩ := hcl j hj
  rcases hm j hj m hget with hle | ⟨args, reply, hmem, hr⟩ | ⟨hle, hle'⟩
  · exact Or.inl hle
  · exact Or.inr (Or.inl ⟨args, reply, hhist _ hmem, hr⟩)
  · exact Or.inr (Or.inr ⟨hle, Int.le_trans hle' hsnap⟩)

/-- The books stay as they are. -/
theorem frame (h : Books cl i ⟨rf, history⟩) (ht : rf'.currentTerm = rf.currentTerm)
    (hm : rf'.matchIndex = rf.matchIndex) (hn : rf'.nextIndex = rf.nextIndex)
    (hs : rf.snapshottedIndex ≤ rf'.snapshottedIndex)
    (hl : rf.fullLog.length ≤ rf'.fullLog.length) (out : List (Output C (List (LogEntry C)))) :
    Books cl i ⟨rf', history ++ out⟩ := by
  obtain ⟨start, hleads, hstart, hcount⟩ := h.matched
  refine ⟨⟨start, ?_, Int.le_trans hstart hs, fun j hj m hget => ?_⟩, fun j hj x hget => ?_⟩
  · show Output.leads rf'.currentTerm start ∈ history ++ out
    rw [ht]
    exact List.mem_append_left _ hleads
  · have hget' : rf'.matchIndex[j.val]? = some m := hget
    rw [hm] at hget'
    show Counted (cl j) rf'.currentTerm rf'.snapshottedIndex start m
    rw [ht]
    exact (hcount j hj m hget').imp_right (Or.imp_right fun hc => ⟨Int.le_trans hc.1 hs, hc.2⟩)
  · have hget' : rf'.nextIndex[j.val]? = some x := hget
    rw [hn] at hget'
    have hx : x ≤ rf.fullLog.length + 1 := h.next j hj x hget'
    show x ≤ rf'.fullLog.length + 1
    omega

theorem setNext (h : Books cl i ⟨rf, history⟩) {server : Nat} {next : Int}
    (hn : next ≤ rf.fullLog.length + 1) : Books cl i ⟨rf.setNext server next, history⟩ := by
  refine ⟨h.matched, fun j hj x hget => ?_⟩
  have hget' : (rf.nextIndex.set server next)[j.val]? = some x := hget
  rw [List.getElem?_set] at hget'
  split at hget'
  · split at hget'
    · cases hget'
      exact hn
    · exact absurd hget' (by simp)
  · exact h.next j hj x hget'

/-- An entry of the books changes. -/
theorem setMatch (h : Books cl i ⟨rf, history⟩) {server : Nat} {m : Int}
    (hm : ∀ j, j ≠ i → j.val = server → m ≤ rf.fullLog.length ∧ ∀ start old,
      start ≤ rf.snapshottedIndex → rf.matchIndex[server]? = some old →
        Counted (cl j) rf.currentTerm rf.snapshottedIndex start old →
          Counted (cl j) rf.currentTerm rf.snapshottedIndex start m) :
    Books cl i ⟨rf.setMatch server m, history⟩ := by
  obtain ⟨start, hleads, hstart, hcount⟩ := h.matched
  refine ⟨⟨start, hleads, hstart, fun j hj x hget => ?_⟩, fun j hj x hget => ?_⟩
  · have hget' : (rf.matchIndex.set server m)[j.val]? = some x := hget
    rw [List.getElem?_set] at hget'
    split at hget'
    · rename_i heq
      split at hget'
      · rename_i hlt
        cases hget'
        have hold := List.getElem?_eq_getElem hlt
        exact (hm j hj heq.symm).2 start _ hstart hold (hcount j hj _ (heq ▸ hold))
      · exact absurd hget' (by simp)
    · exact hcount j hj x hget'
  · have hget' : (rf.nextIndex.set server (m + 1))[j.val]? = some x := hget
    rw [List.getElem?_set] at hget'
    split at hget'
    · rename_i heq
      split at hget'
      · cases hget'
        have := (hm j hj heq.symm).1
        show m + 1 ≤ rf.fullLog.length + 1
        omega
      · exact absurd hget' (by simp)
    · exact h.next j hj x hget'

end Books

section

variable {gob : Labgob C B} {cl : Cluster n C B} {A A' : Ledger n C} {src d : Fin n}

/-- A leader is the only one to have won its term. -/
theorem Refines.leader_alone (h : Refines cl A) (hst : (cl d).raft.state = .leader)
    {l : List (LogEntry C)} (hel : A.elected (cl d).raft.currentTerm src l) : src = d := by
  obtain ⟨⟨l', hl'⟩, -⟩ := (h.peer d).role.leader hst
  exact (h.sound.elected_unique hel hl').1

theorem Books.elected (h : Refines cl A) (g : Goroutine C (List (LogEntry C))) (election : Nat)
    (e : Election) : Books cl d ⟨(((cl d).raft.leave g).countVote election e).convertToLeader,
      (cl d).history ++ [.leads (cl d).raft.currentTerm (cl d).raft.snapshottedIndex]⟩ := by
  refine ⟨⟨(cl d).raft.snapshottedIndex, List.mem_append_right _ (List.mem_singleton_self _),
    Int.le_refl _, fun j _ m hm => Or.inl ?_⟩, fun j _ x hx => ?_⟩
  · have hm' : ((cl d).raft.matchIndex.map fun _ => (cl d).raft.snapshottedIndex)[j.val]? =
      some m := hm
    rw [List.getElem?_map, Option.map_eq_some_iff] at hm'
    obtain ⟨-, -, rfl⟩ := hm'
    exact Int.le_refl _
  · have hx' : ((cl d).raft.nextIndex.map fun _ =>
      (cl d).raft.getAbsoluteLogIndex (cl d).raft.logs.length)[j.val]? = some x := hx
    rw [List.getElem?_map, Option.map_eq_some_iff] at hx'
    obtain ⟨-, -, rfl⟩ := hx'
    have hlast := h.lastLog (d := d)
    simp only [Raft.lastLogIndex, Raft.getAbsoluteLogIndex] at hlast ⊢
    show _ ≤ ((cl d).raft.fullLog.length : Int) + 1
    omega

/-- The leader's log is the log of its term. -/
theorem Refines.leaderLog_eq (h : Refines cl A) (hst : (cl d).raft.state = .leader) {t : Int}
    (ht : t = (cl d).raft.currentTerm) : A.leaderLog t = (cl d).raft.fullLog :=
  ht ▸ ((h.peer d).role.leader hst).2

theorem Books.success (hb : Books cl d (cl d)) (h : Refines cl A)
    (hst : (cl d).raft.state = .leader) (g : Goroutine C (List (LogEntry C)))
    {args : AppendEntriesArgs C} {reply : AppendEntriesReply}
    (hans : .reply (.appendEntries args) (.appendEntries reply) ∈ (cl src).history)
    (hs : reply.success = true) (hterm : args.term = (cl d).raft.currentTerm) :
    Books cl d ⟨((cl d).raft.leave g).recordSuccess src args, (cl d).history⟩ := by
  have hl : Books cl d ⟨(cl d).raft.leave g, (cl d).history⟩ := ⟨hb.matched, hb.next⟩
  obtain ⟨-, hlen⟩ := h.acknowledged hans hs
  rw [h.leaderLog_eq hst hterm] at hlen
  refine hl.setMatch fun j _ hj => ⟨hlen, fun start old _ _ _ => Or.inr (Or.inl ?_)⟩
  obtain rfl : j = src := Fin.ext hj
  exact ⟨args, reply, hans, hs, hterm, rfl⟩

theorem Books.conflict (hb : Books cl d (cl d)) (h : Refines cl A) (hr : Replies A (cl src))
    (hst : (cl d).raft.state = .leader) (g : Goroutine C (List (LogEntry C))) {server : Nat}
    {args : AppendEntriesArgs C} {reply : AppendEntriesReply} {next : Int}
    (hans : .reply (.appendEntries args) (.appendEntries reply) ∈ (cl src).history)
    (hs : reply.success = false) (hterm : args.term = (cl d).raft.currentTerm)
    (hn : next = reply.conflictIndex ∨
      next ≤ max args.prevLogIndex (cl d).raft.snapshottedIndex) :
    Books cl d ⟨((cl d).raft.leave g).setNext server next, (cl d).history⟩ := by
  have hl : Books cl d ⟨(cl d).raft.leave g, (cl d).history⟩ := ⟨hb.matched, hb.next⟩
  obtain ⟨hconf, hprev⟩ := hr.rejected args reply hans hs
  rw [h.leaderLog_eq hst hterm] at hprev
  have hsnap := (h.peer d).indices.snap_le
  have hcommit := (h.peer d).indices.commit_le
  refine hl.setNext ?_
  show next ≤ (cl d).raft.fullLog.length + 1
  omega

/-- What is counted is within the leader's log. -/
theorem Refines.counted_le (h : Refines cl A) (hst : (cl d).raft.state = .leader) {j : Fin n}
    {start m : Int} (hstart : start ≤ (cl d).raft.snapshottedIndex)
    (hc : Counted (cl j) (cl d).raft.currentTerm (cl d).raft.snapshottedIndex start m) :
    m ≤ (cl d).raft.fullLog.length := by
  have hsnap := (h.peer d).indices.snap_le
  have hcommit := (h.peer d).indices.commit_le
  rcases hc with hle | ⟨args, reply, hm, hs, hterm, rfl⟩ | ⟨hle, -⟩
  · omega
  · obtain ⟨-, hlen⟩ := h.acknowledged hm hs
    rwa [h.leaderLog_eq hst hterm] at hlen
  · omega

theorem Books.installed (hb : Books cl d (cl d)) (h : Refines cl A) (hr : Replies A (cl src))
    {args : InstallSnapshotArgs (List (LogEntry C))} {reply : InstallSnapshotReply}
    (hg : .awaitSnapshot src args ∈ (cl d).raft.goroutines)
    (hans : .reply (.installSnapshot args) (.installSnapshot reply) ∈ (cl src).history)
    (hst : (cl d).raft.state = .leader) (hterm : reply.term ≤ args.term) :
    Books cl d ⟨((cl d).raft.leave (.awaitSnapshot src args)).setMatch src
      (max ((cl d).raft.matchIndex.getD src 0) args.lastIncludedIndex), (cl d).history⟩ := by
  have hl : Books cl d ⟨(cl d).raft.leave (.awaitSnapshot src args), (cl d).history⟩ :=
    ⟨hb.matched, hb.next⟩
  have hpeer := h.peer d
  have hown : args.lastIncludedIndex ≤ (cl d).raft.snapshottedIndex := hpeer.goroutines _ hg
  have hother := hr.installed args reply hans hterm
  have hsnap := hpeer.indices.snap_le
  have hcommit := hpeer.indices.commit_le
  have hget := hpeer.matchIndex_getD src
  refine hl.setMatch fun j hj hjs => ?_
  obtain rfl : j = src := Fin.ext hjs
  refine ⟨?_, fun start old _ hold hc => ?_⟩
  · obtain ⟨start, -, hstart, hcount⟩ := hb.matched
    have hle := h.counted_le hst hstart (hcount j hj _ hget)
    show _ ≤ ((cl d).raft.fullLog.length : Int)
    omega
  · obtain rfl : (cl d).raft.matchIndex.getD j 0 = old := Option.some.inj (hget.symm.trans hold)
    rcases Int.le_total ((cl d).raft.matchIndex.getD j 0) args.lastIncludedIndex with hm | hm
    · rw [Int.max_eq_right hm]
      exact Or.inr (Or.inr ⟨hown, hother⟩)
    · rw [Int.max_eq_left hm]
      exact hc

/-- A new entry lengthens the leader's own log, and is counted for the leader itself. -/
theorem Books.startAppend (hb : Books cl d (cl d)) (gob : Labgob C B) (hme : (cl d).raft.me = d)
    (command : C) (term : Int)
    (hsnap : (cl d).raft.snapshottedIndex ≤
      (((cl d).raft.leave (.start command term)).startAppend gob command term).snapshottedIndex)
    (hlen : (cl d).raft.fullLog.length ≤
      (((cl d).raft.leave (.start command term)).startAppend gob command term).fullLog.length) :
    Books cl d ⟨((cl d).raft.leave (.start command term)).startAppend gob command term,
      (cl d).history ++ []⟩ := by
  have hlonger : Books cl d ⟨{ (cl d).raft.leave (.start command term) with
      logs := (cl d).raft.logs ++ [⟨.client command, term⟩] }, (cl d).history ++ []⟩ := by
    refine hb.frame ?_ ?_ ?_ ?_ ?_ []
    · rfl
    · rfl
    · rfl
    · exact hsnap
    · exact hlen
  have hset := hlonger.setMatch (m := (cl d).raft.getAbsoluteLogIndex (cl d).raft.logs.length)
    fun j hj hjm => absurd (Fin.ext (hjm.trans hme)) hj
  exact ⟨hset.matched, hset.next⟩

variable {input : Input C (List (LogEntry C))} {rf' : Raft C (List (LogEntry C)) B}
  {out : List (Output C (List (LogEntry C)))}

theorem Books.step (hb : (cl d).raft.state = .leader → Books cl d (cl d))
    (hr : ∀ j, Replies A (cl j)) (h : Refines cl A) (hi : cl.ElectionInv gob)
    (hsafe : cl.Safe ⟨src, d, input⟩) (htimely : (cl d).raft.TimelyReply input)
    (ha : cl.Allowed src d input) (hs : Raft.Step gob (cl d).raft input rf' out)
    (hx : Extends A A') (h' : Refines (cl.set d ⟨rf', (cl d).history ++ out⟩) A')
    (hst' : rf'.state = .leader) : Books cl d ⟨rf', (cl d).history ++ out⟩ := by
  obtain ⟨hlead, hcareful⟩ := hsafe
  -- most steps leave the books alone
  have hsame : ∀ {r : Raft C (List (LogEntry C)) B}, (cl d).raft.state = .leader →
      r.currentTerm = (cl d).raft.currentTerm → r.matchIndex = (cl d).raft.matchIndex →
      r.nextIndex = (cl d).raft.nextIndex → r.snapshottedIndex = (cl d).raft.snapshottedIndex →
      r.fullLog = (cl d).raft.fullLog → Books cl d ⟨r, (cl d).history ++ out⟩ := by
    intro r hst ht hm hn hsnap hfull
    exact (hb hst).frame ht hm hn (Int.le_of_eq hsnap.symm) (by rw [hfull]) out
  -- and a leader gets no request of another leader of its term
  have halone : ∀ {t : Int} {l : List (LogEntry C)}, rf'.currentTerm = t → A.elected t src l →
      src = d := by
    intro t l ht hel
    have hst := Refines.leader_alone h' (d := d) (by rw [Cluster.set_self]; exact hst')
      (by rw [Cluster.set_self, ht]; exact hx.elected _ _ _ hel)
    exact hst
  cases hs with
  | electionTimer =>
    have hst : (cl d).raft.candidateState.state = .leader := hst'
    unfold Raft.candidateState at hst
    split at hst
    · exact NodeState.noConfusion hst
    · exact absurd hst hlead
  | refuseLog | grant =>
    obtain ⟨hst, ht⟩ := Raft.adoptTerm_leader hst'
    refine hsame hst ht ?_ ?_ ?_ ?_ <;> rw [Raft.adoptTerm_frame] <;> rfl
  | append hterm happ =>
    obtain ⟨hne, sent, hargs⟩ := h.sent src _ ha
    obtain ⟨l, hel⟩ := hargs.elected
    exact absurd (congrArg Fin.val (halone (happ.currentTerm hterm) hel).symm) hne
  | snapshot hterm =>
    obtain ⟨hne, hargs⟩ := h.sent src _ ha
    obtain ⟨l, hel⟩ := hargs.elected
    exact absurd (congrArg Fin.val (halone (Raft.adoptTerm_eq hterm) hel).symm) hne
  | voteCounted _ _ hst => exact NodeState.noConfusion (hst.symm.trans hst')
  | elected => exact Books.elected h _ _ _
  | voteStepDown | appendStepDown | snapshotStepDown =>
    rw [Raft.stepDown_frame] at hst'
    exact NodeState.noConfusion hst'
  | appendSuccess _ hst hsucc =>
    obtain ⟨rfl, hans⟩ := ha
    rw [List.append_nil]
    exact (hb hst).success h hst _ hans hsucc (hcareful hst hsucc).1
  | @appendCommit _ args _ _ _ _ hst hsucc _ hr' =>
    obtain ⟨rfl, hans⟩ := ha
    have hrec := (hb hst).success h hst (.awaitAppend src args) hans hsucc (hcareful hst hsucc).1
    have hframe := Raft.setCommitIndex_frame hr'
    refine hrec.frame ?_ ?_ ?_ ?_ ?_ [] <;> rw [hframe]
    exact Nat.le_refl _
  | appendConflict _ hst hf ht hn =>
    obtain ⟨rfl, hans⟩ := ha
    rw [List.append_nil]
    exact (hb hst).conflict h (hr src) hst _ hans hf (htimely hst hf ht) hn
  | snapshotRecorded hg ht =>
    obtain ⟨rfl, hans⟩ := ha
    rw [List.append_nil]
    exact (hb hst').installed h (hr src) hg hans hst' (htimely hst' ht)
  | @startAppend command term hg =>
    obtain ⟨hsnap, hle | ⟨_, _, hm, -⟩⟩ := h.step_log hi ha (Raft.Step.startAppend hg)
    · exact (hb hst').startAppend gob (hi.config d).1 command term hsnap hle.length_le
    · exact absurd hm (by simp)
  | replaced hindex hlogs =>
    obtain ⟨hd, rfl⟩ := ha
    obtain ⟨-, hfull⟩ := (h.peer d).compact gob hindex hd hlogs
    refine (hb hst').frame ?_ ?_ ?_ ?_ ?_ _
    · rfl
    · rfl
    · rfl
    · exact Int.le_of_lt hindex
    · exact Nat.le_of_eq (congrArg List.length hfull.symm)
  | restart =>
    rw [Raft.make_frame] at hst'
    exact NodeState.noConfusion hst'
  | _ => exact hsame hst' rfl rfl rfl rfl rfl

end

/-! ## Runs -/

structure Bookkeeping (cl : Cluster n C B) (A : Ledger n C) : Prop where
  replies : ∀ j, Replies A (cl j)
  books : ∀ i, (cl i).raft.state = .leader → Books cl i (cl i)

/-- The steps of a run with truthful books. -/
def Cluster.Timely (cl : Cluster n C B) (e : Event n C) : Prop :=
  cl.Safe e ∧ (cl e.dst).raft.TimelyReply e.input

instance (cl : Cluster n C B) (e : Event n C) : Decidable (cl.Timely e) :=
  inferInstanceAs (Decidable (_ ∧ _))

omit [DecidableEq C] in
theorem bookkeeping_init (gob : Labgob C B) (n : Nat) :
    Bookkeeping (Cluster.init gob n : Cluster n C B) (LeaderLog.init (Fin n) (LogEntry C)) := by
  refine ⟨fun j => ⟨fun _ _ hm => ?_, fun _ _ hm => ?_, fun _ _ hm => ?_⟩, fun i hst => ?_⟩
  · exact absurd hm (by simp [Cluster.init, Peer.init])
  · exact absurd hm (by simp [Cluster.init, Peer.init])
  · exact absurd hm (by simp [Cluster.init, Peer.init])
  · exact NodeState.noConfusion (show NodeState.follower = .leader from hst)

theorem bookkeeping_step {gob : Labgob C B} {cl : Cluster n C B} {A A' : Ledger n C}
    {src d : Fin n} {input : Input C (List (LogEntry C))} {rf' : Raft C (List (LogEntry C)) B}
    {out : List (Output C (List (LogEntry C)))} (hb : Bookkeeping cl A) (h : Refines cl A)
    (hi : cl.ElectionInv gob) (ht : cl.Timely ⟨src, d, input⟩) (ha : cl.Allowed src d input)
    (hs : Raft.Step gob (cl d).raft input rf' out) (hx : Extends A A')
    (h' : Refines (cl.set d ⟨rf', (cl d).history ++ out⟩) A') :
    Bookkeeping (cl.set d ⟨rf', (cl d).history ++ out⟩) A' := by
  -- the others see the history of `d` and its snapshot grow
  have hgrow : ∀ j, (∀ o ∈ (cl j).history,
        o ∈ (cl.set d ⟨rf', (cl d).history ++ out⟩ j).history) ∧
      (cl j).raft.snapshottedIndex ≤
        (cl.set d ⟨rf', (cl d).history ++ out⟩ j).raft.snapshottedIndex := by
    intro j
    by_cases hj : j = d
    · subst hj
      rw [Cluster.set_self]
      exact ⟨fun o ho => List.mem_append_left _ ho, (h.step_log hi ha hs).1⟩
    · rw [Cluster.set_of_ne hj]
      exact ⟨fun o ho => ho, Int.le_refl _⟩
  refine ⟨Cluster.forall_set (fun _ p => Replies A' p) (fun j => (hb.replies j).mono h hx)
    ((hb.replies d).step h hi ha hs hx h'), fun i hst => ?_⟩
  have hbooks := Cluster.forall_set (d := d) (p := ⟨rf', (cl d).history ++ out⟩)
    (fun i p => p.raft.state = .leader → Books cl i p) hb.books
    (Books.step (hb.books d) hb.replies h hi ht.1 ht.2 ha hs hx h') i
  exact (hbooks hst).mono fun j _ => hgrow j

theorem bookkeeping_of_run {gob : Labgob C B} (hg : gob.RoundTrip) {es : List (Event n C)}
    {cl : Cluster n C B}
    (h : Runs.Run (Cluster.step gob) Cluster.Timely (Cluster.init gob n) es cl) :
    ∃ A, Refines cl A ∧ Bookkeeping cl A := by
  have hinv := h.invariant
    (fun c => c.ElectionInv gob ∧ ∃ A, Refines c A ∧ Bookkeeping c A)
    ⟨Cluster.electionInv_init gob n, _, refines_init gob n, bookkeeping_init gob n⟩ (by
      rintro s ⟨src, d, input⟩ t ⟨hi, A, hA, hb⟩ ht hs
      obtain ⟨hi', A', hx, hA'⟩ := electionInv_refines_step hg hi hA ht.1 hs
      obtain ⟨ha, p, hp, rfl⟩ := Cluster.step_cases hs
      obtain ⟨⟨rf', out⟩, hr, rfl⟩ := Option.map_eq_some_iff.mp hp
      exact ⟨hi', A', hA', bookkeeping_step hb hA hi ht ha (Raft.step_cases hr) hx hA'⟩)
  exact hinv.2

/-! ## What is counted is held -/

omit [DecidableEq C] in
/-- Two logs that go on from one show the same entries there. -/
theorem entryAt_of_common {rf rf' : Raft C (List (LogEntry C)) B} {l : List (LogEntry C)}
    (hl : l <+: rf.fullLog) (hl' : l <+: rf'.fullLog) {k : Int} (hpos : 1 ≤ k)
    (hk : k ≤ l.length) : ∃ e, rf.entryAt k = some e ∧ rf'.entryAt k = some e := by
  have hlt : (k - 1).toNat < l.length := by omega
  have hget : CheckedSlice.get l (k - 1) = some l[(k - 1).toNat] := by
    unfold CheckedSlice.get
    rw [if_pos (by omega), List.getElem?_eq_getElem hlt]
  exact ⟨_, CheckedSlice.get_mono hl hget, CheckedSlice.get_mono hl' hget⟩

theorem Bookkeeping.held {cl : Cluster n C B} {A : Ledger n C} (hb : Bookkeeping cl A)
    (h : Refines cl A) {i j : Fin n} (hst : (cl i).raft.state = .leader) {start m k : Int}
    (hc : Counted (cl j) (cl i).raft.currentTerm (cl i).raft.snapshottedIndex start m)
    (hpos : 1 ≤ k) (hstart : start < k) (hk : k ≤ m) :
    HearsAfter (cl j).history (cl i).raft.currentTerm ∨
      ∃ e, (cl i).raft.entryAt k = some e ∧ (cl j).raft.entryAt k = some e := by
  rcases hc with hle | ⟨args, reply, hm, hs, hterm, rfl⟩ | ⟨hle, hle'⟩
  · omega
  · rcases (hb.replies j).kept args reply hm hs with hheard | hp
    · exact Or.inl (hterm ▸ hheard)
    · obtain ⟨-, hlen⟩ := h.acknowledged hm hs
      have hown : (A.leaderLog args.term).take args.matchIndex.toNat <+: (cl i).raft.fullLog :=
        h.leaderLog_eq hst hterm ▸ List.take_prefix _ _
      refine Or.inr (entryAt_of_common hown hp hpos ?_)
      rw [List.length_take]
      omega
  · -- both snapshots are of the committed entries
    have hi := h.peer i
    have hj := h.peer j
    have hidx := hi.shape.index
    have hidx' := hj.shape.index
    have hcov : covered (cl i).raft.persister.snapshot <+: (cl i).raft.fullLog :=
      List.prefix_append _ _
    have hcov' : covered (cl j).raft.persister.snapshot <+: (cl j).raft.fullLog :=
      List.prefix_append _ _
    rcases com_comparable h.sound hi.covered_com hj.covered_com with hp | hp
    · exact Or.inr (entryAt_of_common hcov (hp.trans hcov') hpos (by omega))
    · exact Or.inr (entryAt_of_common (hp.trans hcov) hcov' hpos (by omega))

namespace Cluster

/-- The books of a leader are truthful: they stay within its log, and beyond the index
they started with they count what the peer holds, unless a later leader has written to
it. -/
theorem books_truthful {gob : Labgob C B} (hg : gob.RoundTrip) {es : List (Event n C)}
    {cl : Cluster n C B} (h : Runs.Run (step gob) Timely (init gob n) es cl) :
    ∀ i, (cl i).raft.state = .leader →
      ∃ start, .leads (cl i).raft.currentTerm start ∈ (cl i).history ∧ ∀ j, j ≠ i →
        (cl i).raft.matchIndex.getD j 0 ≤ (cl i).raft.lastLogIndex ∧
        (cl i).raft.nextIndex.getD j 0 - 1 ≤ (cl i).raft.lastLogIndex ∧
        ∀ k, 1 ≤ k → start < k → k ≤ (cl i).raft.matchIndex.getD j 0 →
          HearsAfter (cl j).history (cl i).raft.currentTerm ∨
            ∃ e, (cl i).raft.entryAt k = some e ∧ (cl j).raft.entryAt k = some e := by
  obtain ⟨A, hA, hb⟩ := bookkeeping_of_run hg h
  intro i hst
  have hbooks := hb.books i hst
  obtain ⟨start, hleads, hstart, hcount⟩ := hbooks.matched
  refine ⟨start, hleads, fun j hj => ?_⟩
  rw [hA.lastLog, List.getD_eq_getElem?_getD, List.getD_eq_getElem?_getD]
  refine ⟨?_, ?_, fun k hpos hk hle => ?_⟩
  · cases hm : (cl i).raft.matchIndex[j.val]? with
    | none => exact Int.natCast_nonneg _
    | some m => exact hA.counted_le hst hstart (hcount j hj m hm)
  · cases hx : (cl i).raft.nextIndex[j.val]? with
    | none =>
      show (0 : Int) - 1 ≤ _
      omega
    | some x =>
      have hle := hbooks.next j hj x hx
      show x - 1 ≤ _
      omega
  · cases hm : (cl i).raft.matchIndex[j.val]? with
    | none =>
      rw [hm] at hle
      have hle' : k ≤ 0 := hle
      omega
    | some m =>
      rw [hm] at hle
      exact hb.held hA hst (hcount j hj m hm) hpos hk hle

theorem books_truthful_committed :
    ∃ cl : Cluster 3 Nat (Word Nat), cl.status 0 = (.leader, 1) ∧
      (cl 0).raft.matchIndex = [1, 1, 0] ∧ (cl 0).raft.entryAt 1 = some ⟨.client 10, 1⟩ ∧
      ∃ start, .leads 1 start ∈ (cl 0).history ∧ ∀ j : Fin 3, j ≠ 0 →
        (cl 0).raft.matchIndex.getD j 0 ≤ (cl 0).raft.lastLogIndex ∧
        (cl 0).raft.nextIndex.getD j 0 - 1 ≤ (cl 0).raft.lastLogIndex ∧
        ∀ k, 1 ≤ k → start < k → k ≤ (cl 0).raft.matchIndex.getD j 0 →
          HearsAfter (cl j).history 1 ∨
            ∃ e, (cl 0).raft.entryAt k = some e ∧ (cl j).raft.entryAt k = some e := by
  have hexec : (Runs.exec (step (Labgob.words Nat)) Timely (init (Labgob.words Nat) 3)
      committed).map (fun cl => (cl.status 0, (cl 0).raft.matchIndex, (cl 0).raft.entryAt 1)) =
        some ((.leader, 1), [1, 1, 0], some ⟨.client 10, 1⟩) := by decide +kernel
  obtain ⟨cl, hrun, hst⟩ := Runs.run_of_exec_map _ hexec
  simp only [Prod.mk.injEq] at hst
  obtain ⟨hstatus, hm, he⟩ := hst
  obtain ⟨hlead, hterm⟩ := Prod.mk.inj hstatus
  refine ⟨cl, hstatus, hm, he, ?_⟩
  have hb := books_truthful (Labgob.words_roundTrip Nat) hrun 0 hlead
  rwa [hterm] at hb

/-- Peer 0 leads term 1 and has counted the command 10 for peer 1 when peer 2, which
leads term 2, writes the command 11 over it. -/
def writtenOver : List (Event 5 Nat) :=
  [⟨0, 0, .electionTimer⟩, ⟨0, 1, .requestVote ⟨1, 0, 0, 0⟩⟩, ⟨0, 2, .requestVote ⟨1, 0, 0, 0⟩⟩,
    ⟨1, 0, .voteReply 1 0 ⟨1, 0, 0, 0⟩ ⟨1, true⟩⟩, ⟨2, 0, .voteReply 2 0 ⟨1, 0, 0, 0⟩ ⟨1, true⟩⟩,
    ⟨0, 0, .start 10⟩, ⟨0, 0, .resume (.start 10 1)⟩, ⟨0, 0, .resume (.heartbeat 1)⟩,
    ⟨0, 1, .appendEntries ⟨1, 0, 0, 0, [⟨.client 10, 1⟩], 0⟩⟩,
    ⟨1, 0, .appendReply 1 ⟨1, 0, 0, 0, [⟨.client 10, 1⟩], 0⟩ { success := true }⟩,
    ⟨2, 2, .electionTimer⟩, ⟨2, 3, .requestVote ⟨2, 2, 0, 0⟩⟩, ⟨2, 4, .requestVote ⟨2, 2, 0, 0⟩⟩,
    ⟨3, 2, .voteReply 3 0 ⟨2, 2, 0, 0⟩ ⟨2, true⟩⟩, ⟨4, 2, .voteReply 4 0 ⟨2, 2, 0, 0⟩ ⟨2, true⟩⟩,
    ⟨2, 2, .start 11⟩, ⟨2, 2, .resume (.start 11 2)⟩, ⟨2, 2, .resume (.heartbeat 1)⟩,
    ⟨2, 1, .appendEntries ⟨2, 2, 0, 0, [⟨.client 11, 2⟩], 0⟩⟩]

/-- Peer 0 compacts the command 10, which peer 2 has not got, restarts, and is elected
again: its books start at the snapshot for every peer. -/
def startedAtSnapshot : List (Event 3 Nat) :=
  handedOut ++ [⟨0, 0, .replaceLogWithSnapshot 1 (some [⟨.client 10, 1⟩])⟩, ⟨0, 0, .restart⟩,
    ⟨0, 0, .electionTimer⟩, ⟨0, 1, .requestVote ⟨2, 0, 1, 1⟩⟩,
    ⟨1, 0, .voteReply 1 0 ⟨2, 0, 1, 1⟩ ⟨2, true⟩⟩]

theorem counted_entries_not_held :
    (∃ (es : List (Event 5 Nat)) (cl : Cluster 5 Nat (Word Nat)),
      Runs.Run (step (Labgob.words Nat)) Timely (init (Labgob.words Nat) 5) es cl ∧
        cl.status 0 = (.leader, 1) ∧ (cl 0).raft.matchIndex.getD 1 0 = 1 ∧
        (cl 0).raft.entryAt 1 = some ⟨.client 10, 1⟩ ∧
        (cl 1).raft.entryAt 1 = some ⟨.client 11, 2⟩) ∧
    ∃ (es : List (Event 3 Nat)) (cl : Cluster 3 Nat (Word Nat)),
      Runs.Run (step (Labgob.words Nat)) Timely (init (Labgob.words Nat) 3) es cl ∧
        cl.status 0 = (.leader, 2) ∧ (cl 0).raft.matchIndex.getD 2 0 = 1 ∧
        (cl 0).raft.entryAt 1 = some ⟨.client 10, 1⟩ ∧ (cl 2).raft.entryAt 1 = none := by
  have hover : (Runs.exec (step (Labgob.words Nat)) Timely (init (Labgob.words Nat) 5)
      writtenOver).map (fun cl => (cl.status 0, (cl 0).raft.matchIndex.getD 1 0,
        (cl 0).raft.entryAt 1, (cl 1).raft.entryAt 1)) =
        some ((.leader, 1), 1, some ⟨.client 10, 1⟩, some ⟨.client 11, 2⟩) := by decide +kernel
  have hstart : (Runs.exec (step (Labgob.words Nat)) Timely (init (Labgob.words Nat) 3)
      startedAtSnapshot).map (fun cl => (cl.status 0, (cl 0).raft.matchIndex.getD 2 0,
        (cl 0).raft.entryAt 1, (cl 2).raft.entryAt 1)) =
        some ((.leader, 2), 1, some ⟨.client 10, 1⟩, none) := by decide +kernel
  obtain ⟨cl₁, hrun₁, hst₁⟩ := Runs.run_of_exec_map _ hover
  obtain ⟨cl₂, hrun₂, hst₂⟩ := Runs.run_of_exec_map _ hstart
  simp only [Prod.mk.injEq] at hst₁ hst₂
  exact ⟨⟨writtenOver, cl₁, hrun₁, hst₁⟩, startedAtSnapshot, cl₂, hrun₂, hst₂⟩

end Cluster

end DistributionSystem
