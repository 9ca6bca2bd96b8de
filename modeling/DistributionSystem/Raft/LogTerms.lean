import DistributionSystem.Raft.Effects
import DistributionSystem.Raft.Election
import DistributionSystem.Raft.FullLog

/-! The terms in a log. `LogStep` lists what a step can do to `rf.logs`. `Start` reads the
term in one critical section and appends in another, and the branch of `AppendEntries`
for a covered `PrevLogIndex` compares no terms; where neither does harm (`Orderly`), the
terms of every log are sorted and not above the current term (`log_terms_ordered`). -/

namespace DistributionSystem

variable {C D B : Type}

/-! ## Sorted terms -/

/-- The terms do not go down. -/
def Ascending (l : List (LogEntry C)) : Prop := (l.map LogEntry.term).Pairwise (· ≤ ·)

instance (l : List (LogEntry C)) : Decidable (Ascending l) :=
  inferInstanceAs (Decidable (List.Pairwise _ _))

theorem Ascending.sublist {l l' : List (LogEntry C)} (h : Ascending l) (hs : l'.Sublist l) :
    Ascending l' :=
  List.Pairwise.sublist (hs.map _) h

theorem ascending_append {l l' : List (LogEntry C)} : Ascending (l ++ l') ↔
    Ascending l ∧ Ascending l' ∧ ∀ a ∈ l, ∀ b ∈ l', a.term ≤ b.term := by
  simp only [Ascending, List.map_append, List.pairwise_append, List.forall_mem_map]

/-- Up to the first mismatch, the terms are the same. -/
theorem firstMismatch_terms {old new : List (LogEntry C)} {u : Nat}
    (h : firstMismatch old new = some u) :
    (old.take u).map LogEntry.term = (new.take u).map LogEntry.term := by
  induction new generalizing old u with
  | nil => cases old <;> simp [firstMismatch] at h
  | cons e new ih =>
    cases old with
    | nil => cases h; rfl
    | cons o old =>
      simp only [firstMismatch] at h
      split at h
      · cases h; rfl
      · rename_i ht
        obtain ⟨w, hw, rfl⟩ := Option.map_eq_some_iff.mp h
        simp only [List.take_succ_cons, List.map_cons, ih hw, not_not.mp ht]

theorem mergeEntries_ascending {logs entries logs' : List (LogEntry C)} {k : Nat}
    {prev : LogEntry C} (hl : Ascending logs) (hprev : logs[k]? = some prev)
    (he : (prev.term :: entries.map LogEntry.term).Pairwise (· ≤ ·))
    (h : Raft.mergeEntries logs ((k + 1 : Nat) : Int) entries = some logs') : Ascending logs' := by
  have hk := (List.getElem?_eq_some_iff.mp hprev).1
  rcases mergeEntries_eq hk h with ⟨-, rfl⟩ | ⟨u, hu, rfl⟩
  · exact hl
  · obtain ⟨hfirst, hrest⟩ := List.pairwise_cons.mp he
    -- as far as the terms go, all sent entries stand behind `prev`
    have hterms : (logs.take (k + 1 + u) ++ entries.drop u).map LogEntry.term =
        (logs.take (k + 1) ++ entries).map LogEntry.term := by
      rw [List.take_add, List.append_assoc, List.map_append, List.map_append,
        firstMismatch_terms hu, ← List.map_append, List.take_append_drop, List.map_append]
    have hkeep : Ascending (logs.take k ++ [prev]) := by
      have hsub := hl.sublist (List.take_sublist (k + 1) logs)
      rwa [List.take_add_one, hprev] at hsub
    show List.Pairwise _ _
    rw [hterms]
    show Ascending _
    rw [List.take_add_one, hprev]
    refine ascending_append.mpr ⟨hkeep, hrest, fun a ha b hb => ?_⟩
    have hb' : prev.term ≤ b.term := hfirst _ (List.mem_map_of_mem hb)
    rcases List.mem_append.mp ha with ha | ha
    · exact Int.le_trans ((ascending_append.mp hkeep).2.2 a ha prev (by simp)) hb'
    · rw [Option.toList_some, List.mem_singleton] at ha
      exact ha ▸ hb'

theorem mem_mergeEntries {logs entries logs' : List (LogEntry C)} {r : Nat}
    (hr : r ≤ logs.length) (h : Raft.mergeEntries logs r entries = some logs') {e : LogEntry C}
    (he : e ∈ logs') : e ∈ logs ∨ e ∈ entries := by
  rcases mergeEntries_eq hr h with ⟨-, rfl⟩ | ⟨u, -, rfl⟩
  · exact Or.inl he
  · rcases List.mem_append.mp he with he | he
    · exact Or.inl (List.mem_of_mem_take he)
    · exact Or.inr (List.mem_of_mem_drop he)

/-- What a request says about terms: those it carries are sorted, and not above its own. -/
def Request.TermsOk : Request C D → Prop
  | .requestVote _ => True
  | .appendEntries args =>
    (args.prevLogTerm :: args.logEntries.map LogEntry.term).Pairwise (· ≤ ·) ∧
      ∀ e ∈ args.logEntries, e.term ≤ args.term
  | .installSnapshot args => args.lastIncludedTerm ≤ args.term

/-- The requests among the inputs carry sorted terms. -/
def Input.TermsOk : Input C D → Prop
  | .appendEntries args => Request.TermsOk (D := D) (.appendEntries args)
  | .installSnapshot args => Request.TermsOk (C := C) (.installSnapshot args)
  | _ => True

namespace Raft

/-! ## The steps that keep the order -/

/-- The input makes the peer take up another term. -/
def Disturbs (rf : Raft C D B) : Input C D → Prop
  | .electionTimer => True
  | .requestVote args => rf.currentTerm < args.term
  | .appendEntries args => rf.currentTerm < args.term
  | .installSnapshot args =>
    rf.currentTerm < args.term ∧ rf.snapshottedIndex ≤ args.lastIncludedIndex
  | .voteReply _ _ _ reply => rf.currentTerm < reply.term
  | .appendReply _ _ reply => rf.currentTerm < reply.term
  | .snapshotReply _ _ reply => rf.currentTerm < reply.term
  | _ => False

instance (rf : Raft C D B) (input : Input C D) : Decidable (rf.Disturbs input) :=
  match input with
  | .electionTimer => .isTrue trivial
  | .requestVote _ | .appendEntries _ | .voteReply .. | .appendReply .. | .snapshotReply .. =>
    inferInstanceAs (Decidable (_ < _))
  | .installSnapshot _ => inferInstanceAs (Decidable (_ ∧ _))
  | .heartbeatTimer | .start _ | .resume _ | .replaceLogWithSnapshot .. | .restart => .isFalse id

/-- The goroutine is a `Start` between `GetState` and its append. -/
def Starts : Goroutine C D → Prop
  | .start _ _ => True
  | _ => False

instance (g : Goroutine C D) : Decidable (Starts g) :=
  match g with
  | .start .. => .isTrue trivial
  | .heartbeat _ | .syncSnapshotWith _ | .awaitVote .. | .awaitAppend .. | .awaitSnapshot ..
  | .apply .. | .applied .. | .install _ => .isFalse id

def NoStart (rf : Raft C D B) : Prop := ∀ g ∈ rf.goroutines, ¬ Starts g

instance (rf : Raft C D B) : Decidable rf.NoStart := inferInstanceAs (Decidable (∀ g ∈ _, _))

/-- A request whose `PrevLogIndex` the snapshot covers has, at `snapshottedIndex`, the term
of the guard. -/
def AgreesAtGuard (rf : Raft C D B) : Input C D → Prop
  | .appendEntries args =>
    rf.currentTerm ≤ args.term → args.prevLogIndex ≤ rf.snapshottedIndex →
      rf.snapshottedIndex < args.prevLogIndex + args.logEntries.length →
        (args.prevLogTerm :: args.logEntries.map LogEntry.term)[
          (rf.snapshottedIndex - args.prevLogIndex).toNat]? = rf.logs.head?.map LogEntry.term
  | _ => True

instance (rf : Raft C D B) (input : Input C D) : Decidable (rf.AgreesAtGuard input) :=
  match input with
  | .appendEntries _ => inferInstanceAs (Decidable (_ → _ → _ → _ = _))
  | .electionTimer | .heartbeatTimer | .requestVote _ | .installSnapshot _ | .voteReply ..
  | .appendReply .. | .snapshotReply .. | .start _ | .resume _ | .replaceLogWithSnapshot ..
  | .restart => .isTrue trivial

/-- The peer takes up another term only while no `Start` is under way, and takes entries
behind its snapshot only from a log that agrees with it there. -/
def Orderly (rf : Raft C D B) (input : Input C D) : Prop :=
  (rf.Disturbs input → rf.NoStart) ∧ rf.AgreesAtGuard input

instance (rf : Raft C D B) (input : Input C D) : Decidable (rf.Orderly input) :=
  inferInstanceAs (Decidable (_ ∧ _))

structure TermsOk (rf : Raft C D B) : Prop where
  ascending : Ascending rf.logs
  le : ∀ e ∈ rf.logs, e.term ≤ rf.currentTerm
  start : ∀ c t, .start c t ∈ rf.goroutines → rf.state = .leader ∧ rf.currentTerm = t

variable {gob : Labgob C B} {rf rf' : Raft C D B} {input : Input C D} {out : List (Output C D)}

theorem LogStep.termsOk (h : LogStep rf input rf') (hok : rf.TermsOk) (hin : input.TermsOk)
    (hguard : rf.AgreesAtGuard input) (hle : rf.currentTerm ≤ rf'.currentTerm) :
    Ascending rf'.logs ∧ ∀ e ∈ rf'.logs, e.term ≤ rf'.currentTerm := by
  have hkept : ∀ e ∈ rf.logs, e.term ≤ rf'.currentTerm :=
    fun e he => Int.le_trans (hok.le e he) hle
  cases h with
  | same hl => rw [hl]; exact ⟨hok.ascending, hkept⟩
  | @replaced args guard rest hi hterm hprev hlen hlogs hl hs ht =>
    subst hi
    rw [hlogs] at hkept
    have hget := hguard hterm hprev hlen
    rw [hlogs] at hget
    obtain ⟨hk, hget⟩ := List.getElem?_eq_some_iff.mp hget
    -- from the guard's index on, the request is what the log becomes
    have hdrop := List.drop_eq_getElem_cons hk
    rw [hget, List.drop_succ_cons, ← List.map_drop] at hdrop
    refine ⟨?_, fun e he => ?_⟩
    · rw [hl]
      show List.Pairwise _ _
      rw [List.map_cons, ← hdrop]
      exact hin.1.sublist (List.drop_sublist _ _)
    · rw [hl] at he
      rcases List.mem_cons.mp he with rfl | he
      · exact hkept _ List.mem_cons_self
      · exact ht ▸ hin.2 e (List.mem_of_mem_drop he)
  | @merged args prev hi hterm hprev hget hpt hl hs ht =>
    subst hi
    obtain ⟨hpos, hget⟩ := CheckedSlice.get_eq_some hget
    simp only [getRelativeLogIndex] at hpos hget hl
    have hr : args.prevLogIndex + 1 - rf.snapshottedIndex =
        (((args.prevLogIndex - rf.snapshottedIndex).toNat + 1 : Nat) : Int) := by omega
    rw [hr] at hl
    refine ⟨mergeEntries_ascending hok.ascending hget (hpt ▸ hin.1) hl, fun e he => ?_⟩
    rcases mem_mergeEntries (List.getElem?_eq_some_iff.mp hget).1 hl he with he | he
    · exact hkept e he
    · exact ht ▸ hin.2 e he
  | @installed args hi hterm hindex hl hs ht _ =>
    subst hi
    rw [hl]
    simp only [retainedLogs]
    have hguard : Ascending ([⟨.nil, args.lastIncludedTerm⟩] : List (LogEntry C)) ∧
        ∀ e ∈ ([⟨.nil, args.lastIncludedTerm⟩] : List (LogEntry C)), e.term ≤ rf'.currentTerm :=
      ⟨List.pairwise_singleton .., fun e he => by rw [List.mem_singleton.mp he, ht]; exact hin⟩
    split
    · split
      · exact ⟨hok.ascending.sublist (List.drop_sublist _ _),
          fun e he => hkept e (List.mem_of_mem_drop he)⟩
      · exact hguard
    · exact hguard
  | @appended command term hi hg hl hs =>
    obtain ⟨-, rfl⟩ := hok.start _ _ hg
    rw [hl]
    refine ⟨ascending_append.mpr ⟨hok.ascending, List.pairwise_singleton .., ?_⟩, ?_⟩
    · intro a ha b hb
      rw [List.mem_singleton.mp hb]
      exact hok.le a ha
    · intro e he
      rcases List.mem_append.mp he with he | he
      · exact hkept e he
      · rw [List.mem_singleton.mp he]
        exact hle
  | @compacted index snapshot hi hindex hl hs =>
    obtain ⟨-, -, hl⟩ := CheckedSlice.drop_eq_some hl
    rw [hl]
    exact ⟨hok.ascending.sublist (List.drop_sublist _ _),
      fun e he => hkept e (List.mem_of_mem_drop he)⟩

variable [DecidableEq C] [DecidableEq D]

/-- A leader stays the leader of its term, unless it is disturbed or starts anew. -/
theorem step_leads (hst : rf.state = .leader) (hd : ¬ rf.Disturbs input)
    (h : Step gob rf input rf' out) :
    (rf'.state = .leader ∧ rf'.currentTerm = rf.currentTerm) ∨ rf'.goroutines = [] := by
  cases h with
  | electionTimer => exact absurd trivial hd
  | refuseLog | grant =>
    rw [adoptTerm_of_le (Int.not_lt.mp hd)]
    exact Or.inl ⟨hst, rfl⟩
  | append _ happ =>
    rw [happ.frame, adoptTerm_of_le (Int.not_lt.mp hd)]
    exact Or.inl ⟨hst, rfl⟩
  | snapshot _ hindex =>
    rw [adoptTerm_of_le (Int.not_lt.mp fun hlt => hd ⟨hlt, hindex⟩)]
    exact Or.inl ⟨hst, rfl⟩
  | voteStepDown _ ht | appendStepDown _ ht | snapshotStepDown _ ht => exact absurd ht hd
  | elected => exact Or.inl ⟨rfl, rfl⟩
  | appendCommit _ _ _ _ hr =>
    rw [setCommitIndex_frame hr]
    exact Or.inl ⟨hst, rfl⟩
  | restart =>
    rw [make_frame]
    exact Or.inr rfl
  | _ => exact Or.inl ⟨hst, rfl⟩

theorem step_start (hok : rf.TermsOk) (hd : rf.Disturbs input → rf.NoStart)
    (h : Step gob rf input rf' out) :
    ∀ c t, .start c t ∈ rf'.goroutines → rf'.state = .leader ∧ rf'.currentTerm = t := by
  intro c t hm
  -- whoever is about to append now was so before, or has just asked the leader
  have hbefore : rf.state = .leader ∧ rf.currentTerm = t ∧ ¬ rf.Disturbs input := by
    rcases step_goroutines h _ hm with hm | hnew
    · obtain ⟨hst, hterm⟩ := hok.start c t hm
      exact ⟨hst, hterm, fun hdist => hd hdist _ hm trivial⟩
    · cases hnew with
      | calls hc => exact absurd hc id
      | start hst => exact ⟨hst, rfl, id⟩
  obtain ⟨hst, hterm, hnot⟩ := hbefore
  rcases step_leads hst hnot h with ⟨hst', hterm'⟩ | hnone
  · exact ⟨hst', hterm'.trans hterm⟩
  · rw [hnone] at hm
    exact absurd hm List.not_mem_nil

theorem step_termsOk (hrec : rf.Recovers gob) (hok : rf.TermsOk) (hin : input.TermsOk)
    (ho : rf.Orderly input) (h : Step gob rf input rf' out) : rf'.TermsOk := by
  obtain ⟨hasc, hle⟩ := (step_log hrec h).termsOk hok hin ho.2 (step_ballot hrec h).1.le
  exact ⟨hasc, hle, step_start hok ho.1 h⟩

/-- The requests that a step sends carry sorted terms. -/
theorem step_calls_termsOk (hok : rf.TermsOk) (h : Step gob rf input rf' out) :
    ∀ dst request, .call dst request ∈ out → request.TermsOk := by
  intro dst request hm
  cases h with
  | electionTimer =>
    simp only [List.mem_cons, List.mem_map, reduceCtorEq, false_or] at hm
    obtain ⟨_, -, he⟩ := hm
    cases he
    trivial
  | @heartbeat server entries prev prevLogIndex hg hst hp he hprev =>
    cases List.mem_singleton.mp hm
    obtain ⟨hpos, hget⟩ := CheckedSlice.get_eq_some hprev
    obtain ⟨-, -, rfl⟩ := CheckedSlice.drop_eq_some he
    obtain ⟨hlt, hget⟩ := List.getElem?_eq_some_iff.mp hget
    have hnext : (rf.getRelativeLogIndex (prevLogIndex + 1)).toNat =
        (rf.getRelativeLogIndex prevLogIndex).toNat + 1 := by
      simp only [getRelativeLogIndex] at hpos ⊢
      omega
    have hdrop := List.drop_eq_getElem_cons hlt
    rw [hget, ← hnext] at hdrop
    refine ⟨?_, fun e he => hok.le e (List.mem_of_mem_drop he)⟩
    show Ascending (prev :: rf.logs.drop (rf.getRelativeLogIndex (prevLogIndex + 1)).toNat)
    rw [← hdrop]
    exact hok.ascending.sublist (List.drop_sublist _ _)
  | @sync server guard hg hst hguard =>
    cases List.mem_singleton.mp hm
    exact hok.le guard (List.mem_of_mem_head? hguard)
  | _ => simp at hm

end Raft

namespace Cluster

variable {n : Nat}

/-- Sorted terms, in the logs and in the network. -/
structure TermsInv (gob : Labgob C B) (cl : Cluster n C B) : Prop where
  durable : ∀ i, (cl i).Durable gob
  logs : ∀ i, (cl i).raft.TermsOk
  calls : ∀ i dst request, .call dst request ∈ (cl i).history → request.TermsOk

theorem termsInv_init (gob : Labgob C B) (n : Nat) : TermsInv gob (init gob n : Cluster n C B) := by
  refine ⟨fun i => Peer.durable_init gob n i, fun i => ?_, fun i dst request hm => ?_⟩
  · exact ⟨List.pairwise_singleton .., fun e he => by
      rw [List.mem_singleton.mp he]; exact Int.le_refl 0, fun c t hm => absurd hm List.not_mem_nil⟩
  · exact absurd hm (by simp [init, Peer.init])

theorem termsOk_of_allowed {gob : Labgob C B} {cl : Cluster n C B} (h : cl.TermsInv gob)
    {src dst : Fin n} {input : Input C (List (LogEntry C))} (ha : cl.Allowed src dst input) :
    input.TermsOk := by
  cases input with
  | appendEntries args => exact h.calls src dst _ ha
  | installSnapshot args => exact h.calls src dst _ ha
  | _ => trivial

variable [DecidableEq C]

theorem termsInv_step {gob : Labgob C B} (hg : gob.RoundTrip) {cl cl' : Cluster n C B}
    {e : Event n C} (h : cl.TermsInv gob) (ho : (cl e.dst).raft.Orderly e.input)
    (hs : cl.step gob e = some cl') : cl'.TermsInv gob := by
  obtain ⟨ha, p, hp, rfl⟩ := step_cases hs
  have hd := h.durable e.dst
  have hdur : ∀ i, (cl.set e.dst p i).Durable gob :=
    forall_set (fun _ q => q.Durable gob) h.durable (Peer.durable_step hg hd hp)
  obtain ⟨⟨rf', out⟩, hr, rfl⟩ := Option.map_eq_some_iff.mp hp
  have hst := Raft.step_cases hr
  refine ⟨hdur, forall_set (fun _ q => q.raft.TermsOk) h.logs ?_,
    forall_set (fun _ q => ∀ dst request, .call dst request ∈ q.history → request.TermsOk)
      h.calls ?_⟩
  · exact Raft.step_termsOk hd.recovers (h.logs _) (termsOk_of_allowed h ha) ho hst
  · intro dst request hm
    rcases List.mem_append.mp hm with hm | hm
    · exact h.calls _ _ _ hm
    · exact Raft.step_calls_termsOk (h.logs _) hst _ _ hm

/-- Log terms are ordered: in every state of an orderly run the terms of each log do not go
down and do not exceed the peer's term, and a `Start` that is about to append its entry is
that of the leader of the entry's term. -/
theorem log_terms_ordered {gob : Labgob C B} (hg : gob.RoundTrip) {es : List (Event n C)}
    {cl : Cluster n C B}
    (h : Runs.Run (step gob) (fun cl e => (cl e.dst).raft.Orderly e.input) (init gob n) es cl)
    (i : Fin n) :
    (((cl i).raft.logs.map LogEntry.term).Pairwise (· ≤ ·)) ∧
      (∀ e ∈ (cl i).raft.logs, e.term ≤ (cl i).raft.currentTerm) ∧
      ∀ command term, .start command term ∈ (cl i).raft.goroutines →
        (cl i).raft.state = .leader ∧ (cl i).raft.currentTerm = term := by
  have hinv := h.invariant (TermsInv gob) (termsInv_init gob n)
    fun _ _ _ hinv ho hs => termsInv_step hg hinv ho hs
  obtain ⟨hasc, hle, hstart⟩ := hinv.logs i
  exact ⟨hasc, hle, hstart⟩

/-- The terms in the log of a peer, its role and its term. -/
def termsView (cl : Cluster n C B) (i : Fin n) : List Int × NodeState × Int :=
  ((cl i).raft.logs.map LogEntry.term, cl.status i)

/-- Peer 0 is elected and a client calls `Start` on it. -/
def calledStart : List (Event 3 Nat) := plainElection ++ [⟨0, 0, .start 10⟩]

theorem log_terms_ordered_calledStart :
    ∃ cl : Cluster 3 Nat (Word Nat), cl.termsView 0 = ([0, 1], .leader, 1) ∧
      ((cl 0).raft.logs.map LogEntry.term).Pairwise (· ≤ ·) := by
  have hexec : (Runs.exec (step (Labgob.words Nat)) (fun cl e => (cl e.dst).raft.Orderly e.input)
      (init (Labgob.words Nat) 3) (calledStart ++ [⟨0, 0, .resume (.start 10 1)⟩])).map
        (termsView · 0) = some ([0, 1], .leader, 1) := by decide +kernel
  obtain ⟨cl, hrun, hv⟩ := Runs.run_of_exec_map _ hexec
  exact ⟨cl, hv, (log_terms_ordered (Labgob.words_roundTrip Nat) hrun 0).1⟩

/-- Peer 1 wins term 2 and sends an entry to peer 0, where the `Start` of term 1 has seen a
leader and not appended yet. -/
def overtakenStart : List (Event 3 Nat) :=
  calledStart ++ [⟨1, 1, .electionTimer⟩, ⟨1, 2, .requestVote ⟨2, 1, 0, 0⟩⟩,
    ⟨2, 1, .voteReply 2 0 ⟨2, 1, 0, 0⟩ ⟨2, true⟩⟩, ⟨1, 1, .start 20⟩,
    ⟨1, 1, .resume (.start 20 2)⟩, ⟨1, 1, .resume (.heartbeat 0)⟩,
    ⟨1, 0, .appendEntries ⟨2, 1, 0, 0, [⟨.client 20, 2⟩], 0⟩⟩]

/-- Then the `Start` appends the term of the lost leadership behind the entry of term 2. -/
theorem start_appends_old_term :
    ∃ (es : List (Event 3 Nat)) (cl₁ cl₂ : Cluster 3 Nat (Word Nat)),
      Runs.Run (step (Labgob.words Nat)) (fun _ _ => True) (init (Labgob.words Nat) 3) es cl₁ ∧
      cl₁.step (Labgob.words Nat) ⟨0, 0, .resume (.start 10 1)⟩ = some cl₂ ∧
      cl₁.termsView 0 = ([0, 2], .follower, 2) ∧ cl₂.termsView 0 = ([0, 2, 1], .follower, 2) := by
  have hexec : (Runs.exec (step (Labgob.words Nat)) (fun _ _ => True) (init (Labgob.words Nat) 3)
      overtakenStart).map (termsView · 0) = some ([0, 2], .follower, 2) := by decide +kernel
  have hexec₂ : (Runs.exec (step (Labgob.words Nat)) (fun _ _ => True) (init (Labgob.words Nat) 3)
      (overtakenStart ++ [⟨0, 0, .resume (.start 10 1)⟩])).map (termsView · 0) =
        some ([0, 2, 1], .follower, 2) := by decide +kernel
  obtain ⟨cl₁, cl₂, h₁, -, hs, -, hv₁, hv₂⟩ := Runs.step_of_exec_map _ _ hexec hexec₂
  exact ⟨overtakenStart, cl₁, cl₂, h₁, hs, hv₁, hv₂⟩

end Cluster

end DistributionSystem
