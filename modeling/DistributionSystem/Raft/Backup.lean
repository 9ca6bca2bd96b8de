import DistributionSystem.Raft.Conflict

/-! Fast back-up. The leader moves `nextIndex` back by what a rejection says. With no
snapshot on either side `nextIndex` goes down at each rejection, so the exchange ends in a
success, after which the follower holds the leader's log. -/

namespace DistributionSystem.Raft

open LeaderLog

variable {C D B : Type}

/-! ## The leader's side -/

theorem conflictNext_total {logs : List (LogEntry C)} (t : Int) {k : Nat} (hk : k ≤ logs.length) :
    ∃ found, conflictNext logs t k = some found ∧ ∀ i, found = some i → 1 ≤ i ∧ i ≤ k := by
  induction k with
  | zero => exact ⟨none, rfl, fun i h => by cases h⟩
  | succ k ih =>
    obtain ⟨found, hfound, hle⟩ := ih (by omega)
    obtain ⟨e, he⟩ : ∃ e, logs[k]? = some e := ⟨_, List.getElem?_eq_getElem hk⟩
    simp only [conflictNext, he]
    by_cases ht : e.term = t
    · rw [if_pos ht]
      refine ⟨_, rfl, fun i hi => ?_⟩
      cases hi
      omega
    · rw [if_neg ht]
      refine ⟨found, hfound, fun i hi => ?_⟩
      have := hle i hi
      omega

/-- After a rejection the next trial starts where the follower says, or at the leader's last
entry of the conflicting term before `PrevLogIndex`. -/
theorem recordConflict_total (rf : Raft C D B) (server : Nat) (args : AppendEntriesArgs C)
    (reply : AppendEntriesReply) (hprev : args.prevLogIndex ≤ rf.lastLogIndex) :
    ∃ next, rf.recordConflict server args reply = some (rf.setNext server next) ∧
      (next = reply.conflictIndex ∨
        rf.snapshottedIndex + 1 ≤ next ∧ next ≤ max args.prevLogIndex rf.snapshottedIndex) := by
  unfold lastLogIndex getAbsoluteLogIndex at hprev
  unfold recordConflict
  by_cases hc : reply.conflictTerm = -1
  · rw [if_pos hc]
    exact ⟨_, rfl, Or.inl rfl⟩
  · rw [if_neg hc]
    unfold getRelativeLogIndex
    obtain ⟨found, hfound, hle⟩ := conflictNext_total reply.conflictTerm
      (show (args.prevLogIndex - rf.snapshottedIndex).toNat ≤ rf.logs.length by omega)
    rw [hfound]
    cases found with
    | none => exact ⟨_, rfl, Or.inl rfl⟩
    | some i =>
      have := hle i rfl
      refine ⟨_, rfl, Or.inr ?_⟩
      unfold getAbsoluteLogIndex
      omega

theorem handleAppendReply_success (gob : Labgob C B) (rf : Raft C D B) (server : Nat)
    (args : AppendEntriesArgs C) {reply : AppendEntriesReply} (hst : rf.state = .leader)
    (hs : reply.success = true) (happ : rf.snapshottedIndex ≤ rf.lastApplied + 1) :
    ∃ r, rf.handleAppendReply gob server args reply = some r ∧
      r = { rf.recordSuccess server args with
        commitIndex := r.commitIndex, goroutines := r.goroutines } := by
  unfold handleAppendReply
  rw [if_neg (not_not.mpr hst), if_pos hs]
  cases hi : (rf.recordSuccess server args).majorityIndex with
  | none => exact ⟨rf.recordSuccess server args, by simp only [hi], rfl⟩
  | some i =>
    obtain ⟨-, hle, -⟩ := majorityIndex_spec hi
    cases hr : (rf.recordSuccess server args).setCommitIndex i with
    | none =>
      have hlt := ((setCommitIndex_eq_none_iff hle).mp hr).2
      have hsnap : rf.lastApplied + 1 < rf.snapshottedIndex := hlt
      omega
    | some r =>
      have hf := setCommitIndex_frame hr
      exact ⟨r, by simp only [hi, hr], hf⟩

/-! ## The exchange -/

section

variable [DecidableEq C] [DecidableEq D] (gob : Labgob C B)

/-- One heartbeat of `lead` to `server`, the follower's answer, and its arrival. -/
def exchange (server : Nat) (lead foll : Raft C D B) :
    Option (Raft C D B × Raft C D B × AppendEntriesReply) :=
  match lead.heartbeat server with
  | some (lead, [.call _ (.appendEntries args)]) =>
    (foll.appendEntries gob args).bind fun (foll, reply) =>
      (lead.step gob (.appendReply server args reply)).map fun (lead, _) => (lead, foll, reply)
  | _ => none

/-- Exchanges up to the first success, with the values of `nextIndex` that the rejections
before it have set. -/
def backUp (server : Nat) : Nat → Raft C D B → Raft C D B →
    Option (List Int × Raft C D B × Raft C D B)
  | 0, _, _ => none
  | fuel + 1, lead, foll =>
    match exchange gob server lead foll with
    | none => none
    | some (lead, foll, reply) =>
      if reply.success = true then some ([], lead, foll)
      else (backUp server fuel lead foll).map fun (trail, r) =>
        (lead.nextIndex.getD server 0 :: trail, r)

end

/-- The peer has taken no snapshot: behind a guard of term 0 it holds the full log. -/
structure Uncompacted (rf : Raft C D B) (full : List (LogEntry C)) : Prop where
  snapshot : rf.snapshottedIndex = 0
  guard : ∃ guard, rf.logs = guard :: full ∧ guard.term = 0
  terms : ∀ e ∈ full, 1 ≤ e.term
  applied : 0 ≤ rf.lastApplied

theorem Uncompacted.stores {rf : Raft C D B} {full : List (LogEntry C)}
    (h : rf.Uncompacted full) : rf.Stores full := by
  obtain ⟨guard, hlogs, hg⟩ := h.guard
  have hsnap := h.snapshot
  refine ⟨by omega, by omega, guard, ?_, ?_⟩
  · rw [hsnap]; exact hlogs
  · rw [hsnap]; exact hg

/-- Neither panic of the handler can happen without a snapshot. -/
theorem Uncompacted.appendAccepted {rf : Raft C D B} {full : List (LogEntry C)}
    (h : rf.Uncompacted full) (args : AppendEntriesArgs C) :
    ∃ r reply, rf.appendAccepted args = some (r, reply) := by
  obtain ⟨guard, hlogs, hg⟩ := h.guard
  have hsnap := h.snapshot
  have happ := h.applied
  cases hr : rf.appendAccepted args with
  | some r => exact ⟨r.1, r.2, rfl⟩
  | none =>
    exfalso
    rcases (appendAccepted_eq_none_iff (by rw [hlogs]; simp)).mp hr with hpast | hbelow
    · obtain ⟨-, g, e, hg', he, -, hge⟩ := hpast
      rw [hlogs] at hg' he
      cases hg'
      have := h.terms e (List.mem_of_getElem? he)
      omega
    · have := hbelow.1
      omega

/-- The goroutine that waits for the reply leaves when it comes. -/
theorem step_appendReply_spawned [DecidableEq C] [DecidableEq D] (gob : Labgob C B)
    (rf : Raft C D B) (server : Nat) (args : AppendEntriesArgs C) (reply : AppendEntriesReply) :
    ∃ gs, (rf.spawn [.awaitAppend server args]).step gob (.appendReply server args reply) =
      (handleAppendReply gob { rf with goroutines := gs } server args reply).map (·, []) := by
  exact ⟨_, if_pos (List.mem_append_right _ (List.mem_singleton.mpr rfl))⟩

/-- The leader is about to send its log from `next` on to a follower that it outranks. -/
structure BackingUp (server : Nat) (lead foll : Raft C D B) (sent full : List (LogEntry C))
    (next : Int) : Prop where
  leads : lead.state = .leader
  lead_log : lead.Uncompacted sent
  foll_log : foll.Uncompacted full
  matching : Matching LogEntry.term full sent
  term : foll.currentTerm ≤ lead.currentTerm
  next_eq : lead.nextIndex[server]? = some next
  next_pos : 1 ≤ next
  next_le : next ≤ sent.length + 1
  known : server < lead.matchIndex.length

namespace BackingUp

variable {server : Nat} {lead foll : Raft C D B} {sent full : List (LogEntry C)} {next : Int}

theorem heartbeat (h : BackingUp server lead foll sent full next) :
    ∃ args, lead.heartbeat server = some (lead.spawn [.awaitAppend server args],
        [.call server (.appendEntries args)]) ∧
      args.prevLogIndex = next - 1 ∧ args.term = lead.currentTerm := by
  obtain ⟨guard, hlogs, -⟩ := h.lead_log.guard
  have hpos := h.next_pos
  have hle := h.next_le
  have hsnap := h.lead_log.snapshot
  have hlen : lead.logs.length = sent.length + 1 := by rw [hlogs, List.length_cons]
  have hnext : lead.nextIndex.getD server 0 = next := by
    rw [List.getD_eq_getElem?_getD, h.next_eq]
    rfl
  obtain ⟨prev, hprev⟩ : ∃ prev, CheckedSlice.get lead.logs
      (lead.getRelativeLogIndex (next - 1)) = some prev := by
    unfold CheckedSlice.get getRelativeLogIndex
    rw [if_pos (by omega)]
    exact ⟨_, List.getElem?_eq_getElem (by omega)⟩
  obtain ⟨entries, hentries⟩ : ∃ entries, CheckedSlice.drop lead.logs
      (lead.getRelativeLogIndex (next - 1 + 1)) = some entries := by
    unfold CheckedSlice.drop getRelativeLogIndex
    rw [if_pos (by omega)]
    exact ⟨_, rfl⟩
  refine ⟨lead.appendArgs (next - 1) prev entries, ?_, rfl, rfl⟩
  unfold Raft.heartbeat
  rw [if_neg (not_not.mpr h.leads), hnext]
  simp only
  rw [if_neg (by omega), hentries, hprev]

/-- The follower answers, and holds the leader's log if it accepts. -/
theorem answer (gob : Labgob C B) (h : BackingUp server lead foll sent full next)
    {args : AppendEntriesArgs C} (hcarry : Carries args sent)
    (hterm : args.term = lead.currentTerm) :
    ∃ foll' reply, foll.appendEntries gob args = some (foll', reply) ∧
      ((reply.success = true ∧ sent <+: foll'.logs.tail) ∨
        (reply.success = false ∧ reply.term = lead.currentTerm ∧ 1 ≤ reply.conflictIndex ∧
          reply.conflictIndex ≤ args.prevLogIndex ∧ foll'.Uncompacted full ∧
          foll'.currentTerm = lead.currentTerm)) := by
  have hle := h.term
  have hadopt := adoptTerm_frame foll args.term
  have hun : (foll.adoptTerm args.term).Uncompacted full := by
    rw [hadopt]
    exact ⟨h.foll_log.snapshot, h.foll_log.guard, h.foll_log.terms, h.foll_log.applied⟩
  have hcur : (foll.adoptTerm args.term).currentTerm = lead.currentTerm := by
    rw [hadopt]
    show max _ _ = _
    omega
  obtain ⟨r, reply, hr⟩ := hun.appendAccepted args
  have happ : foll.appendEntries gob args = some (r.persist gob, reply) := by
    unfold appendEntries
    rw [if_neg (by omega), hr]
    rfl
  refine ⟨_, reply, happ, ?_⟩
  have hsnap := hun.snapshot
  cases hs : reply.success with
  | true =>
    obtain ⟨-, -, hpre⟩ := (appendAccepted_cases hr).accepted hs hun.stores hcarry h.matching
      (by omega) (by rw [hsnap]; rfl)
    refine Or.inl ⟨rfl, ?_⟩
    rw [hsnap] at hpre
    cases sent with
    | nil => exact List.nil_prefix
    | cons e sent => exact hpre (by rw [List.length_cons]; omega)
  | false =>
    obtain ⟨hsame, ht, hprev, hcase⟩ := appendAccepted_rejected hr hs
    have hrun : (r.persist gob).Uncompacted full := by
      rw [hsame]
      exact ⟨hun.snapshot, hun.guard, hun.terms, hun.applied⟩
    have hindex : 1 ≤ reply.conflictIndex ∧ reply.conflictIndex ≤ args.prevLogIndex := by
      rcases hcase with ⟨hlast, -, hi⟩ | ⟨e, k, -, -, hk, hi⟩
      · have hlen := hun.stores.lastLogIndex
        omega
      · have := conflictSearch_spec hk
        omega
    refine Or.inr ⟨rfl, ht.trans hcur, hindex.1, hindex.2, hrun, ?_⟩
    rw [hsame]
    exact hcur

variable [DecidableEq C] [DecidableEq D] (gob : Labgob C B)

/-- One exchange ends in a success, or sets `nextIndex` back and changes nothing else. -/
theorem exchange (h : BackingUp server lead foll sent full next) :
    ∃ lead' foll' reply, exchange gob server lead foll = some (lead', foll', reply) ∧
      ((reply.success = true ∧ lead'.logs = lead.logs ∧ sent <+: foll'.logs.tail ∧
          lead'.matchIndex[server]? = some (sent.length : Int)) ∨
        (reply.success = false ∧ lead'.logs = lead.logs ∧
          ∃ next', next' < next ∧ BackingUp server lead' foll' sent full next')) := by
  obtain ⟨args, hbeat, hprev, hterm⟩ := h.heartbeat
  have hcarry := h.lead_log.stores.carries hbeat (List.mem_singleton.mpr rfl)
  obtain ⟨foll', reply, happ, hcase⟩ := h.answer gob hcarry hterm
  obtain ⟨gs, hstep⟩ := step_appendReply_spawned gob lead server args reply
  unfold Raft.exchange
  simp only [hbeat, happ, hstep, Option.bind_some]
  have hsnap := h.lead_log.snapshot
  have happlied := h.lead_log.applied
  have hknown := h.known
  rcases hcase with ⟨hs, hpre⟩ | ⟨hs, ht, hpos, hle, hun, hcur⟩
  · obtain ⟨r, hr, hframe⟩ := handleAppendReply_success gob { lead with goroutines := gs } server
      args h.leads hs (by show lead.snapshottedIndex ≤ lead.lastApplied + 1; omega)
    refine ⟨r, foll', reply, by rw [hr]; rfl, Or.inl ⟨hs, by rw [hframe]; rfl, hpre, ?_⟩⟩
    rw [hframe, ← hcarry.reaches]
    exact List.getElem?_set_self hknown
  · have hlen := h.lead_log.stores.lastLogIndex
    have hlelen := hcarry.le
    obtain ⟨next', hr, hnext⟩ := recordConflict_total { lead with goroutines := gs } server args
      reply (by show args.prevLogIndex ≤ lead.lastLogIndex; omega)
    have hhandle : handleAppendReply gob { lead with goroutines := gs } server args reply =
        some (setNext { lead with goroutines := gs } server next') := by
      unfold handleAppendReply
      rw [if_neg (not_not.mpr h.leads), if_neg (by rw [hs]; exact Bool.false_ne_true),
        if_neg (Int.not_lt.mpr (Int.le_of_eq ht)), hr]
    have hbounds : 1 ≤ next' ∧ next' < next := by
      rcases hnext with rfl | ⟨h1, h2⟩
      · omega
      · simp only at h1 h2
        omega
    refine ⟨setNext { lead with goroutines := gs } server next', foll', reply,
      by rw [hhandle]; rfl, Or.inr ⟨hs, rfl, next', hbounds.2, ?_⟩⟩
    have hroom := (List.getElem?_eq_some_iff.mp h.next_eq).1
    have hle' := h.next_le
    exact ⟨h.leads, ⟨hsnap, h.lead_log.guard, h.lead_log.terms, happlied⟩, hun, h.matching,
      Int.le_of_eq hcur, List.getElem?_set_self hroom, hbounds.1, by omega, hknown⟩

/-- Exchanges come to a success, within as many as `nextIndex` says. -/
theorem backUp (h : BackingUp server lead foll sent full next) {fuel : Nat}
    (hfuel : next ≤ fuel) :
    ∃ trail lead' foll', backUp gob server fuel lead foll = some (trail, lead', foll') ∧
      (next :: trail).Pairwise (· > ·) ∧ (∀ i ∈ trail, 1 ≤ i) ∧ lead'.logs = lead.logs ∧
      sent <+: foll'.logs.tail ∧ lead'.matchIndex[server]? = some (sent.length : Int) := by
  induction fuel generalizing lead foll next with
  | zero =>
    have := h.next_pos
    omega
  | succ fuel ih =>
    obtain ⟨lead₁, foll₁, reply, hex, hcase⟩ := h.exchange gob
    unfold Raft.backUp
    simp only [hex]
    rcases hcase with ⟨hs, hlogs, hpre, hmatch⟩ | ⟨hs, hlogs, next', hlt, hnext⟩
    · rw [if_pos hs]
      exact ⟨[], lead₁, foll₁, rfl, List.pairwise_singleton _ _, by simp, hlogs, hpre, hmatch⟩
    · rw [if_neg (by rw [hs]; exact Bool.false_ne_true)]
      obtain ⟨trail, lead', foll', hback, hdown, hpos, hlogs', hpre, hmatch⟩ :=
        ih hnext (by omega)
      have hget : lead₁.nextIndex.getD server 0 = next' := by
        rw [List.getD_eq_getElem?_getD, hnext.next_eq]
        rfl
      refine ⟨next' :: trail, lead', foll', by rw [hback, hget]; rfl, ?_, ?_,
        hlogs'.trans hlogs, hpre, hmatch⟩
      · -- the first value is below `next`, and the later ones are below it
        refine List.pairwise_cons.mpr ⟨fun i hi => ?_, hdown⟩
        rcases List.mem_cons.mp hi with rfl | hi
        · exact hlt
        · exact Int.lt_trans ((List.pairwise_cons.mp hdown).1 i hi) hlt
      · intro i hi
        rcases List.mem_cons.mp hi with rfl | hi
        · exact hnext.next_pos
        · exact hpos i hi

end BackingUp

/-- Fast back-up converges: each rejection sets `nextIndex` to a smaller value that is at
least 1, and the exchange ends with the leader's log in the follower's. -/
theorem backUp_converges [DecidableEq C] [DecidableEq D] (gob : Labgob C B) {server : Nat}
    {lead foll : Raft C D B} {sent full : List (LogEntry C)} (hst : lead.state = .leader)
    (hlead : lead.Uncompacted sent) (hfoll : foll.Uncompacted full)
    (hm : Matching LogEntry.term full sent) (hterm : foll.currentTerm ≤ lead.currentTerm)
    (hnext : lead.nextIndex[server]? = some (lead.lastLogIndex + 1))
    (hknown : server < lead.matchIndex.length) {fuel : Nat} (hfuel : lead.logs.length ≤ fuel) :
    ∃ trail lead' foll', backUp gob server fuel lead foll = some (trail, lead', foll') ∧
      ((lead.lastLogIndex + 1) :: trail).Pairwise (· > ·) ∧ (∀ next ∈ trail, 1 ≤ next) ∧
      lead'.logs = lead.logs ∧ lead.logs.tail <+: foll'.logs.tail ∧
      lead'.matchIndex[server]? = some lead.lastLogIndex := by
  have hlast := hlead.stores.lastLogIndex
  obtain ⟨guard, hlogs, -⟩ := hlead.guard
  have hlen : lead.logs.length = sent.length + 1 := by rw [hlogs, List.length_cons]
  have hback : BackingUp server lead foll sent full (lead.lastLogIndex + 1) :=
    ⟨hst, hlead, hfoll, hm, hterm, hnext, by omega, by omega, hknown⟩
  obtain ⟨trail, lead', foll', hrun, hdown, hpos, hsame, hpre, hmatch⟩ :=
    hback.backUp gob (show lead.lastLogIndex + 1 ≤ (fuel : Int) by omega)
  refine ⟨trail, lead', foll', hrun, hdown, hpos, hsame, ?_, hlast ▸ hmatch⟩
  rw [hlogs]
  exact hpre

/-- A leader of term 3 whose second entry the follower does not have. -/
def aheadLeader : Raft Nat Unit (Word Nat) :=
  { (make (Labgob.words Nat) 3 0 makePersister) with
    state := .leader, currentTerm := 3, nextIndex := [3, 3, 3], matchIndex := [2, 0, 0]
    logs := [⟨.nil, 0⟩, ⟨.client 10, 1⟩, ⟨.client 11, 3⟩] }

theorem backUp_converges_diverged : ∃ trail lead' foll',
    backUp (Labgob.words Nat) 1 3 aheadLeader
        (acknowledged [⟨.client 10, 1⟩, ⟨.client 20, 2⟩, ⟨.client 21, 2⟩]) =
      some (trail, lead', foll') ∧ (3 :: trail).Pairwise (· > ·) ∧
    [⟨.client 10, 1⟩, ⟨.client 11, 3⟩] <+: foll'.logs.tail := by
  have hm : Matching LogEntry.term [⟨.client 10, 1⟩, ⟨.client 20, 2⟩, ⟨.client 21, 2⟩]
      ([⟨.client 10, 1⟩, ⟨.client 11, 3⟩] : List (LogEntry Nat)) := by
    rintro (_ | _ | k) e e' he he' ht
    · rfl
    · cases he; cases he'; cases ht
    · cases he'
  have hlead : aheadLeader.Uncompacted [⟨.client 10, 1⟩, ⟨.client 11, 3⟩] :=
    ⟨rfl, ⟨_, rfl, rfl⟩, by decide, by decide⟩
  have hfoll : (acknowledged [⟨.client 10, 1⟩, ⟨.client 20, 2⟩, ⟨.client 21, 2⟩]).Uncompacted
      [⟨.client 10, 1⟩, ⟨.client 20, 2⟩, ⟨.client 21, 2⟩] :=
    ⟨rfl, ⟨_, rfl, rfl⟩, by decide, by decide⟩
  obtain ⟨trail, lead', foll', hrun, hdown, -, -, hpre, -⟩ :=
    backUp_converges (Labgob.words Nat) rfl hlead hfoll hm (by decide) rfl
      (show 1 < 3 by decide) (show 3 ≤ 3 by decide)
  exact ⟨trail, lead', foll', hrun, hdown, hpre⟩

end DistributionSystem.Raft
