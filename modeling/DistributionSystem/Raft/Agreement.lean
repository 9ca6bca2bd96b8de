import DistributionSystem.Raft.FullLog

/-! `AppendEntries` on a log that agrees with the message. A message of the leader
carries the end of the leader's whole log, so a follower that accepts it holds its own
full log or the leader's, and log matching stays. A message that only agrees with the
follower's log, a late one for instance, is harmless unless its `PrevLogIndex` lies in
the snapshot: that branch keeps nothing behind the guard but the sent entries. -/

namespace DistributionSystem

open LeaderLog

variable {C D B : Type}

/-- The term that the message gives for an absolute index. -/
def AppendEntriesArgs.termAt (args : AppendEntriesArgs C) (index : Int) : Option Int :=
  if index = args.prevLogIndex then some args.prevLogTerm
  else (CheckedSlice.get args.logEntries (index - args.prevLogIndex - 1)).map LogEntry.term

namespace Raft

/-- The entry of an absolute index, with the guard at `snapshottedIndex`. -/
def logAt (rf : Raft C D B) (index : Int) : Option (LogEntry C) :=
  CheckedSlice.get rf.logs (rf.getRelativeLogIndex index)

/-- The message and the log have the same term wherever both have one. -/
def Agrees (rf : Raft C D B) (args : AppendEntriesArgs C) : Prop :=
  ∀ i t e, args.termAt i = some t → rf.logAt i = some e → e.term = t

/-- The sent entries are the log's own wherever both have one. -/
def SameEntries (rf : Raft C D B) (args : AppendEntriesArgs C) : Prop :=
  ∀ i e e', rf.snapshottedIndex < i →
    CheckedSlice.get args.logEntries (i - args.prevLogIndex - 1) = some e →
      rf.logAt i = some e' → e' = e

/-- Every entry of `rf` is still there in `rf'`, or another one of its term. -/
def Keeps (rf rf' : Raft C D B) : Prop :=
  rf'.snapshottedIndex = rf.snapshottedIndex ∧
    rf.logs.map LogEntry.term <+: rf'.logs.map LogEntry.term

/-- The message starts in the snapshot, goes past it, and ends before the log does. -/
def CutsShort (rf : Raft C D B) (args : AppendEntriesArgs C) : Prop :=
  args.prevLogIndex ≤ rf.snapshottedIndex ∧
    rf.snapshottedIndex < args.prevLogIndex + args.logEntries.length ∧
      args.prevLogIndex + args.logEntries.length < rf.lastLogIndex

end Raft

/-! ## Messages that agree with the log -/

/-- Lists that agree wherever both have an entry differ in their length only. -/
theorem prefix_iff_of_agree {α : Type} {l l' : List α}
    (h : ∀ (j : Nat) a b, l[j]? = some a → l'[j]? = some b → a = b) :
    l <+: l' ↔ l.length ≤ l'.length := by
  refine ⟨List.IsPrefix.length_le, fun hle => ?_⟩
  rw [List.prefix_iff_getElem?]
  intro j hj
  have hj' : j < l'.length := by omega
  rw [List.getElem?_eq_getElem hj',
    h j _ _ (List.getElem?_eq_getElem hj) (List.getElem?_eq_getElem hj')]

/-- The comparison loop stops behind the old entries, if it stops. -/
theorem firstMismatch_of_agree {old new : List (LogEntry C)} {u : Nat}
    (h : ∀ (j : Nat) (o e : LogEntry C), old[j]? = some o →
      new[j]? = some e → o.term = e.term)
    (hu : firstMismatch old new = some u) : u = old.length := by
  induction new generalizing old u with
  | nil => cases old <;> cases hu
  | cons e new ih =>
    cases old with
    | nil => cases hu; rfl
    | cons o old =>
      have ht : o.term = e.term := h 0 o e rfl rfl
      simp only [firstMismatch, ht, ne_eq, not_true_eq_false, if_false] at hu
      obtain ⟨w, hw, rfl⟩ := Option.map_eq_some_iff.mp hu
      rw [ih (fun j o' e' ho he => h (j + 1) o' e' ho he) hw, List.length_cons]

theorem mergeEntries_of_agree {logs entries logs' : List (LogEntry C)} {r : Nat}
    (hr : r ≤ logs.length)
    (hag : ∀ (j : Nat) (o e : LogEntry C), logs[r + j]? = some o → entries[j]? = some e →
      o.term = e.term)
    (h : Raft.mergeEntries logs r entries = some logs') : logs <+: logs' := by
  rcases mergeEntries_eq hr h with ⟨-, rfl⟩ | ⟨u, hu, rfl⟩
  · exact List.prefix_refl _
  · have hlen := firstMismatch_of_agree (fun j o e ho he => hag j o e (by
      rwa [List.getElem?_drop] at ho) he) hu
    rw [List.length_drop] at hlen
    rw [List.take_of_length_le (by omega)]
    exact List.prefix_append _ _

namespace Raft

theorem Agrees.term_eq {rf : Raft C D B} {args : AppendEntriesArgs C} (h : rf.Agrees args)
    {i : Int} {o e : LogEntry C} (hi : args.prevLogIndex < i) (ho : rf.logAt i = some o)
    (he : CheckedSlice.get args.logEntries (i - args.prevLogIndex - 1) = some e) :
    o.term = e.term := by
  refine h i e.term o ?_ ho
  unfold AppendEntriesArgs.termAt
  rw [if_neg (by omega), he]
  rfl

/-- The entries behind the guard, by their absolute indices. -/
theorem logAt_behind {rf : Raft C D B} {guard : LogEntry C} {rest : List (LogEntry C)}
    (hlogs : rf.logs = guard :: rest) (j : Nat) :
    rf.logAt (rf.snapshottedIndex + 1 + j) = rest[j]? := by
  unfold logAt getRelativeLogIndex
  rw [show rf.snapshottedIndex + 1 + j - rf.snapshottedIndex = ((j + 1 : Nat) : Int) by omega,
    CheckedSlice.get_of_nat, hlogs, List.getElem?_cons_succ]

/-- The sent entries behind the snapshot, by their absolute indices. -/
theorem sent_behind {args : AppendEntriesArgs C} {snap : Int} (hprev : args.prevLogIndex ≤ snap)
    (j : Nat) : CheckedSlice.get args.logEntries (snap + 1 + j - args.prevLogIndex - 1) =
      (args.logEntries.drop (snap - args.prevLogIndex).toNat)[j]? := by
  rw [show snap + 1 + j - args.prevLogIndex - 1 =
      (((snap - args.prevLogIndex).toNat + j : Nat) : Int) by omega,
    CheckedSlice.get_of_nat, List.getElem?_drop]

theorem AppendStep.logs_kept {rf r : Raft C D B} {args : AppendEntriesArgs C}
    {reply : AppendEntriesReply} (h : AppendStep rf args r reply) (hag : rf.Agrees args)
    (hcut : ¬ args.prevLogIndex ≤ rf.snapshottedIndex) : rf.logs <+: r.logs := by
  cases h with
  | covered hprev | replaced hprev => exact absurd hprev hcut
  | rejected => exact List.prefix_refl _
  | @merged prev logs r _ hlast hget _ hmerge hcommit =>
    have hlogs : r.logs = logs := by rw [followCommit_frame hcommit]
    obtain ⟨hpos, hsome⟩ := CheckedSlice.get_eq_some hget
    have hlt := (List.getElem?_eq_some_iff.mp hsome).1
    simp only [getRelativeLogIndex] at hpos hlt hmerge
    rw [hlogs]
    refine mergeEntries_of_agree (r := (args.prevLogIndex + 1 - rf.snapshottedIndex).toNat)
      (by omega) ?_ (by rwa [Int.toNat_of_nonneg (by omega)])
    intro j o e ho he
    refine hag.term_eq (i := args.prevLogIndex + 1 + j) (by omega) ?_ ?_
    · unfold logAt getRelativeLogIndex
      rw [← ho, ← CheckedSlice.get_of_nat]
      congr 1
      omega
    · rw [← he, ← CheckedSlice.get_of_nat]
      congr 1
      omega

theorem cutsShort_iff {rf : Raft C D B} {args : AppendEntriesArgs C} {guard : LogEntry C}
    {rest : List (LogEntry C)} (hlogs : rf.logs = guard :: rest)
    (hprev : args.prevLogIndex ≤ rf.snapshottedIndex)
    (hlen : args.prevLogIndex + args.logEntries.length > rf.snapshottedIndex) :
    rest.length ≤ (args.logEntries.drop (rf.snapshottedIndex - args.prevLogIndex).toNat).length ↔
      ¬ rf.CutsShort args := by
  unfold CutsShort lastLogIndex getAbsoluteLogIndex
  rw [hlogs, List.length_drop, List.length_cons]
  omega

/-- What the accepted message leaves of a log that it agrees with. -/
theorem AppendStep.keeps_iff {rf r : Raft C D B} {args : AppendEntriesArgs C}
    {reply : AppendEntriesReply} (h : AppendStep rf args r reply) (hag : rf.Agrees args) :
    (rf.logs.map LogEntry.term <+: r.logs.map LogEntry.term ↔ ¬ rf.CutsShort args) ∧
      (rf.SameEntries args → (rf.logs <+: r.logs ↔ ¬ rf.CutsShort args)) := by
  have hkept : rf.logs <+: r.logs → ¬ rf.CutsShort args →
      (rf.logs.map LogEntry.term <+: r.logs.map LogEntry.term ↔ ¬ rf.CutsShort args) ∧
        (rf.SameEntries args → (rf.logs <+: r.logs ↔ ¬ rf.CutsShort args)) := fun hp hc =>
    ⟨iff_of_true (hp.map _) hc, fun _ => iff_of_true hp hc⟩
  by_cases hcut : args.prevLogIndex ≤ rf.snapshottedIndex
  · cases h with
    | covered _ hlen => exact hkept (List.prefix_refl _) fun hc => absurd hc.2.1 (by omega)
    | rejected hprev | merged hprev => omega
    | @replaced guard rest hprev hlen hlogs =>
      rw [hlogs]
      constructor
      · rw [List.map_cons, List.map_cons, List.prefix_cons_inj, ← cutsShort_iff hlogs hprev hlen]
        refine (prefix_iff_of_agree fun j a b ha hb => ?_).trans (by simp only [List.length_map])
        rw [List.getElem?_map] at ha hb
        obtain ⟨o, ho, rfl⟩ := Option.map_eq_some_iff.mp ha
        obtain ⟨e, he, rfl⟩ := Option.map_eq_some_iff.mp hb
        refine hag.term_eq (i := rf.snapshottedIndex + 1 + j) (by omega) ?_ ?_
        · rwa [logAt_behind hlogs]
        · rwa [sent_behind hprev]
      · intro hsame
        rw [List.prefix_cons_inj, ← cutsShort_iff hlogs hprev hlen]
        refine prefix_iff_of_agree fun j o e ho he => ?_
        refine hsame (rf.snapshottedIndex + 1 + j) e o (by omega) ?_ ?_
        · rwa [sent_behind hprev]
        · rwa [logAt_behind hlogs]
  · exact hkept (h.logs_kept hag hcut) fun hc => hcut hc.1

theorem appendEntries_accepted {gob : Labgob C B} {rf rf' : Raft C D B}
    {args : AppendEntriesArgs C} {reply : AppendEntriesReply}
    (hterm : rf.currentTerm ≤ args.term) (h : rf.appendEntries gob args = some (rf', reply)) :
    ∃ r, AppendStep (rf.adoptTerm args.term) args r reply ∧ rf' = r.persist gob := by
  unfold appendEntries at h
  rw [if_neg (by omega)] at h
  obtain ⟨⟨r, rep⟩, hr, he⟩ := Option.map_eq_some_iff.mp h
  cases he
  exact ⟨r, appendAccepted_cases hr, rfl⟩

theorem appendEntries_success {gob : Labgob C B} {rf rf' : Raft C D B}
    {args : AppendEntriesArgs C} {reply : AppendEntriesReply}
    (h : rf.appendEntries gob args = some (rf', reply)) (hs : reply.success = true) :
    ∃ r, AppendStep (rf.adoptTerm args.term) args r reply ∧ rf' = r.persist gob := by
  refine appendEntries_accepted (Int.not_lt.mp fun hlt => ?_) h
  unfold appendEntries at h
  rw [if_pos hlt] at h
  cases h
  cases hs

/-- `AppendEntries` keeps a log that agrees with the message, unless the message starts in
the snapshot and ends before the log. -/
theorem appendEntries_keeps_agreeing {gob : Labgob C B} {rf rf' : Raft C D B}
    {args : AppendEntriesArgs C} {reply : AppendEntriesReply}
    (hterm : rf.currentTerm ≤ args.term) (hag : rf.Agrees args)
    (h : rf.appendEntries gob args = some (rf', reply)) :
    (rf.Keeps rf' ↔ ¬ rf.CutsShort args) ∧
      (rf.SameEntries args → (rf.logs <+: rf'.logs ↔ ¬ rf.CutsShort args)) := by
  obtain ⟨r, hr, rfl⟩ := appendEntries_accepted hterm h
  have hsnap : r.snapshottedIndex = rf.snapshottedIndex := by rw [hr.frame, adoptTerm_frame]
  rw [adoptTerm_frame] at hr
  obtain ⟨hkeep, hsame⟩ := hr.keeps_iff hag
  exact ⟨(and_iff_right hsnap).trans hkeep, hsame⟩

/-- The leader of term 1 sends its entries from the first index on. -/
def fromStart (entries : List (LogEntry Nat)) : AppendEntriesArgs Nat :=
  ⟨1, 0, 0, 0, entries, 0⟩

/-- A follower that has acknowledged `entries` of term 1 and taken no snapshot. -/
def acknowledged (entries : List (LogEntry Nat)) : Raft Nat Unit (Word Nat) :=
  { (make (Labgob.words Nat) 3 1 makePersister).adoptTerm 1 with logs := ⟨.nil, 0⟩ :: entries }

theorem acknowledged_agrees (l l' : List (LogEntry Nat))
    (h : ∀ (j : Nat) e e', l[j]? = some e → l'[j]? = some e' → e' = e) :
    (acknowledged l').Agrees (fromStart l) := by
  intro i t e ht he
  by_cases hi : i = 0
  · subst hi
    cases ht
    cases he
    rfl
  · have hne : ¬ i = (fromStart l).prevLogIndex := hi
    unfold AppendEntriesArgs.termAt at ht
    rw [if_neg hne] at ht
    obtain ⟨e', he', rfl⟩ := Option.map_eq_some_iff.mp ht
    obtain ⟨hpos, hget⟩ := CheckedSlice.get_eq_some he'
    obtain ⟨-, hlog⟩ := CheckedSlice.get_eq_some he
    have hpos' : 0 ≤ i - 0 - 1 := hpos
    have hidx : ((acknowledged l').getRelativeLogIndex i).toNat = (i - 0 - 1).toNat + 1 := by
      show (i - 0).toNat = _
      omega
    rw [hidx] at hlog
    rw [h _ _ _ hget hlog]

theorem appendEntries_keeps_agreeing_longer : ∃ rf' : Raft Nat Unit (Word Nat),
    (acknowledged [⟨.client 10, 1⟩]).appendEntries (Labgob.words Nat)
      (fromStart [⟨.client 10, 1⟩, ⟨.client 11, 1⟩]) = some (rf', { success := true }) ∧
    (acknowledged [⟨.client 10, 1⟩]).Keeps rf' := by
  obtain ⟨rf', h⟩ : ∃ rf', (acknowledged [⟨.client 10, 1⟩]).appendEntries (Labgob.words Nat)
      (fromStart [⟨.client 10, 1⟩, ⟨.client 11, 1⟩]) = some (rf', { success := true }) := ⟨_, rfl⟩
  have hag : (acknowledged [⟨.client 10, 1⟩]).Agrees
      (fromStart [⟨.client 10, 1⟩, ⟨.client 11, 1⟩]) := by
    apply acknowledged_agrees
    rintro (_ | j) e e' h h'
    · cases h; cases h'; rfl
    · cases h'
  refine ⟨rf', h, (appendEntries_keeps_agreeing (by decide) hag h).1.mpr ?_⟩
  rintro ⟨-, -, hlt⟩
  exact absurd hlt (by decide)

/-- A late repetition of a shorter message takes the acknowledged second entry away. -/
theorem late_message_undoes : ∃ rf rf' : Raft Nat Unit (Word Nat),
    (make (Labgob.words Nat) 3 1 makePersister).appendEntries (Labgob.words Nat)
      (fromStart [⟨.client 10, 1⟩, ⟨.client 11, 1⟩]) = some (rf, { success := true }) ∧
    rf.currentTerm ≤ (fromStart [⟨.client 10, 1⟩]).term ∧
    rf.Agrees (fromStart [⟨.client 10, 1⟩]) ∧
    rf.appendEntries (Labgob.words Nat) (fromStart [⟨.client 10, 1⟩]) =
      some (rf', { success := true }) ∧
    rf.logs = [⟨.nil, 0⟩, ⟨.client 10, 1⟩, ⟨.client 11, 1⟩] ∧
    rf'.logs = [⟨.nil, 0⟩, ⟨.client 10, 1⟩] := by
  refine ⟨_, _, rfl, by decide, ?_, rfl, rfl, rfl⟩
  refine acknowledged_agrees _ [⟨.client 10, 1⟩, ⟨.client 11, 1⟩] ?_
  rintro (_ | j) e e' h h'
  · cases h; cases h'; rfl
  · cases h

/-! ## Messages of the leader -/

/-- `rf` holds the full log from its `snapshottedIndex` on, behind a guard. -/
structure Stores (rf : Raft C D B) (full : List (LogEntry C)) : Prop where
  nonneg : 0 ≤ rf.snapshottedIndex
  le : rf.snapshottedIndex ≤ full.length
  logs : ∃ guard, rf.logs = guard :: full.drop rf.snapshottedIndex.toNat ∧
    guard.term = logTerm (full.take rf.snapshottedIndex.toNat)

/-- The message carries the end of the full log, behind `PrevLogIndex`. -/
structure Carries (args : AppendEntriesArgs C) (full : List (LogEntry C)) : Prop where
  nonneg : 0 ≤ args.prevLogIndex
  le : args.prevLogIndex ≤ full.length
  term : args.prevLogTerm = logTerm (full.take args.prevLogIndex.toNat)
  entries : args.logEntries = full.drop args.prevLogIndex.toNat

theorem Carries.reaches {args : AppendEntriesArgs C} {full : List (LogEntry C)}
    (h : Carries args full) : args.prevLogIndex + args.logEntries.length = full.length := by
  have hpos := h.nonneg
  have hle := h.le
  rw [h.entries, List.length_drop]
  omega

/-- What the snapshot covers of `full`, followed by what `rf.logs` holds. -/
theorem Stores.shape {rf : Raft C D B} {full : List (LogEntry C)} (h : rf.Stores full) :
    Shape (full.take rf.snapshottedIndex.toNat) rf.snapshottedIndex rf.logs ∧
      full.take rf.snapshottedIndex.toNat ++ rf.logs.tail = full := by
  obtain ⟨guard, hlogs, hguard⟩ := h.logs
  have hpos := h.nonneg
  have hle := h.le
  refine ⟨⟨?_, guard, _, hlogs, hguard⟩, ?_⟩
  · rw [List.length_take]
    omega
  · rw [hlogs, List.tail_cons, List.take_append_drop]

theorem Stores.of_shape {rf : Raft C D B} {cov : List (LogEntry C)}
    (h : Shape cov rf.snapshottedIndex rf.logs) : rf.Stores (cov ++ rf.logs.tail) := by
  obtain ⟨guard, rest, hlogs, hguard⟩ := h.guard
  have hidx := h.index
  have htake : rf.snapshottedIndex.toNat = cov.length := by omega
  refine ⟨by omega, by rw [List.length_append]; omega, guard, ?_, ?_⟩
  · rw [htake, List.drop_left, hlogs, List.tail_cons]
  · rw [htake, List.take_left, hguard]

theorem Stores.lastLogIndex {rf : Raft C D B} {full : List (LogEntry C)} (h : rf.Stores full) :
    rf.lastLogIndex = full.length := by
  obtain ⟨hshape, hfull⟩ := h.shape
  have hlen := hshape.length
  rw [hfull] at hlen
  unfold Raft.lastLogIndex getAbsoluteLogIndex
  omega

/-- The goroutine of `broadcastHeartbeat` that gets as far as the call. -/
theorem heartbeat_call {rf rf' : Raft C D B} {server : Nat} {args : AppendEntriesArgs C}
    {out : List (Output C D)} (h : rf.heartbeat server = some (rf', out))
    (hcall : .call server (.appendEntries args) ∈ out) :
    rf.state = .leader ∧ rf.snapshottedIndex ≤ args.prevLogIndex ∧
      ∃ prev entries, CheckedSlice.get rf.logs (rf.getRelativeLogIndex args.prevLogIndex) = some prev ∧
        CheckedSlice.drop rf.logs (rf.getRelativeLogIndex (args.prevLogIndex + 1)) = some entries ∧
        args = rf.appendArgs (rf.nextIndex.getD server 0 - 1) prev entries := by
  unfold heartbeat at h
  split at h
  · cases h; cases hcall
  · rename_i hst
    simp only at h
    split at h
    · cases h; cases hcall
    · rename_i hsnap
      split at h
      · rename_i entries prev hentries hprev
        cases h
        rw [List.mem_singleton] at hcall
        cases hcall
        exact ⟨not_not.mp hst, Int.not_lt.mp hsnap, prev, entries, hprev, hentries, rfl⟩
      · cases h

theorem Stores.carries {rf rf' : Raft C D B} {full : List (LogEntry C)} (h : rf.Stores full)
    {server : Nat} {args : AppendEntriesArgs C} {out : List (Output C D)}
    (hb : rf.heartbeat server = some (rf', out))
    (hcall : .call server (.appendEntries args) ∈ out) : Carries args full := by
  obtain ⟨-, hsnap, prev, entries, hprev, hentries, hargs⟩ := heartbeat_call hb hcall
  obtain ⟨hshape, hfull⟩ := h.shape
  obtain ⟨-, hle, hterm, -⟩ := hshape.get hprev
  obtain ⟨-, -, hdrop⟩ := CheckedSlice.drop_eq_some hentries
  have hpos := h.nonneg
  rw [hfull] at hle hterm
  refine ⟨by omega, hle, ?_, ?_⟩
  · rw [← hterm, hargs]
    rfl
  · have hlen := h.le
    have hsent : args.logEntries = entries := by rw [hargs]; rfl
    simp only [getRelativeLogIndex] at hdrop
    rw [hsent, hdrop, hshape.drop (by omega), hfull, List.length_take]
    congr 1
    omega

/-- The sent entries behind an index that the message covers. -/
theorem Carries.drop {args : AppendEntriesArgs C} {sent : List (LogEntry C)} {index : Int}
    (h : Carries args sent) (hle : args.prevLogIndex ≤ index) :
    args.logEntries.drop (index - args.prevLogIndex).toNat = sent.drop index.toNat := by
  have hpos := h.nonneg
  rw [h.entries, List.drop_drop]
  congr 1
  omega

/-- A follower that accepts the message holds its own full log or the leader's, and holds
the leader's log if the message goes past the snapshot. -/
theorem AppendStep.accepted {rf r : Raft C D B} {args : AppendEntriesArgs C}
    {reply : AppendEntriesReply} {full sent : List (LogEntry C)} (h : AppendStep rf args r reply)
    (hs : reply.success = true) (hfull : rf.Stores full) (hsent : Carries args sent)
    (hm : Matching LogEntry.term full sent) (hle : rf.snapshottedIndex ≤ sent.length)
    (hterm : logTerm (sent.take rf.snapshottedIndex.toNat) =
      logTerm (full.take rf.snapshottedIndex.toNat)) :
    let full' := full.take rf.snapshottedIndex.toNat ++ r.logs.tail
    r.Stores full' ∧ (full' = full ∨ full' = sent) ∧
      (rf.snapshottedIndex < sent.length → sent <+: full') := by
  intro full'
  obtain ⟨hshape, hwhole⟩ := hfull.shape
  have hpos := hfull.nonneg
  have hlen := hfull.le
  have hreach := hsent.reaches
  have hsnap : r.snapshottedIndex = rf.snapshottedIndex := by rw [h.frame]
  have hstore : Shape (full.take rf.snapshottedIndex.toNat) r.snapshottedIndex r.logs →
      r.Stores full' := Stores.of_shape
  rw [hsnap] at hstore
  cases h with
  | covered _ hcov => exact ⟨hstore hshape, Or.inl hwhole, fun hlt => by omega⟩
  | rejected _ hf => rw [hf] at hs; cases hs
  | @replaced guard rest hprev _ hlogs =>
    -- the covered entries are the leader's, and so are all that follow
    have hcov : full.take rf.snapshottedIndex.toNat = sent.take rf.snapshottedIndex.toNat :=
      hm.take_eq (by omega) (by omega) hterm.symm
    have hall : full' = sent := by
      show full.take _ ++ args.logEntries.drop _ = sent
      rw [hsent.drop hprev, hcov, List.take_append_drop]
    refine ⟨hstore ⟨hshape.index, guard, _, rfl, ?_⟩, Or.inr hall, fun _ => ?_⟩
    · obtain ⟨g, rest', hlogs', hg⟩ := hshape.guard
      rw [hlogs] at hlogs'
      cases hlogs'
      exact hg
    · rw [hall]
  | @merged prev logs r hprev hlast hget hpt hmerge hcommit =>
    have hlogs : r.logs = logs := by rw [followCommit_frame hcommit]
    obtain ⟨hshape', -, hsync⟩ := merged_synced hshape hprev hget (hpt.trans hsent.term) hsent.le
      hsent.entries (by rw [hwhole]; exact hm) hmerge
    rw [← hlogs] at hshape' hsync
    rw [hwhole] at hsync
    refine ⟨hstore hshape', ?_, fun _ => hsync.holds⟩
    rcases hsync with ⟨-, he⟩ | ⟨-, he⟩
    · exact Or.inl he
    · exact Or.inr he

theorem AppendStep.commitIndex_le {rf r : Raft C D B} {args : AppendEntriesArgs C}
    {reply : AppendEntriesReply} (h : AppendStep rf args r reply)
    (hlt : rf.commitIndex < r.commitIndex) : r.commitIndex ≤ args.leaderCommit := by
  cases h with
  | covered | replaced | rejected => exact absurd hlt (Int.lt_irrefl _)
  | merged _ _ _ _ _ hcommit =>
    rcases followCommit_cases hcommit with ⟨-, rfl⟩ | ⟨-, hset⟩
    · exact absurd hlt (Int.lt_irrefl _)
    · rcases setCommitIndex_cases hset with ⟨-, rfl⟩ | ⟨-, entries, -, rfl⟩ <;>
        exact Int.min_le_left _ _

/-- `AppendEntries` preserves log matching and commits only the leader's entries. `full`,
`sent` and `third` are the full logs of the follower, the leader and any other server. -/
theorem appendEntries_preserves_matching {gob : Labgob C B} {lead lead' foll foll' : Raft C D B}
    {full sent third : List (LogEntry C)} {server : Nat} {args : AppendEntriesArgs C}
    {reply : AppendEntriesReply} {out : List (Output C D)}
    (hlead : lead.Stores sent) (hfoll : foll.Stores full)
    (hm : Matching LogEntry.term full sent) (hm₁ : Matching LogEntry.term full third)
    (hm₂ : Matching LogEntry.term sent third) (hcommit : lead.commitIndex ≤ lead.lastLogIndex)
    (hle : foll.snapshottedIndex ≤ sent.length)
    (hterm : logTerm (sent.take foll.snapshottedIndex.toNat) =
      logTerm (full.take foll.snapshottedIndex.toNat))
    (hsend : lead.heartbeat server = some (lead', out))
    (hcall : .call server (.appendEntries args) ∈ out)
    (h : foll.appendEntries gob args = some (foll', reply)) (hs : reply.success = true) :
    let full' := full.take foll.snapshottedIndex.toNat ++ foll'.logs.tail
    let last := args.prevLogIndex + args.logEntries.length
    foll'.Stores full' ∧
      (foll.snapshottedIndex < last → full'.take last.toNat = sent.take last.toNat) ∧
      Matching LogEntry.term full' sent ∧ Matching LogEntry.term full' third ∧
      (foll.commitIndex < foll'.commitIndex →
        foll'.commitIndex ≤ min args.leaderCommit last) := by
  intro full' last
  obtain ⟨r, hr, rfl⟩ := appendEntries_success h hs
  have hcarry := hlead.carries hsend hcall
  have hreach : last = sent.length := hcarry.reaches
  have hadopt := adoptTerm_frame foll args.term
  rw [hadopt] at hr
  obtain ⟨hstore, hcase, hpre⟩ := hr.accepted hs ⟨hfoll.nonneg, hfoll.le, hfoll.logs⟩ hcarry hm
    hle hterm
  refine ⟨⟨hstore.nonneg, hstore.le, hstore.logs⟩, fun hlt => ?_, ?_, ?_, fun hlt => ?_⟩
  · have hp : sent <+: full' := hpre (by rw [← hreach]; exact hlt)
    rw [hreach, Int.toNat_natCast, List.take_length]
    exact (List.prefix_iff_eq_take.mp hp).symm
  · rcases hcase with he | he <;> rw [show full' = _ from he]
    · exact hm
    · exact Matching.refl sent
  · rcases hcase with he | he <;> rw [show full' = _ from he]
    · exact hm₁
    · exact hm₂
  · have hup : (r.persist gob).commitIndex ≤ args.leaderCommit := hr.commitIndex_le hlt
    have hsame : args.leaderCommit = lead.commitIndex := by
      obtain ⟨-, -, prev, entries, -, -, hargs⟩ := heartbeat_call hsend hcall
      rw [hargs]
      rfl
    rw [hlead.lastLogIndex] at hcommit
    omega

/-- A leader of term 2 whose snapshot covers the first of its two entries. -/
def sender : Raft Nat Unit (Word Nat) :=
  { (make (Labgob.words Nat) 3 0 makePersister) with
    state := .leader, currentTerm := 2, snapshottedIndex := 1, commitIndex := 1, lastApplied := 1
    logs := [⟨.nil, 1⟩, ⟨.client 12, 2⟩], nextIndex := [3, 2, 2], matchIndex := [2, 1, 1] }

theorem appendEntries_preserves_matching_sender : ∃ foll' : Raft Nat Unit (Word Nat),
    (acknowledged [⟨.client 10, 1⟩, ⟨.client 11, 1⟩]).appendEntries (Labgob.words Nat)
      (sender.appendArgs 1 ⟨.nil, 1⟩ [⟨.client 12, 2⟩]) = some (foll', { success := true }) ∧
    foll'.logs.tail.take 2 = [⟨.client 10, 1⟩, ⟨.client 12, 2⟩] := by
  obtain ⟨foll', h⟩ : ∃ foll', (acknowledged [⟨.client 10, 1⟩, ⟨.client 11, 1⟩]).appendEntries
      (Labgob.words Nat) (sender.appendArgs 1 ⟨.nil, 1⟩ [⟨.client 12, 2⟩]) =
        some (foll', { success := true }) := ⟨_, rfl⟩
  have hm : Matching LogEntry.term [⟨.client 10, 1⟩, ⟨.client 11, 1⟩]
      ([⟨.client 10, 1⟩, ⟨.client 12, 2⟩] : List (LogEntry Nat)) := by
    rintro (_ | _ | k) e e' he he' ht
    · rfl
    · cases he; cases he'; cases ht
    · cases he
  have hlead : sender.Stores [⟨.client 10, 1⟩, ⟨.client 12, 2⟩] :=
    ⟨by decide, by decide, _, rfl, rfl⟩
  have hfoll : (acknowledged [⟨.client 10, 1⟩, ⟨.client 11, 1⟩]).Stores
      [⟨.client 10, 1⟩, ⟨.client 11, 1⟩] := ⟨by decide, by decide, _, rfl, rfl⟩
  have hsend : sender.heartbeat 1 = some (_, [.call 1 (.appendEntries
      (sender.appendArgs 1 ⟨.nil, 1⟩ [⟨.client 12, 2⟩]))]) := rfl
  obtain ⟨-, hagree, -⟩ := appendEntries_preserves_matching hlead hfoll hm (Matching.refl _)
    hm.symm (by decide) (by decide) rfl hsend (List.mem_singleton.mpr rfl) h rfl
  exact ⟨foll', h, hagree (by decide)⟩

end Raft

end DistributionSystem
