import DistributionSystem.Lib.LeaderLog
import DistributionSystem.Raft.Cluster
import DistributionSystem.Raft.Step

/-! The handlers on full logs. A peer's log from index 1 on is what its snapshot covers,
followed by what `rf.logs` holds behind the guard (`Raft.fullLog`). In these terms the
three branches of `AppendEntries` that accept, and `InstallSnapshot`, do one and the
same thing: the full log stays if it goes on from the sent one, and else becomes the
sent one (`Synced`). Compaction does not change it. -/

namespace DistributionSystem

open LeaderLog

variable {C B : Type}

/-- The term of the last entry of a full log. -/
abbrev logTerm (l : List (LogEntry C)) : Int := lastTerm LogEntry.term l

/-- `rf.logs` starts with a guard for the last of the entries that the snapshot covers. -/
structure Shape (cov : List (LogEntry C)) (snap : Int) (logs : List (LogEntry C)) : Prop where
  index : snap = cov.length
  guard : ∃ g rest, logs = g :: rest ∧ g.term = logTerm cov

/-- The full log after `sent` has been accepted. -/
def Synced (full sent full' : List (LogEntry C)) : Prop :=
  (sent <+: full ∧ full' = full) ∨ (¬ sent <+: full ∧ full' = sent)

theorem Synced.holds {full sent full' : List (LogEntry C)} (h : Synced full sent full') :
    sent <+: full' := by
  rcases h with ⟨hp, rfl⟩ | ⟨-, rfl⟩
  · exact hp
  · exact List.prefix_refl _

namespace Shape

variable {cov logs : List (LogEntry C)} {snap : Int}

theorem length (h : Shape cov snap logs) :
    ((cov ++ logs.tail).length : Int) = snap + logs.length - 1 := by
  obtain ⟨g, rest, rfl, -⟩ := h.guard
  rw [h.index]
  simp
  omega

/-- Behind the guard, `rf.logs` is the full log. -/
theorem getElem? (h : Shape cov snap logs) {r : Nat} (hr : 0 < r) :
    logs[r]? = (cov ++ logs.tail)[cov.length + r - 1]? := by
  obtain ⟨g, rest, rfl, -⟩ := h.guard
  obtain ⟨r, rfl⟩ : ∃ m, r = m + 1 := ⟨r - 1, by omega⟩
  rw [List.tail_cons, List.getElem?_cons_succ, List.getElem?_append_right (by omega)]
  congr 1
  omega

theorem drop (h : Shape cov snap logs) {r : Nat} (hr : 0 < r) :
    logs.drop r = (cov ++ logs.tail).drop (cov.length + r - 1) := by
  obtain ⟨g, rest, rfl, -⟩ := h.guard
  obtain ⟨r, rfl⟩ : ∃ m, r = m + 1 := ⟨r - 1, by omega⟩
  rw [List.drop_succ_cons, List.tail_cons,
    show cov.length + (r + 1) - 1 = cov.length + r by omega, List.drop_append,
    List.drop_of_length_le (show cov.length ≤ cov.length + r by omega), List.nil_append,
    Nat.add_sub_cancel_left]

/-- The entry that `rf.logs` shows for an absolute index: the guard has only its term
right. -/
theorem get (h : Shape cov snap logs) {i : Int} {e : LogEntry C}
    (he : CheckedSlice.get logs (i - snap) = some e) :
    snap ≤ i ∧ i ≤ (cov ++ logs.tail).length ∧
      e.term = logTerm ((cov ++ logs.tail).take i.toNat) ∧
      (snap < i → (cov ++ logs.tail)[i.toNat - 1]? = some e) := by
  obtain ⟨hpos, hget⟩ := CheckedSlice.get_eq_some he
  have hlt := (List.getElem?_eq_some_iff.mp hget).1
  have hlen := h.length
  have hidx := h.index
  refine ⟨by omega, by omega, ?_, ?_⟩
  · by_cases hi : i = snap
    · obtain ⟨g, rest, rfl, hg⟩ := h.guard
      have hz : (i - snap).toNat = 0 := by omega
      rw [hz, List.getElem?_cons_zero, Option.some.injEq] at hget
      subst hget
      rw [show i.toNat = cov.length by omega, List.take_left']
      · exact hg
      · rfl
    · rw [h.getElem? (by omega)] at hget
      rw [show i.toNat = (cov.length + (i - snap).toNat - 1) + 1 by omega]
      exact (lastTerm_take hget).symm
  · intro hi
    rw [h.getElem? (by omega)] at hget
    rwa [show i.toNat - 1 = cov.length + (i - snap).toNat - 1 by omega]

theorem last (h : Shape cov snap logs) {e : LogEntry C}
    (he : CheckedSlice.get logs (logs.length - 1) = some e) :
    e.term = logTerm (cov ++ logs.tail) := by
  have hlen := h.length
  have hget := h.get (i := snap + logs.length - 1) (by rwa [show
    snap + (logs.length : Int) - 1 - snap = logs.length - 1 by omega])
  rw [hget.2.2.1, List.take_of_length_le (by omega)]

end Shape

/-! ## AppendEntries -/

/-- The first place where `new` is not the continuation that `old` has. -/
def firstMismatch : List (LogEntry C) → List (LogEntry C) → Option Nat
  | _, [] => none
  | [], _ :: _ => some 0
  | o :: old, e :: new =>
    if o.term ≠ e.term then some 0 else (firstMismatch old new).map (· + 1)

theorem unmatchIdx_eq (logs entries : List (LogEntry C)) (r : Nat) (hr : r ≤ logs.length) :
    Raft.unmatchIdx logs r entries = some (firstMismatch (logs.drop r) entries) := by
  induction entries generalizing r with
  | nil => cases logs.drop r <;> rfl
  | cons e entries ih =>
    unfold Raft.unmatchIdx
    cases hd : logs[r]? with
    | none =>
      have hlen := List.getElem?_eq_none_iff.mp hd
      rw [if_pos (by omega), List.drop_of_length_le hlen]
      rfl
    | some o =>
      have hlt := (List.getElem?_eq_some_iff.mp hd).1
      have hdrop : logs.drop r = o :: logs.drop (r + 1) := by
        rw [List.drop_eq_getElem_cons hlt, (List.getElem?_eq_some_iff.mp hd).2]
      rw [if_neg (by omega), CheckedSlice.get_of_nat, hd, hdrop]
      simp only [firstMismatch]
      split
      · rfl
      · have hih := ih (r + 1) (by omega)
        rw [Int.natCast_add, Int.natCast_one] at hih
        rw [hih]
        rfl

/-- Up to the first mismatch the two are the same, if they match as logs. -/
theorem firstMismatch_spec (a old new : List (LogEntry C))
    (hm : Matching LogEntry.term (a ++ old) (a ++ new)) :
    (firstMismatch old new = none → new <+: old) ∧
      ∀ u, firstMismatch old new = some u →
        u ≤ old.length ∧ old.take u = new.take u ∧ ¬ new <+: old := by
  induction new generalizing a old with
  | nil => cases old <;> simp [firstMismatch]
  | cons e new ih =>
    cases old with
    | nil => simp [firstMismatch]
    | cons o old =>
      simp only [firstMismatch]
      by_cases ht : o.term = e.term
      · rw [if_neg (not_not.mpr ht)]
        obtain rfl : o = e := by
          have h := hm a.length o e (by simp) (by simp) ht
          simpa [List.take_append] using h
        obtain ⟨h1, h2⟩ := ih (a ++ [o]) old (by simpa using hm)
        refine ⟨?_, ?_⟩
        · intro h
          rw [List.prefix_cons_inj]
          exact h1 (by simpa using h)
        · intro u hu
          obtain ⟨w, hw, rfl⟩ := Option.map_eq_some_iff.mp hu
          obtain ⟨h3, h4, h5⟩ := h2 w hw
          refine ⟨by simpa using h3, by simpa using h4, ?_⟩
          rwa [List.prefix_cons_inj]
      · rw [if_pos ht]
        refine ⟨by simp, ?_⟩
        rintro u hu
        cases hu
        refine ⟨by simp, by simp, ?_⟩
        rintro ⟨r, hr⟩
        exact ht (by rw [List.cons_append, List.cons.injEq] at hr; rw [hr.1])

theorem firstMismatch_le {old new : List (LogEntry C)} {u : Nat}
    (h : firstMismatch old new = some u) : u ≤ old.length ∧ u ≤ new.length := by
  induction new generalizing old u with
  | nil => cases old <;> cases h
  | cons e new ih =>
    cases old with
    | nil => cases h; simp
    | cons o old =>
      simp only [firstMismatch] at h
      by_cases ht : o.term = e.term
      · rw [if_neg (not_not.mpr ht)] at h
        obtain ⟨w, hw, rfl⟩ := Option.map_eq_some_iff.mp h
        obtain ⟨h1, h2⟩ := ih hw
        simp only [List.length_cons]
        omega
      · rw [if_pos ht] at h
        cases h
        simp

/-- The log after the comparison: its own entries up to the first mismatch, and then the sent
ones. -/
def spliced (logs : List (LogEntry C)) (r : Nat) (entries : List (LogEntry C)) :
    List (LogEntry C) :=
  match firstMismatch (logs.drop r) entries with
  | none => logs
  | some u => logs.take (r + u) ++ entries.drop u

theorem le_length_spliced {logs entries : List (LogEntry C)} {r : Nat} (hr : r ≤ logs.length) :
    r ≤ (spliced logs r entries).length := by
  unfold spliced
  split
  · exact hr
  · rename_i u hu
    have hold := (firstMismatch_le hu).1
    rw [List.length_drop] at hold
    rw [List.length_append, List.length_take]
    omega

/-- Within the log, the comparison and the replacement do not panic. -/
theorem mergeEntries_of_le {logs entries : List (LogEntry C)} {r : Nat} (hr : r ≤ logs.length) :
    Raft.mergeEntries logs r entries = some (spliced logs r entries) := by
  unfold Raft.mergeEntries spliced
  rw [unmatchIdx_eq logs entries r hr]
  cases hf : firstMismatch (logs.drop r) entries with
  | none => rfl
  | some u =>
    obtain ⟨hold, hnew⟩ := firstMismatch_le hf
    rw [List.length_drop] at hold
    have htake : CheckedSlice.take logs (r + u) = some (logs.take (r + u)) := by
      unfold CheckedSlice.take
      rw [if_pos (by omega)]
      congr 2
    have hdrop : CheckedSlice.drop entries u = some (entries.drop u) := by
      unfold CheckedSlice.drop
      rw [if_pos (by omega), Int.toNat_natCast]
    simp only [htake, hdrop]

theorem mergeEntries_eq {logs entries logs' : List (LogEntry C)} {r : Nat} (hr : r ≤ logs.length)
    (h : Raft.mergeEntries logs r entries = some logs') :
    (firstMismatch (logs.drop r) entries = none ∧ logs' = logs) ∨
      ∃ u, firstMismatch (logs.drop r) entries = some u ∧
        logs' = logs.take (r + u) ++ entries.drop u := by
  rw [mergeEntries_of_le hr, Option.some.injEq] at h
  subst h
  unfold spliced
  cases firstMismatch (logs.drop r) entries with
  | none => exact Or.inl ⟨rfl, rfl⟩
  | some u => exact Or.inr ⟨u, rfl, rfl⟩

/-- The comparison loop and the replacement behind it. -/
theorem merged_synced {cov logs logs' entries sent : List (LogEntry C)} {snap prev : Int}
    {p : LogEntry C} (hs : Shape cov snap logs) (hprev : snap < prev)
    (hp : CheckedSlice.get logs (prev - snap) = some p)
    (hpt : p.term = logTerm (sent.take prev.toNat)) (hlen : prev ≤ sent.length)
    (he : entries = sent.drop prev.toNat)
    (hm : Matching LogEntry.term (cov ++ logs.tail) sent)
    (h : Raft.mergeEntries logs (prev + 1 - snap) entries = some logs') :
    Shape cov snap logs' ∧ logs'.head? = logs.head? ∧
      Synced (cov ++ logs.tail) sent (cov ++ logs'.tail) := by
  obtain ⟨-, hle, hterm, hget⟩ := hs.get hp
  have hidx := hs.index
  have hflen := hs.length
  obtain ⟨q, hq⟩ : ∃ q : Nat, prev = cov.length + q + 1 := ⟨(prev - snap - 1).toNat, by omega⟩
  have hqn : prev.toNat = cov.length + q + 1 := by omega
  -- the two logs agree up to `prev`
  have hagree : (cov ++ logs.tail).take prev.toNat = sent.take prev.toNat :=
    hm.take_eq (by omega) (by omega) (hterm.symm.trans hpt)
  have hfull : sent.take prev.toNat ++ (cov ++ logs.tail).drop prev.toNat = cov ++ logs.tail := by
    rw [← hagree, List.take_append_drop]
  have hsent : sent.take prev.toNat ++ entries = sent := by rw [he, List.take_append_drop]
  rw [show prev + 1 - snap = ((q + 2 : Nat) : Int) by omega] at h
  have hspec := firstMismatch_spec (sent.take prev.toNat) ((cov ++ logs.tail).drop prev.toNat)
    entries (by rw [hfull, hsent]; exact hm)
  have hpre : sent <+: cov ++ logs.tail ↔ entries <+: (cov ++ logs.tail).drop prev.toNat := by
    conv => lhs; rw [← hsent, ← hfull]
    exact List.prefix_append_right_inj _
  have hdrop : logs.drop (q + 2) = (cov ++ logs.tail).drop prev.toNat := by
    rw [hs.drop (by omega), hqn]
    rfl
  rcases mergeEntries_eq (by omega) h with ⟨hf, rfl⟩ | ⟨u, hf, rfl⟩
  · rw [hdrop] at hf
    exact ⟨hs, rfl, Or.inl ⟨hpre.mpr (hspec.1 hf), rfl⟩⟩
  · rw [hdrop] at hf
    obtain ⟨hu, htake, hnot⟩ := hspec.2 u hf
    obtain ⟨g, rest, rfl, hg⟩ := hs.guard
    rw [show q + 2 + u = (q + 1 + u) + 1 by omega, List.take_succ_cons]
    refine ⟨⟨hidx, g, _, rfl, hg⟩, rfl, Or.inr ⟨fun hc => hnot (hpre.mp hc), ?_⟩⟩
    rw [List.tail_cons] at hagree htake
    rw [List.cons_append, List.tail_cons]
    -- up to the mismatch the old entries are the sent ones
    calc cov ++ (rest.take (q + 1 + u) ++ entries.drop u)
        = (cov ++ rest).take (prev.toNat + u) ++ entries.drop u := by
          rw [List.take_append, List.take_of_length_le (show cov.length ≤ prev.toNat + u by omega),
            show prev.toNat + u - cov.length = q + 1 + u by omega, List.append_assoc]
      _ = sent.take prev.toNat ++ (entries.take u ++ entries.drop u) := by
          rw [List.take_add, hagree, htake, List.append_assoc]
      _ = sent := by rw [List.take_append_drop, hsent]

/-- The branch that keeps only the guard. It would drop entries that the sender agrees
with, if the sent log ended before the receiver's; `hkeep` excludes that. -/
theorem replaced_synced {cov rest entries sent leaderLog : List (LogEntry C)} {snap prev : Int}
    {g : LogEntry C} (hs : Shape cov snap (g :: rest)) (hprev : prev ≤ snap) (hpos : 0 ≤ prev)
    (he : entries = sent.drop prev.toNat) (hlen : snap < sent.length)
    (hcov : cov <+: leaderLog) (hsent : sent <+: leaderLog)
    (hkeep : ¬ ((entries.drop (snap - prev).toNat).map LogEntry.term <+: rest.map LogEntry.term ∧
      (entries.drop (snap - prev).toNat).length < rest.length)) :
    Shape cov snap (g :: entries.drop (snap - prev).toNat) ∧
      Synced (cov ++ rest) sent (cov ++ entries.drop (snap - prev).toNat) := by
  have hidx := hs.index
  obtain ⟨g', rest', hg', hgt⟩ := hs.guard
  cases hg'
  have hnew : entries.drop (snap - prev).toNat = sent.drop cov.length := by
    rw [he, List.drop_drop]
    congr 1
    omega
  have hcs : cov <+: sent :=
    List.prefix_of_prefix_length_le hcov hsent (by omega)
  have hfull : cov ++ sent.drop cov.length = sent := by
    obtain ⟨r, rfl⟩ := hcs
    rw [List.drop_left]
  rw [hnew] at hkeep ⊢
  refine ⟨⟨hidx, g, _, rfl, hgt⟩, ?_⟩
  by_cases hp : sent <+: cov ++ rest
  · refine Or.inl ⟨hp, ?_⟩
    have hp' : sent.drop cov.length <+: rest := by
      rw [← hfull] at hp
      exact (List.prefix_append_right_inj _).mp hp
    have hge : ¬ (sent.drop cov.length).length < rest.length := fun hlt =>
      hkeep ⟨hp'.map _, hlt⟩
    rw [hp'.eq_of_length (by have := hp'.length_le; omega)]
  · exact Or.inr ⟨hp, hfull⟩

/-! ## Snapshots -/

/-- `InstallSnapshot` retains the log behind the last included entry if the terms there
agree, and starts with a guard alone else. -/
theorem installed_synced {cov logs sent : List (LogEntry C)} {snap index t : Int}
    (hs : Shape cov snap logs) (hindex : index = sent.length) (hterm : t = logTerm sent)
    (hle : snap ≤ sent.length) (hcov : (sent.length : Int) = snap → sent = cov)
    (hm : Matching LogEntry.term (cov ++ logs.tail) sent) (logs' : List (LogEntry C))
    (hlogs : logs' = match CheckedSlice.get logs (index - snap) with
      | some e => if e.term = t then logs.drop (index - snap).toNat else [⟨.nil, t⟩]
      | none => [⟨.nil, t⟩]) :
    Shape sent sent.length logs' ∧ Synced (cov ++ logs.tail) sent (sent ++ logs'.tail) := by
  subst hindex hterm
  have hidx := hs.index
  have hdiscard : (∀ e, CheckedSlice.get logs (sent.length - snap) = some e →
      e.term ≠ logTerm sent) → logs' = [⟨.nil, logTerm sent⟩] → Shape sent sent.length logs' ∧
        Synced (cov ++ logs.tail) sent (sent ++ logs'.tail) := by
    rintro hne rfl
    refine ⟨⟨rfl, _, [], rfl, rfl⟩, Or.inr ⟨?_, by simp⟩⟩
    -- a log that goes on from the snapshot shows the last included term
    intro hp
    have hlen := hs.length
    have hplen := hp.length_le
    obtain ⟨e, he⟩ : ∃ e, CheckedSlice.get logs (sent.length - snap) = some e := by
      unfold CheckedSlice.get
      rw [if_pos (by omega)]
      exact ⟨_, List.getElem?_eq_getElem (by omega)⟩
    refine hne e he ?_
    obtain ⟨-, -, hterm, -⟩ := hs.get he
    rw [hterm, Int.toNat_natCast]
    exact congrArg _ (List.prefix_iff_eq_take.mp hp).symm
  split at hlogs
  · rename_i e he
    by_cases ht : e.term = logTerm sent
    · rw [if_pos ht] at hlogs
      subst hlogs
      obtain ⟨-, hlen, hterm, hget⟩ := hs.get he
      -- the log agrees with the snapshot up to its last included entry
      have hagree : (cov ++ logs.tail).take sent.length = sent := by
        by_cases hsnap : (sent.length : Int) = snap
        · rw [hcov hsnap, List.take_left]
        · have hpos : 0 < sent.length := by omega
          obtain ⟨x, hx⟩ : ∃ x, sent[sent.length - 1]? = some x :=
            ⟨_, List.getElem?_eq_getElem (by omega)⟩
          have hget' := hget (by omega)
          rw [Int.toNat_natCast] at hget'
          have hxt : e.term = x.term := by
            have hlast : logTerm (sent.take (sent.length - 1 + 1)) = x.term := lastTerm_take hx
            rw [show sent.length - 1 + 1 = sent.length by omega, List.take_length] at hlast
            rw [ht, ← hlast]
          have hk := hm _ e x hget' hx hxt
          rwa [show sent.length - 1 + 1 = sent.length by omega, List.take_length] at hk
      have hp : sent <+: cov ++ logs.tail := by
        rw [← hagree]; exact List.take_prefix _ _
      obtain ⟨hpos, hgetr⟩ := CheckedSlice.get_eq_some he
      have hrlt := (List.getElem?_eq_some_iff.mp hgetr).1
      have hcons : logs.drop (sent.length - snap).toNat =
          e :: logs.drop ((sent.length - snap).toNat + 1) := by
        rw [List.drop_eq_getElem_cons hrlt, (List.getElem?_eq_some_iff.mp hgetr).2]
      rw [hcons]
      refine ⟨⟨rfl, e, _, rfl, ht⟩, Or.inl ⟨hp, ?_⟩⟩
      rw [List.tail_cons, hs.drop (by omega)]
      conv => rhs; rw [← List.take_append_drop sent.length (cov ++ logs.tail), hagree]
      congr 2
      omega
    · rw [if_neg ht] at hlogs
      refine hdiscard ?_ hlogs
      intro e' he'
      rw [he] at he'
      cases he'
      exact ht
  · rename_i he
    refine hdiscard ?_ hlogs
    intro e' he'
    rw [he] at he'
    cases he'

/-- Compaction keeps the full log, and its guard is the last covered entry itself. -/
theorem compacted {cov logs : List (LogEntry C)} {snap index : Int} (hs : Shape cov snap logs)
    (hlt : snap < index) (hle : index ≤ (cov ++ logs.tail).length) :
    let full := cov ++ logs.tail
    let logs' := logs.drop (index - snap).toNat
    Shape (full.take index.toNat) index logs' ∧ full.take index.toNat ++ logs'.tail = full ∧
      ∃ e, logs'.head? = some e ∧ full[index.toNat - 1]? = some e := by
  intro full logs'
  have hidx := hs.index
  have hlen := hs.length
  obtain ⟨e, he⟩ : ∃ e, logs[(index - snap).toNat]? = some e :=
    ⟨_, List.getElem?_eq_getElem (by omega)⟩
  have hrlt := (List.getElem?_eq_some_iff.mp he).1
  have hcons : logs' = e :: logs.drop ((index - snap).toNat + 1) := by
    show logs.drop _ = _
    rw [List.drop_eq_getElem_cons hrlt, (List.getElem?_eq_some_iff.mp he).2]
  have hget : full[index.toNat - 1]? = some e := by
    have h := hs.getElem? (r := (index - snap).toNat) (by omega)
    rw [he] at h
    rw [h]
    congr 1
    omega
  refine ⟨⟨?_, e, _, hcons, ?_⟩, ?_, e, ?_, hget⟩
  · rw [List.length_take]
    show index = ((min index.toNat (cov ++ logs.tail).length : Nat) : Int)
    omega
  · rw [show index.toNat = (index.toNat - 1) + 1 by omega]
    exact (lastTerm_take hget).symm
  · rw [hcons, List.tail_cons, hs.drop (by omega)]
    conv => rhs; rw [← List.take_append_drop index.toNat full]
    congr 2
    omega
  · rw [hcons]; rfl

/-! ## Committing -/

/-- The entries that `setCommitIndex` hands out are those behind `applied`, up to the
commit index. The slice may start at the guard, which then has to be a real entry. -/
theorem slice_full {cov logs entries : List (LogEntry C)} {snap applied commit : Int}
    (hs : Shape cov snap logs) (hpos : 0 ≤ applied) (hsnap : snap ≤ applied + 1)
    (hguard : snap = applied + 1 → ∃ e, logs.head? = some e ∧
      (cov ++ logs.tail)[snap.toNat - 1]? = some e)
    (h : CheckedSlice.slice logs (applied + 1 - snap) (commit + 1 - snap) = some entries) :
    entries = ((cov ++ logs.tail).take commit.toNat).drop applied.toNat ∧
      commit ≤ (cov ++ logs.tail).length ∧ applied ≤ commit := by
  obtain ⟨h1, h2, h3, rfl⟩ := CheckedSlice.slice_eq_some h
  have hidx := hs.index
  have hlen := hs.length
  refine ⟨?_, by omega, by omega⟩
  -- both sides are compared entry by entry
  apply List.ext_getElem?
  intro k
  rw [List.getElem?_drop, List.getElem?_drop, List.getElem?_take, List.getElem?_take]
  have hiff : (applied + 1 - snap).toNat + k < (commit + 1 - snap).toNat ↔
      applied.toNat + k < commit.toNat := by omega
  by_cases hk : applied.toNat + k < commit.toNat
  · rw [if_pos hk, if_pos (hiff.mpr hk)]
    by_cases hz : (applied + 1 - snap).toNat + k = 0
    · obtain ⟨e, he, hfull⟩ := hguard (by omega)
      rw [hz, ← List.head?_eq_getElem?, he, ← hfull]
      congr 1
      omega
    · rw [hs.getElem? (by omega)]
      congr 1
      omega
  · rw [if_neg hk, if_neg (fun hc => hk (hiff.mp hc))]

end DistributionSystem
