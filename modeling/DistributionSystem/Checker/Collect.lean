import DistributionSystem.Checker.Operations
import DistributionSystem.Lib.Runs
import Mathlib.Algebra.Ring.Nat

/-! The check of a history by its parts (`CheckOperationsTimeout`). Each part is searched by a
goroutine of its own, which sends its verdict on an unbuffered channel; the caller receives
verdicts until one is false, all have come, or the time is over. The kill flag is set when the
caller leaves the loop, so no verdict that is received was forced by it. -/

namespace DistributionSystem.Checker

open Runs

variable {V S : Type}

/-- The goroutine of a part: it searches, waits to send its verdict, or has sent it. -/
inductive Worker (V S : Type)
  | searching (headEntry : Nat) (m : Search V S)
  | sending (verdict : Bool)
  | done
  | panicked

/-- The variables of `CheckOperationsTimeout`; `returned` is its result once it has left the
loop. -/
structure Collection (V S : Type) where
  workers : List (Worker V S)
  kill : Bool
  ok : Bool
  count : Nat
  returned : Option Bool

inductive Action
  | round (i : Nat)
  | receive (i : Nat)
  | timeout
  deriving DecidableEq, Repr

/-- The list has as many entries as the heap has nodes. -/
def Worker.start (model : Model V S) (l : Heap V) (root : Option Nat) : Worker V S :=
  match startSearch model l.length l root with
  | some (headEntry, m) => .searching headEntry m
  | none => .panicked

/-- One round of the search, with the kill flag as it is then. -/
def Worker.round (model : Model V S) (kill : Bool) : Worker V S → Option (Worker V S)
  | .searching headEntry m =>
    match iterate model headEntry kill m with
    | some (.inl m) => some (.searching headEntry m)
    | some (.inr answer) => some (.sending answer)
    | none => some .panicked
  | _ => none

/-- The state when the loop begins. No goroutine can send before. -/
def start (model : Model V S) (parts : List (List (Entry V))) : Option (Collection V S) := do
  let lists ← parts.mapM makeLinkedEntries
  some ⟨lists.map fun l => Worker.start model l.1 l.2.1, false, true, 0, none⟩

/-- The branch of a result. -/
def Collection.receive (c : Collection V S) (i : Nat) (result : Bool) : Collection V S :=
  let ok := c.ok && result
  let workers := c.workers.set i .done
  if !ok then ⟨workers, true, ok, c.count, some ok⟩
  else if c.count + 1 ≥ c.workers.length then ⟨workers, c.kill, ok, c.count + 1, some ok⟩
  else ⟨workers, c.kill, ok, c.count + 1, none⟩

/-- A round of a search, a rendezvous of a goroutine with the loop, or the end of the time, which
comes only for a positive `timeout`. -/
def Collection.step (model : Model V S) (timeout : Int) (c : Collection V S) :
    Action → Option (Collection V S)
  | .round i =>
    match c.workers[i]? with
    | none => none
    | some w => (w.round model c.kill).map fun w => { c with workers := c.workers.set i w }
  | .receive i =>
    match c.returned, c.workers[i]? with
    | none, some (.sending result) => some (c.receive i result)
    | _, _ => none
  | .timeout =>
    match c.returned with
    | none => if 0 < timeout then some { c with returned := some c.ok } else none
    | some _ => none

abbrev CollectRun (model : Model V S) (timeout : Int) :=
  Run (Collection.step model timeout) fun (_ : Collection V S) (_ : Action) => True

/-- The verdict of the search of a part that is left alone. -/
def OwnVerdict (model : Model V S) (entries : List (Entry V)) (verdict : Bool) : Prop :=
  ∃ bound, ∀ fuel, bound ≤ fuel →
    checkEntries model fuel (fun _ => false) entries = some verdict

/-- However the goroutines are scheduled, the loop is left after finitely many steps, with the
result `verdict`, and nothing panics. -/
structure Gives (model : Model V S) (timeout : Int) (c : Collection V S) (verdict : Bool) :
    Prop where
  bounded : ∃ bound, ∀ as c', CollectRun model timeout c as c' → as.length ≤ bound
  goes_on : ∀ as c', CollectRun model timeout c as c' → c'.returned = none →
    ∃ a, (c'.step model timeout a).isSome = true
  returns : ∀ as c', CollectRun model timeout c as c' →
    ∀ result, c'.returned = some result → result = verdict
  safe : ∀ as c', CollectRun model timeout c as c' → Worker.panicked ∉ c'.workers

theorem OwnVerdict.unique {model : Model V S} {entries : List (Entry V)} {b b' : Bool}
    (h : OwnVerdict model entries b) (h' : OwnVerdict model entries b') : b = b' := by
  obtain ⟨bound, h⟩ := h
  obtain ⟨bound', h'⟩ := h'
  have heq := h (max bound bound') (Nat.le_max_left ..)
  rw [h' _ (Nat.le_max_right ..)] at heq
  exact (Option.some.inj heq).symm

/-- The loop is left with the result, and there is only one. -/
theorem Gives.exists_run {model : Model V S} {timeout : Int} {c : Collection V S} {verdict : Bool}
    (h : Gives model timeout c verdict) :
    ∃ as c', CollectRun model timeout c as c' ∧ c'.returned = some verdict := by
  obtain ⟨bound, hb⟩ := h.bounded
  obtain ⟨as, c', hr, hret⟩ := exists_run_of_bounded
    (Q := fun c' => c'.returned.isSome = true) hb fun as c' hr hnot => by
      obtain ⟨a, ha⟩ := h.goes_on as c' hr (by simpa using hnot)
      obtain ⟨u, hu⟩ := Option.isSome_iff_exists.mp ha
      exact ⟨a, u, trivial, hu⟩
  obtain ⟨result, hresult⟩ := Option.isSome_iff_exists.mp hret
  exact ⟨as, c', hr, h.returns as c' hr result hresult ▸ hresult⟩

theorem Gives.unique {model : Model V S} {timeout : Int} {c : Collection V S} {b b' : Bool}
    (h : Gives model timeout c b) (h' : Gives model timeout c b') : b = b' := by
  obtain ⟨as, c', hr, hret⟩ := h.exists_run
  exact h'.returns as c' hr b hret

section invariant

/-- A goroutine with the verdict of its search alone and a bound on what it can still do. -/
structure Part (V S : Type) where
  verdict : Bool
  rank : Nat
  worker : Worker V S

/-- What is known of a goroutine, by the kill flag and by whether the loop is left. -/
def Part.Fits (model : Model V S) (kill : Bool) (returned : Option Bool) (p : Part V S) : Prop :=
  match p.worker with
  | .searching headEntry m => ∃ fuel, p.rank = fuel + 1 ∧
      loop model headEntry fuel (fun _ => false) m = some p.verdict
  | .sending result => p.rank = 1 ∧ (kill = false → result = p.verdict)
  | .done => p.rank = 0 ∧ (returned = none → p.verdict = true)
  | .panicked => False

def Worker.isDone : Worker V S → Bool
  | .done => true
  | _ => false

/-- What holds in every state of the loop and after it. -/
structure Collection.Inv (model : Model V S) (timeout : Int) (verdicts : List Bool)
    (ps : List (Part V S)) (c : Collection V S) : Prop where
  workers : c.workers = ps.map Part.worker
  own : verdicts = ps.map Part.verdict
  fits : ∀ p ∈ ps, p.Fits model c.kill c.returned
  loop : c.returned = none → c.kill = false ∧ c.ok = true ∧
    c.count = c.workers.countP Worker.isDone ∧ (c.workers ≠ [] → c.count < c.workers.length)
  result : ∀ result, c.returned = some result →
    result = verdicts.all id ∨ 0 < timeout ∧ result = true

/-- The bound on what can still happen. -/
def Collection.rank (ps : List (Part V S)) (c : Collection V S) : Nat :=
  (ps.map Part.rank).sum + if c.returned.isNone then 1 else 0

variable {model : Model V S} {timeout : Int} {verdicts : List Bool} {ps : List (Part V S)}
  {c c' : Collection V S}

theorem Part.Fits.mono {p : Part V S} {kill kill' : Bool} {returned returned' : Option Bool}
    (h : p.Fits model kill returned) (hk : kill' = false → kill = false)
    (hr : returned' = none → returned = none) : p.Fits model kill' returned' := by
  obtain ⟨verdict, rank, worker⟩ := p
  cases worker with
  | searching headEntry m => exact h
  | sending result => exact ⟨h.1, fun hf => h.2 (hk hf)⟩
  | done => exact ⟨h.1, fun hf => h.2 (hr hf)⟩
  | panicked => exact h

/-- With the kill flag set, a round gives an answer where it would not panic without the flag. -/
theorem iterate_kill {headEntry : Nat} {m : Search V S} {r : Search V S ⊕ Bool}
    (h : iterate model headEntry false m = some r) :
    ∃ answer, iterate model headEntry true m = some (.inr answer) := by
  simp only [iterate, Option.bind_eq_bind, Option.bind_eq_some_iff] at h
  obtain ⟨head, hhead, -⟩ := h
  cases hnext : head.next with
  | none => exact ⟨true, by simp [iterate, hhead, hnext]⟩
  | some next => exact ⟨false, by simp [iterate, hhead, hnext]⟩

/-- A round of a goroutine. -/
theorem Part.Fits.round {p : Part V S} {kill : Bool} {returned : Option Bool}
    (h : p.Fits model kill returned) {w : Worker V S} (hw : p.worker.round model kill = some w) :
    p.worker.isDone = false ∧ w.isDone = false ∧
      ∃ n < p.rank, Part.Fits model kill returned ⟨p.verdict, n, w⟩ := by
  obtain ⟨verdict, rank, worker⟩ := p
  cases worker with
  | sending result => exact absurd hw (by simp [Worker.round])
  | done => exact absurd hw (by simp [Worker.round])
  | panicked => exact absurd hw (by simp [Worker.round])
  | searching headEntry m =>
    refine ⟨rfl, ?_⟩
    obtain ⟨fuel, hrank, hloop⟩ := h
    have hrank : rank = fuel + 1 := hrank
    cases fuel with
    | zero => exact absurd hloop (by simp [Checker.loop])
    | succ fuel =>
      simp only [Checker.loop, Option.bind_eq_bind, Option.bind_eq_some_iff] at hloop
      obtain ⟨r, hr, hrest⟩ := hloop
      cases kill with
      | true =>
        obtain ⟨answer, hanswer⟩ := iterate_kill hr
        simp only [Worker.round, hanswer, Option.some.injEq] at hw
        subst hw
        exact ⟨rfl, 1, by simp only [hrank]; omega, rfl, fun hf => absurd hf (by simp)⟩
      | false =>
        cases r with
        | inl m' =>
          simp only [Worker.round, hr, Option.some.injEq] at hw
          subst hw
          exact ⟨rfl, fuel + 1, by simp only [hrank]; omega, fuel, rfl, hrest⟩
        | inr answer =>
          simp only [Worker.round, hr, Option.some.injEq] at hw
          subst hw
          exact ⟨rfl, 1, by simp only [hrank]; omega, rfl, fun _ => Option.some.inj hrest⟩

/-- What a step is. -/
theorem Collection.step_cases {a : Action} (h : c.step model timeout a = some c') :
    (∃ i w w', a = .round i ∧ c.workers[i]? = some w ∧ w.round model c.kill = some w' ∧
      c' = { c with workers := c.workers.set i w' }) ∨
    (∃ i result, a = .receive i ∧ c.returned = none ∧
      c.workers[i]? = some (.sending result) ∧ c' = c.receive i result) ∨
    (a = .timeout ∧ c.returned = none ∧ 0 < timeout ∧ c' = { c with returned := some c.ok }) := by
  cases a with
  | round i =>
    simp only [step] at h
    cases hw : c.workers[i]? with
    | none => simp [hw] at h
    | some w =>
      simp only [hw, Option.map_eq_some_iff] at h
      obtain ⟨w', hround, rfl⟩ := h
      exact Or.inl ⟨i, w, w', rfl, hw, hround, rfl⟩
  | receive i =>
    simp only [step] at h
    split at h
    · rename_i result hret hw
      exact Or.inr (Or.inl ⟨i, result, rfl, hret, hw, (Option.some.inj h).symm⟩)
    · exact absurd h (by simp)
  | timeout =>
    simp only [step] at h
    split at h
    · rename_i hret
      split at h
      · rename_i hpos
        exact Or.inr (Or.inr ⟨rfl, hret, hpos, (Option.some.inj h).symm⟩)
      · exact absurd h (by simp)
    · exact absurd h (by simp)

/-- The part of a goroutine, and the other parts. -/
theorem Collection.Inv.part (h : c.Inv model timeout verdicts ps) {i : Nat} {w : Worker V S}
    (hw : c.workers[i]? = some w) :
    ∃ p xs ys, p.worker = w ∧ ps = xs ++ p :: ys ∧
      ∀ p' : Part V S, c.workers.set i p'.worker = (xs ++ p' :: ys).map Part.worker := by
  rw [h.workers, List.getElem?_map] at hw
  obtain ⟨p, hp, rfl⟩ := Option.map_eq_some_iff.mp hw
  obtain ⟨xs, ys, hsplit, hset⟩ := split_at hp
  refine ⟨p, xs, ys, rfl, hsplit, fun p' => ?_⟩
  rw [h.workers, ← List.map_set, hset]

theorem Collection.Inv.round (h : c.Inv model timeout verdicts ps) {i : Nat} {w w' : Worker V S}
    (hw : c.workers[i]? = some w) (hround : w.round model c.kill = some w') :
    ∃ ps', Collection.Inv model timeout verdicts ps' { c with workers := c.workers.set i w' } ∧
      Collection.rank ps' { c with workers := c.workers.set i w' } < c.rank ps := by
  obtain ⟨p, xs, ys, rfl, rfl, hset⟩ := h.part hw
  have hp := h.fits p (by simp)
  obtain ⟨hnot, hnot', n, hlt, hfits⟩ := hp.round hround
  have hworkers : c.workers.set i w' = (xs ++ ⟨p.verdict, n, w'⟩ :: ys).map Part.worker :=
    hset ⟨p.verdict, n, w'⟩
  refine ⟨xs ++ ⟨p.verdict, n, w'⟩ :: ys, ⟨hworkers, ?_, ?_, ?_, h.result⟩, ?_⟩
  · rw [h.own]
    simp
  · exact forall_mem_replaced h.fits (fun _ => id) hfits
  · intro hret
    obtain ⟨hkill, hok, hcount, hlen⟩ := h.loop hret
    refine ⟨hkill, hok, ?_, ?_⟩
    · rw [hcount, hworkers, h.workers]
      simp only [List.map_append, List.map_cons, List.countP_append, List.countP_cons, hnot, hnot']
    · simp only [List.length_set, ne_eq, List.set_eq_nil_iff]
      exact hlen
  · simp only [Collection.rank, List.map_append, List.map_cons, List.sum_append, List.sum_cons]
    omega

theorem Collection.Inv.expire (h : c.Inv model timeout verdicts ps) (hret : c.returned = none)
    (hpos : 0 < timeout) :
    ∃ ps', Collection.Inv model timeout verdicts ps' { c with returned := some c.ok } ∧
      Collection.rank ps' { c with returned := some c.ok } < c.rank ps := by
  refine ⟨ps, ⟨h.workers, h.own, fun p hp => ?_, fun hnone => absurd hnone (by simp), ?_⟩, ?_⟩
  · exact (h.fits p hp).mono id fun hnone => absurd hnone (by simp)
  · intro result hresult
    exact Or.inr ⟨hpos, (Option.some.inj hresult).symm.trans (h.loop hret).2.1⟩
  · simp [Collection.rank, hret]

/-- When all goroutines are done, every verdict was true. -/
theorem Collection.Inv.all_true (h : c.Inv model timeout verdicts ps) (hret : c.returned = none)
    {xs ys : List (Part V S)} {p : Part V S} (hps : ps = xs ++ p :: ys) (hp : p.verdict = true)
    (hdone : ∀ q ∈ xs ++ ys, q.worker.isDone = true) : verdicts.all id = true := by
  have hverdict : ∀ q ∈ xs ++ ys, q.verdict = true := by
    intro q hq
    have hfits := h.fits q (by rw [hps]; rcases List.mem_append.mp hq with hq | hq <;> simp [hq])
    have hd := hdone q hq
    obtain ⟨verdict, rank, worker⟩ := q
    cases worker with
    | done => exact hfits.2 hret
    | searching headEntry m => exact absurd hd (by simp [Worker.isDone])
    | sending result => exact absurd hd (by simp [Worker.isDone])
    | panicked => exact absurd hd (by simp [Worker.isDone])
  rw [h.own, hps, List.all_eq_true]
  intro v hv
  obtain ⟨q, hq, rfl⟩ := List.mem_map.mp hv
  rcases List.mem_append.mp hq with hq | hq
  · exact hverdict q (List.mem_append_left _ hq)
  · rcases List.mem_cons.mp hq with rfl | hq
    · exact hp
    · exact hverdict q (List.mem_append_right _ hq)

theorem Collection.Inv.receive (h : c.Inv model timeout verdicts ps) (hret : c.returned = none)
    {i : Nat} {result : Bool} (hw : c.workers[i]? = some (.sending result)) :
    ∃ ps', (c.receive i result).Inv model timeout verdicts ps' ∧
      (c.receive i result).rank ps' < c.rank ps := by
  obtain ⟨p, xs, ys, hpw, rfl, hset⟩ := h.part hw
  obtain ⟨hkill, hok, hcount, hlen⟩ := h.loop hret
  have hne : c.workers ≠ [] := by
    intro hnil
    rw [hnil] at hw
    exact absurd hw (by simp)
  -- the flag is not set, so the result is the verdict of the search alone
  have hp := h.fits p (by simp)
  simp only [Part.Fits, hpw] at hp
  obtain ⟨hrank, hresult⟩ := hp
  have hresult := hresult hkill
  have hworkers : c.workers.set i .done = (xs ++ ⟨p.verdict, 0, .done⟩ :: ys).map Part.worker :=
    hset ⟨p.verdict, 0, .done⟩
  have hcount' : c.count + 1 = (c.workers.set i .done).countP Worker.isDone := by
    rw [hcount, hworkers, h.workers]
    simp only [List.map_append, List.map_cons, List.countP_append, List.countP_cons, hpw,
      Worker.isDone, Bool.false_eq_true, if_false, if_true]
    omega
  have hown : verdicts = (xs ++ ⟨p.verdict, 0, .done⟩ :: ys).map Part.verdict := by
    rw [h.own]
    simp
  have hothers : ∀ (kill : Bool) (returned : Option Bool), (kill = false → c.kill = false) →
      (returned = none → p.verdict = true) →
      ∀ q ∈ xs ++ (⟨p.verdict, 0, .done⟩ : Part V S) :: ys, q.Fits model kill returned := by
    intro kill returned hk hr
    exact forall_mem_replaced h.fits (fun q hq => hq.mono hk fun _ => hret) ⟨rfl, hr⟩
  have hlower : ∀ c' : Collection V S,
      c'.rank (xs ++ (⟨p.verdict, 0, .done⟩ : Part V S) :: ys) < c.rank (xs ++ p :: ys) := by
    intro c'
    simp only [Collection.rank, hret, List.map_append, List.map_cons, List.sum_append,
      List.sum_cons, hrank, Option.isNone_none, if_true]
    split <;> omega
  refine ⟨xs ++ ⟨p.verdict, 0, .done⟩ :: ys, ?_, hlower _⟩
  cases hv : result with
  | false =>
    have hreceive : c.receive i false =
        ⟨c.workers.set i .done, true, false, c.count, some false⟩ := by
      simp [Collection.receive]
    rw [hreceive]
    refine ⟨hworkers, hown, hothers _ _ (by simp) (by simp), by simp, ?_⟩
    rintro _ ⟨rfl⟩
    refine Or.inl ?_
    rw [hown, eq_comm, List.all_eq_false]
    exact ⟨p.verdict, by simp, by simp [← hresult, hv]⟩
  | true =>
    have hverdict : p.verdict = true := hresult.symm.trans hv
    by_cases hall : c.count + 1 ≥ c.workers.length
    · have hreceive : c.receive i true =
          ⟨c.workers.set i .done, c.kill, true, c.count + 1, some true⟩ := by
        simp [Collection.receive, hok, hall]
      rw [hreceive]
      refine ⟨hworkers, hown, hothers _ _ id (by simp), by simp, ?_⟩
      rintro _ ⟨rfl⟩
      refine Or.inl (h.all_true hret rfl hverdict fun q hq => ?_).symm
      -- as many are done as there are goroutines
      have hfull : (c.workers.set i .done).countP Worker.isDone =
          (c.workers.set i .done).length := by
        have hle := List.countP_le_length (p := Worker.isDone) (l := c.workers.set i .done)
        rw [List.length_set] at hle ⊢
        omega
      refine List.countP_eq_length.mp hfull _ ?_
      rw [hworkers]
      apply List.mem_map_of_mem
      rcases List.mem_append.mp hq with hq | hq <;> simp [hq]
    · have hreceive : c.receive i true =
          ⟨c.workers.set i .done, c.kill, true, c.count + 1, none⟩ := by
        simp [Collection.receive, hok, hall]
      rw [hreceive]
      refine ⟨hworkers, hown, hothers _ _ id fun _ => hverdict, fun _ => ?_, by simp⟩
      refine ⟨hkill, rfl, hcount', fun _ => ?_⟩
      simp only [List.length_set]
      omega

/-- Every step keeps the invariant and lowers the rank. -/
theorem Collection.Inv.step (h : c.Inv model timeout verdicts ps) {a : Action}
    (hs : c.step model timeout a = some c') :
    ∃ ps', c'.Inv model timeout verdicts ps' ∧ c'.rank ps' < c.rank ps := by
  obtain ⟨i, w, w', -, hw, hround, rfl⟩ | ⟨i, result, -, hret, hw, rfl⟩ | ⟨-, hret, hpos, rfl⟩ :=
    Collection.step_cases hs
  · exact h.round hw hround
  · exact h.receive hret hw
  · exact h.expire hret hpos

/-- While the loop is not left, a goroutine can do something. -/
theorem Collection.Inv.enabled (h : c.Inv model timeout verdicts ps) (hret : c.returned = none)
    (hne : ps ≠ []) : ∃ a, (c.step model timeout a).isSome = true := by
  obtain ⟨-, -, hcount, hlen⟩ := h.loop hret
  have hlt : c.workers.countP Worker.isDone < c.workers.length := by
    rw [← hcount]
    apply hlen
    rw [h.workers]
    exact fun hnil => hne (List.map_eq_nil_iff.mp hnil)
  obtain ⟨w, hmem, hw⟩ : ∃ w ∈ c.workers, w.isDone = false := by
    by_contra hall
    have hfull := List.countP_eq_length (p := Worker.isDone) (l := c.workers) |>.mpr
      fun w hw => by
        cases hd : w.isDone with
        | true => rfl
        | false => exact absurd ⟨w, hw, hd⟩ hall
    omega
  obtain ⟨i, hi⟩ := List.mem_iff_getElem?.mp hmem
  cases hcase : w with
  | done => exact absurd hw (by simp [hcase, Worker.isDone])
  | panicked =>
    obtain ⟨p, xs, ys, hpw, hps, -⟩ := h.part hi
    have hp := h.fits p (by simp [hps])
    simp only [Part.Fits, hpw, hcase] at hp
  | sending result =>
    refine ⟨.receive i, ?_⟩
    rw [hcase] at hi
    simp [Collection.step, hret, hi]
  | searching headEntry m =>
    refine ⟨.round i, ?_⟩
    rw [hcase] at hi
    simp only [Collection.step, hi, Worker.round]
    split <;> rfl

end invariant

section collect

variable {model : Model V S} {timeout : Int} {verdicts : List Bool} {ps : List (Part V S)}
  {c : Collection V S}

/-- From a state of the loop on. -/
theorem Collection.Inv.run (h : c.Inv model timeout verdicts ps) {as : List Action}
    {c' : Collection V S} (hr : CollectRun model timeout c as c') :
    ∃ ps', c'.Inv model timeout verdicts ps' ∧ as.length + c'.rank ps' ≤ c.rank ps := by
  obtain ⟨n, ⟨ps', h', rfl⟩, hle⟩ := hr.ranked
    (fun c n => ∃ ps, c.Inv model timeout verdicts ps ∧ c.rank ps = n)
    (by
      rintro c a c' n ⟨ps, h, rfl⟩ - hs
      obtain ⟨ps', h', hlt⟩ := h.step hs
      exact ⟨_, hlt, ps', h', rfl⟩)
    ⟨ps, h, rfl⟩
  exact ⟨ps', h', hle⟩

theorem Collection.Inv.parts_ne_nil (h : c.Inv model timeout verdicts ps) :
    ps = [] ↔ verdicts = [] := by
  rw [h.own, List.map_eq_nil_iff]

/-- Without a timeout and with at least one part, the loop gives the conjunction of the verdicts
that the searches have alone. -/
theorem Collection.Inv.gives (h : c.Inv model 0 verdicts ps) (hne : verdicts ≠ []) :
    Gives model 0 c (verdicts.all id) where
  bounded := by
    refine ⟨c.rank ps, fun as c' hr => ?_⟩
    obtain ⟨ps', -, hle⟩ := h.run hr
    omega
  goes_on as c' hr hret := by
    obtain ⟨ps', h', -⟩ := h.run hr
    exact h'.enabled hret fun hnil => hne (h'.parts_ne_nil.mp hnil)
  returns as c' hr result hret := by
    obtain ⟨ps', h', -⟩ := h.run hr
    rcases h'.result result hret with heq | ⟨hpos, -⟩
    · exact heq
    · exact absurd hpos (by decide)
  safe as c' hr hmem := by
    obtain ⟨ps', h', -⟩ := h.run hr
    rw [h'.workers] at hmem
    obtain ⟨p, hp, hpw⟩ := List.mem_map.mp hmem
    have hfits := h'.fits p hp
    simp only [Part.Fits, hpw] at hfits

/-- With no parts there is nothing to wait for. -/
theorem step_of_no_workers (hw : c.workers = []) (hret : c.returned = none) (a : Action) :
    c.step model 0 a = none := by
  cases a with
  | round i => simp [Collection.step, hw]
  | receive i => simp [Collection.step, hw, hret]
  | timeout => simp [Collection.step, hret]

/-- So the loop stays where it is. -/
theorem run_of_no_workers {as : List Action} {c' : Collection V S} (hr : CollectRun model 0 c as c')
    (hw : c.workers = []) (hret : c.returned = none) : as = [] ∧ c' = c := by
  induction hr with
  | nil => exact ⟨rfl, rfl⟩
  | snoc _ _ hs ih =>
    rw [ih.2, step_of_no_workers hw hret] at hs
    exact absurd hs (by simp)

theorem not_gives_of_no_workers {verdict : Bool} (hw : c.workers = []) (hret : c.returned = none) :
    ¬ Gives model 0 c verdict := by
  intro h
  obtain ⟨a, ha⟩ := h.goes_on [] c Run.nil hret
  rw [step_of_no_workers hw hret] at ha
  exact absurd ha (by simp)

end collect

end DistributionSystem.Checker
