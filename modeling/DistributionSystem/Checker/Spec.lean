import DistributionSystem.Checker.Model
import Mathlib.Data.List.Forall2
import Mathlib.Data.List.TakeWhile

/-! Facts about linearizable event histories. The first operation of an order is one that is
called before anything returns, and the rest is an order of the history without that operation;
and the numbers of the operations do not matter. -/

namespace DistributionSystem.Checker

variable {V S : Type}

@[simp] theorem Event.isCall_iff {e : Event V} : e.isCall = true ↔ e.kind = .call := by
  simp [Event.isCall]

@[simp] theorem Event.returns_iff {e : Event V} {id : Nat} :
    e.returns id = true ↔ e.kind = .ret ∧ e.id = id := by
  simp [Event.returns]

@[simp] theorem Event.of_iff {e : Event V} {id : Nat} : e.of id = true ↔ e.id = id := by
  simp [Event.of]

/-- The history without the operation `id`. -/
def without (id : Nat) (history : List (Event V)) : List (Event V) :=
  history.filter fun e => !e.of id

theorem mem_without {id : Nat} {h : List (Event V)} {x : Event V} :
    x ∈ without id h ↔ x ∈ h ∧ x.id ≠ id := by
  simp [without, Event.of]

/-- Every call has its return later, and there is no other event of its operation. A return may
be without its call. -/
def Paired (history : List (Event V)) : Prop :=
  ∀ e ∈ history, e.kind = .call →
    (history.filter (Event.of e.id)).map Event.kind = [.call, .ret]

section wellFormed

variable {h : List (Event V)}

theorem WellFormed.paired (hw : WellFormed h) : Paired h := fun e he _ => hw e he

/-- The two events of an operation, and that there are no others. -/
theorem WellFormed.pair (hw : WellFormed h) {e : Event V} (he : e ∈ h) :
    ∃ c r xs ys zs, h = xs ++ c :: (ys ++ r :: zs) ∧ c.kind = .call ∧ r.kind = .ret ∧
      c.id = e.id ∧ r.id = e.id ∧ (∀ x ∈ xs, x.id ≠ e.id) ∧ (∀ x ∈ ys, x.id ≠ e.id) ∧
      ∀ x ∈ zs, x.id ≠ e.id := by
  have hkinds := hw e he
  obtain ⟨c, rest, hc, hck, hrest⟩ := List.map_eq_cons_iff.mp hkinds
  obtain ⟨r, rest', rfl, hrk, hnil⟩ := List.map_eq_cons_iff.mp hrest
  obtain rfl := List.map_eq_nil_iff.mp hnil
  obtain ⟨xs, l, rfl, hxs, hcid, hl⟩ := List.filter_eq_cons_iff.mp hc
  obtain ⟨ys, zs, rfl, hys, hrid, hzs⟩ := List.filter_eq_cons_iff.mp hl
  refine ⟨c, r, xs, ys, zs, rfl, hck, hrk, by simpa using hcid, by simpa using hrid,
    fun x hx => by simpa using hxs x hx, fun x hx => by simpa using hys x hx, fun x hx => ?_⟩
  simpa using List.filter_eq_nil_iff.mp hzs x hx

/-- The history of some of the operations. -/
theorem WellFormed.filter_id (hw : WellFormed h) (p : Nat → Bool) :
    WellFormed (h.filter fun e => p e.id) := by
  intro e he
  obtain ⟨heh, hp⟩ := List.mem_filter.mp he
  have hkept : (h.filter fun x => p x.id).filter (Event.of e.id) = h.filter (Event.of e.id) := by
    rw [List.filter_filter]
    apply List.filter_congr
    intro x _
    by_cases hx : x.id = e.id
    · simp [Event.of, hx, hp]
    · simp [Event.of, hx]
  rw [hkept]
  exact hw e heh

theorem WellFormed.without (hw : WellFormed h) (id : Nat) : WellFormed (without id h) :=
  hw.filter_id fun i => !decide (i = id)

/-- The events of an operation, around its call. -/
theorem WellFormed.call_pair (hw : WellFormed h) {c : Event V} (hc : c ∈ h)
    (hk : c.kind = .call) :
    ∃ r xs ys zs, h = xs ++ c :: (ys ++ r :: zs) ∧ r.kind = .ret ∧ r.id = c.id ∧
      (∀ x ∈ xs, x.id ≠ c.id) ∧ (∀ x ∈ ys, x.id ≠ c.id) ∧ ∀ x ∈ zs, x.id ≠ c.id := by
  obtain ⟨c', r, xs, ys, zs, rfl, -, hrk, -, hrid, hxs, hys, hzs⟩ := hw.pair hc
  have hcc : c = c' := by
    rcases List.mem_append.mp hc with hx | hx
    · exact absurd rfl (hxs c hx)
    rcases List.mem_cons.mp hx with heq | hx
    · exact heq
    rcases List.mem_append.mp hx with hx | hx
    · exact absurd rfl (hys c hx)
    rcases List.mem_cons.mp hx with rfl | hx
    · exact absurd (hk.symm.trans hrk) (by decide)
    · exact absurd rfl (hzs c hx)
  subst hcc
  exact ⟨r, xs, ys, zs, rfl, hrk, hrid, hxs, hys, hzs⟩

theorem without_eq_self {id : Nat} {l : List (Event V)} (hl : ∀ x ∈ l, x.id ≠ id) :
    Checker.without id l = l := by
  rw [Checker.without, List.filter_eq_self]
  intro x hx
  simp [Event.of, hl x hx]

theorem without_append (id : Nat) (l l' : List (Event V)) :
    Checker.without id (l ++ l') = Checker.without id l ++ Checker.without id l' :=
  List.filter_append ..

theorem without_cons {id : Nat} {x : Event V} (hx : x.id = id) (l : List (Event V)) :
    Checker.without id (x :: l) = Checker.without id l := by
  simp [Checker.without, Event.of, hx]

theorem outputOf_filter_id {p : Nat → Bool} {a : Nat} (hp : p a = true) :
    outputOf (h.filter fun e => p e.id) a = outputOf h a := by
  rw [outputOf, outputOf, List.find?_filter]
  congr 2
  funext x
  by_cases hx : x.id = a
  · simp [Event.returns, hx, hp]
  · simp [Event.returns, hx]

theorem outputOf_without {a id : Nat} (hne : a ≠ id) :
    outputOf (Checker.without id h) a = outputOf h a := by
  have hkeep : (!decide (a = id)) = true := by simp [hne]
  exact outputOf_filter_id (p := fun i => !decide (i = id)) hkeep

/-- Where no event belongs to the operation, none returns it. -/
theorem find?_returns_none {A : Type} {g : A → Event V} {id : Nat} {l : List A}
    (hl : ∀ x ∈ l, (g x).id ≠ id) : l.find? (fun x => (g x).returns id) = none := by
  rw [List.find?_eq_none]
  intro x hx
  simp [Event.returns, hl x hx]

/-- The operations that the calls in `l` stand for. -/
def opsOf (h l : List (Event V)) : List (Op V) :=
  (l.filter Event.isCall).filterMap fun e =>
    (outputOf h e.id).map fun out => ⟨e.id, e.value, out⟩

theorem opsOf_append (h l l' : List (Event V)) : opsOf h (l ++ l') = opsOf h l ++ opsOf h l' := by
  simp only [opsOf, List.filter_append, List.filterMap_append]

theorem opsOf_without {id : Nat} {l : List (Event V)} (hl : ∀ x ∈ l, x.id ≠ id) :
    opsOf (Checker.without id h) l = opsOf h l := by
  apply List.filterMap_congr
  intro x hx
  rw [outputOf_without (hl x (List.mem_filter.mp hx).1)]

/-- An operation, and the operations of the history without it. -/
theorem WellFormed.operations_perm (hw : WellFormed h) {c : Event V} (hc : c ∈ h)
    (hk : c.kind = .call) : ∃ out, outputOf h c.id = some out ∧
      (operations h).Perm (⟨c.id, c.value, out⟩ :: operations (Checker.without c.id h)) := by
  obtain ⟨r, xs, ys, zs, hsplit, hrk, hrid, hxs, hys, hzs⟩ := hw.call_pair hc hk
  have hnone : ∀ l : List (Event V), (∀ x ∈ l, x.id ≠ c.id) →
      l.find? (Event.returns c.id) = none := fun l hl => find?_returns_none hl
  have hout : outputOf h c.id = some r.value := by
    rw [outputOf, hsplit]
    simp [List.find?_append, hnone xs hxs, hnone ys hys, Event.returns, hk, hrk, hrid]
  have hrest : Checker.without c.id h = xs ++ (ys ++ zs) := by
    rw [hsplit, without_append, without_cons rfl, without_append, without_cons hrid,
      without_eq_self hxs, without_eq_self hys, without_eq_self hzs]
  have hcall : opsOf h [c] = [⟨c.id, c.value, r.value⟩] := by
    simp [opsOf, Event.isCall, hk, hout]
  have hret : opsOf h [r] = [] := by
    simp [opsOf, Event.isCall, hrk]
  refine ⟨r.value, hout, ?_⟩
  calc operations h
      = opsOf h xs ++ (opsOf h [c] ++ (opsOf h ys ++ (opsOf h [r] ++ opsOf h zs))) := by
        rw [← opsOf_append, ← opsOf_append, ← opsOf_append, ← opsOf_append]
        exact congrArg (opsOf h) hsplit
    _ = opsOf h xs ++ ⟨c.id, c.value, r.value⟩ :: (opsOf h ys ++ opsOf h zs) := by
        rw [hcall, hret]
        rfl
    List.Perm _ (⟨c.id, c.value, r.value⟩ :: (opsOf h xs ++ (opsOf h ys ++ opsOf h zs))) :=
        List.perm_middle
    _ = ⟨c.id, c.value, r.value⟩ :: operations (Checker.without c.id h) := by
        have hne : ∀ x ∈ Checker.without c.id h, x.id ≠ c.id := fun x hx => (mem_without.mp hx).2
        rw [← opsOf_append, ← opsOf_append, ← hrest, ← opsOf_without hne]
        rfl

/-- An operation is in the list of operations with its call and the value it returns. -/
theorem mem_operations {o : Op V} : o ∈ operations h ↔
    (⟨.call, o.input, o.id⟩ : Event V) ∈ h ∧ outputOf h o.id = some o.output := by
  simp only [operations, List.mem_filterMap, List.mem_filter, Event.isCall_iff,
    Option.map_eq_some_iff]
  constructor
  · rintro ⟨e, ⟨he, hk⟩, out, hout, rfl⟩
    exact ⟨by rw [← hk]; exact he, hout⟩
  · rintro ⟨he, hout⟩
    exact ⟨_, ⟨he, rfl⟩, o.output, hout, rfl⟩

end wellFormed

section precedence

variable {h : List (Event V)}

theorem Precedes.of_without {id a b : Nat} (hp : Precedes (without id h) a b) :
    Precedes h a b := by
  obtain ⟨l₁, l₂, heq, ⟨r, hr, hrk⟩, c, hc, hck⟩ := hp
  obtain ⟨h₁, h₂, rfl, rfl, rfl⟩ := List.filter_eq_append_iff.mp heq
  exact ⟨h₁, h₂, rfl, ⟨r, (List.mem_filter.mp hr).1, hrk⟩, c, (List.mem_filter.mp hc).1, hck⟩

theorem Precedes.without {id a b : Nat} (hp : Precedes h a b) (ha : a ≠ id) (hb : b ≠ id) :
    Precedes (Checker.without id h) a b := by
  obtain ⟨h₁, h₂, rfl, ⟨r, hr, hrk, rfl⟩, c, hc, hck, rfl⟩ := hp
  refine ⟨Checker.without id h₁, Checker.without id h₂, List.filter_append .., ?_, ?_⟩
  · exact ⟨r, mem_without.mpr ⟨hr, ha⟩, hrk, rfl⟩
  · exact ⟨c, mem_without.mpr ⟨hc, hb⟩, hck, rfl⟩

theorem count_call_pos {l : List (Event V)} {c : Event V} {id : Nat} (hc : c ∈ l)
    (hk : c.kind = .call) (hid : c.id = id) :
    0 < ((l.filter (Event.of id)).map Event.kind).count .call := by
  rw [List.count_pos_iff, ← hk]
  exact List.mem_map_of_mem (List.mem_filter.mpr ⟨hc, Event.of_iff.mpr hid⟩)

/-- Nothing precedes an operation exactly if it is called before anything returns. -/
theorem WellFormed.first_iff (hw : WellFormed h) {c : Event V} (hc : c ∈ h)
    (hk : c.kind = .call) :
    c ∈ h.takeWhile Event.isCall ↔ ∀ a, ¬ Precedes h a c.id := by
  have hsplit := List.takeWhile_append_dropWhile (p := Event.isCall) (l := h)
  constructor
  · rintro hfirst a ⟨h₁, h₂, heq, ⟨r, hr, hrk, -⟩, c', hc', hck', hid'⟩
    rcases List.append_eq_append_iff.mp (hsplit.trans heq) with ⟨as, rfl, -⟩ | ⟨bs, hbs, -⟩
    · -- both parts have a call of the operation
      have hcount := congrArg (List.count .call) (hw c hc)
      rw [heq, List.filter_append, List.map_append, List.count_append] at hcount
      have h₁pos := count_call_pos (List.mem_append_left as hfirst) hk rfl
      have h₂pos := count_call_pos hc' hck' hid'
      have hone : List.count EventKind.call [.call, .ret] = 1 := by decide
      omega
    · have hmem : r ∈ h.takeWhile Event.isCall := hbs ▸ List.mem_append_left bs hr
      have hcall := Event.isCall_iff.mp (List.mem_takeWhile_imp hmem)
      exact absurd (hrk.symm.trans hcall) (by decide)
  · intro hnone
    rw [← hsplit] at hc
    rcases List.mem_append.mp hc with hfirst | hlate
    · exact hfirst
    · cases hd : h.dropWhile Event.isCall with
      | nil => rw [hd] at hlate; exact absurd hlate (by simp)
      | cons d rest =>
        -- the first event that is no call returns before `c` is called
        have hdk : d.kind = .ret := by
          have hhead := List.head?_dropWhile_not Event.isCall h
          rw [hd] at hhead
          cases hkind : d.kind with
          | ret => rfl
          | call => simp [Event.isCall, hkind] at hhead
        rw [hd] at hlate hsplit
        refine absurd ⟨h.takeWhile Event.isCall ++ [d], rest, ?_, ⟨d, by simp, hdk, rfl⟩,
          c, ?_, hk, rfl⟩ (hnone d.id)
        · rw [List.append_assoc]
          exact hsplit.symm
        · rcases List.mem_cons.mp hlate with rfl | hrest
          · exact absurd (hk.symm.trans hdk) (by decide)
          · exact hrest

end precedence

/-- No operation returns before it is called. -/
theorem WellFormed.not_precedes_self {h : List (Event V)} (hw : WellFormed h) (a : Nat) :
    ¬ Precedes h a a := by
  rintro ⟨h₁, h₂, rfl, ⟨r, hr, hrk, rfl⟩, c, hc, hck, hid⟩
  have hkinds := hw r (List.mem_append_left h₂ hr)
  rw [List.filter_append, List.map_append] at hkinds
  have hret : EventKind.ret ∈ (h₁.filter (Event.of r.id)).map Event.kind :=
    hrk ▸ List.mem_map_of_mem (List.mem_filter.mpr ⟨hr, Event.of_iff.mpr rfl⟩)
  have hcall : EventKind.call ∈ (h₂.filter (Event.of r.id)).map Event.kind :=
    hck ▸ List.mem_map_of_mem (List.mem_filter.mpr ⟨hc, Event.of_iff.mpr hid⟩)
  rcases List.append_eq_cons_iff.mp hkinds with ⟨hnil, -⟩ | ⟨l, hl, hrest⟩
  · rw [hnil] at hret
    exact absurd hret (by simp)
  · rcases List.append_eq_cons_iff.mp hrest.symm with ⟨hnil, -⟩ | ⟨l', -, hrest'⟩
    · rw [hl, hnil] at hret
      exact absurd hret (by simp)
    · have hnil := (List.append_eq_nil_iff.mp hrest'.symm).2
      rw [hnil] at hcall
      exact absurd hcall (by simp)

/-- Every event belongs to an operation. -/
theorem WellFormed.exists_operation {h : List (Event V)} (hw : WellFormed h) {e : Event V}
    (he : e ∈ h) : ∃ o ∈ operations h, o.id = e.id := by
  obtain ⟨c, r, xs, ys, zs, hsplit, hck, -, hcid, -⟩ := hw.pair he
  have hc : c ∈ h := by
    rw [hsplit]
    exact List.mem_append_right _ List.mem_cons_self
  obtain ⟨out, -, hops⟩ := hw.operations_perm hc hck
  exact ⟨_, hops.mem_iff.mpr List.mem_cons_self, hcid⟩

/-- The first operation of an order is one that is called before anything returns; the others
are an order of the history without it. -/
theorem WellFormed.linearizable_iff {h : List (Event V)} (hw : WellFormed h) (hne : h ≠ [])
    (model : Model V S) (s : S) :
    LinearizableFrom model s h ↔ ∃ c ∈ h.takeWhile Event.isCall, ∃ out,
      outputOf h c.id = some out ∧ (model.step s c.value out).1 = true ∧
      LinearizableFrom model (model.step s c.value out).2 (Checker.without c.id h) := by
  constructor
  · rintro ⟨order, hperm, hacc, hpw⟩
    cases order with
    | nil =>
      -- a history with an event has an operation
      obtain ⟨e, he⟩ := List.exists_mem_of_ne_nil h hne
      obtain ⟨o, ho, -⟩ := hw.exists_operation he
      exact absurd (hperm.mem_iff.mpr ho) (by simp)
    | cons o order =>
      obtain ⟨hcall, hout⟩ := mem_operations.mp (hperm.mem_iff.mp List.mem_cons_self)
      obtain ⟨out, hout', hops⟩ := hw.operations_perm hcall rfl
      obtain rfl := Option.some.inj (hout.symm.trans hout')
      obtain ⟨hok, hacc⟩ := hacc
      obtain ⟨hfirst, hpw⟩ := List.pairwise_cons.mp hpw
      have hrest := (hperm.trans hops).cons_inv
      refine ⟨_, (hw.first_iff hcall rfl).mpr ?_, o.output, hout, hok, order, hrest, hacc, ?_⟩
      · rintro a hp
        have hp' := hp
        obtain ⟨h₁, h₂, heq, ⟨r, hr, -, hrid⟩, -⟩ := hp'
        obtain ⟨b, hb, hbid⟩ := hw.exists_operation (heq ▸ List.mem_append_left h₂ hr)
        rw [← hrid, ← hbid] at hp
        rcases List.mem_cons.mp (hperm.mem_iff.mpr hb) with rfl | hb
        · exact hw.not_precedes_self _ hp
        · exact hfirst b hb hp
      · exact hpw.imp fun hnp hp => hnp hp.of_without
  · rintro ⟨c, hc, out, hout, hok, order, hperm, hacc, hpw⟩
    have hch : c ∈ h := (List.takeWhile_prefix _).subset hc
    have hck : c.kind = .call := Event.isCall_iff.mp (List.mem_takeWhile_imp hc)
    obtain ⟨out', hout', hops⟩ := hw.operations_perm hch hck
    obtain rfl := Option.some.inj (hout.symm.trans hout')
    refine ⟨⟨c.id, c.value, out⟩ :: order, (hperm.cons _).trans hops.symm, ⟨hok, hacc⟩,
      List.pairwise_cons.mpr ⟨fun b _ => (hw.first_iff hch hck).mp hc b.id, ?_⟩⟩
    have hids : ∀ o ∈ order, o.id ≠ c.id :=
      fun o ho => (mem_without.mp (mem_operations.mp (hperm.mem_iff.mp ho)).1).2
    exact hpw.imp_of_mem fun ha hb hnp hp => hnp (hp.without (hids _ hb) (hids _ ha))

section rename

variable {f : Nat → Nat} {h : List (Event V)}

def Event.rename (f : Nat → Nat) (e : Event V) : Event V := ⟨e.kind, e.value, f e.id⟩

def Op.rename (f : Nat → Nat) (o : Op V) : Op V := ⟨f o.id, o.input, o.output⟩

/-- Different operations of the history get different numbers. -/
def Renames (f : Nat → Nat) (h : List (Event V)) : Prop :=
  ∀ a ∈ h, ∀ b ∈ h, f a.id = f b.id → a.id = b.id

theorem Renames.filter_of (hf : Renames f h) {e : Event V} (he : e ∈ h) :
    (h.map (Event.rename f)).filter (Event.of (f e.id)) =
      (h.filter (Event.of e.id)).map (Event.rename f) := by
  rw [List.filter_map]
  congr 1
  apply List.filter_congr
  intro x hx
  rw [Function.comp_apply, Bool.eq_iff_iff, Event.of_iff, Event.of_iff]
  exact ⟨hf x hx e he, fun heq => congrArg f heq⟩

theorem WellFormed.rename (hw : WellFormed h) (hf : Renames f h) :
    WellFormed (h.map (Event.rename f)) := by
  intro e' he'
  obtain ⟨e, he, rfl⟩ := List.mem_map.mp he'
  have hfilter := hf.filter_of he
  rw [show (e.rename f).id = f e.id from rfl, hfilter, List.map_map]
  exact hw e he

theorem Renames.outputOf (hf : Renames f h) {e : Event V} (he : e ∈ h) :
    Checker.outputOf (h.map (Event.rename f)) (f e.id) = Checker.outputOf h e.id := by
  have hfilter : h.filter (Event.returns (f e.id) ∘ Event.rename f) =
      h.filter (Event.returns e.id) := by
    apply List.filter_congr
    intro x hx
    rw [Function.comp_apply, Bool.eq_iff_iff, Event.returns_iff, Event.returns_iff]
    exact and_congr_right fun _ => ⟨hf x hx e he, fun heq => congrArg f heq⟩
  rw [Checker.outputOf, Checker.outputOf, List.find?_map, Option.map_map, ← List.head?_filter,
    ← List.head?_filter, hfilter]
  rfl

theorem Renames.operations (hf : Renames f h) :
    Checker.operations (h.map (Event.rename f)) = (Checker.operations h).map (Op.rename f) := by
  have hcalls : (h.map (Event.rename f)).filter Event.isCall =
      (h.filter Event.isCall).map (Event.rename f) := List.filter_map ..
  rw [Checker.operations, hcalls, List.filterMap_map, Checker.operations, List.map_filterMap]
  apply List.filterMap_congr
  intro e he
  have hout := hf.outputOf (List.mem_filter.mp he).1
  simp only [Function.comp_apply, Event.rename, hout, Option.map_map]
  rfl

theorem Renames.precedes_iff (hf : Renames f h) {a b : Event V} (ha : a ∈ h) (hb : b ∈ h) :
    Precedes (h.map (Event.rename f)) (f a.id) (f b.id) ↔ Precedes h a.id b.id := by
  constructor
  · rintro ⟨l₁, l₂, heq, ⟨r', hr', hrk, hrid⟩, c', hc', hck, hcid⟩
    obtain ⟨h₁, h₂, rfl, rfl, rfl⟩ := List.map_eq_append_iff.mp heq
    obtain ⟨r, hr, rfl⟩ := List.mem_map.mp hr'
    obtain ⟨c, hc, rfl⟩ := List.mem_map.mp hc'
    exact ⟨h₁, h₂, rfl, ⟨r, hr, hrk, hf r (List.mem_append_left _ hr) a ha hrid⟩,
      c, hc, hck, hf c (List.mem_append_right _ hc) b hb hcid⟩
  · rintro ⟨h₁, h₂, rfl, ⟨r, hr, hrk, hrid⟩, c, hc, hck, hcid⟩
    exact ⟨h₁.map (Event.rename f), h₂.map (Event.rename f), List.map_append,
      ⟨_, List.mem_map_of_mem hr, hrk, congrArg f hrid⟩,
      _, List.mem_map_of_mem hc, hck, congrArg f hcid⟩

/-- Renumbering the operations changes nothing. -/
theorem Renames.linearizable_iff (hf : Renames f h) (model : Model V S) (s : S) :
    LinearizableFrom model s (h.map (Event.rename f)) ↔ LinearizableFrom model s h := by
  rw [LinearizableFrom, hf.operations]
  refine Serial.serializable_map (fun _ _ => rfl) fun a ha b hb => ?_
  exact hf.precedes_iff (mem_operations.mp ha).1 (mem_operations.mp hb).1

end rename

end DistributionSystem.Checker
