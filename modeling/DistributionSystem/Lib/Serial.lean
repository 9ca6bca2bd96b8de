import Mathlib.Data.List.Forall2
import Mathlib.Data.List.MinMax
import Mathlib.Data.List.Perm.Basic
import Mathlib.Logic.Function.Basic

/-! Orders of operations that a sequential object accepts and that keep a given precedence.
For operations with a time of call and a time of return on several objects, each object can be
looked at alone: orders of the parts merge into one order of the whole, because the operation
that returns first, or one that its own object puts before it, can always go first. -/

namespace Serial

variable {A S : Type}

/-- The object accepts the operations one after the other. -/
def Accepts (step : S → A → Bool × S) : S → List A → Prop
  | _, [] => True
  | s, a :: as => (step s a).1 = true ∧ Accepts step (step s a).2 as

/-- Some order of the operations is accepted from `s` in which none comes after one that it
precedes. -/
def Serializable (step : S → A → Bool × S) (precedes : A → A → Prop) (s : S) (ops : List A) :
    Prop :=
  ∃ order : List A, order.Perm ops ∧ Accepts step s order ∧
    order.Pairwise fun a b => ¬ precedes b a

section order

variable {step : S → A → Bool × S} {precedes precedes' : A → A → Prop} {s : S} {ops ops' : List A}

/-- Only the operations matter, not their order in the list. -/
theorem Serializable.perm (h : Serializable step precedes s ops) (hp : ops.Perm ops') :
    Serializable step precedes s ops' := by
  obtain ⟨order, horder, hacc, hpw⟩ := h
  exact ⟨order, horder.trans hp, hacc, hpw⟩

/-- An order that keeps a precedence keeps a weaker one. -/
theorem Serializable.mono (h : Serializable step precedes s ops)
    (hle : ∀ a ∈ ops, ∀ b ∈ ops, precedes' a b → precedes a b) :
    Serializable step precedes' s ops := by
  obtain ⟨order, horder, hacc, hpw⟩ := h
  refine ⟨order, horder, hacc, hpw.imp_of_mem fun {a b} ha hb hnp hp => hnp ?_⟩
  exact hle b (horder.mem_iff.mp hb) a (horder.mem_iff.mp ha) hp

end order

section map

variable {B : Type} {g : A → B} {step : S → A → Bool × S} {step' : S → B → Bool × S}

theorem accepts_map (hstep : ∀ s a, step' s (g a) = step s a) {s : S} {order : List A} :
    Accepts step' s (order.map g) ↔ Accepts step s order := by
  induction order generalizing s with
  | nil => exact Iff.rfl
  | cons a order ih => simp only [List.map_cons, Accepts, hstep, ih]

/-- Other names for the operations. -/
theorem serializable_map {precedes : A → A → Prop} {precedes' : B → B → Prop} {ops : List A}
    (hstep : ∀ s a, step' s (g a) = step s a)
    (hprec : ∀ a ∈ ops, ∀ b ∈ ops, precedes' (g a) (g b) ↔ precedes a b) {s : S} :
    Serializable step' precedes' s (ops.map g) ↔ Serializable step precedes s ops := by
  constructor
  · rintro ⟨order', hp', hacc, hpw⟩
    have hnames : List.Forall₂ (fun b a => b = g a) (ops.map g) ops :=
      List.forall₂_map_left_iff.mpr (List.forall₂_same.mpr fun _ _ => rfl)
    obtain ⟨order, horder, hp⟩ := List.perm_comp_forall₂ hp' hnames
    have heq : order' = order.map g := List.forall₂_eq_eq_eq ▸ List.forall₂_map_right_iff.mpr horder
    subst heq
    refine ⟨order, hp, (accepts_map hstep).mp hacc, ?_⟩
    refine (List.pairwise_map.mp hpw).imp_of_mem fun {a b} ha hb hnp hprecedes => hnp ?_
    exact (hprec b (hp.mem_iff.mp hb) a (hp.mem_iff.mp ha)).mpr hprecedes
  · rintro ⟨order, hp, hacc, hpw⟩
    refine ⟨order.map g, hp.map g, (accepts_map hstep).mpr hacc, List.pairwise_map.mpr ?_⟩
    refine hpw.imp_of_mem fun {a b} ha hb hnp hprecedes => hnp ?_
    exact (hprec b (hp.mem_iff.mp hb) a (hp.mem_iff.mp ha)).mp hprecedes

end map

section product

variable {K : Type} [DecidableEq K] (obj : A → K)

/-- The operations on objects `K`, each of which acts on its own object. -/
def productStep (step : S → A → Bool × S) (σ : K → S) (a : A) : Bool × (K → S) :=
  ((step (σ (obj a)) a).1, Function.update σ (obj a) (step (σ (obj a)) a).2)

/-- The operations on the object `k`. -/
def on (k : K) (ops : List A) : List A := ops.filter fun a => obj a = k

variable {obj}

theorem on_cons_self {a : A} {ops : List A} : on obj (obj a) (a :: ops) = a :: on obj (obj a) ops := by
  simp [on]

theorem on_cons_of_ne {k : K} {a : A} {ops : List A} (h : obj a ≠ k) :
    on obj k (a :: ops) = on obj k ops := by
  simp [on, h]

theorem accepts_product {step : S → A → Bool × S} {σ : K → S} {order : List A} :
    Accepts (productStep obj step) σ order ↔ ∀ k, Accepts step (σ k) (on obj k order) := by
  induction order generalizing σ with
  | nil => exact ⟨fun _ _ => trivial, fun _ => trivial⟩
  | cons a order ih =>
    simp only [Accepts, ih]
    constructor
    · rintro ⟨hok, hrest⟩ k
      have hk := hrest k
      by_cases hak : obj a = k
      · subst hak
        rw [on_cons_self]
        simp only [productStep, Function.update_self] at hk
        exact ⟨hok, hk⟩
      · rw [on_cons_of_ne hak]
        simp only [productStep, Function.update_of_ne (Ne.symm hak)] at hk
        exact hk
    · intro h
      have ha := h (obj a)
      rw [on_cons_self] at ha
      refine ⟨ha.1, fun k => ?_⟩
      by_cases hak : obj a = k
      · subst hak
        simp only [productStep, Function.update_self]
        exact ha.2
      · have hk := h k
        rw [on_cons_of_ne hak] at hk
        simp only [productStep, Function.update_of_ne (Ne.symm hak)]
        exact hk

variable {T : Type} [LinearOrder T] {call ret : A → T}

/-- The first operation of the order of some object can go before all others. -/
theorem exists_first {ops : List A} (hne : ops ≠ []) (hcall : ∀ a ∈ ops, call a < ret a)
    {orders : K → List A} (hperm : ∀ k, (orders k).Perm (on obj k ops))
    (horder : ∀ k, (orders k).Pairwise fun a b => ¬ ret b < call a) :
    ∃ h t, orders (obj h) = h :: t ∧ ∀ a ∈ ops, ¬ ret a < call h := by
  obtain ⟨x, hx⟩ : ∃ x, x ∈ ops.argmin ret :=
    Option.ne_none_iff_exists'.mp (fun hnone => hne (List.argmin_eq_none.mp hnone))
  have hxmem := List.argmin_mem hx
  have hmin : ∀ a ∈ ops, ret x ≤ ret a := fun a ha => List.le_of_mem_argmin ha hx
  have hxord : x ∈ orders (obj x) := (hperm _).mem_iff.mpr (List.mem_filter.mpr ⟨hxmem, by simp⟩)
  cases hord : orders (obj x) with
  | nil => rw [hord] at hxord; exact absurd hxord (by simp)
  | cons h t =>
    have hh : h ∈ on obj (obj x) ops := (hperm _).mem_iff.mp (hord ▸ List.mem_cons_self)
    have hobj : obj h = obj x := by simpa using (List.mem_filter.mp hh).2
    refine ⟨h, t, hobj ▸ hord, fun a ha => ?_⟩
    -- `h` is called before `x` returns, either because it is `x` or because it goes before `x`
    have hle : call h ≤ ret x := by
      rw [hord] at hxord
      rcases List.mem_cons.mp hxord with rfl | hxt
      · exact le_of_lt (hcall x hxmem)
      · have hpw := horder (obj x)
        rw [hord] at hpw
        exact not_lt.mp ((List.pairwise_cons.mp hpw).1 x hxt)
    exact not_lt.mpr (le_trans hle (hmin a ha))

/-- Orders of the operations of each object merge into one that keeps real time. -/
theorem exists_merge {n : Nat} {ops : List A} (hn : ops.length = n)
    (hcall : ∀ a ∈ ops, call a < ret a) {orders : K → List A}
    (hperm : ∀ k, (orders k).Perm (on obj k ops))
    (horder : ∀ k, (orders k).Pairwise fun a b => ¬ ret b < call a) :
    ∃ order : List A, order.Perm ops ∧ (∀ k, on obj k order = orders k) ∧
      order.Pairwise fun a b => ¬ ret b < call a := by
  induction n generalizing ops orders with
  | zero =>
    obtain rfl := List.eq_nil_of_length_eq_zero hn
    exact ⟨[], List.Perm.refl _, fun k => ((hperm k).eq_nil).symm, List.Pairwise.nil⟩
  | succ n ih =>
    have hne : ops ≠ [] := by
      rintro rfl
      exact absurd hn (by simp)
    obtain ⟨h, t, hord, hfirst⟩ := exists_first hne hcall hperm horder
    have hmem : h ∈ ops := by
      have hh : h ∈ on obj (obj h) ops := (hperm _).mem_iff.mp (hord ▸ List.mem_cons_self)
      exact (List.mem_filter.mp hh).1
    obtain ⟨xs, ys, rfl⟩ := List.append_of_mem hmem
    have hmid : (xs ++ h :: ys).Perm (h :: (xs ++ ys)) := List.perm_middle
    have hon : ∀ k, (on obj k (xs ++ h :: ys)).Perm (on obj k (h :: (xs ++ ys))) :=
      fun k => hmid.filter _
    -- the rest of the operations, with the rest of the order of `h`'s object
    have hlen : (xs ++ ys).length = n := by
      have hlen := hmid.length_eq
      rw [hn, List.length_cons] at hlen
      omega
    have hcall' : ∀ a ∈ xs ++ ys, call a < ret a :=
      fun a ha => hcall a (hmid.mem_iff.mpr (List.mem_cons_of_mem _ ha))
    have hperm' : ∀ k, (Function.update orders (obj h) t k).Perm (on obj k (xs ++ ys)) := by
      intro k
      have hpk := (hperm k).trans (hon k)
      by_cases hk : obj h = k
      · subst hk
        rw [hord, on_cons_self] at hpk
        rw [Function.update_self]
        exact hpk.cons_inv
      · rw [on_cons_of_ne hk] at hpk
        rwa [Function.update_of_ne (Ne.symm hk)]
    have horder' : ∀ k, (Function.update orders (obj h) t k).Pairwise
        fun a b => ¬ ret b < call a := by
      intro k
      have hpk := horder k
      by_cases hk : obj h = k
      · subst hk
        rw [hord] at hpk
        rw [Function.update_self]
        exact (List.pairwise_cons.mp hpk).2
      · rwa [Function.update_of_ne (Ne.symm hk)]
    obtain ⟨order, hp, hparts, hpw⟩ := ih hlen hcall' hperm' horder'
    refine ⟨h :: order, (hp.cons h).trans hmid.symm, fun k => ?_, List.pairwise_cons.mpr ⟨?_, hpw⟩⟩
    · by_cases hk : obj h = k
      · subst hk
        rw [on_cons_self, hparts, Function.update_self, hord]
      · rw [on_cons_of_ne hk, hparts, Function.update_of_ne (Ne.symm hk)]
    · intro a ha
      exact hfirst a (hmid.mem_iff.mpr (List.mem_cons_of_mem _ (hp.mem_iff.mp ha)))

/-- The whole has an accepted order that keeps real time if and only if each object has one. -/
theorem serializable_product {step : S → A → Bool × S} {σ : K → S} {ops : List A}
    (hcall : ∀ a ∈ ops, call a < ret a) :
    Serializable (productStep obj step) (fun a b => ret a < call b) σ ops ↔
      ∀ k, Serializable step (fun a b => ret a < call b) (σ k) (on obj k ops) := by
  constructor
  · rintro ⟨order, hp, hacc, hpw⟩ k
    exact ⟨on obj k order, hp.filter _, accepts_product.mp hacc k, hpw.filter _⟩
  · intro h
    choose orders hperm hacc hpw using h
    obtain ⟨order, hp, hparts, horder⟩ := exists_merge rfl hcall hperm hpw
    refine ⟨order, hp, accepts_product.mpr fun k => ?_, horder⟩
    rw [hparts k]
    exact hacc k

end product

end Serial
