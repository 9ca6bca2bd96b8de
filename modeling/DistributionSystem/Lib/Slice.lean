import Mathlib.Data.List.Basic

/-! Slice expressions with signed indices and the run-time bounds check. `none`
stands for the panic of an index or a bound outside the slice. -/

namespace CheckedSlice

variable {α : Type}

/-- `l[i]`. -/
def get (l : List α) (i : Int) : Option α :=
  if 0 ≤ i then l[i.toNat]? else none

/-- `l[i:]`. -/
def drop (l : List α) (i : Int) : Option (List α) :=
  if 0 ≤ i ∧ i ≤ l.length then some (l.drop i.toNat) else none

/-- `l[:i]`. -/
def take (l : List α) (i : Int) : Option (List α) :=
  if 0 ≤ i ∧ i ≤ l.length then some (l.take i.toNat) else none

/-- `l[lo:hi]`. -/
def slice (l : List α) (lo hi : Int) : Option (List α) :=
  if 0 ≤ lo ∧ lo ≤ hi ∧ hi ≤ l.length then some ((l.take hi.toNat).drop lo.toNat) else none

theorem get_eq_some {l : List α} {i : Int} {x : α} (h : get l i = some x) :
    0 ≤ i ∧ l[i.toNat]? = some x := by
  unfold get at h
  split at h
  · exact ⟨by assumption, h⟩
  · exact absurd h (by simp)

theorem get_mono {l l' : List α} (hp : l <+: l') {i : Int} {x : α} (h : get l i = some x) :
    get l' i = some x := by
  obtain ⟨hpos, hget⟩ := get_eq_some h
  obtain ⟨r, rfl⟩ := hp
  unfold get
  rw [if_pos hpos, List.getElem?_append_left (List.getElem?_eq_some_iff.mp hget).1, hget]

theorem get_take {l : List α} {i : Int} {k : Nat} (h : i < k) : get (l.take k) i = get l i := by
  unfold get
  split
  · rw [List.getElem?_take_of_lt (by omega)]
  · rfl

theorem drop_eq_some {l r : List α} {i : Int} (h : drop l i = some r) :
    0 ≤ i ∧ i ≤ l.length ∧ r = l.drop i.toNat := by
  unfold drop at h
  split at h
  · rename_i hi
    exact ⟨hi.1, hi.2, (Option.some.inj h).symm⟩
  · exact absurd h (by simp)

theorem slice_eq_some {l r : List α} {lo hi : Int} (h : slice l lo hi = some r) :
    0 ≤ lo ∧ lo ≤ hi ∧ hi ≤ l.length ∧ r = (l.take hi.toNat).drop lo.toNat := by
  unfold slice at h
  split at h
  · rename_i hb
    exact ⟨hb.1, hb.2.1, hb.2.2, (Option.some.inj h).symm⟩
  · exact absurd h (by simp)

theorem slice_of_le {l : List α} {lo hi : Int} (h₀ : 0 ≤ lo) (h₁ : lo ≤ hi) (h₂ : hi ≤ l.length) :
    slice l lo hi = some ((l.take hi.toNat).drop lo.toNat) :=
  if_pos ⟨h₀, h₁, h₂⟩

theorem get_of_nat (l : List α) (k : Nat) : get l k = l[k]? := by
  unfold get
  rw [if_pos (by omega), Int.toNat_natCast]

end CheckedSlice
