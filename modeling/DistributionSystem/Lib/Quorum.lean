import Mathlib.Data.Fintype.Card
import Mathlib.Data.Finset.Card
import Mathlib.Data.List.FinRange
import Mathlib.Data.List.Sort

/-! Majorities of a finite set of members, and the value that a majority reaches. -/

namespace Quorum

variable {ι : Type} [Fintype ι]

/-- More than half of the members. -/
def Majority (S : Finset ι) : Prop := Fintype.card ι / 2 < S.card

/-- Two majorities share a member. -/
theorem Majority.inter [DecidableEq ι] {S T : Finset ι} (hS : Majority S) (hT : Majority T) :
    ∃ v, v ∈ S ∧ v ∈ T := by
  have hcard := Finset.card_union_add_card_inter S T
  have hle : (S ∪ T).card ≤ Fintype.card ι := Finset.card_le_univ _
  have hpos : 0 < (S ∩ T).card := by
    unfold Majority at hS hT
    omega
  obtain ⟨v, hv⟩ := Finset.card_pos.mp hpos
  exact ⟨v, Finset.mem_inter.mp hv⟩

/-- When more than half of a list of one value per member has a property, the members it
belongs to are a majority. -/
theorem exists_majority_of_filter {α : Type} {n : Nat} {l : List α} (hl : l.length = n)
    (p : α → Bool) (h : n / 2 < (l.filter p).length) :
    ∃ S : Finset (Fin n), Majority S ∧ ∀ j ∈ S, ∃ x, l[j.val]? = some x ∧ p x = true := by
  subst hl
  refine ⟨((List.finRange l.length).filter (p ∘ l.get)).toFinset, ?_, ?_⟩
  · rw [Majority, Fintype.card_fin,
      List.toFinset_card_of_nodup ((List.nodup_finRange _).filter _)]
    have hmap : ((List.finRange l.length).map l.get).filter p =
        ((List.finRange l.length).filter (p ∘ l.get)).map l.get := List.filter_map
    rw [List.map_get_finRange] at hmap
    rw [hmap, List.length_map] at h
    exact h
  · intro j hj
    rw [List.mem_toFinset, List.mem_filter] at hj
    exact ⟨l.get j, by simp, hj.2⟩

/-! ## Order statistics -/

section

variable {α : Type} [LinearOrder α]

/-- The `k`-th largest of the values, counted from 0 and with repetitions. -/
def kthLargest (l : List α) (k : Nat) : Option α := (l.insertionSort (· ≥ ·))[k]?

theorem kthLargest_of_lt {l : List α} {k : Nat} (h : k < l.length) :
    ∃ m, kthLargest l k = some m :=
  ⟨_, List.getElem?_eq_getElem (by rwa [List.length_insertionSort])⟩

/-- In a descending list the values that reach `i` come first. -/
theorem le_getElem_iff {s : List α} (hs : s.Pairwise (· ≥ ·)) {k : Nat} {m : α}
    (h : s[k]? = some m) (i : α) : i ≤ m ↔ k < (s.filter (i ≤ ·)).length := by
  induction s generalizing k with
  | nil => cases h
  | cons x s ih =>
    obtain ⟨hx, hs⟩ := List.pairwise_cons.mp hs
    by_cases hi : i ≤ x
    · rw [List.filter_cons_of_pos (by simpa using hi), List.length_cons]
      cases k with
      | zero =>
        cases h
        exact iff_of_true hi (Nat.succ_pos _)
      | succ k => rw [ih hs h, Nat.succ_lt_succ_iff]
    · -- from here on nothing reaches `i`
      have hnone : ∀ y ∈ x :: s, ¬ i ≤ y := by
        intro y hy hiy
        rcases List.mem_cons.mp hy with rfl | hy
        · exact hi hiy
        · exact hi (hiy.trans (hx y hy))
      rw [List.filter_eq_nil_iff.mpr fun y hy => by simpa using hnone y hy]
      exact iff_of_false (hnone m (List.mem_of_getElem? h)) (Nat.not_lt_zero k)

/-- The `k`-th largest value reaches `i` just when more than `k` values do. -/
theorem le_kthLargest_iff {l : List α} {k : Nat} {m : α} (h : kthLargest l k = some m) (i : α) :
    i ≤ m ↔ k < (l.filter (i ≤ ·)).length := by
  rw [le_getElem_iff (List.pairwise_insertionSort _ l) h i,
    ((List.perm_insertionSort (· ≥ ·) l).filter _).length_eq]

end

end Quorum
