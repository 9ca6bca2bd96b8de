import Mathlib.Data.List.AList
import Mathlib.Data.List.Dedup
import Mathlib.Data.List.Sort

/-! Items with a key and a value, gathered in a map from keys: the values of each key in the
order of the items, or one value for each key. What a map holds is read by `lookup` and by its
keys in ascending order, which do not depend on the order in which the keys came in. -/

namespace Grouping

variable {A K V : Type} [DecidableEq K] (key : A → K) (val : A → V)

/-- The values of the items with key `k`, in list order. -/
def valuesOf (k : K) (l : List A) : List V := (l.filter fun a => key a = k).map val

/-- One more value for the key of `a`. -/
def collect (m : AList fun _ : K => List V) (a : A) : AList fun _ : K => List V :=
  m.insert (key a) ((m.lookup (key a)).getD [] ++ [val a])

/-- The value of `a` in place of the one its key had. -/
def put (m : AList fun _ : K => V) (a : A) : AList fun _ : K => V := m.insert (key a) (val a)

/-- The values of a key are not touched by leaving out items of other keys. -/
theorem valuesOf_filter (p : A → Bool) (k : K) (l : List A) (h : ∀ a ∈ l, key a = k → p a = true) :
    valuesOf key val k (l.filter p) = valuesOf key val k l := by
  simp only [valuesOf, List.filter_filter]
  congr 1
  apply List.filter_congr
  intro a ha
  by_cases hk : key a = k
  · simp [hk, h a ha hk]
  · simp [hk]

theorem mem_foldl_collect (k : K) (l : List A) (m : AList fun _ : K => List V) :
    k ∈ l.foldl (collect key val) m ↔ k ∈ m ∨ k ∈ l.map key := by
  induction l generalizing m with
  | nil => simp
  | cons a l ih =>
    rw [List.foldl_cons, ih, collect, AList.mem_insert, List.map_cons, List.mem_cons]
    tauto

theorem lookup_foldl_collect (k : K) (l : List A) (m : AList fun _ : K => List V) :
    ((l.foldl (collect key val) m).lookup k).getD [] =
      (m.lookup k).getD [] ++ valuesOf key val k l := by
  induction l generalizing m with
  | nil => simp [valuesOf]
  | cons a l ih =>
    rw [List.foldl_cons, ih, collect]
    by_cases hk : key a = k
    · subst hk
      simp [valuesOf]
    · rw [AList.lookup_insert_ne (Ne.symm hk)]
      simp [valuesOf, hk]

theorem mem_foldl_put (k : K) (l : List A) (m : AList fun _ : K => V) :
    k ∈ l.foldl (put key val) m ↔ k ∈ m ∨ k ∈ l.map key := by
  induction l generalizing m with
  | nil => simp
  | cons a l ih =>
    rw [List.foldl_cons, ih, put, AList.mem_insert, List.map_cons, List.mem_cons]
    tauto

/-- Overwriting loses nothing where all items of a key have one value. -/
theorem lookup_foldl_put {k : K} {v : V} {l : List A} (h : ∀ a ∈ l, key a = k → val a = v)
    {m : AList fun _ : K => V} (hk : k ∈ l.map key ∨ m.lookup k = some v) :
    (l.foldl (put key val) m).lookup k = some v := by
  induction l generalizing m with
  | nil =>
    rcases hk with hk | hk
    · exact absurd hk (by simp)
    · exact hk
  | cons a l ih =>
    apply ih (fun b hb => h b (List.mem_cons_of_mem _ hb))
    by_cases hkey : key a = k
    · right
      rw [put, hkey, AList.lookup_insert, h a List.mem_cons_self hkey]
    · rw [put, AList.lookup_insert_ne (Ne.symm hkey)]
      rcases hk with hk | hk
      · left
        rcases List.mem_cons.mp hk with heq | hmem
        · exact absurd heq.symm hkey
        · exact hmem
      · exact Or.inr hk

/-- Distinct keys, once sorted, ascend strictly. -/
theorem ascending_insertionSort {K : Type} [LinearOrder K] {l : List K} (h : l.Nodup) :
    (l.insertionSort (· ≤ ·)).Pairwise (· < ·) := by
  have hle := List.pairwise_insertionSort (· ≤ ·) l
  have hne : (l.insertionSort (· ≤ ·)).Nodup := (List.perm_insertionSort _ l).nodup_iff.mpr h
  exact hle.imp₂ (fun _ _ hab hne => lt_of_le_of_ne hab hne) hne

/-- The members of a list, each once and in ascending order. -/
theorem exists_ascending {K : Type} [LinearOrder K] (l : List K) :
    ∃ keys : List K, keys.Pairwise (· < ·) ∧ ∀ k, k ∈ keys ↔ k ∈ l := by
  refine ⟨l.dedup.insertionSort (· ≤ ·), ascending_insertionSort (List.nodup_dedup l), ?_⟩
  intro k
  rw [List.mem_insertionSort, List.mem_dedup]

end Grouping
