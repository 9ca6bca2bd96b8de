import Mathlib.Data.List.Basic

/-! The bit sets of the checker (`bitset.go`): bits 0 to 63 are in the first word, the next in
the second, and so on. Indexing a word that is not there panics, which is `none` here. -/

namespace DistributionSystem.Checker

abbrev Bitset := List UInt64

namespace Bitset

def newBitset (bits : Nat) : Bitset :=
  List.replicate (bits / 64 + if bits % 64 ≠ 0 then 1 else 0) 0

/-- Copies are values here. -/
def clone (b : Bitset) : Bitset := b

def bitsetIndex (pos : Nat) : Nat × Nat := (pos / 64, pos % 64)

def set (b : Bitset) (pos : Nat) : Option Bitset :=
  let (major, minor) := bitsetIndex pos
  match b[major]? with
  | none => none
  | some v => some (List.set b major (v ||| (1 <<< UInt64.ofNat minor)))

def clear (b : Bitset) (pos : Nat) : Option Bitset :=
  let (major, minor) := bitsetIndex pos
  match b[major]? with
  | none => none
  | some v => some (List.set b major (v &&& ~~~(1 <<< UInt64.ofNat minor)))

def get (b : Bitset) (pos : Nat) : Option Bool :=
  let (major, minor) := bitsetIndex pos
  match b[major]? with
  | none => none
  | some v => some (v &&& (1 <<< UInt64.ofNat minor) != 0)

/-- The number of bits of one word, by adding up neighbours in parallel. -/
def popcntWord (v : UInt64) : UInt64 :=
  let v := (v &&& (0x5555555555555555 : UInt64)) + ((v &&& (0xAAAAAAAAAAAAAAAA : UInt64)) >>> 1)
  let v := (v &&& (0x3333333333333333 : UInt64)) + ((v &&& (0xCCCCCCCCCCCCCCCC : UInt64)) >>> 2)
  let v := (v &&& (0x0F0F0F0F0F0F0F0F : UInt64)) + ((v &&& (0xF0F0F0F0F0F0F0F0 : UInt64)) >>> 4)
  let v := v * (0x0101010101010101 : UInt64)
  (v >>> 56) &&& 0xFF

def popcnt (b : Bitset) : UInt64 := b.foldl (fun total v => total + popcntWord v) 0

def hash (b : Bitset) : UInt64 := b.foldl (fun hash v => hash ^^^ v) b.popcnt

def equals (b b2 : Bitset) : Bool :=
  if b.length ≠ b2.length then false
  else (List.range b.length).all fun i => b[i]? == b2[i]?

/-- Whether the bit is there and set. -/
def has (b : Bitset) (pos : Nat) : Bool := b.get pos == some true

theorem equals_iff {b b2 : Bitset} : b.equals b2 = true ↔ b = b2 := by
  unfold equals
  split
  · rename_i hlen
    exact ⟨fun h => absurd h (by simp), fun h => absurd (congrArg List.length h) hlen⟩
  · rename_i hlen
    have hlen : b.length = b2.length := by simpa using hlen
    simp only [List.all_eq_true, List.mem_range, beq_iff_eq]
    constructor
    · intro h
      apply List.ext_getElem? fun i => ?_
      by_cases hi : i < b.length
      · exact h i hi
      · rw [List.getElem?_eq_none (by omega), List.getElem?_eq_none (by omega)]
    · rintro rfl i _
      rfl

section word

theorem toBitVec_shift {m : Nat} (hm : m < 64) :
    ((1 : UInt64) <<< UInt64.ofNat m).toBitVec = BitVec.twoPow 64 m := by
  rw [UInt64.toBitVec_shiftLeft, BitVec.shiftLeft_eq', BitVec.twoPow]
  congr 1
  simp
  omega

/-- The mask test of `get` reads the bit. -/
theorem mask_test (v : UInt64) {m : Nat} (hm : m < 64) :
    (v &&& (1 <<< UInt64.ofNat m) != 0) = v.toBitVec.getLsbD m := by
  have hne : BitVec.twoPow 64 m ≠ 0#64 := by
    intro hzero
    have hbit := congrArg (fun w => w.getLsbD m) hzero
    simp [hm] at hbit
  rw [Bool.eq_iff_iff, bne_iff_ne, ne_eq, ← UInt64.toBitVec_inj, UInt64.toBitVec_and,
    toBitVec_shift hm, BitVec.and_twoPow]
  cases v.toBitVec.getLsbD m with
  | true => simpa using hne
  | false => simp

theorem getLsbD_or {v : UInt64} {m j : Nat} (hm : m < 64) :
    (v ||| (1 <<< UInt64.ofNat m)).toBitVec.getLsbD j =
      (v.toBitVec.getLsbD j || decide (m = j)) := by
  rw [UInt64.toBitVec_or, toBitVec_shift hm, BitVec.getLsbD_or, BitVec.getLsbD_twoPow]
  simp [hm]

theorem getLsbD_and_not {v : UInt64} {m j : Nat} (hm : m < 64) (hj : j < 64) :
    (v &&& ~~~(1 <<< UInt64.ofNat m)).toBitVec.getLsbD j =
      (v.toBitVec.getLsbD j && !decide (m = j)) := by
  rw [UInt64.toBitVec_and, UInt64.toBitVec_not, toBitVec_shift hm, BitVec.getLsbD_and,
    BitVec.getLsbD_not, BitVec.getLsbD_twoPow]
  simp [hm, hj]

/-- Setting and clearing a bit that was not set. -/
theorem or_and_not {v : UInt64} {m : Nat} (hm : m < 64) (h : v.toBitVec.getLsbD m = false) :
    (v ||| (1 <<< UInt64.ofNat m)) &&& ~~~(1 <<< UInt64.ofNat m) = v := by
  apply UInt64.toBitVec_inj.mp
  rw [UInt64.toBitVec_and, UInt64.toBitVec_or, UInt64.toBitVec_not, toBitVec_shift hm]
  apply BitVec.eq_of_getLsbD_eq
  intro j hj
  simp only [BitVec.getLsbD_and, BitVec.getLsbD_or, BitVec.getLsbD_not, BitVec.getLsbD_twoPow]
  by_cases hmj : m = j
  · subst hmj
    simp [h]
  · simp [hmj, hj]

end word

section ops

variable {b b' : Bitset} {i j : Nat}

/-- A bit of the set that is in range. -/
theorem has_eq {v : UInt64} (h : b[j / 64]? = some v) :
    b.has j = v.toBitVec.getLsbD (j % 64) := by
  simp only [has, get, bitsetIndex, h, mask_test v (Nat.mod_lt j (by decide : 0 < 64))]
  cases v.toBitVec.getLsbD (j % 64) <;> rfl

theorem set_isSome (h : i / 64 < b.length) : ∃ b', b.set i = some b' := by
  simp [set, bitsetIndex, List.getElem?_eq_getElem h]

theorem set_eq_some (h : b.set i = some b') :
    ∃ v, b[i / 64]? = some v ∧
      b' = List.set b (i / 64) (v ||| (1 <<< UInt64.ofNat (i % 64))) := by
  simp only [set, bitsetIndex] at h
  split at h
  · exact absurd h (by simp)
  · rename_i v hv
    exact ⟨v, hv, (Option.some.inj h).symm⟩

theorem length_set (h : b.set i = some b') : b'.length = b.length := by
  obtain ⟨v, -, rfl⟩ := set_eq_some h
  exact List.length_set

/-- A store to one word changes the bits of that word. -/
theorem has_store {v : UInt64} (h : b[i / 64]? = some v) (w : UInt64) (j : Nat) :
    Bitset.has (List.set b (i / 64) w) j =
      if i / 64 = j / 64 then w.toBitVec.getLsbD (j % 64) else b.has j := by
  obtain ⟨hlt, -⟩ := List.getElem?_eq_some_iff.mp h
  split
  · rename_i hword
    have hget := List.getElem?_set_self (a := w) hlt
    rw [hword] at hget ⊢
    exact has_eq hget
  · rename_i hword
    simp [has, get, bitsetIndex, List.getElem?_set_ne hword]

/-- Setting a bit changes no other bit. -/
theorem has_set (h : b.set i = some b') (j : Nat) : b'.has j = (b.has j || decide (i = j)) := by
  obtain ⟨v, hv, rfl⟩ := set_eq_some h
  rw [has_store hv]
  split
  · rename_i hword
    have hbit : i % 64 = j % 64 ↔ i = j := by omega
    rw [hword] at hv
    rw [getLsbD_or (Nat.mod_lt i (by decide)), has_eq hv, decide_eq_decide.mpr hbit]
  · rename_i hword
    have hne : i ≠ j := fun heq => hword (congrArg (· / 64) heq)
    simp [hne]

theorem clear_isSome (h : i / 64 < b.length) : ∃ b', b.clear i = some b' := by
  simp [clear, bitsetIndex, List.getElem?_eq_getElem h]

theorem clear_eq_some (h : b.clear i = some b') :
    ∃ v, b[i / 64]? = some v ∧
      b' = List.set b (i / 64) (v &&& ~~~(1 <<< UInt64.ofNat (i % 64))) := by
  simp only [clear, bitsetIndex] at h
  split at h
  · exact absurd h (by simp)
  · rename_i v hv
    exact ⟨v, hv, (Option.some.inj h).symm⟩

theorem length_clear (h : b.clear i = some b') : b'.length = b.length := by
  obtain ⟨v, -, rfl⟩ := clear_eq_some h
  exact List.length_set

/-- Clearing a bit changes no other bit. -/
theorem has_clear (h : b.clear i = some b') (j : Nat) :
    b'.has j = (b.has j && !decide (i = j)) := by
  obtain ⟨v, hv, rfl⟩ := clear_eq_some h
  rw [has_store hv]
  split
  · rename_i hword
    have hbit : i % 64 = j % 64 ↔ i = j := by omega
    rw [hword] at hv
    rw [getLsbD_and_not (Nat.mod_lt i (by decide)) (Nat.mod_lt j (by decide)), has_eq hv,
      decide_eq_decide.mpr hbit]
  · rename_i hword
    have hne : i ≠ j := fun heq => hword (congrArg (· / 64) heq)
    simp [hne]

/-- Clearing a bit that was not set before undoes setting it. -/
theorem clear_set (h : b.set i = some b') (hi : b.has i = false) : b'.clear i = some b := by
  obtain ⟨v, hv, rfl⟩ := set_eq_some h
  obtain ⟨hlt, hval⟩ := List.getElem?_eq_some_iff.mp hv
  rw [has_eq hv] at hi
  simp only [clear, bitsetIndex, List.getElem?_set_self hlt, List.set_set,
    or_and_not (Nat.mod_lt i (by decide)) hi]
  rw [← hval, List.set_getElem_self]

theorem has_newBitset (n j : Nat) : (newBitset n).has j = false := by
  simp only [has, get, bitsetIndex]
  cases h : (newBitset n)[j / 64]? with
  | none => rfl
  | some v =>
    obtain rfl : v = 0 := List.eq_of_mem_replicate (List.mem_of_getElem? h)
    simp

theorem index_lt_newBitset {n i : Nat} (h : i < n) : i / 64 < (newBitset n).length := by
  rw [newBitset, List.length_replicate]
  split <;> omega

end ops

end Bitset

end DistributionSystem.Checker
