import Mathlib.Data.Nat.Digits.Defs
import Mathlib.Algebra.BigOperators.Group.List.Basic
import Mathlib.Tactic.Ring

/-! Counting the bits of a number in parallel. A number is a list of bytes, the lowest first. A
stage of the count adds two masked halves of the number, the upper one moved down; it works on
each byte by itself, so what the stages do to a number is known from what they do to one byte.
A product with the number that has all bytes one adds up the bytes in the highest one. -/

namespace Popcount

open Nat (ofDigits)

/-- The lowest `k` bytes of a number. -/
def bytesOf : Nat → Nat → List Nat
  | 0, _ => []
  | k + 1, v => v % 256 :: bytesOf k (v / 256)

/-- The number with `k` bytes `m`. -/
def repeated (m k : Nat) : Nat := ofDigits 256 (List.replicate k m)

/-- The number of bits among the lowest `n`. -/
def bits (n v : Nat) : Nat := (List.range n).countP v.testBit

section bytes

theorem length_bytesOf (k v : Nat) : (bytesOf k v).length = k := by
  induction k generalizing v with
  | zero => rfl
  | succ k ih => simp [bytesOf, ih]

theorem lt_of_mem_bytesOf {k v b : Nat} (hb : b ∈ bytesOf k v) : b < 256 := by
  induction k generalizing v with
  | zero => exact absurd hb (by simp [bytesOf])
  | succ k ih =>
    rcases List.mem_cons.mp hb with rfl | hb
    · exact Nat.mod_lt _ (by decide)
    · exact ih hb

theorem ofDigits_bytesOf {k v : Nat} (hv : v < 256 ^ k) : ofDigits 256 (bytesOf k v) = v := by
  induction k generalizing v with
  | zero =>
    rw [Nat.pow_zero] at hv
    simp [bytesOf]
    omega
  | succ k ih =>
    rw [Nat.pow_succ] at hv
    rw [bytesOf, Nat.ofDigits_cons, ih (Nat.div_lt_of_lt_mul (by omega))]
    exact Nat.mod_add_div v 256

/-- The bits of a number are those of its bytes. -/
theorem sum_bits_bytesOf (k v : Nat) : ((bytesOf k v).map (bits 8)).sum = bits (8 * k) v := by
  induction k generalizing v with
  | zero => rfl
  | succ k ih =>
    have hlow : bits 8 (v % 256) = bits 8 v := by
      apply List.countP_congr
      intro i hi
      have hi : i < 8 := List.mem_range.mp hi
      rw [show 256 = 2 ^ 8 from rfl, Nat.testBit_mod_two_pow]
      simp [hi]
    have hhigh : bits (8 * k) (v / 256) =
        ((List.range (8 * k)).map fun i => 8 + i).countP v.testBit := by
      rw [List.countP_map, bits]
      congr 1
      funext i
      rw [show 256 = 2 ^ 8 from rfl, Nat.testBit_div_two_pow, Function.comp_apply, Nat.add_comm]
    rw [bytesOf, List.map_cons, List.sum_cons, ih, hlow, hhigh, Nat.mul_succ, Nat.add_comm (8 * k)]
    simp only [bits, List.range_add, List.countP_append]

end bytes

section stages

variable {bs : List Nat} {m s : Nat}

/-- A mask that is the same for every byte. -/
theorem and_repeated (hb : ∀ b ∈ bs, b < 256) (hm : m < 256) :
    ofDigits 256 bs &&& repeated m bs.length = ofDigits 256 (bs.map (· &&& m)) := by
  induction bs with
  | nil => simp [repeated]
  | cons b bs ih =>
    have hlt := hb b List.mem_cons_self
    have hrest := ih fun c hc => hb c (List.mem_cons_of_mem _ hc)
    have hlow : ∀ x y : Nat, x < 256 → (x + 256 * y) % 2 ^ 8 = x := by omega
    have hhigh : ∀ x y : Nat, x < 256 → (x + 256 * y) / 2 ^ 8 = y := by omega
    rw [repeated] at hrest ⊢
    rw [List.length_cons, List.replicate_succ, List.map_cons, Nat.ofDigits_cons,
      Nat.ofDigits_cons, Nat.ofDigits_cons, ← hrest]
    -- the lowest byte and the rest of the conjunction
    rw [← Nat.mod_add_div (_ &&& _) (2 ^ 8), Nat.and_mod_two_pow, Nat.and_div_two_pow,
      hlow b _ hlt, hlow m _ hm, hhigh b _ hlt, hhigh m _ hm]
    rfl

theorem dvd_and (b : Nat) (hm : 2 ^ s ∣ m) : 2 ^ s ∣ b &&& m := by
  rw [Nat.dvd_iff_mod_eq_zero, Nat.and_mod_two_pow, Nat.mod_eq_zero_of_dvd hm, Nat.and_zero]

/-- A shift that no byte loses a bit in. -/
theorem ofDigits_shiftRight (hb : ∀ b ∈ bs, 2 ^ s ∣ b) :
    ofDigits 256 bs >>> s = ofDigits 256 (bs.map (· >>> s)) := by
  have hmul : ofDigits 256 bs = 2 ^ s * ofDigits 256 (bs.map (· >>> s)) := by
    induction bs with
    | nil => simp
    | cons b bs ih =>
      have hself := Nat.mul_div_cancel' (hb b List.mem_cons_self)
      rw [List.map_cons, Nat.ofDigits_cons, Nat.ofDigits_cons,
        ih fun c hc => hb c (List.mem_cons_of_mem _ hc), Nat.shiftRight_eq_div_pow, Nat.mul_add,
        hself, Nat.mul_left_comm]
  rw [Nat.shiftRight_eq_div_pow, hmul]
  exact Nat.mul_div_cancel_left _ (Nat.two_pow_pos s)

theorem ofDigits_add (f g : Nat → Nat) (bs : List Nat) :
    ofDigits 256 (bs.map f) + ofDigits 256 (bs.map g) =
      ofDigits 256 (bs.map fun b => f b + g b) := by
  induction bs with
  | nil => simp
  | cons b bs ih =>
    simp only [List.map_cons, Nat.ofDigits_cons, ← ih, Nat.mul_add]
    omega

/-- A stage on one byte: the bits under the mask `m`, and those under the mask `n` moved down. -/
def stage (s m n b : Nat) : Nat := (b &&& m) + ((b &&& n) >>> s)

variable {n : Nat}

/-- A stage works on each byte by itself. -/
theorem stage_ofDigits (hb : ∀ b ∈ bs, b < 256) (hm : m < 256) (hn : n < 256) (hs : 2 ^ s ∣ n) :
    (ofDigits 256 bs &&& repeated m bs.length) +
        ((ofDigits 256 bs &&& repeated n bs.length) >>> s) =
      ofDigits 256 (bs.map (stage s m n)) := by
  have hdvd : ∀ b ∈ bs.map (· &&& n), 2 ^ s ∣ b := by
    intro b hb
    obtain ⟨c, -, rfl⟩ := List.mem_map.mp hb
    exact dvd_and c hs
  rw [and_repeated hb hm, and_repeated hb hn, ofDigits_shiftRight hdvd, List.map_map, ofDigits_add]
  rfl

theorem stage_le (s m n b : Nat) : stage s m n b ≤ m + n >>> s := by
  have hle : (b &&& n) >>> s ≤ n >>> s := by
    rw [Nat.shiftRight_eq_div_pow, Nat.shiftRight_eq_div_pow]
    exact Nat.div_le_div_right Nat.and_le_right
  exact Nat.add_le_add Nat.and_le_right hle

/-- The three stages count the bits of a byte. -/
theorem stages_byte {b : Nat} (hb : b < 256) :
    stage 4 0x0F 0xF0 (stage 2 0x33 0xCC (stage 1 0x55 0xAA b)) = bits 8 b := by
  have hall : ∀ c : Fin 256,
      stage 4 0x0F 0xF0 (stage 2 0x33 0xCC (stage 1 0x55 0xAA c)) = bits 8 c := by
    decide +kernel
  exact hall ⟨b, hb⟩

theorem bits_le (n v : Nat) : bits n v ≤ n := by
  have hle := List.countP_le_length (p := v.testBit) (l := List.range n)
  rwa [List.length_range] at hle

end stages

/-- The product with eight bytes one has the sum of eight small bytes as its highest byte. -/
theorem sum_eq_top {cs : List Nat} (hlen : cs.length = 8) (hcs : ∀ c ∈ cs, c ≤ 8) :
    (ofDigits 256 cs * 0x0101010101010101 % 18446744073709551616) >>> 56 = cs.sum := by
  obtain ⟨c₀, c₁, c₂, c₃, c₄, c₅, c₆, c₇, rfl⟩ :
      ∃ c₀ c₁ c₂ c₃ c₄ c₅ c₆ c₇, cs = [c₀, c₁, c₂, c₃, c₄, c₅, c₆, c₇] := by
    match cs, hlen with
    | [c₀, c₁, c₂, c₃, c₄, c₅, c₆, c₇], _ => exact ⟨c₀, c₁, c₂, c₃, c₄, c₅, c₆, c₇, rfl⟩
  simp only [List.mem_cons, List.not_mem_nil, or_false, forall_eq_or_imp, forall_eq] at hcs
  obtain ⟨h₀, h₁, h₂, h₃, h₄, h₅, h₆, h₇⟩ := hcs
  simp only [Nat.ofDigits_cons, Nat.ofDigits_nil, List.sum_cons, List.sum_nil,
    Nat.shiftRight_eq_div_pow]
  -- byte `j` of the product is the sum of the bytes up to `j`, so there are no carries
  obtain ⟨low, hlow⟩ : ∃ low, low = c₀ + 256 * ((c₀ + c₁) + 256 * ((c₀ + c₁ + c₂) +
      256 * ((c₀ + c₁ + c₂ + c₃) + 256 * ((c₀ + c₁ + c₂ + c₃ + c₄) +
      256 * ((c₀ + c₁ + c₂ + c₃ + c₄ + c₅) +
      256 * (c₀ + c₁ + c₂ + c₃ + c₄ + c₅ + c₆)))))) := ⟨_, rfl⟩
  obtain ⟨high, hhigh⟩ : ∃ high, high = (c₁ + c₂ + c₃ + c₄ + c₅ + c₆ + c₇) +
      256 * ((c₂ + c₃ + c₄ + c₅ + c₆ + c₇) + 256 * ((c₃ + c₄ + c₅ + c₆ + c₇) +
      256 * ((c₄ + c₅ + c₆ + c₇) + 256 * ((c₅ + c₆ + c₇) +
      256 * ((c₆ + c₇) + 256 * c₇))))) := ⟨_, rfl⟩
  have hsmall : low < 72057594037927936 := by omega
  have hprod : (c₀ + 256 * (c₁ + 256 * (c₂ + 256 * (c₃ + 256 * (c₄ + 256 * (c₅ + 256 * (c₆ +
      256 * (c₇ + 256 * 0)))))))) * 0x0101010101010101 = 18446744073709551616 * high +
      (72057594037927936 * (c₀ + (c₁ + (c₂ + (c₃ + (c₄ + (c₅ + (c₆ + (c₇ + 0)))))))) + low) := by
    rw [hlow, hhigh]
    ring
  rw [hprod, Nat.mul_add_mod]
  clear hprod hlow hhigh
  omega

end Popcount
