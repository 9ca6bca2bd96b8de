import DistributionSystem.Checker.Bitset
import DistributionSystem.Lib.Popcount
import Mathlib.Data.Finset.Card
import Mathlib.Data.Finset.Insert
import Mathlib.Data.Finset.Dedup

/-! A bit set as a finite set of positions: `set` puts a position in, `clear` takes it out, `get`
asks for it, two bit sets of one capacity are equal if they have the same positions, and
`popcnt` is their number. -/

namespace DistributionSystem.Checker.Bitset

inductive Update
  | set (pos : Nat)
  | clear (pos : Nat)

namespace Update

def pos : Update → Nat
  | set pos => pos
  | clear pos => pos

def apply (b : Bitset) : Update → Option Bitset
  | set pos => b.set pos
  | clear pos => b.clear pos

/-- What the update does to a set of positions. -/
def on (s : Finset Nat) : Update → Finset Nat
  | set pos => insert pos s
  | clear pos => s.erase pos

end Update

def applyAll (b : Bitset) (us : List Update) : Option Bitset := us.foldlM Update.apply b

/-- The positions that are left after the updates of an empty set. -/
def positions (us : List Update) : Finset Nat := us.foldl Update.on ∅

/-- The bit set of capacity `n` has the positions `s`. -/
structure Represents (n : Nat) (b : Bitset) (s : Finset Nat) : Prop where
  length : b.length = (newBitset n).length
  has : ∀ pos, b.has pos = decide (pos ∈ s)
  below : ∀ pos ∈ s, pos < n

section counting

open Popcount

/-- A stage of `popcntWord`. -/
theorem toNat_stage {x M N S : UInt64} {bs : List Nat} {m n s : Nat}
    (hx : x.toNat = Nat.ofDigits 256 bs) (hlen : bs.length = 8) (hb : ∀ b ∈ bs, b < 256)
    (hM : M.toNat = repeated m 8) (hN : N.toNat = repeated n 8) (hS : S.toNat = s) (hs : s < 64)
    (hm : m < 256) (hn : n < 256) (hdvd : 2 ^ s ∣ n) (hsum : m + n >>> s < 256) :
    ((x &&& M) + ((x &&& N) >>> S)).toNat = Nat.ofDigits 256 (bs.map (stage s m n)) ∧
      ∀ b ∈ bs.map (stage s m n), b < 256 := by
  have hsmall : ∀ b ∈ bs.map (stage s m n), b < 256 := by
    intro b hb
    obtain ⟨c, -, rfl⟩ := List.mem_map.mp hb
    exact Nat.lt_of_le_of_lt (stage_le s m n c) hsum
  have hword : Nat.ofDigits 256 (bs.map (stage s m n)) < 2 ^ 64 := by
    have hlt := Nat.ofDigits_lt_base_pow_length (by decide) hsmall
    rwa [List.length_map, hlen] at hlt
  have hstage := stage_ofDigits hb hm hn hdvd
  rw [hlen] at hstage
  refine ⟨?_, hsmall⟩
  rw [UInt64.toNat_add, UInt64.toNat_and, UInt64.toNat_shiftRight, UInt64.toNat_and, hx, hM, hN, hS,
    Nat.mod_eq_of_lt hs, hstage, Nat.mod_eq_of_lt hword]

/-- `popcntWord` counts the bits of a word. -/
theorem toNat_popcntWord (v : UInt64) : (popcntWord v).toNat = bits 64 v.toNat := by
  have hv : v.toNat = Nat.ofDigits 256 (bytesOf 8 v.toNat) :=
    (ofDigits_bytesOf (k := 8) v.toNat_lt).symm
  have hlen := length_bytesOf 8 v.toNat
  have hb : ∀ b ∈ bytesOf 8 v.toNat, b < 256 := fun b hb => lt_of_mem_bytesOf hb
  obtain ⟨h₁, hb₁⟩ := toNat_stage (M := 0x5555555555555555) (N := 0xAAAAAAAAAAAAAAAA) (S := 1)
    (m := 0x55) (n := 0xAA) (s := 1) hv hlen hb rfl rfl rfl (by decide) (by decide) (by decide)
    (by decide) (by decide)
  obtain ⟨h₂, hb₂⟩ := toNat_stage (M := 0x3333333333333333) (N := 0xCCCCCCCCCCCCCCCC) (S := 2)
    (m := 0x33) (n := 0xCC) (s := 2) h₁ (by simp [hlen]) hb₁ rfl rfl rfl (by decide) (by decide)
    (by decide) (by decide) (by decide)
  obtain ⟨h₃, -⟩ := toNat_stage (M := 0x0F0F0F0F0F0F0F0F) (N := 0xF0F0F0F0F0F0F0F0) (S := 4)
    (m := 0x0F) (n := 0xF0) (s := 4) h₂ (by simp [hlen]) hb₂ rfl rfl rfl (by decide) (by decide)
    (by decide) (by decide) (by decide)
  -- after the stages each byte is the number of its bits
  have hcounts : (((bytesOf 8 v.toNat).map (stage 1 0x55 0xAA)).map (stage 2 0x33 0xCC)).map
      (stage 4 0x0F 0xF0) = (bytesOf 8 v.toNat).map (bits 8) := by
    rw [List.map_map, List.map_map]
    exact List.map_congr_left fun b hmem => stages_byte (hb b hmem)
  have hsmall : ∀ c ∈ (bytesOf 8 v.toNat).map (bits 8), c ≤ 8 := by
    intro c hc
    obtain ⟨b, -, rfl⟩ := List.mem_map.mp hc
    exact bits_le 8 b
  have htop := sum_eq_top (by simp [hlen]) hsmall
  have hle := bits_le 64 v.toNat
  rw [hcounts] at h₃
  rw [sum_bits_bytesOf] at htop
  simp only [popcntWord]
  rw [UInt64.toNat_and, UInt64.toNat_shiftRight, UInt64.toNat_mul, h₃]
  have hshift : (56 : UInt64).toNat % 64 = 56 := rfl
  have hmask : (0xFF : UInt64).toNat = 2 ^ 8 - 1 := rfl
  have hones : (0x0101010101010101 : UInt64).toNat = 0x0101010101010101 := rfl
  rw [hshift, hmask, hones, Nat.and_two_pow_sub_one_eq_mod, htop]
  exact Nat.mod_eq_of_lt (Nat.lt_of_le_of_lt hle (by decide))

/-- The bits of the words are the positions. -/
theorem sum_bits_eq (b : Bitset) :
    (b.map fun v => bits 64 v.toNat).sum = (List.range (64 * b.length)).countP b.has := by
  induction b with
  | nil => rfl
  | cons v b ih =>
    have hlow : bits 64 v.toNat = (List.range 64).countP (has (v :: b)) := by
      apply List.countP_congr
      intro i hi
      have hi : i < 64 := List.mem_range.mp hi
      have hword : (v :: b)[i / 64]? = some v := by
        rw [Nat.div_eq_of_lt hi]
        rfl
      rw [has_eq hword, Nat.mod_eq_of_lt hi]
      exact Iff.rfl
    have hhigh : ∀ i, has (v :: b) (64 + i) = has b i := by
      intro i
      have hmajor : (64 + i) / 64 = i / 64 + 1 := by omega
      have hminor : (64 + i) % 64 = i % 64 := by omega
      simp [has, get, bitsetIndex, hmajor, hminor]
    rw [List.map_cons, List.sum_cons, ih, hlow, List.length_cons, Nat.mul_succ,
      Nat.add_comm (64 * _),
      List.range_add, List.countP_append, List.countP_map]
    congr 2
    funext i
    exact (hhigh i).symm

theorem popcnt_eq (b : Bitset) :
    b.popcnt = UInt64.ofNat ((List.range (64 * b.length)).countP b.has) := by
  have hfold : ∀ (l : List UInt64) (total : UInt64),
      l.foldl (fun total v => total + popcntWord v) total =
        total + UInt64.ofNat (l.map fun v => bits 64 v.toNat).sum := by
    intro l
    induction l with
    | nil => intro total; simp
    | cons v l ih =>
      intro total
      rw [List.foldl_cons, ih, List.map_cons, List.sum_cons, UInt64.ofNat_add, ← toNat_popcntWord,
        UInt64.ofNat_toNat, UInt64.add_assoc]
  rw [popcnt, hfold, sum_bits_eq, UInt64.zero_add]

end counting

namespace Represents

variable {n : Nat} {b b' : Bitset} {s s' : Finset Nat}

theorem empty (n : Nat) : Represents n (newBitset n) ∅ where
  length := rfl
  has pos := by simp [has_newBitset]
  below := by simp

theorem in_range (h : Represents n b s) {pos : Nat} (hpos : pos < n) : pos / 64 < b.length := by
  rw [h.length]
  exact index_lt_newBitset hpos

/-- An update of a position below the capacity. -/
theorem apply (h : Represents n b s) {u : Update} (hu : u.pos < n) :
    ∃ b', u.apply b = some b' ∧ Represents n b' (u.on s) := by
  cases u with
  | set pos =>
    have hlt : pos / 64 < b.length := h.in_range hu
    obtain ⟨b', hb'⟩ := set_isSome hlt
    refine ⟨b', hb', (length_set hb').trans h.length, fun j => ?_, fun j hj => ?_⟩
    · rw [has_set hb', h.has, Bool.eq_iff_iff]
      simp only [Update.on, Bool.or_eq_true, decide_eq_true_eq, Finset.mem_insert]
      rw [or_comm, eq_comm]
    · rcases Finset.mem_insert.mp hj with rfl | hj
      · exact hu
      · exact h.below j hj
  | clear pos =>
    have hlt : pos / 64 < b.length := h.in_range hu
    obtain ⟨b', hb'⟩ := clear_isSome hlt
    refine ⟨b', hb', (length_clear hb').trans h.length, fun j => ?_, fun j hj => ?_⟩
    · rw [has_clear hb', h.has, Bool.eq_iff_iff]
      simp only [Update.on, Bool.and_eq_true, Bool.not_eq_true', decide_eq_true_eq,
        decide_eq_false_iff_not, Finset.mem_erase]
      rw [and_comm, eq_comm]
    · exact h.below j (Finset.mem_of_mem_erase hj)

theorem applyAll (h : Represents n b s) {us : List Update} (hus : ∀ u ∈ us, u.pos < n) :
    ∃ b', Bitset.applyAll b us = some b' ∧ Represents n b' (us.foldl Update.on s) := by
  induction us generalizing b s with
  | nil => exact ⟨b, rfl, h⟩
  | cons u us ih =>
    obtain ⟨b₁, hb₁, h₁⟩ := h.apply (hus u List.mem_cons_self)
    obtain ⟨b', hb', h'⟩ := ih h₁ fun x hx => hus x (List.mem_cons_of_mem _ hx)
    refine ⟨b', ?_, h'⟩
    simp only [Bitset.applyAll, List.foldlM_cons, hb₁, Option.bind_eq_bind, Option.bind_some]
    exact hb'

theorem get_eq (h : Represents n b s) {pos : Nat} (hpos : pos < n) :
    b.get pos = some (decide (pos ∈ s)) := by
  have hword := List.getElem?_eq_getElem (h.in_range hpos)
  have hhas := h.has pos
  simp only [Bitset.has, get, bitsetIndex, hword] at hhas ⊢
  rw [← hhas]
  simp

/-- Bit sets of one capacity with the same positions are the same words. -/
theorem eq_iff (h : Represents n b s) (h' : Represents n b' s') : b = b' ↔ s = s' := by
  constructor
  · rintro rfl
    ext pos
    simpa using (h.has pos).symm.trans (h'.has pos)
  · rintro rfl
    apply List.ext_getElem (h.length.trans h'.length.symm)
    intro i hi hi'
    apply UInt64.toBitVec_inj.mp
    apply BitVec.eq_of_getLsbD_eq
    intro j hj
    have hmajor : (64 * i + j) / 64 = i := by omega
    have hminor : (64 * i + j) % 64 = j := by omega
    have hhas := (h.has (64 * i + j)).trans (h'.has (64 * i + j)).symm
    have hword : b[(64 * i + j) / 64]? = some b[i] := by
      rw [hmajor]
      exact List.getElem?_eq_getElem hi
    have hword' : b'[(64 * i + j) / 64]? = some b'[i] := by
      rw [hmajor]
      exact List.getElem?_eq_getElem hi'
    rwa [has_eq hword, has_eq hword', hminor] at hhas

theorem popcnt_eq (h : Represents n b s) : b.popcnt = UInt64.ofNat s.card := by
  have hset : ((List.range (64 * b.length)).filter b.has).toFinset = s := by
    ext pos
    simp only [List.mem_toFinset, List.mem_filter, List.mem_range, h.has, decide_eq_true_eq]
    refine ⟨fun hpos => hpos.2, fun hpos => ⟨?_, hpos⟩⟩
    have := h.in_range (h.below pos hpos)
    omega
  have hnodup : ((List.range (64 * b.length)).filter b.has).Nodup := List.nodup_range.filter _
  rw [Bitset.popcnt_eq, ← hset, List.toFinset_card_of_nodup hnodup, List.countP_eq_length_filter]

theorem card_le (h : Represents n b s) : s.card ≤ n := by
  have hsub : s ⊆ Finset.range n := fun pos hpos => Finset.mem_range.mpr (h.below pos hpos)
  have hcard := Finset.card_le_card hsub
  rwa [Finset.card_range] at hcard

end Represents

/-- A bit set of capacity `n` is a finite set of positions below `n`. -/
theorem updates_represent {n : Nat} {us : List Update} (hus : ∀ u ∈ us, u.pos < n) :
    ∃ b, applyAll (newBitset n) us = some b ∧
      (∀ pos < n, b.get pos = some (decide (pos ∈ positions us))) ∧
      b.popcnt = UInt64.ofNat (positions us).card ∧
      (n < UInt64.size → b.popcnt.toNat = (positions us).card) ∧
      ∀ us' : List Update, (∀ u ∈ us', u.pos < n) →
        ∃ b', applyAll (newBitset n) us' = some b' ∧
          (b.equals b' = true ↔ positions us = positions us') ∧
          (positions us = positions us' → b.hash = b'.hash) := by
  obtain ⟨b, hb, h⟩ := (Represents.empty n).applyAll hus
  refine ⟨b, hb, fun pos hpos => h.get_eq hpos, h.popcnt_eq, fun hn => ?_, fun us' hus' => ?_⟩
  · rw [h.popcnt_eq]
    exact UInt64.toNat_ofNat_of_lt' (Nat.lt_of_le_of_lt h.card_le hn)
  · obtain ⟨b', hb', h'⟩ := (Represents.empty n).applyAll hus'
    refine ⟨b', hb', equals_iff.trans (h.eq_iff h'), fun hpos => ?_⟩
    rw [(h.eq_iff h').mpr hpos]

theorem updates_represent_hundred :
    (∀ u ∈ [Update.set 3, .set 70, .clear 3], u.pos < 100) ∧
      ∃ b, applyAll (newBitset 100) [.set 3, .set 70, .clear 3] = some b ∧
        b.get 70 = some true ∧ b.get 3 = some false ∧ b.popcnt.toNat = 1 := by
  have hus : ∀ u ∈ [Update.set 3, .set 70, .clear 3], u.pos < 100 := by
    intro u hu
    simp only [List.mem_cons, List.not_mem_nil, or_false] at hu
    rcases hu with rfl | rfl | rfl <;> decide
  obtain ⟨b, hb, hget, -, hpop, -⟩ := updates_represent hus
  exact ⟨hus, b, hb, hget 70 (by decide), hget 3 (by decide), hpop (by decide)⟩

end DistributionSystem.Checker.Bitset
