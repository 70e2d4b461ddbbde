import Mathlib.Data.Nat.Bitwise

/-!
# Words made of a field and other bits

A table entry is an aligned address together with attribute bits outside of it.
-/

namespace Coreboot

variable {width lower upper : Nat}

/-- The bits of a word that are set lie in a range. -/
def Within (word : BitVec width) (lower upper : Nat) : Prop :=
  ∀ i, word.getLsbD i = true → lower ≤ i ∧ i < upper

theorem within_ofNat {number shift : Nat} (below : number * 2 ^ shift < 2 ^ upper) :
    Within (BitVec.ofNat width (number * 2 ^ shift)) shift upper := by
  intro i bit
  rw [BitVec.getLsbD_ofNat, Bool.and_eq_true] at bit
  have above : i < upper := by
    by_contra high
    rw [Nat.testBit_lt_two_pow (Nat.lt_of_lt_of_le below
      (Nat.pow_le_pow_right Nat.two_pos (Nat.not_lt.mp high)))] at bit
    cases bit.2
  rw [Nat.testBit_mul_two_pow, Bool.and_eq_true, decide_eq_true_eq] at bit
  exact ⟨of_decide_eq_true bit.2.1, above⟩

namespace Within

variable {word attr mask : BitVec width}

section

variable (within : Within word lower upper)
include within

theorem or_and_of_covers (covers : ∀ i < upper, lower ≤ i → mask.getLsbD i = true)
    (apart : attr &&& mask = 0) : (word ||| attr) &&& mask = word := by
  rw [BitVec.and_comm, BitVec.and_or_distrib_left, BitVec.and_comm mask attr, apart]
  apply BitVec.eq_of_getLsbD_eq
  intro i _
  rw [BitVec.getLsbD_or, BitVec.getLsbD_and]
  cases bit : word.getLsbD i with
  | false => simp
  | true =>
    obtain ⟨low, high⟩ := within i bit
    rw [covers i high low]
    simp

theorem or_and_of_misses (misses : ∀ i < upper, lower ≤ i → mask.getLsbD i = false) :
    (word ||| attr) &&& mask = attr &&& mask := by
  apply BitVec.eq_of_getLsbD_eq
  intro i _
  rw [BitVec.getLsbD_and, BitVec.getLsbD_or, BitVec.getLsbD_and]
  cases bit : word.getLsbD i with
  | false => rw [Bool.false_or]
  | true =>
    obtain ⟨low, high⟩ := within i bit
    rw [misses i high low, Bool.and_false, Bool.and_false]

theorem and_of_misses (misses : ∀ i < upper, lower ≤ i → mask.getLsbD i = false) :
    word &&& mask = 0 := by
  have masked : (word ||| BitVec.zero width) &&& mask = BitVec.zero width &&& mask :=
    within.or_and_of_misses misses
  simpa using masked

theorem or_getLsbD {i : Nat} (outside : i < lower ∨ upper ≤ i) :
    (word ||| attr).getLsbD i = attr.getLsbD i := by
  rw [BitVec.getLsbD_or]
  cases bit : word.getLsbD i with
  | false => rw [Bool.false_or]
  | true =>
    have inside := within i bit
    omega

theorem or_extractLsb {start len : Nat} (below : start + len ≤ lower) :
    (word ||| attr).extractLsb' start len = attr.extractLsb' start len := by
  apply BitVec.eq_of_getLsbD_eq
  intro i inside
  rw [BitVec.getLsbD_extractLsb', BitVec.getLsbD_extractLsb', within.or_getLsbD (.inl (by omega))]

end

end Within

end Coreboot
