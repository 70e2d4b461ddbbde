import Mathlib.Data.Nat.Bitwise
import Mathlib.Tactic.Ring

/-!
# Alignment of machine words

Rounding a fixed-width word down or up to a power of two is done with a mask of low bits.
-/

namespace Coreboot.WordAlignment

/-- The word whose low `power` bits are set. -/
def lowMask (width power : Nat) : BitVec width :=
  (BitVec.ofNat width 1 <<< power) - BitVec.ofNat width 1

/-- Clear the low `power` bits. -/
def alignDown {width : Nat} (value : BitVec width) (power : Nat) : BitVec width :=
  value &&& ~~~(lowMask width power)

/-- Round up to a multiple of `2 ^ power`, wrapping around at the width. -/
def alignUp {width : Nat} (value : BitVec width) (power : Nat) : BitVec width :=
  (value + lowMask width power) &&& ~~~(lowMask width power)

theorem lowMask_eq_ofNat (width power : Nat) :
    lowMask width power = BitVec.ofNat width (2 ^ power - 1) := by
  apply BitVec.eq_of_toNat_eq
  have positive : 1 ≤ 2 ^ power := Nat.one_le_two_pow
  have split : 2 ^ power = (2 ^ power - 1) + 1 := by omega
  rw [lowMask, BitVec.toNat_sub, BitVec.toNat_shiftLeft, BitVec.toNat_ofNat, BitVec.toNat_ofNat]
  cases width with
  | zero => simp [Nat.mod_one]
  | succ width =>
    have one : 1 % 2 ^ (width + 1) = 1 := Nat.mod_eq_of_lt (Nat.one_lt_two_pow (by omega))
    rw [one, Nat.shiftLeft_eq, one_mul, Nat.add_mod_mod, split]
    have positiveWidth : 1 ≤ 2 ^ (width + 1) := Nat.one_le_two_pow
    rw [show 2 ^ (width + 1) - 1 + (2 ^ power - 1 + 1) =
      2 ^ power - 1 + 2 ^ (width + 1) by omega, Nat.add_mod_right]
    simp

theorem getLsbD_lowMask (width power index : Nat) :
    (lowMask width power).getLsbD index = (decide (index < width) && decide (index < power)) := by
  rw [lowMask_eq_ofNat, BitVec.getLsbD_ofNat, Nat.testBit_two_pow_sub_one]

variable {width power : Nat}

theorem alignDown_eq_shift (value : BitVec width) (power : Nat) :
    alignDown value power = (value >>> power) <<< power := by
  apply BitVec.eq_of_getLsbD_eq
  intro index inWidth
  simp only [alignDown, BitVec.getLsbD_and, BitVec.getLsbD_not,
    getLsbD_lowMask, BitVec.getLsbD_shiftLeft, BitVec.getLsbD_ushiftRight]
  by_cases low : index < power
  · simp [low, inWidth]
  · simp [low, inWidth, show power + (index - power) = index by omega]

theorem toNat_alignDown (value : BitVec width) (power : Nat) :
    (alignDown value power).toNat = value.toNat / 2 ^ power * 2 ^ power := by
  rw [alignDown_eq_shift, BitVec.toNat_shiftLeft, BitVec.toNat_ushiftRight,
    Nat.shiftRight_eq_div_pow, Nat.shiftLeft_eq]
  apply Nat.mod_eq_of_lt
  exact lt_of_le_of_lt (Nat.div_mul_le_self _ _) value.isLt

theorem toNat_alignUp (value : BitVec width) (power : Nat) :
    (alignUp value power).toNat =
      (value.toNat + (2 ^ power - 1)) % 2 ^ width / 2 ^ power * 2 ^ power := by
  change (alignDown (value + lowMask width power) power).toNat = _
  rw [toNat_alignDown, BitVec.toNat_add, lowMask_eq_ofNat, BitVec.toNat_ofNat, Nat.add_mod_mod]

/-- The least multiple of `2 ^ power` that is not below the number. -/
def ceil (number power : Nat) : Nat := (number + (2 ^ power - 1)) / 2 ^ power * 2 ^ power

theorem toNat_alignUp_of_lt {value : BitVec width}
    (fits : value.toNat + (2 ^ power - 1) < 2 ^ width) :
    (alignUp value power).toNat = ceil value.toNat power := by
  rw [toNat_alignUp, Nat.mod_eq_of_lt fits, ceil]

theorem le_ceil (number power : Nat) : number ≤ ceil number power := by
  have positive : 0 < 2 ^ power := Nat.two_pow_pos power
  have division := Nat.div_add_mod (number + (2 ^ power - 1)) (2 ^ power)
  have remainder := Nat.mod_lt (number + (2 ^ power - 1)) positive
  rw [ceil, Nat.mul_comm]
  omega

theorem ceil_lt_add (number power : Nat) : ceil number power < number + 2 ^ power := by
  have positive : 0 < 2 ^ power := Nat.two_pow_pos power
  have bound := Nat.div_mul_le_self (number + (2 ^ power - 1)) (2 ^ power)
  rw [ceil]
  omega

theorem dvd_ceil (number power : Nat) : 2 ^ power ∣ ceil number power := Dvd.intro_left _ rfl

theorem ceil_le {number bound : Nat} (multiple : 2 ^ power ∣ bound)
    (above : number ≤ bound) : ceil number power ≤ bound := by
  have positive : 0 < 2 ^ power := Nat.two_pow_pos power
  obtain ⟨quotient, rfl⟩ := multiple
  rw [ceil, Nat.mul_comm (2 ^ power) quotient]
  apply Nat.mul_le_mul_right
  rw [Nat.div_le_iff_le_mul_add_pred positive]
  omega

theorem ceil_of_dvd {number : Nat} (multiple : 2 ^ power ∣ number) : ceil number power = number :=
  le_antisymm (ceil_le multiple le_rfl) (le_ceil number power)

end Coreboot.WordAlignment
