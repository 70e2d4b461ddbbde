import Mathlib.Data.Nat.Digits.Defs
import Mathlib.Tactic.Common

/-!
# Decimal digits from the first to the last

A number can be printed without a buffer by dividing it by smaller and smaller powers of ten.
-/

namespace Coreboot.DecimalDigits

/-- The digits of a number, the most significant one first. -/
def decimal (number : Nat) : List Nat := (Nat.digits 10 number).reverse

/-- A given number of digits, with zeros in front. -/
def fixedDigits : Nat → Nat → List Nat
  | 0, _ => []
  | count + 1, number =>
    number / 10 ^ count :: fixedDigits count (number % 10 ^ count)

/-- The digits from a power of ten on.  Zeros are left out until there has been
another digit. -/
def printed : Nat → Bool → Nat → List Nat
  | 0, _, _ => []
  | count + 1, started, number =>
    if started || number / 10 ^ count ≠ 0 then
      number / 10 ^ count :: printed count true (number % 10 ^ count)
    else printed count started number

variable {number count : Nat}

theorem decimal_of_pos (positive : 0 < number) :
    decimal number = decimal (number / 10) ++ [number % 10] := by
  unfold decimal
  rw [Nat.digits_def' (by decide) positive, List.reverse_cons]

theorem fixedDigits_succ (small : number < 10 ^ (count + 1)) :
    fixedDigits (count + 1) number = fixedDigits count (number / 10) ++ [number % 10] := by
  induction count generalizing number with
  | zero =>
    simp only [Nat.zero_add, Nat.pow_one] at small
    simp [fixedDigits, Nat.mod_eq_of_lt small]
  | succ count ih =>
    have rest : number % 10 ^ (count + 1) < 10 ^ (count + 1) :=
      Nat.mod_lt _ (Nat.pow_pos (by decide))
    have quotient : number % 10 ^ (count + 1) / 10 = number / 10 % 10 ^ count := by
      rw [Nat.pow_succ', Nat.mod_mul_right_div_self]
    have last : number % 10 ^ (count + 1) % 10 = number % 10 :=
      Nat.mod_mod_of_dvd number ⟨10 ^ count, Nat.pow_succ'⟩
    rw [fixedDigits, ih rest, quotient, last, fixedDigits, Nat.div_div_eq_div_mul,
      ← Nat.pow_succ', List.cons_append]

theorem decimal_eq_fixedDigits (large : 10 ^ count ≤ number) (small : number < 10 ^ (count + 1)) :
    decimal number = fixedDigits (count + 1) number := by
  induction count generalizing number with
  | zero =>
    simp only [Nat.zero_add, Nat.pow_one, Nat.pow_zero] at large small
    simp [decimal, fixedDigits, Nat.digits_of_lt 10 number (by omega) small]
  | succ count ih =>
    have positive : 0 < number := Nat.lt_of_lt_of_le (Nat.pow_pos (by decide)) large
    have above : 10 ^ count ≤ number / 10 := by
      rw [Nat.pow_succ] at large
      exact (Nat.le_div_iff_mul_le (by decide)).mpr large
    have below : number / 10 < 10 ^ (count + 1) := by
      rw [Nat.pow_succ] at small
      exact (Nat.div_lt_iff_lt_mul (by decide)).mpr small
    rw [decimal_of_pos positive, ih above below, ← fixedDigits_succ small]

theorem printed_started (count number : Nat) :
    printed count true number = fixedDigits count number := by
  induction count generalizing number with
  | zero => rfl
  | succ count ih => simp [printed, fixedDigits, ih]

theorem printed_eq_decimal (small : number < 10 ^ count) :
    printed count false number = decimal number := by
  induction count with
  | zero =>
    have zero : number = 0 := by simpa using small
    simp [zero, printed, decimal]
  | succ count ih =>
    unfold printed
    by_cases first : number / 10 ^ count = 0
    · have below : number < 10 ^ count := by
        rcases Nat.div_eq_zero_iff.mp first with power | below
        · exact absurd power (Nat.pow_pos (by decide)).ne'
        · exact below
      simp [first, ih below]
    · have above : 10 ^ count ≤ number :=
        Nat.le_of_not_lt fun below => first (Nat.div_eq_of_lt below)
      simp [first, printed_started, decimal_eq_fixedDigits above small, fixedDigits]

theorem length_printed_le (count : Nat) (started : Bool) (number : Nat) :
    (printed count started number).length ≤ count := by
  induction count generalizing started number with
  | zero => exact Nat.le_refl 0
  | succ count ih =>
    unfold printed
    split
    · exact Nat.succ_le_succ (ih true _)
    · exact Nat.le_succ_of_le (ih started _)

theorem length_decimal_le (small : number < 10 ^ count) : (decimal number).length ≤ count := by
  rw [← printed_eq_decimal small]
  exact length_printed_le count false number

end Coreboot.DecimalDigits
