import Coreboot.ByteMemory

/-!
# Sums in ones' complement

The words of a byte string are added with an end-around carry.
-/

namespace Coreboot.OnesComplementSum

open ByteMemory

def fold (number : Nat) : Nat := if number = 0 then 0 else (number - 1) % 65535 + 1

theorem fold_le (number : Nat) : fold number ≤ 65535 := by
  rw [fold]
  split_ifs <;> omega

variable {number : Nat}

theorem fold_of_le (small : number ≤ 65535) : fold number = number := by
  rw [fold]
  split_ifs <;> omega

theorem fold_fold_add (first second : Nat) :
    fold (fold first + second) = fold (first + second) := by
  simp only [fold]
  split_ifs <;> omega

theorem fold_mul_add (count : Nat) (positive : number ≠ 0) :
    fold (65535 * count + number) = fold number := by
  have shifted : 65535 * count + number - 1 = number - 1 + 65535 * count := by omega
  rw [fold, fold, if_neg positive, if_neg (by omega), shifted, Nat.add_mul_mod_self_left]

theorem fold_of_carry (carries : 65535 < number) (single : number ≤ 131070) :
    fold number = number - 65535 := by
  rw [fold]
  split_ifs <;> omega

theorem fold_eq_twice (small : number < 2 ^ 31) :
    (number / 65536 + number % 65536 +
      (number / 65536 + number % 65536) / 65536) % 65536 = fold number := by
  by_cases zero : number = 0
  · subst zero
    rfl
  · have parts : number = 65535 * (number / 65536) + (number / 65536 + number % 65536) := by omega
    conv_rhs => rw [parts]
    rw [fold_mul_add _ (by omega)]
    have bound : number / 65536 + number % 65536 ≤ 98303 := by omega
    revert bound
    generalize number / 65536 + number % 65536 = folded
    intro bound
    by_cases carries : 65535 < folded
    · have carry : folded / 65536 = 1 := by omega
      rw [fold_of_carry carries (by omega), carry]
      omega
    · have none : folded / 65536 = 0 := by omega
      rw [fold_of_le (by omega), none]
      omega

theorem fold_add_complement (nonzero : number ≠ 0) :
    fold (number + (65535 - fold number)) = 65535 := by
  rw [fold, fold, if_neg nonzero, if_neg (by omega)]
  omega

/-- The sum of the little-endian words; an odd byte at the end is a low one. -/
def wordSum : List Byte → Nat
  | [] => 0
  | [byte] => byte.toNat
  | low :: high :: rest => low.toNat + 256 * high.toNat + wordSum rest

theorem wordSum_append {first : List Byte} (even : 2 ∣ first.length) (second : List Byte) :
    wordSum (first ++ second) = wordSum first + wordSum second := by
  induction first using wordSum.induct with
  | case1 => simp [wordSum]
  | case2 byte => simp at even
  | case3 low high rest ih =>
    have shorter : 2 ∣ rest.length := by
      rw [List.length_cons, List.length_cons] at even
      omega
    rw [List.cons_append, List.cons_append, wordSum, wordSum, ih shorter]
    omega

theorem wordSum_le (bytes : List Byte) : wordSum bytes ≤ 65535 * ((bytes.length + 1) / 2) := by
  induction bytes using wordSum.induct with
  | case1 => exact Nat.zero_le _
  | case2 byte =>
    have bound := byte.isLt
    simp only [wordSum, List.length_singleton]
    omega
  | case3 low high rest ih =>
    have lowBound := low.isLt
    have highBound := high.isLt
    rw [wordSum, List.length_cons, List.length_cons]
    omega

theorem wordSum_encodeLE (small : number < 65536) : wordSum (encodeLE 4 number) = number := by
  simp only [encodeLE, wordSum, BitVec.toNat_ofNat]
  omega

theorem wordSum_ne_zero {bytes : List Byte} {byte : Byte} (member : byte ∈ bytes)
    (nonzero : byte ≠ 0) : wordSum bytes ≠ 0 := by
  have positive : byte.toNat ≠ 0 := fun zero => nonzero (BitVec.eq_of_toNat_eq zero)
  induction bytes using wordSum.induct with
  | case1 => cases member
  | case2 other =>
    rw [List.mem_singleton.mp member] at positive
    exact positive
  | case3 low high rest ih =>
    rw [wordSum]
    rcases List.mem_cons.mp member with rfl | later
    · omega
    · rcases List.mem_cons.mp later with rfl | last
      · omega
      · have := ih last
        omega

theorem wordSum_load_succ (memory : Memory) (base count : Nat) :
    wordSum (load memory base (count + 1)) =
      wordSum (load memory base count) +
        (if count % 2 = 1 then (memory (base + count)).toNat * 256
          else (memory (base + count)).toNat) := by
  induction count using Nat.twoStepInduction generalizing base with
  | zero => simp [load, wordSum]
  | one => simp [load, wordSum, Nat.mul_comm]
  | more count ih _ =>
    have step : ∀ more, wordSum (load memory base (more + 2)) =
        (memory base).toNat + 256 * (memory (base + 1)).toNat +
          wordSum (load memory (base + 1 + 1) more) := fun more => rfl
    have odd : (count + 2) % 2 = count % 2 := by omega
    rw [step (count + 1), step count, ih, odd,
      show base + (count + 2) = base + 1 + 1 + count by omega]
    omega

end Coreboot.OnesComplementSum
