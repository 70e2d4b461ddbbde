import Mathlib.Algebra.Order.Ring.Nat
import Coreboot.ByteMemory

/-!
# Bits of a byte memory

Bit `k` of a memory is bit `k % 8` of byte `k / 8`, and its bits determine a memory.
-/

namespace Coreboot.BitMemory

/-- A bit of the memory, counted from the first byte's lowest one. -/
def bitAt (memory : Memory) (k : Nat) : Bool := (memory (k / 8)).getLsbD (k % 8)

def setByte (memory : Memory) (index : Nat) (byte : Byte) : Memory :=
  fun address => if address = index then byte else memory address

@[simp]
theorem setByte_self (memory : Memory) (index : Nat) (byte : Byte) :
    setByte memory index byte index = byte :=
  if_pos rfl

variable {memory : Memory} {index i width count : Nat} {byte : Byte} {value : BitVec width}

theorem setByte_of_ne {address : Nat} (ne : address ≠ index) :
    setByte memory index byte address = memory address :=
  if_neg ne

theorem bitAt_byte (inside : i < 8) : bitAt memory (8 * index + i) = (memory index).getLsbD i := by
  rw [bitAt, Nat.mul_add_div (by decide), Nat.mul_add_mod,
    Nat.div_eq_of_lt inside, Nat.mod_eq_of_lt inside, Nat.add_zero]

theorem bitAt_setByte_of_ne {k : Nat} (ne : k / 8 ≠ index) :
    bitAt (setByte memory index byte) k = bitAt memory k := by
  rw [bitAt, setByte_of_ne ne, bitAt]

theorem bitAt_setByte_self {k : Nat} (same : k / 8 = index) :
    bitAt (setByte memory index byte) k = byte.getLsbD (k % 8) := by
  rw [bitAt, same, setByte_self]

theorem byte_eq_of_bits (same : ∀ i < 8, bitAt memory (8 * index + i) = byte.getLsbD i) :
    memory index = byte :=
  BitVec.eq_of_getLsbD_eq fun i inside => by
    rw [← bitAt_byte inside, same i inside]

theorem mask_getLsbD (width i : Nat) :
    (BitVec.ofNat 8 (2 ^ width - 1)).getLsbD i = (decide (i < 8) && decide (i < width)) := by
  rw [BitVec.getLsbD_ofNat, Nat.testBit_two_pow_sub_one]

theorem setWidth_masked (number : BitVec width) :
    (number &&& BitVec.ofNat width (2 ^ count - 1)).setWidth count = number.setWidth count := by
  refine BitVec.eq_of_getLsbD_eq fun i small => ?_
  rw [BitVec.getLsbD_setWidth, BitVec.getLsbD_setWidth, BitVec.getLsbD_and, BitVec.getLsbD_ofNat,
    Nat.testBit_two_pow_sub_one, decide_eq_true small, Bool.and_true]
  by_cases inside : i < width
  · rw [decide_eq_true inside, Bool.and_true]
  · rw [BitVec.getLsbD_of_ge number i (Nat.not_lt.mp inside), Bool.false_and]

theorem add_getLsbD {first second : BitVec width}
    (apart : ∀ i, first.getLsbD i = true → second.getLsbD i = false) (i : Nat) :
    (first + second).getLsbD i = (first.getLsbD i || second.getLsbD i) := by
  have disjoint : first &&& second = BitVec.ofNat width 0 :=
    BitVec.eq_of_getLsbD_eq fun i _ => by
      rw [BitVec.getLsbD_and, BitVec.getLsbD_zero]
      cases set : first.getLsbD i with
      | false => rfl
      | true => rw [apart i set, Bool.and_false]
  rw [BitVec.add_eq_or_of_and_eq_zero first second disjoint, BitVec.getLsbD_or]

theorem getLsbD_of_lt {length : Nat} (below : value.toNat < 2 ^ length)
    (high : length ≤ i) : value.getLsbD i = false := by
  rw [← BitVec.testBit_toNat]
  exact Nat.testBit_lt_two_pow (Nat.lt_of_lt_of_le below (Nat.pow_le_pow_right Nat.two_pos high))

theorem encodeLE_getElem {width number j : Nat}
    (inside : j < (ByteMemory.encodeLE width number).length) :
    (ByteMemory.encodeLE width number)[j] = BitVec.ofNat 8 (number / 256 ^ j) := by
  induction width generalizing number j with
  | zero => cases inside
  | succ width ih =>
    cases j with
    | zero => rw [pow_zero, Nat.div_one]; rfl
    | succ j =>
      have read := @ih (number / 256) j (Nat.lt_of_succ_lt_succ inside)
      rw [Nat.div_div_eq_div_mul, Nat.mul_comm, ← pow_succ] at read
      exact read

theorem digit_getLsbD (value : BitVec width) (inside : i < 8) (j : Nat) :
    (BitVec.ofNat 8 (value.toNat / 256 ^ j)).getLsbD i = value.getLsbD (8 * j + i) := by
  have power : 256 ^ j = 2 ^ (8 * j) := by
    rw [pow_mul]
    exact congrArg (fun base => base ^ j) (show 256 = 2 ^ 8 by decide)
  rw [BitVec.getLsbD_ofNat, decide_eq_true inside, Bool.true_and, power,
    Nat.testBit_div_two_pow, BitVec.testBit_toNat, Nat.add_comm]

theorem eq_encodeLE {bytes : List Byte} (length : bytes.length = count)
    (bits : ∀ (j : Nat) (inside : j < bytes.length) (i : Nat), i < 8 →
      (bytes.get ⟨j, inside⟩).getLsbD i = value.getLsbD (8 * j + i)) :
    bytes = ByteMemory.encodeLE count value.toNat := by
  apply List.ext_getElem
  · rw [length, ByteMemory.length_encodeLE]
  · intro j inside other
    rw [encodeLE_getElem]
    refine BitVec.eq_of_getLsbD_eq fun i small => ?_
    rw [digit_getLsbD value small]
    exact bits j inside i small

theorem eq_zero_of_encodeLE {number : Nat} (below : number < 256 ^ count)
    (zero : ∀ byte ∈ ByteMemory.encodeLE count number, byte = 0) : number = 0 := by
  induction count generalizing number with
  | zero => exact Nat.lt_one_iff.mp below
  | succ count ih =>
    rw [ByteMemory.encodeLE, List.forall_mem_cons] at zero
    rw [pow_succ] at below
    have low := congrArg BitVec.toNat zero.1
    rw [BitVec.toNat_ofNat] at low
    have high := ih (Nat.div_lt_of_lt_mul (by rwa [Nat.mul_comm])) zero.2
    change number % 2 ^ 8 = 0 at low
    omega

end Coreboot.BitMemory
