import Coreboot.Ddr3

/-!
# The checksum of a module description

A step of the checksum is invertible, and shifts what is below its upper bit.
-/

namespace Coreboot.Ddr3

open ByteMemory

theorem crcBit_injective : Function.Injective crcBit := by
  have low (crc : BitVec 16) : (crcBit crc).getLsbD 0 = crc.msb := by
    rw [crcBit]
    split_ifs with carry <;> simp [carry]
  intro first second same
  have msb : first.msb = second.msb := by rw [← low, same, low]
  have shifted : first <<< 1 = second <<< 1 := by
    rw [crcBit, crcBit, msb] at same
    split_ifs at same
    · exact (BitVec.xor_left_inj _).mp same
    · exact same
  rw [BitVec.msb_eq_decide, BitVec.msb_eq_decide, decide_eq_decide] at msb
  bv_omega

theorem crcBit_xor {first second : BitVec 16} (clear : second.msb = false) :
    crcBit (first ^^^ second) = crcBit first ^^^ second <<< 1 := by
  rw [crcBit, crcBit, BitVec.msb_xor, clear, Bool.xor_false, BitVec.shiftLeft_xor_distrib]
  split_ifs
  · rw [BitVec.xor_assoc, BitVec.xor_comm (second <<< 1), BitVec.xor_assoc]
  · rfl

theorem iterate_crcBit_xor (crc : BitVec 16) (byte : Byte) {count : Nat} (few : count ≤ 8) :
    crcBit^[count] (crc ^^^ byte.setWidth 16) =
      crcBit^[count] crc ^^^ byte.setWidth 16 <<< count := by
  induction count with
  | zero => simp
  | succ count ih =>
    have clear : (byte.setWidth 16 <<< count).msb = false := by
      rw [BitVec.msb_eq_getLsbD_last, BitVec.getLsbD_shiftLeft, BitVec.getLsbD_setWidth,
        BitVec.getLsbD_of_ge byte _ (by omega)]
      simp
    rw [Function.iterate_succ_apply', ih (by omega), crcBit_xor clear, Function.iterate_succ_apply',
      ← BitVec.shiftLeft_add]

/-- Two bytes go into the checksum as a word does. -/
theorem crcByte_crcByte (crc : BitVec 16) (first second : Byte) :
    crcByte (crcByte crc first) second =
      crcBit^[8] (crcBit^[8] (crc ^^^ (first.setWidth 16 <<< 8) ^^^ second.setWidth 16)) := by
  rw [crcByte, crcByte, iterate_crcBit_xor _ second le_rfl]

theorem crcByte_crcByte_inj {crc : BitVec 16} {first second first' second' : Byte}
    (same : crcByte (crcByte crc first) second = crcByte (crcByte crc first') second') :
    first = first' ∧ second = second' := by
  rw [crcByte_crcByte, crcByte_crcByte] at same
  have inner := crcBit_injective.iterate 8 (crcBit_injective.iterate 8 same)
  rw [BitVec.xor_assoc, BitVec.xor_assoc, BitVec.xor_right_inj] at inner
  obtain rfl : second = second' := by simpa using congrArg (BitVec.setWidth 8) inner
  have upper := (BitVec.xor_left_inj _).mp inner
  exact ⟨by bv_omega, rfl⟩

theorem foldl_crcByte_injective (bytes : List Byte) :
    Function.Injective (bytes.foldl crcByte) := by
  induction bytes with
  | nil => exact fun _ _ same => same
  | cons byte rest ih =>
    exact fun _ _ same =>
      (BitVec.xor_left_inj _).mp (crcBit_injective.iterate 8 (ih same))

theorem crc_of_accepted {spd : Spd} {dimm : DimmAttr}
    (accepted : (spdDecodeDdr3 dimm spd).map Prod.fst = some .ok) :
    spdDdr3CalcCrc spd = ((spd 127).setWidth 16 <<< 8) + (spd 126).setWidth 16 := by
  rw [spdDecodeDdr3] at accepted
  split at accepted
  · cases accepted
  · split at accepted
    · cases accepted
    · rw [Option.map_map] at accepted
      obtain ⟨_, -, ok⟩ := Option.map_eq_some_iff.mp accepted
      have ok : status spd = .ok := ok
      rw [status] at ok
      split_ifs at ok with _ same
      exact not_not.mp same

def smallSpd (index : Nat) : Byte :=
  match index with
  | 2 => spdMemoryTypeSdramDdr3
  | 11 => 8
  | 126 => 0xe8
  | 127 => 0x74
  | _ => 0

end Coreboot.Ddr3
