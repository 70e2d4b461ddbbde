import Coreboot.CmosOption

/-!
# Firmware and tool agree on CMOS

What the tool has stored in an entry is what the firmware's option is, and the
other way round, exactly for the entries the firmware's transfers are made for.
-/

namespace Coreboot.Rtc

open BitMemory Cmos

/-- The checksum is two bytes of the memory outside of the summed ones. -/
structure SoundChecksum (ck : ChecksumLayout) : Prop where
  outsideRtc : 14 ≤ ck.summedAreaStart
  ordered : ck.summedAreaStart ≤ ck.summedAreaEnd
  insideCmos : ck.summedAreaEnd < 256
  location : 14 ≤ ck.checksumAt ∧ ck.checksumAt < 256
  apart : ck.summedAreaEnd < ck.checksumAt ∨ ck.checksumAt + 1 < ck.summedAreaStart

variable {ck : ChecksumLayout} {e : Entry} {fuel j : Nat} {bytes : List Byte} {static : Bool}
  {m : Memory} {value : BitVec 64}

theorem soundChecksum_of_ok {layout : ChecksumLayout}
    (converted : checksumLayoutToBytes layout = .ok ck) : SoundChecksum ck := by
  obtain ⟨outside, ordered, inside, low, high, apart⟩ := checksumLayoutToBytes_ok converted
  exact
    { outsideRtc := outside
      ordered := ordered
      insideCmos := inside
      location := ⟨low, high⟩
      apart := apart }

/-- The sum has been stored behind each other, high byte first. -/
def withChecksum (ck : ChecksumLayout) (m : Memory) : Memory :=
  setByte (setByte m ck.checksumAt ((cmosSum ck m >>> 8).setWidth 8))
    (ck.checksumAt + 1) ((cmosSum ck m).setWidth 8)

theorem masked_low (sum : BitVec 16) : (sum &&& 0xff#16).setWidth 8 = sum.setWidth 8 :=
  setWidth_masked sum

section

variable (sound : SoundChecksum ck)
include sound

theorem cmosSetChecksum_eq (notLast : ck.checksumAt ≠ 255) (m : Memory) :
    cmosSetChecksum ck m = withChecksum ck m := by
  have inside := sound.location
  rw [cmosSetChecksum, cmosWrite_eq, cmosWrite_eq, masked_low, masked_low,
    Nat.mod_eq_of_lt (show ck.checksumAt < 256 by omega),
    Nat.mod_eq_of_lt (show ck.checksumAt + 1 < 256 by omega), withChecksum]

theorem cmosChecksumWrite_eq (notLast : ck.checksumAt ≠ 255) (m : Memory) :
    cmosChecksumWrite ck m (cmosChecksumCompute ck m) = some (withChecksum ck m) := by
  have inside := sound.location
  rw [cmosChecksumWrite, cmosWriteByte_eq inside, Option.bind_some,
    cmosWriteByte_eq (by omega), cmosChecksumCompute_eq sound.insideCmos,
    masked_low, withChecksum]

omit sound in
theorem bitAt_withChecksum (m : Memory) {k : Nat}
    (outside : k < 8 * ck.checksumAt ∨ 8 * ck.checksumAt + 16 ≤ k) :
    bitAt (withChecksum ck m) k = bitAt m k := by
  rw [withChecksum, bitAt_setByte_of_ne (by omega), bitAt_setByte_of_ne (by omega)]

theorem withChecksum_valid (notLast : ck.checksumAt ≠ 255) (static : Bool) (m : Memory) :
    cmosChecksumValid static ck (withChecksum ck m) = true := by
  obtain ⟨outside, ordered, insideCmos, location, apart⟩ := sound
  have sum : cmosSum ck (withChecksum ck m) = cmosSum ck m := by
    refine sumBytes_congr fun j low high => ?_
    rw [cmosRead_eq _ (by omega), cmosRead_eq _ (by omega), withChecksum,
      setByte_of_ne (by omega), setByte_of_ne (by omega)]
  rw [cmosChecksumValid, decide_eq_true_eq, sum, cmosRead_eq _ location.2,
    cmosRead_eq _ (by omega), withChecksum, setByte_self,
    setByte_of_ne (by omega), setByte_self, stored_sum]
  exact .inr rfl

theorem store_eq (notLast : ck.checksumAt ≠ 255) (inside : e.Inside) (positive : 1 ≤ e.length)
    (m : Memory) (value : BitVec 64) :
    ∃ mid, Replaced m mid e.bit e.length value.getLsbD ∧
      store ck m e value = some (withChecksum ck mid) := by
  obtain ⟨mid, written, replaced⟩ := cmosWrite_spec inside positive m value
  refine ⟨mid, replaced, ?_⟩
  rw [store, written, Option.bind_some, cmosChecksumWrite_eq sound notLast]

end

/-- "Can not span bytes unless it starts at the beginning of the byte" and fills
complete bytes. -/
def Shape (e : Entry) : Prop :=
  e.length ≤ 8 ∧ e.bit % 8 + e.length ≤ 8 ∨ 8 < e.length ∧ e.bit % 8 = 0 ∧ e.length % 8 = 0

def Apart (ck : ChecksumLayout) (e : Entry) : Prop :=
  e.bit + e.length ≤ 8 * ck.checksumAt ∨ 8 * ck.checksumAt + 16 ≤ e.bit

theorem getCmosValue_eq (inside : e.Inside) (positive : 1 ≤ e.length) (shape : Shape e)
    (below : value.toNat < 2 ^ e.length)
    (bits : ∀ i < e.length, bitAt m (e.bit + i) = value.getLsbD i) :
    ∃ fuel, getCmosValue fuel m e.bit e.length =
      some (ByteMemory.encodeLE ((e.length + 7) / 8) value.toNat) := by
  obtain ⟨outside, inCmos, narrow⟩ := inside
  rw [cmosSize] at inCmos
  rcases shape with ⟨small, inByte⟩ | ⟨wide, aligned, whole⟩
  · refine ⟨0, ?_⟩
    rw [getCmosValue, if_pos (show e.length < 9 by omega), show (e.length + 7) / 8 = 1 by omega]
    congr 1
    refine eq_encodeLE rfl fun j only i low => ?_
    obtain rfl : j = 0 := Nat.lt_one_iff.mp only
    change (cmosRead m (e.bit / 8) >>> (e.bit % 8) &&& lowMask e.length).getLsbD i = _
    rw [cmosRead_eq _ (by omega), BitVec.getLsbD_and, lowMask_getLsbD,
      BitVec.getLsbD_ushiftRight, decide_eq_true low, Bool.true_and,
      Nat.mul_zero, Nat.zero_add]
    by_cases field : i < e.length
    · rw [decide_eq_true field, Bool.and_true, ← bits i field, bitAt,
        show (e.bit + i) / 8 = e.bit / 8 by omega,
        show (e.bit + i) % 8 = e.bit % 8 + i by omega]
    · rw [decide_eq_false field, Bool.and_false, getLsbD_of_lt below (Nat.not_lt.mp field)]
  · obtain ⟨count, length⟩ : ∃ count, e.length = 8 * count := ⟨e.length / 8, by omega⟩
    refine ⟨count + 1, ?_⟩
    rw [getCmosValue, if_neg (show ¬e.length < 9 by omega), length,
      readBytes_eq _ _ _ (by omega), show (8 * count + 7) / 8 = count by omega]
    congr 1
    refine eq_encodeLE (by rw [List.length_map, List.length_range]) fun j short i low => ?_
    rw [List.length_map, List.length_range] at short
    rw [List.get_eq_getElem, List.getElem_map, List.getElem_range]
    dsimp only
    rw [cmosRead_eq _ (by omega), ← bits (8 * j + i) (by omega), bitAt,
      show (e.bit + (8 * j + i)) / 8 = e.bit / 8 + j by omega,
      show (e.bit + (8 * j + i)) % 8 = i by omega]

def bufferBit (ret : Nat → Byte) (i : Nat) : Bool := (ret (i / 8)).getLsbD (i % 8)

theorem writeBytes_spec (ck : ChecksumLayout) (ret : Nat → Byte) {count i byte : Nat}
    (inside : byte + count ≤ 256) (m : Memory) (needed : Bool) :
    Replaced m (writeBytes ck ret count i byte m needed).1 (8 * byte)
      (8 * count) fun k => bufferBit ret (8 * i + k) := by
  induction count generalizing i byte m needed with
  | zero => exact Replaced.refl _ _ _
  | succ count ih =>
    rw [writeBytes, cmosWrite_eq, Nat.mod_eq_of_lt (by omega)]
    have first : Replaced m (setByte m byte (ret i)) (8 * byte) 8
        fun k => bufferBit ret (8 * i + k) := by
      refine @replaced_setByte m byte 0 8 (ret i) _ (Nat.le_refl 8) fun k low => ?_
      rw [if_pos (by omega), bufferBit, Nat.sub_zero,
        show (8 * i + k) / 8 = i by omega, show (8 * i + k) % 8 = k by omega]
    have rest := @ih (i + 1) (byte + 1) (by omega)
      (setByte m byte (ret i)) (decide (needed = true ∨
        (byte ≥ ck.summedAreaStart ∧ byte ≤ ck.summedAreaEnd)))
    rw [Nat.mul_succ, Nat.add_comm (8 * count)]
    refine first.trans ?_
    rw [Nat.mul_succ] at rest
    intro k
    rw [rest k]
    simp only [Nat.mul_succ, Nat.add_assoc]

/-- What the firmware stores begins where the entry begins and ends at the
entry's end at the latest. -/
theorem setCmosValue_spec (ck : ChecksumLayout) (inside : e.Inside)
    (positive : 1 ≤ e.length) (m : Memory) (ret : Nat → Byte)
    (clear : ∀ i, e.length ≤ i → i < 8 → (ret 0).getLsbD i = false) :
    ¬Shape e ∧ setCmosValue ck m e.bit e.length ret = (.errArg, m) ∨
      ∃ mid count final, Replaced m mid e.bit count (bufferBit ret) ∧
        count ≤ e.length ∧ (Shape e → count = e.length) ∧
        setCmosValue ck m e.bit e.length ret = (.success, final) ∧
        (final = mid ∨ final = cmosSetChecksum ck mid) := by
  obtain ⟨outside, inCmos, narrow⟩ := inside
  rw [cmosSize] at inCmos
  by_cases small : e.length ≤ 8
  · refine .inr ⟨setByte m (e.bit / 8) ((cmosRead m (e.bit / 8) &&&
      ~~~(lowMask e.length <<< (e.bit % 8))) ||| ret 0 <<< (e.bit % 8)),
      min e.length (8 - e.bit % 8), ?_⟩
    have field : Replaced m (setByte m (e.bit / 8) ((cmosRead m (e.bit / 8) &&&
        ~~~(lowMask e.length <<< (e.bit % 8))) ||| ret 0 <<< (e.bit % 8)))
        (8 * (e.bit / 8) + e.bit % 8) (min e.length (8 - e.bit % 8))
        (bufferBit ret) := by
      refine replaced_setByte (by omega) fun i low => ?_
      rw [cmosRead_eq _ (by omega), BitVec.getLsbD_or, BitVec.getLsbD_and,
        BitVec.getLsbD_not, shiftedMask_getLsbD _ _ low,
        BitVec.getLsbD_shiftLeft, decide_eq_true low, bufferBit]
      by_cases before : i < e.bit % 8
      · rw [if_neg (by omega), decide_eq_false (by omega), decide_eq_true before]
        simp only [Bool.not_false, Bool.and_true, Bool.not_true, Bool.and_false,
          Bool.false_and, Bool.or_false]
      · rw [decide_eq_false before]
        by_cases behind : e.bit % 8 + e.length ≤ i
        · rw [if_neg (by omega), decide_eq_false (by omega),
            clear (i - e.bit % 8) (by omega) (by omega)]
          simp only [Bool.not_false, Bool.and_true, Bool.and_false, Bool.or_false]
        · rw [if_pos (by omega), decide_eq_true (by omega),
            show (i - e.bit % 8) / 8 = 0 by omega,
            show (i - e.bit % 8) % 8 = i - e.bit % 8 by omega]
          simp only [Bool.not_true, Bool.and_false, Bool.false_or, Bool.not_false, Bool.true_and]
    rw [Nat.div_add_mod] at field
    have fits : Shape e → min e.length (8 - e.bit % 8) = e.length := by
      rintro (⟨-, inByte⟩ | ⟨wide, -⟩)
      · omega
      · omega
    rw [setCmosValue, if_pos small]
    dsimp only
    rw [cmosWrite_eq, Nat.mod_eq_of_lt (show e.bit / 8 < 256 by omega)]
    split
    · exact ⟨_, field, Nat.min_le_left _ _, fits, rfl, .inr rfl⟩
    · exact ⟨_, field, Nat.min_le_left _ _, fits, rfl, .inl rfl⟩
  · rw [setCmosValue, if_neg small]
    by_cases odd : e.bit % 8 ≠ 0 ∨ e.length % 8 ≠ 0
    · refine .inl ⟨?_, if_pos odd⟩
      rintro (⟨notMore, -⟩ | ⟨-, aligned, whole⟩)
      · exact small notMore
      · omega
    · have field := @writeBytes_spec ck ret (e.length / 8) 0 (e.bit / 8) (by omega) m false
      rw [show 8 * (e.bit / 8) = e.bit by omega,
        show 8 * (e.length / 8) = e.length by omega] at field
      simp only [Nat.mul_zero, Nat.zero_add] at field
      refine .inr ⟨(writeBytes ck ret (e.length / 8) 0 (e.bit / 8) m false).1, e.length, ?_⟩
      dsimp only
      rw [if_neg odd]
      split
      · exact ⟨_, field, le_rfl, fun _ => rfl, rfl, .inr rfl⟩
      · exact ⟨_, field, le_rfl, fun _ => rfl, rfl, .inl rfl⟩

def ToolToFirmware (static : Bool) (ck : ChecksumLayout) (layout : List Entry) (e : Entry) : Prop :=
  ∀ (m : Memory) (value : BitVec 64), value.toNat < 2 ^ e.length →
    ∃ stored, store ck m e value = some stored ∧
      ∃ fuel, getOption static fuel ck layout stored e.name =
        some (.success, ByteMemory.encodeLE ((e.length + 7) / 8) value.toNat)

def FirmwareToTool (ck : ChecksumLayout) (layout : List Entry) (e : Entry) : Prop :=
  ∀ (m : Memory) (value : BitVec 64) (buffer : Nat → Byte),
    value.toNat < 2 ^ e.length →
    (∀ i < (e.length + 7) / 8, buffer i = BitVec.ofNat 8 (value.toNat / 256 ^ i)) →
    ∃ stored, setOption ck layout m e.name buffer = (.success, stored) ∧
      Cmos.cmosRead stored e = some value

def First (before : List Entry) (e : Entry) : Prop := ∀ f ∈ before, ¬e.name <+: f.name

theorem Apart.bitAt (apart : Apart ck e) (m : Memory) {i : Nat} (inEntry : i < e.length) :
    bitAt (withChecksum ck m) (e.bit + i) = bitAt m (e.bit + i) :=
  bitAt_withChecksum m (by
    rw [Apart] at apart
    omega)

section Sufficient

variable {layout before after : List Entry} {e : Entry} {ck : ChecksumLayout}
  (named : Entry.Named e) (inside : e.Inside) (positive : 1 ≤ e.length)
  (sound : SoundChecksum ck) (shape : Shape e) (first : First before e)
  (apart : Apart ck e) (notLast : ck.checksumAt ≠ 255)

include named inside positive sound shape first apart notLast

theorem toolToFirmware (static : Bool) : ToolToFirmware static ck (before ++ e :: after) e := by
  intro m value below
  obtain ⟨mid, replaced, stored⟩ := store_eq sound notLast inside positive m value
  obtain ⟨fuel, delivered⟩ := getCmosValue_eq inside positive shape below
    (m := withChecksum ck mid) fun i inEntry => by
      rw [apart.bitAt mid inEntry, replaced (e.bit + i), if_pos (by omega), Nat.add_sub_cancel_left]
  refine ⟨_, stored, fuel, ?_⟩
  rw [getOption, find_entry named first]
  dsimp only
  rw [delivered, Option.map_some, if_pos (withChecksum_valid sound notLast static mid)]

theorem firmwareToTool : FirmwareToTool ck (before ++ e :: after) e := by
  intro m value buffer below bytes
  have bits : ∀ i < 8 * ((e.length + 7) / 8), bufferBit buffer i = value.getLsbD i := by
    intro i low
    rw [bufferBit, bytes (i / 8) (by omega),
      digit_getLsbD value (Nat.mod_lt _ (by decide)), Nat.div_add_mod]
  rcases setCmosValue_spec ck inside positive m buffer (fun i high low => by
    have bit := bits i (by omega)
    rw [bufferBit, Nat.div_eq_of_lt low, Nat.mod_eq_of_lt low] at bit
    rw [bit, getLsbD_of_lt below high]) with
    ⟨unshaped, -⟩ | ⟨mid, count, final, replaced, -, whole, wrote, which⟩
  · exact absurd shape unshaped
  · refine ⟨final, ?_, ?_⟩
    · rw [setOption, find_entry named first]
      dsimp only
      rw [wrote]
      rfl
    · obtain ⟨read, got, readBits⟩ := cmosRead_spec inside positive final
      rw [got]
      congr 1
      refine BitVec.eq_of_getLsbD_eq fun i _ => ?_
      rw [readBits i]
      by_cases inEntry : i < e.length
      · have kept : bitAt final (e.bit + i) = bitAt mid (e.bit + i) := by
          rcases which with rfl | rfl
          · rfl
          · rw [cmosSetChecksum_eq sound notLast, apart.bitAt mid inEntry]
        rw [decide_eq_true inEntry, Bool.true_and, kept,
          replaced (e.bit + i), whole shape, if_pos (by omega),
          Nat.add_sub_cancel_left, bits i (by omega)]
      · rw [decide_eq_false inEntry, Bool.false_and, getLsbD_of_lt below (Nat.not_lt.mp inEntry)]

end Sufficient

def cleared : Memory := fun _ => 0

theorem bitAt_cleared (k : Nat) : bitAt cleared k = false := BitVec.getLsbD_zero

def firstByte (m : Memory) (bit length : Nat) : Byte :=
  if length < 9 then
    cmosRead m (bit / 8) >>> (bit % 8) &&& lowMask length
  else
    cmosRead m (bit / 8)

theorem getCmosValue_head {bit length : Nat} (positive : 1 ≤ length)
    (small : length ≤ 64) (delivered : getCmosValue fuel m bit length = some bytes) :
    ∃ rest, bytes = firstByte m bit length :: rest := by
  rw [getCmosValue] at delivered
  rw [firstByte]
  split at delivered
  · rename_i short
    rw [if_pos short]
    exact ⟨[], (Option.some.inj delivered).symm⟩
  · rename_i wide
    rw [if_neg wide]
    cases fuel with
    | zero => cases delivered
    | succ fuel =>
      have some : BitVec.ofNat 32 length ≠ 0 := by
        intro zero
        have number := congrArg BitVec.toNat zero
        rw [BitVec.toNat_ofNat, Nat.mod_eq_of_lt (by omega)] at number
        change length = 0 at number
        omega
      rw [readBytes, if_neg some, Option.map_eq_some_iff] at delivered
      obtain ⟨rest, -, rfl⟩ := delivered
      exact ⟨rest, rfl⟩

theorem firstByte_getLsbD {fuel : Nat} {e : Entry}
    (inside : e.Inside) (positive : 1 ≤ e.length) (delivered : getCmosValue fuel m e.bit e.length =
      some (ByteMemory.encodeLE ((e.length + 7) / 8) value.toNat)) {i : Nat} (low : i < 8) :
    (firstByte m e.bit e.length).getLsbD i = value.getLsbD i := by
  obtain ⟨rest, bytes⟩ := getCmosValue_head positive inside.narrow delivered
  rw [show (e.length + 7) / 8 = (e.length - 1) / 8 + 1 by omega, ByteMemory.encodeLE] at bytes
  have digit := digit_getLsbD value low 0
  rw [pow_zero, Nat.div_one, Nat.mul_zero, Nat.zero_add] at digit
  rw [← (List.cons.inj bytes).1, digit]

theorem readBytes_cleared {length : BitVec 32} {byte : Nat}
    (delivered : readBytes cleared fuel length byte = some bytes) : ∀ b ∈ bytes, b = 0 := by
  induction fuel generalizing length byte bytes with
  | zero => cases delivered
  | succ fuel ih =>
    rw [readBytes] at delivered
    split at delivered
    · cases delivered
      intro b member
      cases member
    · rw [Option.map_eq_some_iff] at delivered
      obtain ⟨rest, read, rfl⟩ := delivered
      exact List.forall_mem_cons.mpr ⟨rfl, ih read⟩

theorem getOption_cleared {layout : List Entry} {name : List Byte}
    (delivered : getOption static fuel ck layout cleared name = some (.success, bytes)) :
    ∀ b ∈ bytes, b = 0 := by
  rw [getOption] at delivered
  split at delivered
  · cases delivered
  · rw [Option.map_eq_some_iff] at delivered
    obtain ⟨dest, read, pair⟩ := delivered
    obtain rfl : dest = bytes := by
      split at pair
      · exact (Prod.mk.inj pair).2
      · exact (Prod.mk.inj pair).2
    rw [getCmosValue] at read
    split at read
    · cases read
      refine List.forall_mem_singleton.mpr ?_
      refine BitVec.eq_of_getLsbD_eq fun i _ => ?_
      rw [BitVec.getLsbD_and, BitVec.getLsbD_ushiftRight, cmosRead, cleared]
      change ((0#8).getLsbD _ && _) = (0#8).getLsbD i
      rw [BitVec.getLsbD_zero, BitVec.getLsbD_zero, Bool.false_and]
    · exact readBytes_cleared read

def oneBit (j : Nat) : BitVec 64 := BitVec.ofNat 64 (2 ^ j)

theorem oneBit_getLsbD (inWord : j < 64) (i : Nat) : (oneBit j).getLsbD i = decide (i = j) := by
  rw [oneBit, BitVec.getLsbD_ofNat, Nat.testBit_two_pow]
  by_cases same : i = j
  · rw [same, decide_eq_true inWord, Bool.true_and]
  · rw [decide_eq_false same, decide_eq_false (Ne.symm same), Bool.and_false]

theorem oneBit_toNat (inWord : j < 64) : (oneBit j).toNat = 2 ^ j := by
  rw [oneBit, BitVec.toNat_ofNat, Nat.mod_eq_of_lt (Nat.pow_lt_pow_right (by decide) inWord)]

theorem oneBit_lt {length : Nat} (inWord : length ≤ 64) (inEntry : j < length) :
    (oneBit j).toNat < 2 ^ length := by
  rw [oneBit_toNat (by omega)]
  exact Nat.pow_lt_pow_right (by decide) inEntry

section

variable (sound : SoundChecksum ck) {before after : List Entry}
include sound

theorem store_eq_none (last : ck.checksumAt = 255) (inside : e.Inside) (positive : 1 ≤ e.length)
    (m : Memory) (value : BitVec 64) : store ck m e value = none := by
  obtain ⟨mid, written, -⟩ := cmosWrite_spec inside positive m value
  rw [store, written, Option.bind_some, cmosChecksumWrite,
    cmosWriteByte_eq sound.location, Option.bind_some, cmosWriteByte, last]
  rfl

theorem withChecksum_eq_cleared {mid : Memory}
    (clear : ∀ k, k < 8 * ck.checksumAt ∨ 8 * ck.checksumAt + 16 ≤ k → bitAt mid k = false) :
    withChecksum ck mid = cleared := by
  obtain ⟨outside, ordered, insideCmos, location, apart⟩ := sound
  have byte (j : Nat) (other : j ≠ ck.checksumAt ∧ j ≠ ck.checksumAt + 1) : mid j = 0 :=
    byte_eq_of_bits fun i low => by
      rw [clear (8 * j + i) (by omega)]
      exact BitVec.getLsbD_zero.symm
  have sum : cmosSum ck mid = 0 := by
    refine sumBytes_zero fun j low high => ?_
    rw [cmosRead_eq _ (by omega), byte j (by omega)]
  funext j
  rw [withChecksum, sum, setByte, setByte, cleared]
  split
  · rfl
  · split
    · rfl
    · exact byte j (by omega)

theorem apart_of_agreement (notLast : ck.checksumAt ≠ 255) {layout : List Entry} (inside : e.Inside)
    (positive : 1 ≤ e.length) (agree : ToolToFirmware static ck layout e) : Apart ck e := by
  by_contra overlap
  rw [Apart, not_or, Nat.not_le, Nat.not_le] at overlap
  have narrow := inside.narrow
  obtain ⟨j, inEntry, inChecksum⟩ : ∃ j, j < e.length ∧
      8 * ck.checksumAt ≤ e.bit + j ∧ e.bit + j < 8 * ck.checksumAt + 16 :=
    ⟨8 * ck.checksumAt - e.bit, by omega, by omega, by omega⟩
  obtain ⟨stored, put, fuel, delivered⟩ := agree cleared (oneBit j) (oneBit_lt narrow inEntry)
  obtain ⟨mid, replaced, same⟩ := store_eq sound notLast inside positive cleared (oneBit j)
  have lost : stored = cleared := by
    rw [same] at put
    rw [← Option.some.inj put]
    refine withChecksum_eq_cleared sound fun k outside => ?_
    rw [replaced k]
    split
    · rw [oneBit_getLsbD (by omega), decide_eq_false (by omega)]
    · exact bitAt_cleared k
  rw [lost] at delivered
  have zero := eq_zero_of_encodeLE (by
    rw [show (256 : Nat) = 2 ^ 8 by decide, ← pow_mul]
    exact Nat.lt_of_lt_of_le (oneBit_lt narrow inEntry)
      (Nat.pow_le_pow_right (by decide) (by omega)))
    (getOption_cleared delivered)
  rw [oneBit_toNat (by omega)] at zero
  exact absurd zero (Nat.ne_of_gt (Nat.two_pow_pos j))

theorem first_of_agreement (notLast : ck.checksumAt ≠ 255)
    (named : Entry.Named e) (inside : ∀ f ∈ before ++ e :: after, f.Inside)
    (positive : ∀ f ∈ before ++ e :: after, 1 ≤ f.length)
    (sorted : (before ++ e :: after).Pairwise Before) (apart : Apart ck e)
    (agree : FirmwareToTool ck (before ++ e :: after) e) : First before e := by
  intro f member begins
  have here : e ∈ before ++ e :: after := List.mem_append.mpr (.inr (.head _))
  obtain ⟨found, isBefore, lookup⟩ := @find_earlier before after e f named member begins
  have there : found ∈ before ++ e :: after := List.mem_append.mpr (.inl isBefore)
  have order := (List.pairwise_append.mp sorted).2.2 found isBefore e (.head _)
  rw [Before] at order
  have positiveE := positive e here
  have narrow := (inside e here).narrow
  obtain ⟨buffer, bytes⟩ : ∃ buffer : Nat → Byte,
      ∀ i, buffer i = BitVec.ofNat 8 ((oneBit 0).toNat / 256 ^ i) :=
    ⟨_, fun _ => rfl⟩
  obtain ⟨stored, put, read⟩ := agree cleared (oneBit 0) buffer
    (oneBit_lt narrow positiveE) (fun i _ => bytes i)
  have positiveFound := positive found there
  rw [setOption, lookup] at put
  dsimp only at put
  rcases setCmosValue_spec ck (inside found there) positiveFound cleared
      buffer (fun i high low => by
        rw [bytes, digit_getLsbD _ low, Nat.mul_zero, Nat.zero_add,
          oneBit_getLsbD (by decide), decide_eq_false (by omega)]) with
    ⟨-, failed⟩ | ⟨mid, count, final, replaced, notMore, -, wrote, which⟩
  · rw [failed] at put
    cases put
  · rw [wrote] at put
    obtain rfl : final = stored := (Prod.mk.inj put).2
    obtain ⟨value, got, bits⟩ := cmosRead_spec (inside e here) positiveE final
    rw [read] at got
    have set := bits 0
    have kept : bitAt final (e.bit + 0) = bitAt mid (e.bit + 0) := by
      rcases which with rfl | rfl
      · rfl
      · rw [cmosSetChecksum_eq sound notLast, apart.bitAt mid positiveE]
    rw [← Option.some.inj got, oneBit_getLsbD (by decide),
      kept, replaced (e.bit + 0), if_neg (by omega), bitAt_cleared,
      Bool.and_false] at set
    cases set

theorem shape_of_agreement (notLast : ck.checksumAt ≠ 255)
    (named : Entry.Named e) (inside : e.Inside) (positive : 1 ≤ e.length) (first : First before e)
    (apart : Apart ck e) (agree : ToolToFirmware static ck (before ++ e :: after) e) : Shape e := by
  have narrow := inside.narrow
  have found (m : Memory) (value : BitVec 64)
      (below : value.toNat < 2 ^ e.length) :
      ∃ mid fuel, Replaced m mid e.bit e.length value.getLsbD ∧
        getCmosValue fuel (withChecksum ck mid) e.bit e.length =
          some (ByteMemory.encodeLE ((e.length + 7) / 8) value.toNat) := by
    obtain ⟨stored, put, fuel, delivered⟩ := agree m value below
    obtain ⟨mid, replaced, same⟩ := store_eq sound notLast inside positive m value
    rw [same] at put
    rw [← Option.some.inj put, getOption, find_entry named first] at delivered
    rw [Option.map_eq_some_iff] at delivered
    obtain ⟨dest, read, pair⟩ := delivered
    refine ⟨mid, fuel, replaced, ?_⟩
    split at pair
    · rw [read, (Prod.mk.inj pair).2]
    · rw [read, (Prod.mk.inj pair).2]
  by_cases small : e.length ≤ 8
  · refine .inl ⟨small, ?_⟩
    by_contra crosses
    -- The highest bit is in the next byte.
    obtain ⟨mid, fuel, -, delivered⟩ := found cleared (oneBit (e.length - 1))
      (oneBit_lt narrow (by omega))
    have bit := @firstByte_getLsbD _ _ _ _ inside positive delivered (e.length - 1) (by omega)
    rw [firstByte, if_pos (by omega), oneBit_getLsbD (by omega),
      decide_eq_true rfl, BitVec.getLsbD_and, BitVec.getLsbD_ushiftRight,
      BitVec.getLsbD_of_ge _ _ (by omega), Bool.false_and] at bit
    cases bit
  · refine .inr ⟨by omega, ?_, ?_⟩
    · by_contra unaligned
      -- The lowest bit of the first byte is before the entry.
      obtain ⟨mid, fuel, replaced, delivered⟩ := found cleared (oneBit 0)
        (oneBit_lt narrow (by omega))
      have bit := @firstByte_getLsbD _ _ _ _ inside positive delivered 0 (by decide)
      have inCmos := inside.insideCmos
      rw [cmosSize] at inCmos
      rw [Apart] at apart
      rw [firstByte, if_neg (by omega), oneBit_getLsbD (by decide),
        decide_eq_true rfl, cmosRead_eq _ (by omega),
        ← bitAt_byte (by decide), bitAt_withChecksum mid (by omega),
        replaced, if_neg (by omega), bitAt_cleared] at bit
      cases bit
    · by_contra broken
      -- The length passes zero.
      obtain ⟨mid, fuel, -, delivered⟩ := found cleared (oneBit 0) (oneBit_lt narrow (by omega))
      rw [getCmosValue, if_neg (by omega), readBytes_eq_none] at delivered
      · cases delivered
      · rw [BitVec.toNat_ofNat]
        omega

end

/-- Firmware and tool agree on an entry exactly when the firmware finds it by
its name, transfers its bits, and has its checksum elsewhere. -/
theorem agreement_iff {before after : List Entry} {e : Entry}
    (accepted : Accepted (before ++ e :: after)) (inside : ∀ f ∈ before ++ e :: after, f.Inside)
    (named : ∀ f ∈ before ++ e :: after, Entry.Named f) {bits ck : ChecksumLayout}
    (converted : checksumLayoutToBytes bits = .ok ck) (static : Bool) :
    (ToolToFirmware static ck (before ++ e :: after) e ∧
        FirmwareToTool ck (before ++ e :: after) e) ↔
      Shape e ∧ First before e ∧ Apart ck e ∧ ck.checksumAt ≠ 255 := by
  have sound := soundChecksum_of_ok converted
  have here : e ∈ before ++ e :: after := List.mem_append.mpr (.inr List.mem_cons_self)
  have positive := accepted.positive
  constructor
  · rintro ⟨forth, back⟩
    have notLast : ck.checksumAt ≠ 255 := by
      intro last
      obtain ⟨stored, put, -⟩ := forth cleared 0 (Nat.two_pow_pos _)
      rw [store_eq_none sound last (inside e here) (positive e here)] at put
      cases put
    have apart := apart_of_agreement sound notLast (inside e here) (positive e here) forth
    have first := first_of_agreement sound notLast (named e here) inside
      positive (accepted.pairwise inside) apart back
    exact ⟨shape_of_agreement sound notLast (named e here) (inside e here)
      (positive e here) first apart forth, first, apart, notLast⟩
  · rintro ⟨shape, first, apart, notLast⟩
    exact ⟨toolToFirmware (named e here) (inside e here) (positive e here)
      sound shape first apart notLast static,
      firmwareToTool (named e here) (inside e here) (positive e here) sound
        shape first apart notLast⟩

def optionAt (bit length : Nat) : Entry :=
  { bit := bit, length := length, config := .hex, configId := 0
    name := [0x62] }

def usualChecksum : ChecksumLayout :=
  { summedAreaStart := 48, summedAreaEnd := 122, checksumAt := 123 }

theorem usualChecksum_converted :
    checksumLayoutToBytes
      { summedAreaStart := 384, summedAreaEnd := 983, checksumAt := 984 } = .ok usualChecksum := by
  decide

theorem accepted_single (positive : ¬e.length < 1) : Accepted [e] := .add .nil (if_neg positive)

theorem agreement_wholeByte :
    ToolToFirmware false usualChecksum ([] ++ optionAt 384 8 :: []) (optionAt 384 8) ∧
      FirmwareToTool usualChecksum ([] ++ optionAt 384 8 :: []) (optionAt 384 8) :=
  (agreement_iff (accepted_single (by decide))
    (fun f member => by
      obtain rfl := List.mem_singleton.mp member
      exact ⟨by decide, by decide, by decide⟩)
    (fun f member => by
      obtain rfl := List.mem_singleton.mp member
      exact ⟨by decide, by decide⟩)
    usualChecksum_converted false).mpr
    ⟨.inl (by decide), nofun, .inl (by decide), by decide⟩

/-- An entry of twelve bits is accepted, and the firmware's loop over its bytes
does not end. -/
theorem not_toolToFirmware_twelveBits :
    (Accepted [optionAt 384 12] ∧ (optionAt 384 12).Inside ∧
        Entry.Named (optionAt 384 12) ∧
        checksumLayoutToBytes
          { summedAreaStart := 384, summedAreaEnd := 983, checksumAt := 984 } = .ok usualChecksum) ∧
      (∀ m fuel, getOption false fuel usualChecksum [optionAt 384 12] m
        (optionAt 384 12).name = none) ∧
      ¬ToolToFirmware false usualChecksum [optionAt 384 12] (optionAt 384 12) := by
  have endless (m : Memory) (fuel : Nat) :
      getOption false fuel usualChecksum [optionAt 384 12] m (optionAt 384 12).name = none := by
    change (readBytes m fuel 12 48).map _ = none
    rw [readBytes_eq_none m fuel 12 48 (by decide), Option.map_none]
  refine ⟨⟨accepted_single (by decide), ⟨by decide, by decide, by decide⟩,
    ⟨by decide, by decide⟩, usualChecksum_converted⟩, endless, fun agree => ?_⟩
  obtain ⟨stored, -, fuel, delivered⟩ := agree cleared 0 (by decide)
  rw [endless] at delivered
  cases delivered

end Coreboot.Rtc
