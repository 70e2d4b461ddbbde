import Coreboot.CmosTool

/-!
# The options of the firmware

The firmware finds an entry of the binary table by its name and transfers its
value: one byte, or whole bytes.
-/

namespace Coreboot.Rtc

open BitMemory Cmos

def rtcControl : Nat := 11

def rtcSet : Byte := 0x80

/-- The address is an `unsigned char`. -/
def cmosRead (m : Memory) (addr : Nat) : Byte := m (addr % 256)

def cmosWriteInner (m : Memory) (val : Byte) (addr : Nat) : Memory := setByte m (addr % 256) val

/-- The clock is stopped while a value is changed. -/
def cmosWrite (m : Memory) (val : Byte) (addr : Nat) : Memory :=
  let controlState := cmosRead m rtcControl
  if addr % 256 ≠ rtcControl ∧ controlState &&& rtcSet = 0 then
    cmosWriteInner (cmosWriteInner
      (cmosWriteInner m (controlState ||| rtcSet) rtcControl) val addr)
      controlState rtcControl
  else
    cmosWriteInner m val addr

theorem cmosWrite_eq (m : Memory) (val : Byte) (addr : Nat) :
    cmosWrite m val addr = setByte m (addr % 256) val := by
  rw [cmosWrite]
  split
  · rename_i stopped
    funext other
    simp only [cmosWriteInner, cmosRead, setByte]
    by_cases control : other = rtcControl % 256
    · have ne : other ≠ addr % 256 := fun same =>
        stopped.1 (same.symm.trans control)
      rw [if_pos control, if_neg ne, control]
    · rw [if_neg control, if_neg control]
  · rfl

/-- `sum += cmos_read(i)` in 16 bits. -/
def cmosSum (ck : ChecksumLayout) (m : Memory) : BitVec 16 :=
  sumBytes (cmosRead m) 16 ck.summedAreaStart (ck.summedAreaEnd + 1 - ck.summedAreaStart)

def cmosChecksumValid (staticOptionTable : Bool) (ck : ChecksumLayout) (m : Memory) : Bool :=
  staticOptionTable ∨
    cmosSum ck m =
      (((cmosRead m ck.checksumAt).setWidth 32 <<< 8 |||
        (cmosRead m (ck.checksumAt + 1)).setWidth 32) &&& 0xffff#32).setWidth 16

def cmosSetChecksum (ck : ChecksumLayout) (m : Memory) : Memory :=
  let sum := cmosSum ck m
  cmosWrite (cmosWrite m ((sum >>> 8 &&& 0xff#16).setWidth 8) ck.checksumAt)
    ((sum &&& 0xff#16).setWidth 8) (ck.checksumAt + 1)

inductive CbErr
  | success
  | errArg
  | cmosOptionNotFound
  | cmosAccessError
  | cmosChecksumInvalid
deriving DecidableEq

/-- The loop `for (i = 0; length; i++, length -= 8, byte++)`; `none` is a loop
that has not ended. -/
def readBytes (m : Memory) : Nat → BitVec 32 → Nat → Option (List Byte)
  | 0, _, _ => none
  | fuel + 1, length, byte =>
    if length = 0 then
      some []
    else
      (readBytes m fuel (length - 8) (byte + 1)).map fun ret =>
        cmosRead m byte :: ret

def getCmosValue (fuel : Nat) (m : Memory) (bit length : Nat) : Option (List Byte) :=
  let byte := bit / 8
  let byteBit := bit % 8
  if length < 9 then
    some [cmosRead m byte >>> byteBit &&& lowMask length]
  else
    readBytes m fuel (BitVec.ofNat 32 length) byte

def recordName (ce : Entry) : List Byte :=
  ce.name ++ List.replicate (cmosMaxNameLength - ce.name.length) 0

/-- `memcmp(ce->name, name, namelen) == 0`, where `namelen` is the length of the
name that is looked for. -/
def nameMatches (name : List Byte) (ce : Entry) : Bool :=
  let namelen := min name.length cmosMaxNameLength
  (recordName ce).take namelen = name.take namelen

def getOption (staticOptionTable : Bool) (fuel : Nat) (ck : ChecksumLayout)
    (table : List Entry) (m : Memory) (name : List Byte) :
    Option (CbErr × List Byte) :=
  match table.find? (nameMatches name) with
  | none => some (.cmosOptionNotFound, [])
  | some ce =>
    (getCmosValue fuel m ce.bit ce.length).map fun dest =>
      if cmosChecksumValid staticOptionTable ck m then
        (.success, dest)
      else
        (.cmosChecksumInvalid, dest)

/-- The bytes that are transferred, and whether one of them is summed. -/
def writeBytes (ck : ChecksumLayout) (ret : Nat → Byte) :
    Nat → Nat → Nat → Memory → Bool → Memory × Bool
  | 0, _, _, m, chksumUpdateNeeded => (m, chksumUpdateNeeded)
  | count + 1, i, byte, m, chksumUpdateNeeded =>
    writeBytes ck ret count (i + 1) (byte + 1) (cmosWrite m (ret i) byte)
      (chksumUpdateNeeded ∨ (byte ≥ ck.summedAreaStart ∧ byte ≤ ck.summedAreaEnd))

def setCmosValue (ck : ChecksumLayout) (m : Memory) (bit length : Nat)
    (ret : Nat → Byte) : CbErr × Memory :=
  let byte := bit / 8
  let byteBit := bit % 8
  if length ≤ 8 then
    let mask := lowMask length <<< byteBit
    let uchar := cmosRead m byte &&& ~~~mask
    let uchar := uchar ||| ret 0 <<< byteBit
    let m := cmosWrite m uchar byte
    if byte ≥ ck.summedAreaStart ∧ byte ≤ ck.summedAreaEnd then
      (.success, cmosSetChecksum ck m)
    else
      (.success, m)
  else if byteBit ≠ 0 ∨ length % 8 ≠ 0 then
    (.errArg, m)
  else
    let (m, chksumUpdateNeeded) := writeBytes ck ret (length / 8) 0 byte m false
    if chksumUpdateNeeded then
      (.success, cmosSetChecksum ck m)
    else
      (.success, m)

def setOption (ck : ChecksumLayout) (table : List Entry) (m : Memory)
    (name : List Byte) (value : Nat → Byte) : CbErr × Memory :=
  match table.find? (nameMatches name) with
  | none => (.cmosOptionNotFound, m)
  | some ce =>
    let (err, next) := setCmosValue ck m ce.bit ce.length value
    if err = .success then (.success, next) else (.cmosAccessError, next)

structure Entry.Named (e : Entry) : Prop where
  short : e.name.length < cmosMaxNameLength
  noNul : ∀ c ∈ e.name, c ≠ 0

variable {e : Entry} {before after : List Entry} {width i count : Nat}

theorem nameMatches_iff (named : Entry.Named e) (ce : Entry) :
    nameMatches e.name ce = true ↔ e.name <+: ce.name := by
  have short := named.short
  have whole : min e.name.length cmosMaxNameLength = e.name.length :=
    Nat.min_eq_left (Nat.le_of_lt short)
  rw [nameMatches]
  rw [decide_eq_true_eq, whole, List.take_length, recordName, List.take_append]
  constructor
  · intro same
    by_cases long : e.name.length ≤ ce.name.length
    · rw [Nat.sub_eq_zero_of_le long, List.take_zero, List.append_nil] at same
      rw [← same]
      exact List.take_prefix _ _
    · rw [cmosMaxNameLength] at short
      have nul : (0 : Byte) ∈ e.name := by
        rw [← same, cmosMaxNameLength, List.take_replicate]
        refine List.mem_append.mpr (.inr (List.mem_replicate.mpr ⟨?_, rfl⟩))
        omega
      exact absurd rfl (named.noNul 0 nul)
  · rintro ⟨rest, same⟩
    have longer : e.name.length ≤ ce.name.length := by
      rw [← same, List.length_append]
      exact Nat.le_add_right _ _
    rw [Nat.sub_eq_zero_of_le longer, List.take_zero, List.append_nil, ← same, List.take_left]

theorem nameMatches_self (named : Entry.Named e) : nameMatches e.name e = true :=
  (nameMatches_iff named e).mpr (List.prefix_refl _)

theorem find_entry (named : Entry.Named e) (first : ∀ f ∈ before, ¬e.name <+: f.name) :
    (before ++ e :: after).find? (nameMatches e.name) = some e := by
  have none : before.find? (nameMatches e.name) = none := by
    rw [List.find?_eq_none]
    intro f member found
    exact first f member ((nameMatches_iff named f).mp found)
  rw [List.find?_append, none, Option.none_or, List.find?_cons_of_pos (nameMatches_self named)]

theorem find_earlier {e f : Entry} (named : Entry.Named e)
    (member : f ∈ before) (begins : e.name <+: f.name) :
    ∃ found ∈ before, (before ++ e :: after).find? (nameMatches e.name) = some found := by
  have some : (before.find? (nameMatches e.name)).isSome := by
    rw [List.find?_isSome]
    exact ⟨f, member, (nameMatches_iff named f).mpr begins⟩
  obtain ⟨found, got⟩ := Option.isSome_iff_exists.mp some
  refine ⟨found, List.mem_of_find?_eq_some got, ?_⟩
  rw [List.find?_append, got, Option.some_or]

theorem cmosRead_eq {addr : Nat} (m : Memory) (inside : addr < 256) : cmosRead m addr = m addr := by
  rw [cmosRead, Nat.mod_eq_of_lt inside]

theorem readBytes_eq (m : Memory) (count byte : Nat) (small : 8 * count < 2 ^ 32) :
    readBytes m (count + 1) (BitVec.ofNat 32 (8 * count)) byte =
      some ((List.range count).map fun j => cmosRead m (byte + j)) := by
  induction count generalizing byte with
  | zero => rfl
  | succ count ih =>
    have positive : BitVec.ofNat 32 (8 * (count + 1)) ≠ 0 := by
      intro zero
      have value := congrArg BitVec.toNat zero
      rw [BitVec.toNat_ofNat, Nat.mod_eq_of_lt small] at value
      change 8 * (count + 1) = 0 at value
      omega
    have less : BitVec.ofNat 32 (8 * (count + 1)) - 8 = BitVec.ofNat 32 (8 * count) := by
      apply BitVec.eq_of_toNat_eq
      rw [BitVec.toNat_sub, BitVec.toNat_ofNat, BitVec.toNat_ofNat]
      change (2 ^ 32 - 8 + 8 * (count + 1) % 2 ^ 32) % 2 ^ 32 = 8 * count % 2 ^ 32
      omega
    rw [readBytes, if_neg positive, less, ih (byte + 1) (by omega),
      Option.map_some, List.range_succ_eq_map, List.map_cons, List.map_map,
      Nat.add_zero]
    congr 3
    funext j
    exact congrArg (cmosRead m) (by omega)

theorem readBytes_eq_none (m : Memory) (fuel : Nat) (length : BitVec 32) (byte : Nat)
    (broken : length.toNat % 8 ≠ 0) : readBytes m fuel length byte = none := by
  induction fuel generalizing length byte with
  | zero => rfl
  | succ fuel ih =>
    have positive : length ≠ 0 := by
      rintro rfl
      exact broken rfl
    rw [readBytes, if_neg positive, ih]
    · rfl
    · rw [BitVec.toNat_sub]
      change (2 ^ 32 - 8 + length.toNat) % 2 ^ 32 % 8 ≠ 0
      have below := length.isLt
      omega

theorem sumBytes_congr {first second : Memory}
    (same : ∀ j, i ≤ j → j < i + count → first j = second j) :
    sumBytes first width i count = sumBytes second width i count := by
  induction count generalizing i with
  | zero => rfl
  | succ count ih =>
    rw [sumBytes, sumBytes, same i (Nat.le_refl i) (by omega),
      ih fun j low high => same j (by omega) (by omega)]

theorem sumBytes_setWidth (m : Memory) (i count : Nat) :
    (sumBytes m 32 i count).setWidth 16 = sumBytes m 16 i count := by
  induction count generalizing i with
  | zero => rfl
  | succ count ih =>
    rw [sumBytes, sumBytes, BitVec.setWidth_add _ _ (by decide), ih,
      BitVec.setWidth_setWidth_of_le _ (by decide)]

theorem sumBytes_zero {m : Memory}
    (zero : ∀ j, i ≤ j → j < i + count → m j = 0) : sumBytes m width i count = 0 := by
  induction count generalizing i with
  | zero => rfl
  | succ count ih =>
    rw [sumBytes, zero i (Nat.le_refl i) (by omega),
      ih fun j low high => zero j (by omega) (by omega)]
    simp

theorem cmosChecksumCompute_eq {ck : ChecksumLayout}
    (inside : ck.summedAreaEnd < 256) (m : Memory) :
    cmosChecksumCompute ck m = cmosSum ck m := by
  have masked (sum : BitVec 32) : (sum &&& 0xffff#32).setWidth 16 = sum.setWidth 16 :=
    setWidth_masked sum
  rw [cmosChecksumCompute, masked, sumBytes_setWidth, cmosSum]
  exact sumBytes_congr fun j low high => (cmosRead_eq m (by omega)).symm

theorem stored_sum (sum : BitVec 16) :
    ((((sum >>> 8).setWidth 8 : Byte).setWidth 32 <<< 8 |||
      ((sum.setWidth 8 : Byte).setWidth 32)) &&& 0xffff#32).setWidth 16 =
      sum := by
  have masked (number : BitVec 32) : (number &&& 0xffff#32).setWidth 16 = number.setWidth 16 :=
    setWidth_masked number
  refine BitVec.eq_of_getLsbD_eq fun i small => ?_
  rw [masked, BitVec.getLsbD_setWidth, BitVec.getLsbD_or,
    BitVec.getLsbD_shiftLeft, BitVec.getLsbD_setWidth, BitVec.getLsbD_setWidth,
    BitVec.getLsbD_setWidth, BitVec.getLsbD_setWidth,
    BitVec.getLsbD_ushiftRight, decide_eq_true small,
    decide_eq_true (show i < 32 by omega),
    decide_eq_true (show i - 8 < 8 by omega),
    decide_eq_true (show i - 8 < 32 by omega)]
  by_cases low : i < 8
  · rw [decide_eq_true low]
    simp only [Bool.true_and, Bool.not_true, Bool.false_and, Bool.false_or]
  · rw [decide_eq_false low, show 8 + (i - 8) = i by omega]
    simp only [Bool.true_and, Bool.not_false, Bool.false_and, Bool.or_false,
      Bool.and_false, Bool.and_true]

end Coreboot.Rtc
