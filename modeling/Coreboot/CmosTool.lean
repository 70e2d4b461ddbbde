import Mathlib.Data.List.Pairwise
import Coreboot.BitMemory

/-!
# The CMOS tool

The layout of the CMOS memory as `nvramtool` accepts it, and its bit-level
accesses.  A value is transferred in chunks that do not cross bytes.
-/

namespace Coreboot.Cmos

open BitMemory

/-- The kinds of an entry whose value is a number. -/
inductive EntryConfig
  | enum
  | hex
deriving DecidableEq

structure Entry where
  bit : Nat
  length : Nat
  config : EntryConfig
  configId : Nat
  name : List Byte
deriving DecidableEq

inductive LayoutError
  | entryOverlap
  | entryBadLength
  | summedAreaStartNotAligned
  | summedAreaEndNotAligned
  | checksumLocationNotAligned
  | invalidSummedArea
  | checksumOverlapsSummedArea
  | summedAreaOutOfRange
  | checksumLocationOutOfRange
deriving DecidableEq

def cmosSize : Nat := 256

def cmosRtcAreaSize : Nat := 14

def cmosMaxNameLength : Nat := 32

/-- The ends are computed with unsigned arithmetic. -/
def areasOverlap (area0Start area0Length area1Start area1Length : Nat) : Bool :=
  let area0End := (area0Start + area0Length + (2 ^ 32 - 1)) % 2 ^ 32
  let area1End := (area1Start + area1Length + (2 ^ 32 - 1)) % 2 ^ 32
  area1Start ≤ area0End ∧ area0Start ≤ area1End

def entriesOverlap (p q : Entry) : Bool := areasOverlap p.bit p.length q.bit q.length

/-- The search for the place of the entry, behind the entry `prev`. -/
def insertEntry (e : Entry) : Option Entry → List Entry → Except LayoutError (List Entry)
  | prev, [] =>
    if prev.any fun p => entriesOverlap p e then
      .error .entryOverlap
    else
      .ok [e]
  | prev, item :: rest =>
    if item.bit < e.bit then
      (insertEntry e (some item) rest).map fun next => item :: next
    else if prev.any fun p => entriesOverlap p e then
      .error .entryOverlap
    else if entriesOverlap e item then
      .error .entryOverlap
    else
      .ok (e :: item :: rest)

def addCmosEntry (e : Entry) (entries : List Entry) : Except LayoutError (List Entry) :=
  if e.length < 1 then .error .entryBadLength else insertEntry e none entries

/-- Where the checksum is, and what it is computed over. -/
structure ChecksumLayout where
  summedAreaStart : Nat
  summedAreaEnd : Nat
  checksumAt : Nat
deriving DecidableEq

/-- "Does NOT specify a valid CMOS memory location." -/
def verifyCmosByteIndex (index : Nat) : Bool := index < cmosRtcAreaSize ∨ index ≥ cmosSize

theorem verifyCmosByteIndex_iff {index : Nat} :
    verifyCmosByteIndex index = true ↔ ¬(14 ≤ index ∧ index < 256) := by
  rw [verifyCmosByteIndex, decide_eq_true_eq, cmosRtcAreaSize, cmosSize]
  omega

def checksumLayoutToBytes (layout : ChecksumLayout) : Except LayoutError ChecksumLayout :=
  let first := layout.summedAreaStart
  let last := layout.summedAreaEnd
  let index := layout.checksumAt
  if first % 8 ≠ 0 then .error .summedAreaStartNotAligned
  else if last % 8 ≠ 7 then .error .summedAreaEndNotAligned
  else if index % 8 ≠ 0 then .error .checksumLocationNotAligned
  else if last ≤ first then .error .invalidSummedArea
  else if verifyCmosByteIndex (first / 8) ∨ verifyCmosByteIndex (last / 8) then
    .error .summedAreaOutOfRange
  else if verifyCmosByteIndex (index / 8) then
    .error .checksumLocationOutOfRange
  else if areasOverlap (first / 8) (last / 8 - first / 8 + 1) (index / 8) (index / 8 + 1) then
    .error .checksumOverlapsSummedArea
  else
    .ok
      { summedAreaStart := first / 8
        summedAreaEnd := last / 8
        checksumAt := index / 8 }

def cmosReadByte (m : Memory) (index : Nat) : Byte := m index

/-- `none` is a failed assertion on the index. -/
def cmosWriteByte (m : Memory) (index : Nat) (value : Byte) : Option Memory :=
  if verifyCmosByteIndex index then none else some (setByte m index value)

def verifyCmosOp (bit length : Nat) : Bool :=
  ¬(bit ≥ 8 * cmosSize ∨ bit + length > 8 * cmosSize) ∧ ¬bit < 8 * cmosRtcAreaSize ∧ ¬length > 64

/-- `(unsigned char)((1 << nr_bits) - 1)`. -/
def lowMask (nrBits : Nat) : Byte := BitVec.ofNat 8 (2 ^ nrBits - 1)

def getBits (value : BitVec 64) (bit nrBits : Nat) : Byte :=
  (value >>> bit &&& (lowMask nrBits).setWidth 64).setWidth 8

def putBits (value : Byte) (bit nrBits : Nat) (result : BitVec 64) : BitVec 64 :=
  result + (value &&& lowMask nrBits).setWidth 64 <<< bit

/-- The number of bits that are transferred next. -/
def cmosBitOpStrategy (bit bitsLeft : Nat) : Nat :=
  let maxBits := 8 - bit % 8
  if bitsLeft > maxBits then maxBits else bitsLeft

theorem cmosBitOpStrategy_pos (bit : Nat) {bitsLeft : Nat}
    (some : bitsLeft ≠ 0) : 0 < cmosBitOpStrategy bit bitsLeft := by
  rw [cmosBitOpStrategy]
  split
  · omega
  · omega

def cmosReadBits (m : Memory) (byteIndex bitOffset nrBits : Nat) : Byte :=
  cmosReadByte m byteIndex >>> bitOffset &&& lowMask nrBits

def cmosWriteBits (m : Memory) (byteIndex bitOffset nrBits : Nat) (value : Byte) : Option Memory :=
  if nrBits = 8 then
    cmosWriteByte m byteIndex value
  else
    let n := cmosReadByte m byteIndex
    let mask := lowMask nrBits <<< bitOffset
    cmosWriteByte m byteIndex ((n &&& ~~~mask) + (value <<< bitOffset &&& mask))

def cmosReadLoop (m : Memory) (bit nextBit bitsLeft : Nat) (result : BitVec 64) : BitVec 64 :=
  if some : bitsLeft = 0 then
    result
  else
    let nrBits := cmosBitOpStrategy (bit + nextBit) bitsLeft
    have := cmosBitOpStrategy_pos (bit + nextBit) some
    cmosReadLoop m bit (nextBit + nrBits) (bitsLeft - nrBits)
      (putBits (cmosReadBits m ((bit + nextBit) / 8) ((bit + nextBit) % 8)
        nrBits) nextBit nrBits result)
termination_by bitsLeft
decreasing_by omega

def cmosRead (m : Memory) (e : Entry) : Option (BitVec 64) :=
  if verifyCmosOp e.bit e.length then
    some (cmosReadLoop m e.bit 0 e.length 0)
  else
    none

def cmosWriteLoop (value : BitVec 64) (bit nextBit bitsLeft : Nat) (m : Memory) : Option Memory :=
  if some : bitsLeft = 0 then
    Option.some m
  else
    let nrBits := cmosBitOpStrategy (bit + nextBit) bitsLeft
    have := cmosBitOpStrategy_pos (bit + nextBit) some
    (cmosWriteBits m ((bit + nextBit) / 8) ((bit + nextBit) % 8) nrBits
      (getBits value nextBit nrBits)).bind
        (cmosWriteLoop value bit (nextBit + nrBits) (bitsLeft - nrBits))
termination_by bitsLeft
decreasing_by omega

def cmosWrite (m : Memory) (e : Entry) (value : BitVec 64) : Option Memory :=
  if verifyCmosOp e.bit e.length then
    cmosWriteLoop value e.bit 0 e.length m
  else
    none

def sumBytes (m : Memory) (width : Nat) : Nat → Nat → BitVec width
  | _, 0 => 0
  | i, count + 1 => (m i).setWidth width + sumBytes m width (i + 1) count

def cmosChecksumCompute (ck : ChecksumLayout) (m : Memory) : BitVec 16 :=
  (sumBytes m 32 ck.summedAreaStart
    (ck.summedAreaEnd + 1 - ck.summedAreaStart) &&& 0xffff#32).setWidth 16

def cmosChecksumWrite (ck : ChecksumLayout) (m : Memory) (checksum : BitVec 16) : Option Memory :=
  (cmosWriteByte m ck.checksumAt ((checksum >>> 8).setWidth 8)).bind fun m =>
    cmosWriteByte m (ck.checksumAt + 1) ((checksum &&& 0x00ff#16).setWidth 8)

/-- A value is written, and the checksum is made valid again. -/
def store (ck : ChecksumLayout) (m : Memory) (e : Entry) (value : BitVec 64) : Option Memory :=
  (cmosWrite m e value).bind fun m =>
    cmosChecksumWrite ck m (cmosChecksumCompute ck m)

/-- The layouts that result when entries are added one after the other. -/
inductive Accepted : List Entry → Prop
  | nil : Accepted []
  | add {e : Entry} {entries next : List Entry} :
      Accepted entries → addCmosEntry e entries = .ok next → Accepted next

/-- Inside of the CMOS memory, outside of the clock's area, and as wide as a
number. -/
structure Entry.Inside (e : Entry) : Prop where
  outsideRtc : 8 * cmosRtcAreaSize ≤ e.bit
  insideCmos : e.bit + e.length ≤ 8 * cmosSize
  narrow : e.length ≤ 64

def Before (p q : Entry) : Prop := p.bit + p.length ≤ q.bit

theorem entriesOverlap_eq_false {p q : Entry} (insideP : p.Inside) (insideQ : q.Inside)
    (positiveP : 1 ≤ p.length) (positiveQ : 1 ≤ q.length) (apart : entriesOverlap p q = false)
    (order : p.bit ≤ q.bit) : Before p q := by
  have endP := insideP.insideCmos
  have endQ := insideQ.insideCmos
  rw [cmosSize] at endP endQ
  rw [entriesOverlap, areasOverlap] at apart
  rw [decide_eq_false_iff_not] at apart
  rw [Before]
  omega

variable {e : Entry} {nrBits : Nat} {entries next : List Entry} {prev : Option Entry}
  {byteIndex bitOffset : Nat} {layout : List Entry}

theorem insertEntry_mem (added : insertEntry e prev entries = .ok next) (f : Entry) :
    f ∈ next ↔ f = e ∨ f ∈ entries := by
  induction entries generalizing prev next with
  | nil =>
    rw [insertEntry] at added
    split at added
    · cases added
    · cases added
      simp
  | cons item rest ih =>
    rw [insertEntry] at added
    split_ifs at added
    · cases inserted : insertEntry e (some item) rest with
      | error error => rw [inserted] at added; cases added
      | ok list =>
        rw [inserted] at added
        cases added
        rw [List.mem_cons, List.mem_cons, ih inserted]
        exact or_left_comm
    · cases added
      rw [List.mem_cons]

theorem insertEntry_pairwise
    (added : insertEntry e prev entries = .ok next) (inside : ∀ f ∈ next, f.Inside)
    (positive : ∀ f ∈ next, 1 ≤ f.length) (sorted : entries.Pairwise Before)
    (before : ∀ p ∈ prev, p.Inside ∧ 1 ≤ p.length ∧ p.bit < e.bit ∧ ∀ f ∈ entries, Before p f) :
    next.Pairwise Before ∧ ∀ p ∈ prev, ∀ f ∈ next, Before p f := by
  induction entries generalizing prev next with
  | nil =>
    rw [insertEntry] at added
    split at added
    · cases added
    · rename_i apart
      cases added
      have self := inside e (.head _)
      have long := positive e (.head _)
      refine ⟨List.pairwise_singleton _ _, fun p member f inNext => ?_⟩
      obtain ⟨insideP, positiveP, order, -⟩ := before p member
      rw [List.mem_singleton.mp inNext]
      cases member
      exact entriesOverlap_eq_false insideP self positiveP long
        (Bool.eq_false_iff.mpr apart) (Nat.le_of_lt order)
  | cons item rest ih =>
    rw [List.pairwise_cons] at sorted
    rw [insertEntry] at added
    split_ifs at added with order apartPrev apartItem
    · cases inserted : insertEntry e (some item) rest with
      | error error => rw [inserted] at added; cases added
      | ok list =>
        rw [inserted] at added
        cases added
        have insideItem := inside item (.head _)
        have positiveItem := positive item (.head _)
        obtain ⟨pairwise, behind⟩ := ih inserted (List.forall_mem_cons.mp inside).2
          (List.forall_mem_cons.mp positive).2
          sorted.2 (fun p member => by
            cases member
            exact ⟨insideItem, positiveItem, order, sorted.1⟩)
        have after := behind item rfl
        refine ⟨List.pairwise_cons.mpr ⟨after, pairwise⟩, fun p member f inNext => ?_⟩
        have first := (before p member).2.2.2 item (.head _)
        rcases List.mem_cons.mp inNext with rfl | later
        · exact first
        · have next := after f later
          rw [Before] at first next ⊢
          omega
    · cases added
      have self := inside e (.head _)
      have long := positive e (.head _)
      have second := List.mem_cons_of_mem e (@List.mem_cons_self _ item rest)
      have next := entriesOverlap_eq_false self (inside item second) long
        (positive item second) (Bool.eq_false_iff.mpr apartItem)
        (Nat.not_lt.mp order)
      have later : ∀ f ∈ item :: rest, Before e f := by
        intro f member
        rcases List.mem_cons.mp member with rfl | inRest
        · exact next
        · have behind := sorted.1 f inRest
          rw [Before] at next behind ⊢
          omega
      refine ⟨List.pairwise_cons.mpr ⟨later, List.pairwise_cons.mpr sorted⟩,
        fun p member f inNext => ?_⟩
      obtain ⟨insideP, positiveP, less, behind⟩ := before p member
      rcases List.mem_cons.mp inNext with rfl | old
      · cases member
        exact entriesOverlap_eq_false insideP self positiveP long
          (Bool.eq_false_iff.mpr apartPrev) (Nat.le_of_lt less)
      · exact behind f old

theorem Accepted.positive (accepted : Accepted layout) :
    ∀ e ∈ layout, 1 ≤ e.length := by
  induction accepted with
  | nil => exact nofun
  | add accepted added ih =>
    rw [addCmosEntry] at added
    split_ifs at added with short
    intro f member
    rcases (insertEntry_mem added f).mp member with rfl | old
    · exact Nat.not_lt.mp short
    · exact ih f old

theorem Accepted.pairwise (accepted : Accepted layout)
    (inside : ∀ e ∈ layout, e.Inside) : layout.Pairwise Before := by
  have positive := accepted.positive
  induction accepted with
  | nil => exact List.Pairwise.nil
  | add accepted added ih =>
    rw [addCmosEntry] at added
    split_ifs at added with short
    have old (f) (member) := (insertEntry_mem added f).mpr (.inr member)
    exact (insertEntry_pairwise added inside positive
      (ih (fun f member => inside f (old f member)) accepted.positive)
      nofun).1

theorem checksumLayoutToBytes_ok {layout ck : ChecksumLayout}
    (converted : checksumLayoutToBytes layout = .ok ck) :
    14 ≤ ck.summedAreaStart ∧ ck.summedAreaStart ≤ ck.summedAreaEnd ∧
      ck.summedAreaEnd < 256 ∧ 14 ≤ ck.checksumAt ∧ ck.checksumAt < 256 ∧
      (ck.summedAreaEnd < ck.checksumAt ∨ ck.checksumAt + 1 < ck.summedAreaStart) := by
  rw [checksumLayoutToBytes] at converted
  split_ifs at converted with _ _ _ ordered area index apart
  cases converted
  rw [verifyCmosByteIndex_iff, verifyCmosByteIndex_iff] at area
  rw [verifyCmosByteIndex_iff] at index
  rw [areasOverlap, decide_eq_true_eq] at apart
  dsimp only
  refine ⟨by omega, by omega, by omega, by omega, by omega, by omega⟩

theorem cmosBitOpStrategy_le (bit bitsLeft : Nat) :
    cmosBitOpStrategy bit bitsLeft ≤ bitsLeft ∧ bit % 8 + cmosBitOpStrategy bit bitsLeft ≤ 8 := by
  rw [cmosBitOpStrategy]
  split
  · omega
  · omega

theorem lowMask_getLsbD (nrBits i : Nat) :
    (lowMask nrBits).getLsbD i = (decide (i < 8) && decide (i < nrBits)) :=
  mask_getLsbD nrBits i

theorem shiftedMask_getLsbD (nrBits bitOffset : Nat) {i : Nat} (small : i < 8) :
    (lowMask nrBits <<< bitOffset).getLsbD i = decide (bitOffset ≤ i ∧ i < bitOffset + nrBits) := by
  rw [BitVec.getLsbD_shiftLeft, lowMask_getLsbD, decide_eq_true small,
    decide_eq_true (show i - bitOffset < 8 by omega), Bool.true_and,
    Bool.true_and, ← decide_not, ← Bool.decide_and]
  exact decide_eq_decide.mpr (by omega)

theorem cmosReadBits_getLsbD (m : Memory) (inByte : bitOffset + nrBits ≤ 8) (i : Nat) :
    (cmosReadBits m byteIndex bitOffset nrBits).getLsbD i =
      (decide (i < nrBits) && bitAt m (8 * byteIndex + bitOffset + i)) := by
  rw [cmosReadBits, cmosReadByte, BitVec.getLsbD_and, lowMask_getLsbD, BitVec.getLsbD_ushiftRight]
  by_cases small : i < nrBits
  · rw [decide_eq_true small, decide_eq_true (show i < 8 by omega),
      Bool.true_and, Bool.and_true, Bool.true_and, Nat.add_assoc,
      bitAt_byte (show bitOffset + i < 8 by omega)]
  · rw [decide_eq_false small, Bool.and_false, Bool.and_false, Bool.false_and]

theorem getBits_getLsbD (value : BitVec 64) (bit : Nat) (inByte : nrBits ≤ 8) (i : Nat) :
    (getBits value bit nrBits).getLsbD i = (decide (i < nrBits) && value.getLsbD (bit + i)) := by
  rw [getBits, BitVec.getLsbD_setWidth, BitVec.getLsbD_and,
    BitVec.getLsbD_ushiftRight, BitVec.getLsbD_setWidth, lowMask_getLsbD]
  by_cases small : i < nrBits
  · rw [decide_eq_true small, decide_eq_true (show i < 8 by omega),
      decide_eq_true (show i < 64 by omega)]
    simp only [Bool.true_and, Bool.and_true]
  · rw [decide_eq_false small]
    simp only [Bool.and_false, Bool.false_and]

theorem putBits_getLsbD {value : Byte} {bit nrBits : Nat} {result : BitVec 64}
    (clear : ∀ i, bit ≤ i → result.getLsbD i = false)
    (inByte : nrBits ≤ 8) (inWord : bit + nrBits ≤ 64) (i : Nat) :
    (putBits value bit nrBits result).getLsbD i =
      if bit ≤ i ∧ i < bit + nrBits then value.getLsbD (i - bit)
      else result.getLsbD i := by
  have placed : ((value &&& lowMask nrBits).setWidth 64 <<< bit).getLsbD i =
      (decide (bit ≤ i ∧ i < bit + nrBits) && value.getLsbD (i - bit)) := by
    rw [BitVec.getLsbD_shiftLeft, BitVec.getLsbD_setWidth, BitVec.getLsbD_and, lowMask_getLsbD]
    by_cases inside : bit ≤ i ∧ i < bit + nrBits
    · rw [decide_eq_true inside, decide_eq_true (show i < 64 by omega),
        decide_eq_false (show ¬i < bit by omega),
        decide_eq_true (show i - bit < 64 by omega),
        decide_eq_true (show i - bit < 8 by omega),
        decide_eq_true (show i - bit < nrBits by omega)]
      simp only [Bool.true_and, Bool.and_true, Bool.not_false]
    · rw [decide_eq_false inside, Bool.false_and]
      by_cases low : i < bit
      · rw [decide_eq_true low, Bool.not_true, Bool.and_false, Bool.false_and]
      · rw [decide_eq_false (show ¬i - bit < nrBits by omega)]
        simp only [Bool.and_false]
  have apart : ∀ j, result.getLsbD j = true →
      ((value &&& lowMask nrBits).setWidth 64 <<< bit).getLsbD j = false := by
    intro j set
    have low : j < bit := by
      by_contra high
      rw [clear j (Nat.not_lt.mp high)] at set
      cases set
    rw [BitVec.getLsbD_shiftLeft, decide_eq_true low, Bool.not_true, Bool.and_false, Bool.false_and]
  rw [putBits, add_getLsbD apart, placed]
  by_cases inside : bit ≤ i ∧ i < bit + nrBits
  · rw [if_pos inside, clear i inside.1, decide_eq_true inside, Bool.false_or, Bool.true_and]
  · rw [if_neg inside, decide_eq_false inside, Bool.false_and, Bool.or_false]

def Replaced (first second : Memory) (bit length : Nat) (value : Nat → Bool) : Prop :=
  ∀ k, bitAt second k = if bit ≤ k ∧ k < bit + length then value (k - bit) else bitAt first k

theorem Replaced.refl (m : Memory) (bit : Nat) (value : Nat → Bool) :
    Replaced m m bit 0 value := fun k => by
  rw [if_neg (by omega)]

theorem Replaced.trans {first middle last : Memory} {bit length more : Nat}
    {value : Nat → Bool} (one : Replaced first middle bit length value)
    (two : Replaced middle last (bit + length) more fun i => value (length + i)) :
    Replaced first last bit (length + more) value := by
  intro k
  rw [two k, one k]
  by_cases low : bit ≤ k ∧ k < bit + length
  · rw [if_neg (by omega), if_pos low, if_pos (by omega)]
  · by_cases high : bit + length ≤ k ∧ k < bit + length + more
    · rw [if_pos high, if_pos (by omega)]
      exact congrArg value (by omega)
    · rw [if_neg high, if_neg low, if_neg (by omega)]

theorem replaced_setByte {m : Memory} {byteIndex bitOffset nrBits : Nat} {byte : Byte}
    {value : Nat → Bool} (inByte : bitOffset + nrBits ≤ 8) (bits : ∀ i < 8, byte.getLsbD i =
      if bitOffset ≤ i ∧ i < bitOffset + nrBits then value (i - bitOffset)
      else (m byteIndex).getLsbD i) :
    Replaced m (setByte m byteIndex byte) (8 * byteIndex + bitOffset) nrBits value := by
  intro k
  by_cases same : k / 8 = byteIndex
  · have position : k = 8 * byteIndex + k % 8 := by omega
    rw [bitAt_setByte_self same, bits (k % 8) (Nat.mod_lt _ (by decide))]
    by_cases inside : bitOffset ≤ k % 8 ∧ k % 8 < bitOffset + nrBits
    · rw [if_pos inside, if_pos (by omega)]
      congr 1
      omega
    · rw [if_neg inside, if_neg (by omega), bitAt, same]
  · rw [bitAt_setByte_of_ne same, if_neg (by omega)]

theorem cmosWriteByte_eq {m : Memory} {index : Nat} {value : Byte}
    (valid : 14 ≤ index ∧ index < 256) :
    cmosWriteByte m index value = some (setByte m index value) :=
  if_neg fun invalid => verifyCmosByteIndex_iff.mp invalid valid

theorem cmosWriteBits_spec (m : Memory) (value : Byte)
    (inByte : bitOffset + nrBits ≤ 8) (valid : 14 ≤ byteIndex ∧ byteIndex < 256) :
    ∃ next, cmosWriteBits m byteIndex bitOffset nrBits value = some next ∧
      Replaced m next (8 * byteIndex + bitOffset) nrBits value.getLsbD := by
  rw [cmosWriteBits]
  by_cases whole : nrBits = 8
  · rw [if_pos whole, cmosWriteByte_eq valid]
    refine ⟨_, rfl, replaced_setByte inByte fun i small => ?_⟩
    rw [if_pos (by omega), show bitOffset = 0 by omega, Nat.sub_zero]
  · rw [if_neg whole]
    rw [cmosWriteByte_eq valid, cmosReadByte]
    refine ⟨_, rfl, replaced_setByte inByte fun i small => ?_⟩
    rw [add_getLsbD, BitVec.getLsbD_and, BitVec.getLsbD_not, BitVec.getLsbD_and,
      shiftedMask_getLsbD nrBits bitOffset small, BitVec.getLsbD_shiftLeft, decide_eq_true small]
    · by_cases inside : bitOffset ≤ i ∧ i < bitOffset + nrBits
      · rw [if_pos inside, decide_eq_true inside, decide_eq_false (show ¬i < bitOffset by omega)]
        simp only [Bool.not_true, Bool.and_false, Bool.not_false, Bool.true_and,
          Bool.and_true, Bool.false_or]
      · rw [if_neg inside, decide_eq_false inside]
        simp only [Bool.not_false, Bool.and_true, Bool.and_false, Bool.or_false]
    · intro j kept
      rw [BitVec.getLsbD_and, BitVec.getLsbD_not] at kept
      simp only [Bool.and_eq_true, Bool.not_eq_true'] at kept
      rw [BitVec.getLsbD_and, kept.2.2, Bool.and_false]

theorem cmosWriteLoop_spec (value : BitVec 64) (bit bitsLeft nextBit : Nat) (m : Memory)
    (outside : 112 ≤ bit + nextBit) (inside : bit + nextBit + bitsLeft ≤ 2048) :
    ∃ next, cmosWriteLoop value bit nextBit bitsLeft m = some next ∧
      Replaced m next (bit + nextBit) bitsLeft fun i => value.getLsbD (nextBit + i) := by
  induction bitsLeft using Nat.strongRecOn generalizing nextBit m with
  | ind bitsLeft ih =>
    rw [cmosWriteLoop]
    by_cases done : bitsLeft = 0
    · rw [dif_pos done, done]
      exact ⟨m, rfl, Replaced.refl _ _ _⟩
    · rw [dif_neg done]
      have positive := cmosBitOpStrategy_pos (bit + nextBit) done
      obtain ⟨notMore, inByte⟩ := cmosBitOpStrategy_le (bit + nextBit) bitsLeft
      obtain ⟨nrBits, count⟩ : ∃ nrBits,
          nrBits = cmosBitOpStrategy (bit + nextBit) bitsLeft := ⟨_, rfl⟩
      dsimp only
      rw [← count] at positive notMore inByte ⊢
      obtain ⟨middle, written, chunk⟩ := cmosWriteBits_spec m
        (getBits value nextBit nrBits) inByte
        (show 14 ≤ (bit + nextBit) / 8 ∧ (bit + nextBit) / 8 < 256 by omega)
      obtain ⟨last, done, rest⟩ := ih (bitsLeft - nrBits) (by omega)
        (nextBit + nrBits) middle (by omega) (by omega)
      refine ⟨last, ?_, ?_⟩
      · rw [written]
        exact done
      · have first : Replaced m middle (bit + nextBit) nrBits
            fun i => value.getLsbD (nextBit + i) := by
          intro k
          rw [chunk k, Nat.div_add_mod]
          by_cases here : bit + nextBit ≤ k ∧ k < bit + nextBit + nrBits
          · rw [if_pos here, if_pos here,
              getBits_getLsbD value nextBit (by omega),
              decide_eq_true (by omega), Bool.true_and]
          · rw [if_neg here, if_neg here]
        have joined := @Replaced.trans _ _ last _ _ (bitsLeft - nrBits) _
          first (by
            intro k
            rw [rest k, ← Nat.add_assoc]
            simp only [Nat.add_assoc])
        rwa [Nat.add_sub_cancel' notMore] at joined

theorem cmosReadLoop_getLsbD (m : Memory) (bit bitsLeft nextBit : Nat)
    (result : BitVec 64) (clear : ∀ i, nextBit ≤ i → result.getLsbD i = false)
    (inWord : nextBit + bitsLeft ≤ 64) (i : Nat) :
    (cmosReadLoop m bit nextBit bitsLeft result).getLsbD i =
      if nextBit ≤ i ∧ i < nextBit + bitsLeft then bitAt m (bit + i)
      else result.getLsbD i := by
  induction bitsLeft using Nat.strongRecOn generalizing nextBit result with
  | ind bitsLeft ih =>
    rw [cmosReadLoop]
    by_cases done : bitsLeft = 0
    · rw [dif_pos done, if_neg (by omega)]
    · rw [dif_neg done]
      have positive := cmosBitOpStrategy_pos (bit + nextBit) done
      obtain ⟨notMore, inByte⟩ := cmosBitOpStrategy_le (bit + nextBit) bitsLeft
      obtain ⟨nrBits, count⟩ : ∃ nrBits,
          nrBits = cmosBitOpStrategy (bit + nextBit) bitsLeft := ⟨_, rfl⟩
      dsimp only
      rw [← count] at positive notMore inByte ⊢
      have put := @putBits_getLsbD (cmosReadBits m ((bit + nextBit) / 8)
        ((bit + nextBit) % 8) nrBits) nextBit nrBits result clear (by omega)
        (by omega)
      rw [ih (bitsLeft - nrBits) (by omega) _ _ (fun j high => by
        rw [put, if_neg (by omega)]
        exact clear j (by omega)) (by omega), put]
      by_cases here : nextBit ≤ i ∧ i < nextBit + nrBits
      · rw [if_neg (by omega), if_pos here, if_pos (by omega),
          cmosReadBits_getLsbD m inByte, decide_eq_true (by omega),
          Bool.true_and, Nat.div_add_mod]
        congr 1
        omega
      · by_cases later : nextBit + nrBits ≤ i ∧ i < nextBit + nrBits + (bitsLeft - nrBits)
        · rw [if_pos later, if_pos (by omega)]
        · rw [if_neg later, if_neg here, if_neg (by omega)]

theorem verifyCmosOp_eq_true (inside : e.Inside) (positive : 1 ≤ e.length) :
    verifyCmosOp e.bit e.length = true := by
  obtain ⟨outside, inCmos, narrow⟩ := inside
  rw [cmosRtcAreaSize] at outside
  rw [cmosSize] at inCmos
  rw [verifyCmosOp, decide_eq_true_eq, cmosSize, cmosRtcAreaSize]
  omega

section

variable (verified : verifyCmosOp e.bit e.length = true)
include verified

theorem inside_of_verified : e.Inside := by
  rw [verifyCmosOp, decide_eq_true_eq] at verified
  exact
    { outsideRtc := by omega
      insideCmos := by omega
      narrow := by omega }

theorem cmosWrite_of_verified (m : Memory) (value : BitVec 64) :
    ∃ next, cmosWrite m e value = some next ∧ Replaced m next e.bit e.length value.getLsbD := by
  have inside := inside_of_verified verified
  obtain ⟨next, written, replaced⟩ := cmosWriteLoop_spec value e.bit e.length 0
    m inside.outsideRtc inside.insideCmos
  refine ⟨next, ?_, fun k => ?_⟩
  · rw [cmosWrite, if_pos verified, written]
  · rw [replaced k]
    simp only [Nat.add_zero, Nat.zero_add]

theorem cmosRead_of_verified (m : Memory) :
    ∃ value, cmosRead m e = some value ∧ ∀ i, value.getLsbD i =
      (decide (i < e.length) && bitAt m (e.bit + i)) := by
  refine ⟨cmosReadLoop m e.bit 0 e.length 0, ?_, fun i => ?_⟩
  · rw [cmosRead, if_pos verified]
  · rw [cmosReadLoop_getLsbD m e.bit e.length 0 0
      (fun i _ => BitVec.getLsbD_zero) (by
        have narrow := (inside_of_verified verified).narrow
        omega)]
    by_cases small : i < e.length
    · rw [if_pos (by omega), decide_eq_true small, Bool.true_and]
    · rw [if_neg (by omega), decide_eq_false small, Bool.false_and]
      exact BitVec.getLsbD_zero

end

theorem cmosWrite_spec (inside : e.Inside) (positive : 1 ≤ e.length)
    (m : Memory) (value : BitVec 64) :
    ∃ next, cmosWrite m e value = some next ∧ Replaced m next e.bit e.length value.getLsbD :=
  cmosWrite_of_verified (verifyCmosOp_eq_true inside positive) m value

theorem cmosRead_spec (inside : e.Inside) (positive : 1 ≤ e.length) (m : Memory) :
    ∃ value, cmosRead m e = some value ∧ ∀ i, value.getLsbD i =
      (decide (i < e.length) && bitAt m (e.bit + i)) :=
  cmosRead_of_verified (verifyCmosOp_eq_true inside positive) m

end Coreboot.Cmos
