import Coreboot.RegionFileLog

/-!
# Updates of a region file

Every turn of the update loop keeps the file in step with the device: it erases, allocates
metadata, appends to the log, or gives up.
-/

namespace Coreboot.Regf

open ByteMemory

/-- A non-empty buffer, with a size that an object in memory can have. -/
structure Buffer where
  bytes : List Byte
  nonempty : bytes ≠ []
  small : bytes.length < 2 ^ 63

def Buffer.blocks (buf : Buffer) : Nat := dataBlocksOf buf.bytes

theorem Buffer.blocks_eq (buf : Buffer) : buf.blocks = (buf.bytes.length + 15) / 16 := by
  have small := buf.small
  have noWrap : buf.bytes.length + (16 - 1) < 2 ^ 64 := by omega
  rw [blocks, dataBlocksOf, bytesToBlock, alignUp, Nat.mod_eq_of_lt noWrap]
  omega

theorem Buffer.blocks_pos (buf : Buffer) : 0 < buf.blocks := by
  have positive := List.length_pos_of_ne_nil buf.nonempty
  rw [buf.blocks_eq]
  omega

private theorem alignUp_eight {value : Nat} (small : value ≤ 2 ^ 20) :
    alignUp value 8 = (value + 7) / 8 * 8 := by
  rw [alignUp, Nat.mod_eq_of_lt (by omega)]

private theorem metadataBlocks_of_updates {updates : Nat}
    (positive : 0 < updates) (small : updates ≤ 2 ^ 19) :
    alignUp (if alignUp updates 8 = 0 then 1 else alignUp updates 8) 8 / 8 = (updates + 7) / 8 := by
  rw [alignUp_eight (small.trans (by decide)), if_neg (by omega), alignUp_eight (by omega)]
  omega

variable {t d size count : Nat} {memory : Memory} {f : RegionFile}

theorem metadataBlocks_eq (positive : 0 < t * 8 / (d * 8 + 1)) (small : t ≤ 2 ^ 16) :
    metadataBlocks t d = (t * 8 / (d * 8 + 1) + 7) / 8 := by
  have bounded : t * 8 / (d * 8 + 1) ≤ 2 ^ 19 := (Nat.div_le_self _ _).trans (by omega)
  exact metadataBlocks_of_updates positive bounded

theorem metadataBlocks_add_le (fits : d + 1 ≤ t) (small : t ≤ 2 ^ 16) :
    0 < metadataBlocks t d ∧ metadataBlocks t d + d ≤ t := by
  have positive : 0 < t * 8 / (d * 8 + 1) := Nat.div_pos (by omega) (by omega)
  have quotient : t * 8 / (d * 8 + 1) ≤ 8 * (t - d) := by
    obtain ⟨spare, rfl⟩ := Nat.exists_eq_add_of_le fits
    have expand : (d * 8 + 1) * (8 * (spare + 1)) =
        64 * (d * spare) + 64 * d + 8 * spare + 8 := by ring
    rw [Nat.div_le_iff_le_mul_add_pred (by omega),
      show d + 1 + spare - d = spare + 1 by omega, expand]
    omega
  rw [metadataBlocks_eq positive small]
  omega

theorem metadataBlocks_lt (nonempty : 0 < d) (fits : d + 1 ≤ t)
    (small : t ≤ 2 ^ 16) : metadataBlocks t d < 2 ^ 13 := by
  have positive : 0 < t * 8 / (d * 8 + 1) := Nat.div_pos (by omega) (by omega)
  have bound : t * 8 / (d * 8 + 1) ≤ t * 8 / 9 := Nat.div_le_div_left (by omega) (by decide)
  rw [metadataBlocks_eq positive small]
  omega

theorem metadataBlocks_add_lt (nonempty : 0 < d) (fits : d + 1 ≤ t)
    (small : t ≤ 2 ^ 16) (addressable : d + 1 < regfUnallocatedBlock) :
    metadataBlocks t d + d < regfUnallocatedBlock := by
  have few := metadataBlocks_lt nonempty fits small
  rw [regfUnallocatedBlock] at addressable ⊢
  by_cases many : 2 ^ 15 ≤ d
  · have positive : 0 < t * 8 / (d * 8 + 1) := Nat.div_pos (by omega) (by omega)
    have one : t * 8 / (d * 8 + 1) < 8 := by
      rw [Nat.div_lt_iff_lt_mul (by omega)]
      omega
    rw [metadataBlocks_eq positive small]
    omega
  · omega

theorem slotAt_store (memory : Memory) (slot other : Nat) {offset : Nat}
    (narrow : offset < 2 ^ 16) :
    slotAt (store memory (2 * slot) (encodeLE 2 offset)) other =
      if other = slot then offset else slotAt memory other := by
  rw [slotAt]
  by_cases same : other = slot
  · rw [if_pos same, same, readLE_store_encodeLE memory _ narrow]
  · rw [if_neg same, readLE_store_of_disjoint, slotAt]
    rw [length_encodeLE]
    omega

theorem slotAt_store_data {base : Nat} {bytes : List Byte} {slot : Nat}
    (before : 2 * slot + 2 ≤ base) : slotAt (store memory base bytes) slot = slotAt memory slot :=
  readLE_store_of_disjoint (Or.inl before)

theorem slotAt_of_erased (erased : Erased size memory) {slot : Nat} (inside : 2 * slot + 2 ≤ size) :
    slotAt memory slot = regfUnallocatedBlock := by
  have ones : load memory (2 * slot) 2 = List.replicate 2 0xff :=
    load_eq_replicate fun address _ below => erased address (by omega)
  rw [slotAt, readLE, ones]
  rfl

theorem Log.congr {first second : Memory} (log : Log size first count)
    (same : ∀ slot < 8 * slotAt first 0, slotAt second slot = slotAt first slot) :
    Log size second count := by
  obtain ⟨positive, room, increasing, inRegion, addressable, free⟩ := log
  have sameFirst := same 0 (by omega)
  have sameLast := same count room
  refine ⟨by omega, by omega, ?_, by omega, by omega, ?_⟩
  · intro slot before
    rw [same slot (by omega), same (slot + 1) (by omega)]
    exact increasing slot before
  · intro slot beyond inMetadata
    rw [same slot (by omega)]
    exact free slot beyond (by omega)

theorem Erased.start {size : Nat} {memory : Memory} (erased : Erased size memory) {y : Nat}
    (positive : 0 < y) (inRegion : y ≤ size / 16) (addressable : y < regfUnallocatedBlock) :
    Log size (store memory 0 (encodeLE 2 y)) 0 ∧ slotAt (store memory 0 (encodeLE 2 y)) 0 = y := by
  have narrow : y < 2 ^ 16 := addressable.trans (by decide)
  have slots (slot : Nat) :
      slotAt (store memory 0 (encodeLE 2 y)) slot = if slot = 0 then y else slotAt memory slot :=
    slotAt_store memory 0 slot narrow
  have first : slotAt (store memory 0 (encodeLE 2 y)) 0 = y := slots 0
  refine ⟨⟨by omega, by omega, by omega, by omega, by omega, ?_⟩, first⟩
  intro slot beyond inMetadata
  rw [slots, if_neg (by omega)]
  exact slotAt_of_erased erased (by omega)

theorem Log.append {size : Nat} {memory : Memory} {count : Nat} (log : Log size memory count)
    {d : Nat} (nonempty : 0 < d) (room : count + 1 < 8 * slotAt memory 0)
    (addressable : slotAt memory count + d < regfUnallocatedBlock)
    (inRegion : slotAt memory count + d ≤ size / 16) :
    let next := store memory (2 * (count + 1)) (encodeLE 2 (slotAt memory count + d))
    Log size next (count + 1) ∧
      slotAt next (count + 1) = slotAt memory count + d ∧
        ∀ slot ≤ count, slotAt next slot = slotAt memory slot := by
  intro next
  have narrow : slotAt memory count + d < 2 ^ 16 := addressable.trans (by decide)
  have slots (slot : Nat) : slotAt next slot =
      if slot = count + 1 then slotAt memory count + d
      else slotAt memory slot :=
    slotAt_store memory (count + 1) slot narrow
  have last : slotAt next (count + 1) = slotAt memory count + d := by
    rw [slots, if_pos rfl]
  have before (slot : Nat) (old : slot ≤ count) : slotAt next slot = slotAt memory slot := by
    rw [slots, if_neg (by omega)]
  have first := before 0 (Nat.zero_le _)
  have positive := log.positive
  refine ⟨⟨by omega, by omega, ?_, by omega, by omega, ?_⟩, last, before⟩
  · intro slot inLog
    rcases Nat.lt_succ_iff_lt_or_eq.mp inLog with old | rfl
    · rw [before slot (by omega), before (slot + 1) (by omega)]
      exact log.increasing slot old
    · rw [before slot le_rfl, last]
      omega
  · intro slot beyond inMetadata
    rw [slots, if_neg (by omega)]
    exact log.free slot (by omega) (by omega)

def emptyFile (size : Nat) : RegionFile := ⟨⟨0, size⟩, ⟨0, 0⟩, 0, 0, rfEmpty⟩

theorem regionFileInit_of_erased (large : 16 ≤ size) (erased : Erased size memory) :
    regionFileInit ⟨0, size⟩ memory = (emptyFile size, 0) := by
  have whole : rdevChain ⟨0, size⟩ 0 size = some ⟨0, size⟩ :=
    rdevChain_of_le (by change 0 + size ≤ size; omega)
  have bytes : rdevReadat ⟨0, size⟩ memory 0 16 = some (load memory 0 16) :=
    rdevReadat_of_le (by change 0 + 16 ≤ size; omega) memory
  have firstSlot : slotAt memory 0 = regfUnallocatedBlock := slotAt_of_erased erased (by omega)
  have first : (metadataBlockOfBytes (load memory 0 16)).blocks.getD 0 0 = regfUnallocatedBlock :=
    (getD_metadataBlockOfBytes memory 0 (by decide)).trans firstSlot
  have unallocated : blockOffsetUnallocated regfUnallocatedBlock = true := rfl
  simp only [regionFileInit, whole, bytes, Option.map_some, first, unallocated, if_true]
  rfl

theorem regionFileInit_of_small (small : size < 16) (memory : Memory) :
    regionFileInit ⟨0, size⟩ memory = (⟨⟨0, size⟩, ⟨0, 0⟩, 0, 0, rfFatal⟩, -1) := by
  have whole : rdevChain ⟨0, size⟩ 0 size = some ⟨0, size⟩ :=
    rdevChain_of_le (by change 0 + size ≤ size; omega)
  have refused : rdevReadat ⟨0, size⟩ memory 0 16 = none := by
    rw [rdevReadat, normalizeAndOk_eq, if_neg]
    · rfl
    · change ¬ 0 + 16 ≤ size
      omega
  simp only [regionFileInit, whole, refused, Option.map_none]

def applyOps (memory : Memory) (ops : List DeviceOp) : Memory := ops.foldl DeviceOp.apply memory

/-- The metadata of an update of `d` blocks and the update itself can be
addressed on an erased device. -/
theorem handleEmpty_of_le (erased : Erased size memory) (bounded : size ≤ 2 ^ 20) (nonempty : 0 < d)
    (fits : d + 1 ≤ size / 16) (rdev : f.rdev = ⟨0, size⟩) :
    let op : DeviceOp := .writeat 0 (encodeLE 2 (metadataBlocks (size / 16) d))
    handleEmpty f d = ⟨0, fileOf size (op.apply memory) 0, [op]⟩ ∧
      Log size (op.apply memory) 0 ∧ slotAt (op.apply memory) 0 = metadataBlocks (size / 16) d := by
  intro op
  obtain ⟨positive, total⟩ := metadataBlocks_add_le fits (by omega)
  have few := metadataBlocks_lt nonempty fits (by omega)
  have addressable : metadataBlocks (size / 16) d < regfUnallocatedBlock := few.trans (by decide)
  obtain ⟨log, first⟩ := erased.start positive (by omega) addressable
  refine ⟨?_, log, first⟩
  have blocks : bytesToBlock (alignDown size 16) = size / 16 := by
    rw [bytesToBlock, alignDown]
    omega
  have one : bytesToBlock (alignUp 16 16) = 1 := by decide
  have accepted : ¬ d > sizeSub (size / 16) 1 := by
    rw [sizeSub]
    omega
  have narrow : 1 * metadataBlocks (size / 16) d % 2 ^ 16 = metadataBlocks (size / 16) d := by omega
  have written : rdevWriteat ⟨0, size⟩ (encodeLE 2 (metadataBlocks (size / 16) d)) 0 = some op := by
    apply rdevWriteat_of_le
    rw [length_encodeLE]
    change 0 + 2 ≤ size
    omega
  have asBytes : blockToBytes (metadataBlocks (size / 16) d) =
      metadataBlocks (size / 16) d * 16 := by
    rw [blockToBytes]
    omega
  have metadata : rdevChain ⟨0, size⟩ 0 (metadataBlocks (size / 16) d * 16) =
      some ⟨0, metadataBlocks (size / 16) d * 16⟩ := by
    apply rdevChain_of_le
    change 0 + metadataBlocks (size / 16) d * 16 ≤ size
    omega
  simp only [handleEmpty, allocateMetadata, rdev, blocks, one,
    if_neg accepted, narrow, written, asBytes, metadata]
  have firstSlot : slotAt (op.apply memory) 0 = _ := first
  simp [fileOf, firstSlot, rfOnlyMetadata]

/-- An update that does not fit next to one metadata block fails without a
device operation. -/
theorem handleEmpty_of_gt (bounded : size ≤ 2 ^ 20) (large : 16 ≤ size)
    (oversize : size / 16 < d + 1) (rdev : f.rdev = ⟨0, size⟩) : handleEmpty f d = ⟨-1, f, []⟩ := by
  have blocks : bytesToBlock (alignDown size 16) = size / 16 := by
    rw [bytesToBlock, alignDown]
    omega
  have one : bytesToBlock (alignUp 16 16) = 1 := by decide
  have refused : d > sizeSub (size / 16) 1 := by
    rw [sizeSub]
    omega
  simp only [handleEmpty, allocateMetadata, rdev, blocks, one, if_pos refused]
  rfl

theorem handleNeedToEmpty_eq (rdev : f.rdev = ⟨0, size⟩) (memory : Memory) :
    handleNeedToEmpty f = ⟨0, { f with slot := rfEmpty }, [.eraseat 0 size]⟩ ∧
      Erased size ((DeviceOp.eraseat 0 size).apply memory) := by
  have erase : rdevEraseat ⟨0, size⟩ 0 size = some (.eraseat 0 size) :=
    rdevEraseat_of_le (by change 0 + size ≤ size; omega)
  refine ⟨by simp only [handleNeedToEmpty, rdev, erase], ?_⟩
  intro address inside
  exact if_pos ⟨Nat.zero_le _, by omega⟩

/-- There is a free slot, and the end of the update can be addressed and lies in
the region. -/
def CanFit (size : Nat) (memory : Memory) (count d : Nat) : Prop :=
  count + 1 < 8 * slotAt memory 0 ∧
    slotAt memory count + d < regfUnallocatedBlock ∧ slotAt memory count + d ≤ size / 16

theorem updateCanFit_iff (size : Nat) (memory : Memory) (count d : Nat) :
    updateCanFit (fileOf size memory count) d = true ↔ CanFit size memory count d := by
  simp only [updateCanFit, fileOf, CanFit, bytesToBlock, Int.toNat_natCast]
  split_ifs <;> simp <;> omega

/-- The operations that append an update to a log. -/
def appendOps (memory : Memory) (count d : Nat) (buf : List Byte) : List DeviceOp :=
  [.writeat (2 * (count + 1)) (encodeLE 2 (slotAt memory count + d)),
    .writeat (slotAt memory count * 16) buf]

/-- Once the slot is written, the log is longer by the range allocated for the
update, whether or not its data follow. -/
theorem Log.appended (log : Log size memory count) (nonempty : 0 < d)
    (fits : CanFit size memory count d) (buf : List Byte) {done : Nat} (slotWritten : 0 < done) :
    let cut := applyOps memory ((appendOps memory count d buf).take done)
    Log size cut (count + 1) ∧
      slotAt cut (count + 1) = slotAt memory count + d ∧
        ∀ slot ≤ count, slotAt cut slot = slotAt memory slot := by
  intro cut
  obtain ⟨room, addressable, inRegion⟩ := fits
  obtain ⟨nextLog, last, before⟩ := log.append nonempty room addressable inRegion
  cases done with
  | zero => exact absurd slotWritten (Nat.lt_irrefl 0)
  | succ done =>
    cases done with
    | zero => exact ⟨nextLog, last, before⟩
    | succ done =>
      -- The data lie behind the metadata.
      have firstSlot := before 0 (Nat.zero_le _)
      have metadata := log.mono (Nat.zero_le count) le_rfl
      have all : (appendOps memory count d buf).take (done + 1 + 1) =
          appendOps memory count d buf :=
        List.take_of_length_le (Nat.le_add_left 2 done)
      have same (slot : Nat) (inMetadata : slot < 8 * slotAt memory 0) :
          slotAt cut slot = slotAt (store memory (2 * (count + 1))
            (encodeLE 2 (slotAt memory count + d))) slot := by
        simp only [cut, all]
        exact slotAt_store_data (by omega)
      refine ⟨nextLog.congr fun slot inMetadata =>
        same slot (by omega), ?_, ?_⟩
      · rw [same _ room, last]
      · intro slot old
        rw [same slot (by omega), before slot old]

/-- An update that fits allocates the next slot and writes its data behind the
data before. -/
theorem handleUpdate_of_canFit (log : Log size memory count) {buf : Buffer}
    (fits : CanFit size memory count buf.blocks) :
    let final := applyOps memory (appendOps memory count buf.blocks buf.bytes)
    handleUpdate (fileOf size memory count) buf.blocks buf.bytes =
        ⟨0, fileOf size final (count + 1), appendOps memory count buf.blocks buf.bytes⟩ ∧
      Log size final (count + 1) ∧
        slotAt final (count + 1) = slotAt final count + buf.blocks ∧
          load final (slotAt final count * 16) buf.bytes.length = buf.bytes := by
  intro final
  obtain ⟨finalLog, last, before⟩ := log.appended buf.blocks_pos fits
    buf.bytes (show 0 < 2 by decide)
  change Log size final (count + 1) at finalLog
  change slotAt final (count + 1) = _ at last
  change ∀ slot ≤ count, slotAt final slot = _ at before
  have previous := before count le_rfl
  have firstSlot := before 0 (Nat.zero_le _)
  refine ⟨?_, finalLog, by omega, ?_⟩
  · obtain ⟨room, addressable, inRegion⟩ := fits
    have length := buf.blocks_eq
    have narrow := slotAt_lt memory count
    have bounded : slotAt memory count + buf.blocks < 2 ^ 16 := addressable.trans (by decide)
    have canFit := (updateCanFit_iff size memory count buf.blocks).mpr ⟨room, addressable, inRegion⟩
    have slotWritten : rdevWriteat ⟨0, slotAt memory 0 * 16⟩
        (encodeLE 2 (slotAt memory count + buf.blocks)) ((count + 1) * 2) =
          some (.writeat (2 * (count + 1)) (encodeLE 2 (slotAt memory count + buf.blocks))) := by
      rw [rdevWriteat_of_le, Nat.mul_comm 2]
      · rfl
      · rw [length_encodeLE]
        change (count + 1) * 2 + 2 ≤ slotAt memory 0 * 16
        omega
    have dataWritten : rdevWriteat ⟨0, size⟩ buf.bytes
        (slotAt memory count * 16) = some (.writeat (slotAt memory count * 16) buf.bytes) := by
      rw [rdevWriteat_of_le]
      · rfl
      · change slotAt memory count * 16 + buf.bytes.length ≤ size
        omega
    have asBytes : blockToBytes (slotAt memory count) = slotAt memory count * 16 := by
      rw [blockToBytes, Nat.mod_eq_of_lt narrow]
    have index : ((count : Int) + 1).toNat * 2 = (count + 1) * 2 := by omega
    have modulo : (slotAt memory count + buf.blocks) % 2 ^ 16 =
        slotAt memory count + buf.blocks := Nat.mod_eq_of_lt bounded
    rw [handleUpdate, canFit]
    simp only [commitDataAllocation, commitData, fileOf, index, modulo,
      slotWritten, dataWritten, asBytes]
    simp [appendOps, last, previous, firstSlot]
  · have written := load_store_self (store memory (2 * (count + 1))
      (encodeLE 2 (slotAt memory count + buf.blocks)))
      (slotAt memory count * 16) buf.bytes
    rw [previous]
    exact written

theorem handleUpdate_of_not_canFit (full : ¬ CanFit size memory count d) (buf : List Byte) :
    handleUpdate (fileOf size memory count) d buf =
      ⟨0, { fileOf size memory count with slot := rfNeedToEmpty }, []⟩ := by
  have refused : updateCanFit (fileOf size memory count) d = false := by
    rw [Bool.eq_false_iff, Ne, updateCanFit_iff]
    exact full
  simp only [handleUpdate, refused, Bool.not_false, if_true]

end Coreboot.Regf
