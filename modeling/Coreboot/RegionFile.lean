import Coreboot.ByteMemory

/-!
# Region files

Metadata blocks at the start hold 16-bit block offsets: slot 0 is the size of the metadata, and
every later slot marks the end of one update. It is written first and the data follow.

Writes and erases are collected in order, so that they can be cut anywhere.
-/

namespace Coreboot.Regf

open ByteMemory

structure Region where
  offset : Nat
  size : Nat
deriving DecidableEq, Repr

def regionEnd (r : Region) : Nat := r.offset + r.size

def isSubregion (p c : Region) : Bool :=
  if c.offset < p.offset then false
  else if c.size > p.size then false
  else if regionEnd c > regionEnd p then false
  else true

/-- An operation that changes the device. -/
inductive DeviceOp where
  | writeat (offset : Nat) (bytes : List Byte)
  | eraseat (offset size : Nat)
deriving DecidableEq, Repr

/-- The device stores what is written and sets what is erased to ones. -/
def DeviceOp.apply (memory : Memory) : DeviceOp → Memory
  | writeat offset bytes => store memory offset bytes
  | eraseat offset size => fill memory offset size 0xff

def normalizeAndOk (outer : Region) (offset size : Nat) : Option Region :=
  let inner : Region := ⟨offset + outer.offset, size⟩
  if isSubregion outer inner then some inner else none

def rdevChain (parent : Region) (offset size : Nat) : Option Region :=
  normalizeAndOk parent offset size

def rdevReadat (rd : Region) (memory : Memory) (offset size : Nat) : Option (List Byte) :=
  (normalizeAndOk rd offset size).map fun req =>
    load memory req.offset req.size

def rdevWriteat (rd : Region) (bytes : List Byte) (offset : Nat) : Option DeviceOp :=
  (normalizeAndOk rd offset bytes.length).map fun req =>
    .writeat req.offset bytes

def rdevEraseat (rd : Region) (offset size : Nat) : Option DeviceOp :=
  (normalizeAndOk rd offset size).map fun req =>
    .eraseat req.offset req.size

def regfUnallocatedBlock : Nat := 0xffff

def regfUpdatesPerMetadataBlock : Nat := 8

def rfOnlyMetadata : Int := 0
def rfEmpty : Int := -1
def rfNeedToEmpty : Int := -2
def rfFatal : Int := -3

/-- The argument is a `uint16_t`. -/
def blockToBytes (offset : Nat) : Nat := offset % 2 ^ 16 * 16

def bytesToBlock (bytes : Nat) : Nat := bytes / 16

def alignUp (value granularity : Nat) : Nat :=
  (value + (granularity - 1)) % 2 ^ 64 / granularity * granularity

def alignDown (value granularity : Nat) : Nat := value / granularity * granularity

def sizeSub (first second : Nat) : Nat := (first + 2 ^ 64 - second) % 2 ^ 64

structure MetadataBlock where
  blocks : List Nat
deriving DecidableEq, Repr

def blockOffsetUnallocated (offset : Nat) : Bool := offset == regfUnallocatedBlock

def allBlockOffsetsUnallocated (mb : MetadataBlock) : Bool := mb.blocks.all blockOffsetUnallocated

/-- The eight 16-bit block offsets in the bytes of a metadata block. -/
def metadataBlockOfBytes (bytes : List Byte) : MetadataBlock where
  blocks := (List.range regfUpdatesPerMetadataBlock).map fun i =>
    decodeLE ((bytes.drop (2 * i)).take 2)

structure RegionFile where
  rdev : Region
  metadata : Region
  dataBlocks0 : Nat
  dataBlocks1 : Nat
  slot : Int
deriving DecidableEq, Repr

def readMb (i : Nat) (f : RegionFile) (memory : Memory) : Option MetadataBlock :=
  (rdevReadat f.metadata memory (blockToBytes i) 16).map metadataBlockOfBytes

/-- The binary search of `find_latest_mb`. -/
def findLatestMbFrom (f : RegionFile) (memory : Memory) (l r : Nat) : Option Nat :=
  if l + 1 < r then
    match readMb ((l + r) / 2) f memory with
    | none => none
    | some mb =>
      if allBlockOffsetsUnallocated mb then
        findLatestMbFrom f memory l ((l + r) / 2)
      else findLatestMbFrom f memory ((l + r) / 2) r
  else some l
termination_by r - l

def findLatestMb (numMbBlocks : Nat) (f : RegionFile) (memory : Memory) :
    Option (MetadataBlock × RegionFile) :=
  match findLatestMbFrom f memory 0 numMbBlocks with
  | none => none
  | some l =>
    let f := { f with slot := (l * regfUpdatesPerMetadataBlock : Nat) }
    match readMb l f memory with
    | none => none
    | some mb => some (mb, f)

/-- The last allocated offset among the first ones of a block, or the first
slot. -/
def latestSlotFrom (mb : MetadataBlock) : Nat → Nat
  | 0 => 0
  | i + 1 =>
    if !blockOffsetUnallocated (mb.blocks.getD (i + 1) 0) then i + 1
    else latestSlotFrom mb i

def findLatestSlot (mb : MetadataBlock) (f : RegionFile) : RegionFile :=
  { f with
    slot := f.slot + latestSlotFrom mb (regfUpdatesPerMetadataBlock - 1) }

def fillDataBoundaries (f : RegionFile) (memory : Memory) : Option RegionFile :=
  if f.slot = rfOnlyMetadata then
    let start := bytesToBlock f.metadata.size % 2 ^ 16
    some { f with dataBlocks0 := start, dataBlocks1 := start }
  else
    let offset := (f.slot - 1).toNat * 2
    match rdevChain f.metadata offset 4 with
    | none => some { f with slot := rfNeedToEmpty }
    | some slots =>
      match rdevReadat slots memory 0 4 with
      | none => none
      | some bytes =>
        let f :=
          { f with
            dataBlocks0 := decodeLE (bytes.take 2)
            dataBlocks1 := decodeLE ((bytes.drop 2).take 2) }
        -- All used blocks should be incrementing from previous write.
        if f.dataBlocks0 ≥ f.dataBlocks1 then
          some { f with slot := rfNeedToEmpty }
        else if f.dataBlocks1 > bytesToBlock f.rdev.size then
          some { f with slot := rfNeedToEmpty }
        else some f

def regionFileInit (p : Region) (memory : Memory) : RegionFile × Int :=
  let f : RegionFile := ⟨⟨0, 0⟩, ⟨0, 0⟩, 0, 0, rfFatal⟩
  match rdevChain p 0 p.size with
  | none => (f, -1)
  | some rdev =>
    let f := { f with rdev }
    match (rdevReadat p memory 0 16).map metadataBlockOfBytes with
    | none => (f, -1)
    | some mb =>
      let first := mb.blocks.getD 0 0
      -- No metadata has been allocated.  Assume region is empty.
      if blockOffsetUnallocated first then ({ f with slot := rfEmpty }, 0)
      else if first = 0 then ({ f with slot := rfNeedToEmpty }, 0)
      else
        match rdevChain p 0 (blockToBytes first) with
        | none => ({ f with slot := rfNeedToEmpty }, 0)
        | some metadata =>
          let f := { f with metadata }
          match findLatestMb first f memory with
          | none => ({ f with slot := rfFatal }, -1)
          | some (mb, f) =>
            let f := findLatestSlot mb f
            match fillDataBoundaries f memory with
            | none => ({ f with slot := rfFatal }, -1)
            | some f => (f, 0)

/-- `region_file_data`: the region of the latest update. -/
def regionFileData (f : RegionFile) : Option Region :=
  if f.slot ≤ rfOnlyMetadata then none
  else
    let offset := blockToBytes f.dataBlocks0
    let size := sizeSub (blockToBytes f.dataBlocks1) offset
    rdevChain f.rdev offset size

/-- What a step of an update returns, the file it leaves and the device
operations it has issued. -/
structure Outcome where
  ret : Int
  file : RegionFile
  ops : List DeviceOp
deriving DecidableEq, Repr

/-- The number of metadata blocks for updates of `d` blocks in a region of `t`
blocks. -/
def metadataBlocks (t d : Nat) : Nat :=
  let a := regfUpdatesPerMetadataBlock
  let m := 1
  let x := alignUp (t * a / (d * a + m)) a
  -- One data block has to fit.
  let x := if x = 0 then 1 else x
  alignUp x a / a

def allocateMetadata (f : RegionFile) (dataBlks : Nat) : Outcome :=
  let t := bytesToBlock (alignDown f.rdev.size 16)
  let m := bytesToBlock (alignUp 16 16)
  -- At least one data update has to fit with one metadata block.
  if dataBlks > sizeSub t m then ⟨-1, f, []⟩
  else
    let totMetadata := m * metadataBlocks t dataBlks % 2 ^ 16
    match rdevWriteat f.rdev (encodeLE 2 totMetadata) 0 with
    | none => ⟨-1, f, []⟩
    | some op =>
      match rdevChain f.rdev 0 (blockToBytes totMetadata) with
      | none => ⟨-1, f, [op]⟩
      | some metadata =>
        ⟨0, { f with
            metadata
            dataBlocks0 := totMetadata
            dataBlocks1 := totMetadata }, [op]⟩

def updateCanFit (f : RegionFile) (dataBlks : Nat) : Bool :=
  let metadataSlots := f.metadata.size / 2
  let endBlk := dataBlks + f.dataBlocks1
  -- No more slots.
  if f.slot.toNat + 1 ≥ metadataSlots then false
  -- Update would have exceeded block addressing.
  else if endBlk ≥ regfUnallocatedBlock then false
  -- End block exceeds size of region.
  else if endBlk > bytesToBlock f.rdev.size then false
  else true

def commitDataAllocation (f : RegionFile) (dataBlks : Nat) : Outcome :=
  let f := { f with slot := f.slot + 1 }
  let f := { f with dataBlocks0 := f.dataBlocks1 }
  let f := { f with dataBlocks1 := (f.dataBlocks0 + dataBlks) % 2 ^ 16 }
  match rdevWriteat f.metadata (encodeLE 2 f.dataBlocks1) (f.slot.toNat * 2) with
  | none => ⟨-1, f, []⟩
  | some op => ⟨0, f, [op]⟩

def commitData (f : RegionFile) (buf : List Byte) : Outcome :=
  match rdevWriteat f.rdev buf (blockToBytes f.dataBlocks0) with
  | none => ⟨-1, f, []⟩
  | some op => ⟨0, f, [op]⟩

def handleEmpty (f : RegionFile) (dataBlks : Nat) : Outcome :=
  let outcome := allocateMetadata f dataBlks
  if outcome.ret ≠ 0 then { outcome with ret := -1 }
  else { outcome with
    file := { outcome.file with slot := rfOnlyMetadata } }

def handleNeedToEmpty (f : RegionFile) : Outcome :=
  match rdevEraseat f.rdev 0 f.rdev.size with
  | none => ⟨-1, f, []⟩
  | some op => ⟨0, { f with slot := rfEmpty }, [op]⟩

def handleUpdate (f : RegionFile) (blocks : Nat) (buf : List Byte) : Outcome :=
  if !updateCanFit f blocks then ⟨0, { f with slot := rfNeedToEmpty }, []⟩
  else
    let allocation := commitDataAllocation f blocks
    if allocation.ret ≠ 0 then { allocation with ret := -1 }
    else
      let commit := commitData allocation.file buf
      { ret := if commit.ret ≠ 0 then -1 else 0
        file := commit.file
        ops := allocation.ops ++ commit.ops }

/-- The `switch` of `region_file_update_data`. -/
def updateStep (f : RegionFile) (blocks : Nat) (buf : List Byte) : Outcome :=
  if f.slot = rfEmpty then handleEmpty f blocks
  else if f.slot = rfNeedToEmpty then handleNeedToEmpty f
  else if f.slot = rfFatal then ⟨-1, f, []⟩
  else handleUpdate f blocks buf

/-- The loop of `region_file_update_data` for at most `fuel` turns: its return
value and file if it has ended, and the operations it has issued. -/
def updateLoop (blocks : Nat) (buf : List Byte) :
    Nat → RegionFile → Option (Int × RegionFile) × List DeviceOp
  | 0, _ => (none, [])
  | fuel + 1, f =>
    let prevSlot := f.slot
    let turn := updateStep f blocks buf
    -- Failing case.  No more updates allowed to be attempted.
    if turn.ret ≠ 0 then
      (some (turn.ret, { turn.file with slot := rfFatal }), turn.ops)
    -- No more state changes and data committed.
    else if turn.file.slot > rfOnlyMetadata ∧ prevSlot ≠ turn.file.slot then
      (some (turn.ret, turn.file), turn.ops)
    else
      let later := updateLoop blocks buf fuel turn.file
      (later.1, turn.ops ++ later.2)

def dataBlocksOf (buf : List Byte) : Nat := bytesToBlock (alignUp buf.length 16)

/-- `region_file_update_data`, cut after `fuel` turns of its loop. -/
def regionFileUpdateData (fuel : Nat) (f : RegionFile) (buf : List Byte) :
    Option (Int × RegionFile) × List DeviceOp :=
  updateLoop (dataBlocksOf buf) buf fuel f

end Coreboot.Regf
