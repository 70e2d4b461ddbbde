import Coreboot.ByteMemory
import Coreboot.WordAlignment

/-!
# In-memory directories

A root pointer leads to a root with a table of entries, and their regions lie below it. A tiered
imd nests a second directory for small regions in an entry of the first one.

Pointers, `size_t` and `ssize_t` have any width of at least 32 bits; the fields in memory have
32 bits. The functions that report an error leave the memory alone: their errors are `none`.
-/

namespace Coreboot.Imd

open ByteMemory

def toUnsigned (width : Nat) (value : Int) : Nat := (value % (2 ^ width : Nat)).toNat

/-- The value of a two's complement type. -/
def toSigned (width : Nat) (value : Int) : Int := Int.bmod value (2 ^ width)

def alignUp (width value alignment : Nat) : Nat :=
  let mask := BitVec.ofNat width alignment - BitVec.ofNat width 1
  ((BitVec.ofNat width value + mask) &&& ~~~mask).toNat

def alignDown (width value alignment : Nat) : Nat :=
  let mask := BitVec.ofNat width alignment - BitVec.ofNat width 1
  (BitVec.ofNat width value &&& ~~~mask).toNat

def isPowerOf2 (value : Nat) : Bool :=
  let x := BitVec.ofNat 32 value
  x &&& (x - BitVec.ofNat 32 1) == 0

def readUint32 (memory : Memory) (address : Nat) : Nat := readLE 4 memory address

def readInt32 (memory : Memory) (address : Nat) : Int := toSigned 32 (readLE 4 memory address)

def writeUint32 (memory : Memory) (address value : Nat) : Memory := writeLE 4 memory address value

def writeInt32 (memory : Memory) (address : Nat) (value : Int) : Memory :=
  writeLE 4 memory address (toUnsigned 32 value)

def relativePointer (width base : Nat) (offset : Int) : Nat := toUnsigned width (base + offset)

def imdRootPtrMagic : Nat := 0xc0389481
def imdEntryMagic : Nat := 2 ^ 32 - 1 - imdRootPtrMagic
def cbmemIdImdRoot : Nat := 0xff4017ff
def smallRegionId : Nat := 0x53a11439
def limitAlign : Nat := 4096
def imdFlagLocked : Nat := 1

def sizeofRootPointer : Nat := 8

/-- The size of `struct imd_root` without its entries. -/
def sizeofRoot : Nat := 20

/-- The size of `struct imd_entry`: magic, start offset, size and id. -/
def sizeofEntry : Nat := 16

def rootMaxEntries (memory : Memory) (r : Nat) : Nat := readUint32 memory r

def rootNumEntries (memory : Memory) (r : Nat) : Nat := readUint32 memory (r + 4)

def rootFlags (memory : Memory) (r : Nat) : Nat := readUint32 memory (r + 8)

def rootEntryAlign (memory : Memory) (r : Nat) : Nat := readUint32 memory (r + 12)

def rootMaxOffset (memory : Memory) (r : Nat) : Int := readInt32 memory (r + 16)

def entryMagic (memory : Memory) (e : Nat) : Nat := readUint32 memory e

def entryStartOffset (memory : Memory) (e : Nat) : Int := readInt32 memory (e + 4)

def entrySize (memory : Memory) (e : Nat) : Nat := readUint32 memory (e + 8)

def entryId (memory : Memory) (e : Nat) : Nat := readUint32 memory (e + 12)

def rootEntry (width r i : Nat) : Nat := relativePointer width r (sizeofRoot + sizeofEntry * i)

/-- `struct imdr`, with a null root as zero. -/
structure Imdr where
  limit : Nat
  r : Nat
deriving DecidableEq, Repr

structure Handle where
  lg : Imdr
  sm : Imdr
deriving DecidableEq, Repr

section Directory

variable (width : Nat)

def imdrGetRootPointer (imdr : Imdr) : Nat := relativePointer width imdr.limit (-sizeofRootPointer)

def imdLinkRoot (memory : Memory) (rp r : Nat) : Memory :=
  let memory := writeUint32 memory rp imdRootPtrMagic
  writeInt32 memory (rp + 4) (r - rp)

def rootLastEntry (memory : Memory) (r : Nat) : Nat :=
  rootEntry width r (toUnsigned 32 (rootNumEntries memory r - 1))

/-- `root_num_entries`: the entries that a root of this size has room for. -/
def numEntriesOfRootSize (rootSize : Nat) : Nat :=
  toUnsigned width (rootSize - sizeofRootPointer - sizeofRoot) / sizeofEntry

def imdRootDataLeft (memory : Memory) (r : Nat) : Nat :=
  let lastEntry := rootLastEntry width memory r
  if rootMaxOffset memory r ≠ 0 then
    toUnsigned width (toSigned 32 (entryStartOffset memory lastEntry - rootMaxOffset memory r))
  else toUnsigned width (-1)

def rootIsLocked (memory : Memory) (r : Nat) : Bool := rootFlags memory r &&& imdFlagLocked != 0

def imdEntryAssign (memory : Memory) (e id : Nat) (offset : Int) (size : Nat) : Memory :=
  let memory := writeUint32 memory e imdEntryMagic
  let memory := writeInt32 memory (e + 4) offset
  let memory := writeUint32 memory (e + 8) size
  writeUint32 memory (e + 12) id

def imdrInit (upperLimit : Nat) : Imdr where
  -- The upper limit is aligned down to 4 KiB.
  limit := alignDown width upperLimit limitAlign
  r := 0

def imdrCreateEmpty (imdr : Imdr) (memory : Memory)
    (rootSize entryAlign : Nat) : Option (Imdr × Memory) :=
  if imdr.limit = 0 then none
  else if rootSize < sizeofRootPointer + sizeofRoot then none
  -- No sizes or alignments that exceed the alignment of the limit.
  else if rootSize > limitAlign ∨ entryAlign > limitAlign then none
  else if entryAlign > rootSize then none
  else
    let rp := imdrGetRootPointer width imdr
    let r := relativePointer width imdr.limit (-rootSize)
    let memory := imdLinkRoot memory rp r
    let memory := fill memory r sizeofRoot 0
    let memory := writeUint32 memory (r + 12) entryAlign
    let memory := writeUint32 memory r (numEntriesOfRootSize width rootSize)
    -- The first entry covers the root region.
    let memory := writeUint32 memory (r + 4) 1
    let memory := imdEntryAssign memory (rootEntry width r 0) cbmemIdImdRoot 0 rootSize
    some ({ imdr with r }, memory)

/-- The check of an entry in `imdr_recover`. -/
def entryRecoverable (memory : Memory) (limit r lowLimit e : Nat) : Bool :=
  let startAddr := relativePointer width r (entryStartOffset memory e)
  if entryMagic memory e ≠ imdEntryMagic then false
  else if startAddr < lowLimit then false
  else if startAddr ≥ limit ∨ toUnsigned width (startAddr + entrySize memory e) > limit then false
  else true

def imdrRecover (imdr : Imdr) (memory : Memory) : Option Imdr :=
  if imdr.limit = 0 then none
  else
    let rp := imdrGetRootPointer width imdr
    if readUint32 memory rp ≠ imdRootPtrMagic then none
    else
      let r := relativePointer width rp (readInt32 memory (rp + 4))
      -- The root and the root pointer are just under the limit.
      if alignUp width (rootEntry width r (rootMaxEntries memory r)) limitAlign
          ≠ imdr.limit then none
      else if rootNumEntries memory r > rootMaxEntries memory r then none
      else if !isPowerOf2 (rootEntryAlign memory r) then none
      else
        let lowLimit := relativePointer width r (rootMaxOffset memory r)
        let lowLimit := if lowLimit = r then 0 else lowLimit
        if (List.range (rootNumEntries memory r)).all fun i =>
            entryRecoverable width memory imdr.limit r lowLimit (rootEntry width r i)
        then some { imdr with r }
        else none

def imdrEntryFind (imdr : Imdr) (memory : Memory) (id : Nat) : Option Nat :=
  if imdr.r = 0 then none
  else
    -- Skip the first entry, which covers the root.
    ((List.range' 1 (rootNumEntries memory imdr.r - 1)).map
      (rootEntry width imdr.r)).find? fun e => id = entryId memory e

def imdrLimitSize (imdr : Imdr) (memory : Memory) (maxSize : Nat) : Option Memory :=
  if imdr.r = 0 then none
  else
    let rootSize := toUnsigned width (imdr.limit - imdr.r)
    if maxSize < rootSize then none
    else
      let smaxSize := toSigned width (maxSize - rootSize)
      let smaxSize := toSigned width (-smaxSize)
      some (writeInt32 memory (imdr.r + 16) smaxSize)

def imdrEntrySize (memory : Memory) (e : Nat) : Nat := entrySize memory e

def imdrEntryAt (imdr : Imdr) (memory : Memory) (e : Nat) : Nat :=
  relativePointer width imdr.r (entryStartOffset memory e)

def imdEntryAddToRoot (memory : Memory) (r id size : Nat) : Option (Nat × Memory) :=
  if rootNumEntries memory r = rootMaxEntries memory r then none
  else
    let usedSize := alignUp width size (rootEntryAlign memory r)
    -- The size overflows the total size.
    if usedSize > imdRootDataLeft width memory r then none
    else
      let lastEntry := rootLastEntry width memory r
      let lastOffset := entryStartOffset memory lastEntry
      let eOffset := toSigned width (lastOffset - toSigned width usedSize)
      -- All offsets should be lower than the previous one.
      if eOffset > lastOffset then none
      else
        let entry := relativePointer width lastEntry sizeofEntry
        let memory := writeUint32 memory (r + 4) (rootNumEntries memory r + 1)
        some (entry, imdEntryAssign memory entry id eOffset size)

def imdrEntryAdd (imdr : Imdr) (memory : Memory) (id size : Nat) : Option (Nat × Memory) :=
  if imdr.r = 0 then none
  else if rootIsLocked memory imdr.r then none
  else imdEntryAddToRoot width memory imdr.r id size

/-- Whether the entry is within the root of this directory. -/
def imdrHasEntry (imdr : Imdr) (memory : Memory) (e : Nat) : Bool :=
  if imdr.r = 0 then false
  else
    let difference := toSigned width (e - rootEntry width imdr.r 0)
    decide (toUnsigned width (difference / sizeofEntry) < rootNumEntries memory imdr.r)

end Directory

section Handle

variable (width : Nat)

def imdEntryToImdr (imd : Handle) (memory : Memory) (entry : Nat) : Option Imdr :=
  if imdrHasEntry width imd.lg memory entry then some imd.lg
  else if imdrHasEntry width imd.sm memory entry then some imd.sm
  else none

def imdHandleInit (upperLimit : Nat) : Handle where
  lg := imdrInit width upperLimit
  sm := imdrInit width 0

def imdCreateEmpty (imd : Handle) (memory : Memory)
    (rootSize entryAlign : Nat) : Option (Handle × Memory) :=
  (imdrCreateEmpty width imd.lg memory rootSize entryAlign).map
    fun (lg, memory) => ({ imd with lg }, memory)

/-- The size of the small region that a tiered imd requests. -/
def smRegionSizeOf (lgEntryAlign smRootSize smEntryAlign : Nat) : Nat :=
  let smRegionSize := toUnsigned width (numEntriesOfRootSize width smRootSize * smEntryAlign)
  let smRegionSize := toUnsigned width (smRegionSize + smRootSize)
  alignUp width smRegionSize lgEntryAlign

/-- The end of `imd_create_tiered_empty`: the limit of the small directory. -/
def limitSmall (lg sm : Imdr) (memory : Memory) (smRegionSize : Nat) : Int × Handle × Memory :=
  match imdrLimitSize width sm memory smRegionSize with
  | none => (-1, imdHandleInit width lg.limit, memory)
  | some memory => (0, { lg, sm }, memory)

/-- The small directory of `imd_create_tiered_empty`, below its limit. -/
def createSmall (lg sm : Imdr) (memory : Memory)
    (smRegionSize smRootSize smEntryAlign : Nat) : Int × Handle × Memory :=
  match imdrCreateEmpty width sm memory smRootSize smEntryAlign with
  | none => (-1, imdHandleInit width lg.limit, memory)
  | some (sm, memory) => limitSmall width lg sm memory smRegionSize

/-- The new entry of the large region that covers the small root and entries in
`imd_create_tiered_empty`.  The small directory starts at its end. -/
def addSmallRegion (lg sm : Imdr) (memory : Memory)
    (smRegionSize smRootSize smEntryAlign : Nat) : Int × Handle × Memory :=
  match imdrEntryAdd width lg memory smallRegionId smRegionSize with
  | none => (-1, imdHandleInit width lg.limit, memory)
  | some (e, memory) =>
    let limit := toUnsigned width (imdrEntryAt width lg memory e + smRegionSize)
    createSmall width lg { sm with limit } memory smRegionSize smRootSize smEntryAlign

def imdCreateTieredEmpty (imd : Handle) (memory : Memory)
    (lgRootSize lgEntryAlign smRootSize smEntryAlign : Nat) :
    Int × Handle × Memory :=
  match imdrCreateEmpty width imd.lg memory lgRootSize lgEntryAlign with
  | none => (-1, imd, memory)
  | some (lg, memory) =>
    addSmallRegion width lg imd.sm memory
      (smRegionSizeOf width lgEntryAlign smRootSize smEntryAlign) smRootSize
      smEntryAlign

/-- The small directory of `imd_recover`. -/
def recoverSmall (lg sm : Imdr) (memory : Memory) : Int × Handle :=
  match imdrRecover width sm memory with
  -- Tear down any changes on failure.
  | none => (-1, imdHandleInit width lg.limit)
  | some sm => (0, { lg, sm })

def imdRecover (imd : Handle) (memory : Memory) : Int × Handle :=
  match imdrRecover width imd.lg memory with
  | none => (-1, imd)
  | some lg =>
    match imdrEntryFind width lg memory smallRegionId with
    | none => (0, { imd with lg })
    | some e =>
      let limit := toUnsigned width (imdrEntryAt width lg memory e + imdrEntrySize memory e)
      recoverSmall width lg { imd.sm with limit } memory

def imdLimitSize (imd : Handle) (memory : Memory) (maxSize : Nat) : Option Memory :=
  imdrLimitSize width imd.lg memory maxSize

def lockRoot (memory : Memory) (r : Nat) : Memory :=
  writeUint32 memory (r + 8) (rootFlags memory r ||| imdFlagLocked)

def imdLockdown (imd : Handle) (memory : Memory) : Option Memory :=
  if imd.lg.r = 0 then none
  else
    let memory := lockRoot memory imd.lg.r
    some (if imd.sm.r ≠ 0 then lockRoot memory imd.sm.r else memory)

/-- The base and the size of the region in use. -/
def imdRegionUsed (imd : Handle) (memory : Memory) : Option (Nat × Nat) :=
  if imd.lg.limit = 0 then none
  else if imd.lg.r = 0 then none
  else
    let e := rootLastEntry width memory imd.lg.r
    let lowAddr := relativePointer width imd.lg.r (entryStartOffset memory e)
    some (lowAddr, toUnsigned width (imd.lg.limit - lowAddr))

def imdEntryAdd (imd : Handle) (memory : Memory) (id size : Nat) : Option (Nat × Memory) :=
  let r := imd.sm.r
  -- No small region.  Use the large region.
  if r = 0 then imdrEntryAdd width imd.lg memory id size
  else if size ≤ rootEntryAlign memory r ∨ size ≤ imdRootDataLeft width memory r / 4 then
    match imdrEntryAdd width imd.sm memory id size with
    | some added => some added
    -- Fall back on the large region.
    | none => imdrEntryAdd width imd.lg memory id size
  else imdrEntryAdd width imd.lg memory id size

def imdEntryFind (imd : Handle) (memory : Memory) (id : Nat) : Option Nat :=
  match imdrEntryFind width imd.sm memory id with
  | some e => some e
  | none => imdrEntryFind width imd.lg memory id

def imdEntryFindOrAdd (imd : Handle) (memory : Memory) (id size : Nat) : Option (Nat × Memory) :=
  match imdEntryFind width imd memory id with
  | some e => some (e, memory)
  | none => imdEntryAdd width imd memory id size

def imdEntrySize (memory : Memory) (entry : Nat) : Nat := imdrEntrySize memory entry

def imdEntryAt (imd : Handle) (memory : Memory) (entry : Nat) : Option Nat :=
  (imdEntryToImdr width imd memory entry).map fun imdr =>
    imdrEntryAt width imdr memory entry

def imdEntryRemove (imd : Handle) (memory : Memory) (entry : Nat) : Option Memory :=
  match imdEntryToImdr width imd memory entry with
  | none => none
  | some imdr =>
    if imdr.r = 0 then none
    else if rootIsLocked memory imdr.r then none
    else if entry ≠ rootLastEntry width memory imdr.r then none
    else some (writeUint32 memory (imdr.r + 4) (toUnsigned 32 (rootNumEntries memory imdr.r - 1)))

/-- `struct imd_cursor`, without the directories of its handle. -/
structure Cursor where
  currentImdr : Nat
  currentEntry : Nat
deriving DecidableEq, Repr

def imdCursorInit : Cursor := ⟨0, 0⟩

def imdCursorNext (imd : Handle) (memory : Memory) (cursor : Cursor) : Option Nat × Cursor :=
  if cursor.currentImdr ≥ 2 then (none, cursor)
  else
    let r := (if cursor.currentImdr = 0 then imd.lg else imd.sm).r
    if r = 0 then (none, cursor)
    else if cursor.currentEntry ≥ rootNumEntries memory r then
      -- Try the next directory.
      imdCursorNext imd memory ⟨cursor.currentImdr + 1, 0⟩
    else
      (some (rootEntry width r cursor.currentEntry),
        { cursor with currentEntry := cursor.currentEntry + 1 })
termination_by 2 - cursor.currentImdr

end Handle

end Coreboot.Imd
