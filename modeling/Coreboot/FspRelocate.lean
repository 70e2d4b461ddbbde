import Coreboot.ByteMemory
import Coreboot.FaultFree
import Coreboot.SteppedRun

/-!
# Relocation of the firmware support package

The region of a package holds firmware volumes with files of sections. The images in the sections
are relocated, and then the words that a table names.
-/

namespace Coreboot.FspRelocate

open ByteMemory FaultFree SteppedRun

/-- `fsp_component_relocate` returns, or an access is outside of the region. -/
inductive Stop
  | outside
  | returned (value : Int)
deriving DecidableEq

structure Region where
  newAddr : Nat
  size : Nat

/-- A `size_t` or an address relative to the region.  Sums of an offset in the region and
fields of 32 bits need no wrapping. -/
def wrap (value : Nat) : Nat := value % 18446744073709551616

def alignUp (value alignment : Nat) : Nat := (value + alignment - 1) / alignment * alignment

/-- `read_le8`, `read_le16`, `read_le32` and `read_le64`. -/
def readAt (region : Region) (memory : Memory) (width address : Nat) : Except Stop Nat :=
  if address + width ≤ region.size then .ok (readLE width memory address)
  else .error .outside

/-- `write_le32` and `write_le64`. -/
def writeAt (region : Region) (memory : Memory) (width address value : Nat) : Except Stop Memory :=
  if address + width ≤ region.size then .ok (writeLE width memory address value)
  else .error .outside

/-- `guid_compare`, with the bytes of the identifier. -/
def guidEqual (region : Region) (memory : Memory) (address : Nat) (guid : List Byte) :
    Except Stop Bool :=
  if address + 16 ≤ region.size then .ok (load memory address 16 = guid)
  else .error .outside

def failed {α : Type} : Except Stop α := .error (.returned (-1))

/-- `_FVH`, `FSPH`, `FSPP` and `VZ`. -/
def fvhSignature : Nat := 0x4856465f
def fspSig : Nat := 0x48505346
def fsppSig : Nat := 0x50505346
def teSignature : Nat := 0x5a56

def ffs2Guid : List Byte :=
  [0x78, 0xe5, 0x8c, 0x8c, 0x3d, 0x8a, 0x1c, 0x4f, 0x99, 0x35, 0x89, 0x61, 0x85, 0xc3, 0x2d, 0xd3]

def fihGuid : List Byte :=
  [0xbe, 0x40, 0x27, 0x91, 0x84, 0x22, 0x34, 0x47, 0xb9, 0x71, 0x84, 0xb0, 0x27, 0x35, 0x3f, 0x0c]

def ffsMaxType : Nat := 0xff
def ffsPadType : Nat := 0xf0
def teSection : Nat := 0x12
def rawSection : Nat := 0x19
def basedAbsolute : Nat := 0
def basedHighlow : Nat := 3

/-- `IS_FFS_FILE2`, of the attributes. -/
def isFile2 (attributes : Nat) : Bool := attributes % 2 = 1

section Headers

variable (region : Region) (memory : Memory)

def fileSectionOffset (file : Nat) : Except Stop Nat := do
  let attributes ← readAt region memory 1 (file + 19)
  .ok (if isFile2 attributes then 28 else 24)

def ffsFileSize (file : Nat) : Except Stop Nat := do
  let attributes ← readAt region memory 1 (file + 19)
  if isFile2 attributes then readAt region memory 4 (file + 24)
  else readAt region memory 3 (file + 20)

def cshSize (csh : Nat) : Except Stop Nat := readAt region memory 3 csh

def sectionDataOffset (csh : Nat) : Except Stop Nat := do
  let size ← cshSize region memory csh
  .ok (if size = 0xffffff then 8 else 4)

def sectionDataSize (csh : Nat) : Except Stop Nat := do
  let size ← cshSize region memory csh
  if size = 0xffffff then do
    let sectionSize ← readAt region memory 4 (csh + 4)
    let dataOffset ← sectionDataOffset region memory csh
    .ok (wrap (sectionSize + 18446744073709551616 - dataOffset))
  else do
    let dataOffset ← sectionDataOffset region memory csh
    .ok (wrap (size + 18446744073709551616 - dataOffset))

end Headers

def fsppReloc (region : Region) (e : Nat) : Option Nat :=
  let offset := e % 16777216
  let offset := if 2147483648 ≤ e then
    wrap (region.size + 18446744073709551616 - (16777216 - offset)) else offset
  if wrap (region.size + 18446744073709551616 - 4) < offset then none else some offset

/-- A volume: `fvh_offset` and `fv_length`. -/
structure Volume where
  offset : Nat
  length : Nat

/-- The offset behind the volume, `size` in `relocate_fvh`. -/
def Volume.stop (volume : Volume) : Nat := wrap (volume.length + volume.offset)

/-- A section with an image: its volume, the offset of the next file, and the offset
behind the section. -/
structure Frame where
  volume : Volume
  fileEnd : Nat
  stop : Nat

/-- An image that is relocated: its offset, `te_base` and `adj`. -/
structure Image where
  frame : Frame
  te : Nat
  base : Nat
  adj : Nat

/-- The heads of the loops, with what is known there: over volumes, files, sections,
blocks of relocations and their entries, over tables and over patches. -/
inductive Place
  | volume (offset : Nat)
  | file (volume : Volume) (fileOffset : Nat)
  | sectionAt (volume : Volume) (fileEnd offset : Nat)
  | image (frame : Frame) (te : Nat)
  | block (image : Image) (relocdOffset relocb : Nat)
  | entry (image : Image) (relocdOffset relocb rvaOffset numRelocs reloc : Nat)
  | items
  | table (fihOffset adjustment offset : Nat)
  | patch (fihOffset adjustment offset numEntries num : Nat)

structure State where
  memory : Memory
  fihOffset : Nat
  place : Place

/-- The loop over the sections goes on behind the image. -/
def Frame.next (frame : Frame) : Place :=
  .sectionAt frame.volume frame.fileEnd (alignUp frame.stop 4)

section Turns

variable (region : Region) (memory : Memory) (fihOffset : Nat)

/-- `fsp_component_relocate` with the beginning of `relocate_fvh`. -/
def volumeTurn (offset : Nat) : Except Stop State :=
  if offset < region.size then do
    let signature ← readAt region memory 4 (offset + 40)
    if signature ≠ fvhSignature then failed
    else do
      let fvLength ← readAt region memory 8 (offset + 32)
      if wrap (fvLength + offset) > region.size then failed
      else do
        let isFfs2 ← guidEqual region memory (offset + 16) ffs2Guid
        if ¬ isFfs2 then failed
        else do
          let extHeaderOffset ← readAt region memory 2 (offset + 52)
          if extHeaderOffset ≠ 0 then do
            let extHeaderSize ← readAt region memory 4 (offset + extHeaderOffset + 16)
            .ok ⟨memory, fihOffset, .file ⟨offset, fvLength⟩
              (alignUp (offset + extHeaderOffset + extHeaderSize) 8)⟩
          else do
            let headerLength ← readAt region memory 2 (offset + 48)
            .ok ⟨memory, fihOffset, .file ⟨offset, fvLength⟩ (offset + headerLength)⟩
  else .ok ⟨memory, fihOffset, .items⟩

/-- The end of `relocate_fvh`: the length is returned as a `ssize_t`. -/
def volumeDone (volume : Volume) : Except Stop State :=
  if volume.length = 0 ∨ 9223372036854775808 ≤ volume.length then failed
  else .ok ⟨memory, fihOffset, .volume (volume.offset + volume.length)⟩

/-- A turn of the loop over the files.  Only the first volume has a place for the offset
of the information header. -/
def fileTurn (volume : Volume) (fileOffset : Nat) : Except Stop State :=
  if fileOffset + 24 < volume.stop then do
    let fihOffset := if volume.offset = 0 ∧ fihOffset = 0 then fileOffset else fihOffset
    let type ← readAt region memory 1 (fileOffset + 18)
    if type = ffsMaxType then volumeDone memory fihOffset volume
    else do
      let fileSize ← ffsFileSize region memory fileOffset
      let next := alignUp (fileOffset + fileSize) 8
      if type = ffsPadType then .ok ⟨memory, fihOffset, .file volume next⟩
      else do
        let dataOffset ← fileSectionOffset region memory fileOffset
        .ok ⟨memory, fihOffset, .sectionAt volume next (fileOffset + dataOffset)⟩
  else volumeDone memory fihOffset volume

def sectionTurn (volume : Volume) (fileEnd offset : Nat) : Except Stop State :=
  if offset + 4 < fileEnd then do
    let type ← readAt region memory 1 (offset + 3)
    let dataSize ← sectionDataSize region memory offset
    let dataOffset ← sectionDataOffset region memory offset
    let stop := wrap (dataSize + dataOffset + offset)
    if stop > fileEnd then failed
    else if type = teSection then
      .ok ⟨memory, fihOffset, .image ⟨volume, fileEnd, stop⟩ (offset + dataOffset)⟩
    else .ok ⟨memory, fihOffset, .sectionAt volume fileEnd (alignUp stop 4)⟩
  else .ok ⟨memory, fihOffset, .file volume fileEnd⟩

/-- The beginning of `te_relocate`.  What it returns is not looked at. -/
def imageTurn (frame : Frame) (te : Nat) : Except Stop State := do
  let signature ← readAt region memory 2 te
  if signature ≠ teSignature then .ok ⟨memory, fihOffset, frame.next⟩
  else do
    let strippedSize ← readAt region memory 2 (te + 6)
    let fixupOffset := wrap (strippedSize + 18446744073709551616 - 40)
    let imageBase ← readAt region memory 8 (te + 16)
    let adj := (region.newAddr + te + 36893488147419103232 - (imageBase + fixupOffset)) % 4294967296
    let memory ← writeAt region memory 8 (te + 16) ((imageBase + adj) % 4294967296)
    let virtualAddress ← readAt region memory 4 (te + 24)
    .ok ⟨memory, fihOffset, .block ⟨frame, te,
      wrap (te + 18446744073709551616 - fixupOffset), adj⟩ 0
      (wrap (te + virtualAddress + 18446744073709551616 - fixupOffset))⟩

def blockTurn (image : Image) (relocdOffset relocb : Nat) : Except Stop State := do
  let size ← readAt region memory 4 (image.te + 28)
  if relocdOffset < size then do
    let rvaOffset ← readAt region memory 4 relocb
    let sizeOfBlock ← readAt region memory 4 (wrap (relocb + 4))
    .ok ⟨memory, fihOffset, .entry image relocdOffset relocb rvaOffset
      (wrap (sizeOfBlock + 18446744073709551616 - 8) / 2) (wrap (relocb + 8))⟩
  else .ok ⟨memory, fihOffset, image.frame.next⟩

/-- A turn of the loop over the relocations of a block.  For an unknown type
`te_relocate` returns. -/
def entryTurn (image : Image) (relocdOffset relocb rvaOffset numRelocs reloc : Nat) :
    Except Stop State :=
  if 0 < numRelocs then do
    let relocVal ← readAt region memory 2 reloc
    if relocVal / 4096 = basedHighlow then do
      let address := wrap (image.base + rvaOffset + relocVal % 4096)
      let val ← readAt region memory 4 address
      let memory ← writeAt region memory 4 address (val + image.adj)
      .ok ⟨memory, fihOffset, .entry image relocdOffset relocb rvaOffset (numRelocs - 1)
        (wrap (reloc + 2))⟩
    else if relocVal / 4096 ≠ basedAbsolute then .ok ⟨memory, fihOffset, image.frame.next⟩
    else
      .ok ⟨memory, fihOffset, .entry image relocdOffset relocb rvaOffset (numRelocs - 1)
        (wrap (reloc + 2))⟩
  else do
    let sizeOfBlock ← readAt region memory 4 (wrap (relocb + 4))
    .ok ⟨memory, fihOffset, .block image (wrap (relocdOffset + sizeOfBlock))
      (wrap (relocb + sizeOfBlock))⟩

/-- The beginning of `relocate_remaining_items`. -/
def itemsTurn : Except Stop State :=
  if fihOffset = 0 then failed
  else do
    let headerSize ← fileSectionOffset region memory fihOffset
    let csh := fihOffset + headerSize
    let dataOffset ← sectionDataOffset region memory csh
    let fih := csh + dataOffset
    let isFih ← guidEqual region memory fihOffset fihGuid
    if ¬ isFih then failed
    else do
      let type ← readAt region memory 1 (csh + 3)
      if type ≠ rawSection then failed
      else do
        let signature ← readAt region memory 4 fih
        if signature ≠ fspSig then failed
        else do
          let imageBase ← readAt region memory 4 (fih + 28)
          let adjustment := wrap (region.newAddr + 18446744073709551616 - imageBase)
          let memory ← writeAt region memory 4 (fih + 28) (adjustment + imageBase)
          let headerLength ← readAt region memory 4 (fih + 4)
          .ok ⟨memory, fihOffset, .table fih adjustment (fih + headerLength)⟩

/-- A turn of the loop over the tables, with the beginning of `relocate_patch_table`. -/
def tableTurn (fih adjustment offset : Nat) : Except Stop State :=
  if offset + 8 ≤ region.size then do
    let signature ← readAt region memory 4 offset
    if signature ≠ fsppSig then do
      let length ← readAt region memory 4 (offset + 4)
      .ok ⟨memory, fihOffset, .table fih adjustment (offset + length)⟩
    else if offset + 12 > region.size then failed
    else do
      let headerLength ← readAt region memory 2 (offset + 4)
      if headerLength + offset > region.size then failed
      else do
        let numEntries ← readAt region memory 4 (offset + 8)
        .ok ⟨memory, fihOffset, .patch fih adjustment offset numEntries 0⟩
  else failed

def patchTurn (fih adjustment offset numEntries num : Nat) : Except Stop State :=
  if num < numEntries then do
    let e ← readAt region memory 4 (offset + 12 + 4 * num)
    match fsppReloc region e with
    | none => .ok ⟨memory, fihOffset, .patch fih adjustment offset numEntries (num + 1)⟩
    | some address => do
        let relocVal ← readAt region memory 4 address
        let memory ← writeAt region memory 4 address (relocVal + adjustment)
        .ok ⟨memory, fihOffset, .patch fih adjustment offset numEntries (num + 1)⟩
  else .error (.returned fih)

end Turns

/-- A turn of the loop whose head is reached. -/
def turn (region : Region) (state : State) : Except Stop State :=
  match state.place with
  | .volume offset => volumeTurn region state.memory state.fihOffset offset
  | .file volume fileOffset => fileTurn region state.memory state.fihOffset volume fileOffset
  | .sectionAt volume fileEnd offset =>
    sectionTurn region state.memory state.fihOffset volume fileEnd offset
  | .image frame te => imageTurn region state.memory state.fihOffset frame te
  | .block image relocdOffset relocb =>
    blockTurn region state.memory state.fihOffset image relocdOffset relocb
  | .entry image relocdOffset relocb rvaOffset numRelocs reloc =>
    entryTurn region state.memory state.fihOffset image relocdOffset relocb rvaOffset
      numRelocs reloc
  | .items => itemsTurn region state.memory state.fihOffset
  | .table fih adjustment offset =>
    tableTurn region state.memory state.fihOffset fih adjustment offset
  | .patch fih adjustment offset numEntries num =>
    patchTurn region state.memory state.fihOffset fih adjustment offset numEntries num

def step (region : Region) (state : State) : State ⊕ Stop :=
  match turn region state with
  | .ok next => .inl next
  | .error stop => .inr stop

/-- `fsp_component_relocate` begins at the first volume. -/
def start (contents : Memory) : State := ⟨contents, 0, .volume 0⟩

section Fields

variable (memory : Memory)

def fileHeaderSize (file : Nat) : Nat := if isFile2 (readLE 1 memory (file + 19)) then 28 else 24

def fileSize (file : Nat) : Nat :=
  if isFile2 (readLE 1 memory (file + 19)) then readLE 4 memory (file + 24)
  else readLE 3 memory (file + 20)

def sectionHeaderSize (csh : Nat) : Nat := if readLE 3 memory csh = 0xffffff then 8 else 4

def sectionSize (csh : Nat) : Nat :=
  if readLE 3 memory csh = 0xffffff then readLE 4 memory (csh + 4)
  else readLE 3 memory csh

def fvLength (offset : Nat) : Nat := readLE 8 memory (offset + 32)

def extHeaderOffset (offset : Nat) : Nat := readLE 2 memory (offset + 52)

def firstFile (offset : Nat) : Nat :=
  if extHeaderOffset memory offset ≠ 0 then
    alignUp (offset + extHeaderOffset memory offset +
      readLE 4 memory (offset + extHeaderOffset memory offset + 16)) 8
  else offset + readLE 2 memory (offset + 48)

def sizeOfBlock (relocb : Nat) : Nat := readLE 4 memory (relocb + 4)

end Fields

section Nesting

variable (region : Region) (memory : Memory)

/-- The checks of `relocate_fvh`. -/
def VolumeAccepted (offset : Nat) : Prop :=
  readLE 4 memory (offset + 40) = fvhSignature ∧
    wrap (fvLength memory offset + offset) ≤ region.size ∧
    load memory (offset + 16) 16 = ffs2Guid

/-- The header lies in the region, and if it is accepted, the volume, with the extended
header and the beginning of the files. -/
structure VolumeNested (offset : Nat) : Prop where
  header : offset + 56 ≤ region.size
  inside : VolumeAccepted region memory offset → offset + fvLength memory offset ≤ region.size
  extHeader : VolumeAccepted region memory offset → extHeaderOffset memory offset ≠ 0 →
    extHeaderOffset memory offset + 20 ≤ fvLength memory offset
  first : VolumeAccepted region memory offset → offset + 56 ≤ firstFile memory offset ∧
    firstFile memory offset ≤ offset + fvLength memory offset

structure FileNested (volume : Volume) (file : Nat) : Prop where
  header : file + fileHeaderSize memory file ≤ volume.stop
  size : fileHeaderSize memory file ≤ fileSize memory file
  inside : alignUp (file + fileSize memory file) 8 ≤ volume.stop

structure SectionNested (fileEnd csh : Nat) : Prop where
  header : csh + sectionHeaderSize memory csh ≤ fileEnd
  size : sectionHeaderSize memory csh ≤ sectionSize memory csh
  image : csh + sectionSize memory csh ≤ fileEnd → readLE 1 memory (csh + 3) = teSection →
    sectionHeaderSize memory csh + 40 ≤ sectionSize memory csh

/-- The block holds its header and lies in the image. -/
structure BlockNested (image : Image) (relocb : Nat) : Prop where
  behind : image.te + 40 ≤ relocb
  size : 8 ≤ sizeOfBlock memory relocb
  inside : relocb + sizeOfBlock memory relocb ≤ image.frame.stop

structure WordNested (image : Image) (address : Nat) : Prop where
  behind : image.te ≤ address
  inside : address + 4 ≤ image.frame.stop

/-- The headers of the file, of its first section and of the package lie in the region. -/
structure HeadersNested (file : Nat) : Prop where
  headerFits : file + fileHeaderSize memory file + 4 ≤ region.size
  fih : load memory file 16 = fihGuid →
    readLE 1 memory (file + fileHeaderSize memory file + 3) = rawSection →
    file + fileHeaderSize memory file +
      sectionHeaderSize memory (file + fileHeaderSize memory file) + 32 ≤ region.size

/-- A table holds its header, and the table of patches that is accepted lies in the
region. -/
structure TableNested (offset : Nat) : Prop where
  length : readLE 4 memory offset ≠ fsppSig → 8 ≤ readLE 4 memory (offset + 4)
  patches : readLE 4 memory offset = fsppSig → offset + 12 ≤ region.size →
    readLE 2 memory (offset + 4) + offset ≤ region.size →
    offset + 12 + 4 * readLE 4 memory (offset + 8) ≤ region.size

end Nesting

/-- What is found at a place is nested properly, if it is not refused there. -/
def Nested (region : Region) (state : State) : Prop :=
  match state.place with
  | .volume offset => offset < region.size → VolumeNested region state.memory offset
  | .file volume file => file + 24 < volume.stop →
      readLE 1 state.memory (file + 18) ≠ ffsMaxType → FileNested state.memory volume file
  | .sectionAt _ fileEnd csh => csh + 4 < fileEnd → SectionNested state.memory fileEnd csh
  | .image _ _ => True
  | .block image relocdOffset relocb =>
    relocdOffset < readLE 4 state.memory (image.te + 28) → BlockNested state.memory image relocb
  | .entry image _ relocb rvaOffset numRelocs reloc =>
    (0 < numRelocs → readLE 2 state.memory reloc / 4096 = basedHighlow →
      WordNested image (wrap (image.base + rvaOffset + readLE 2 state.memory reloc % 4096))) ∧
    (numRelocs = 0 → 8 ≤ sizeOfBlock state.memory relocb)
  | .items => state.fihOffset ≠ 0 → HeadersNested region state.memory state.fihOffset
  | .table _ _ offset => offset + 8 ≤ region.size → TableNested region state.memory offset
  | .patch _ _ _ _ _ => True

/-- The relocation ends, and no access is outside of the region.  If what it returns is
not negative then everything that it has come to is nested properly. -/
def Relocates (region : Region) (contents : Memory) : Prop :=
  ∃ value, EndsWith (step region) (start contents) (.returned value) ∧
    (0 ≤ value → ∀ state, Reaches (step region) (start contents) state → Nested region state)

section Access

variable {region : Region} {memory : Memory} {width address value file csh : Nat}

theorem readAt_of_inside (inside : address + width ≤ region.size) :
    readAt region memory width address = .ok (readLE width memory address) :=
  if_pos inside

theorem writeAt_of_inside (inside : address + width ≤ region.size) :
    writeAt region memory width address value = .ok (writeLE width memory address value) :=
  if_pos inside

theorem guidEqual_of_inside {guid : List Byte} (inside : address + 16 ≤ region.size) :
    guidEqual region memory address guid = .ok (decide (load memory address 16 = guid)) :=
  if_pos inside

theorem fileSectionOffset_of_inside (inside : file + 20 ≤ region.size) :
    fileSectionOffset region memory file = .ok (fileHeaderSize memory file) := by
  unfold fileSectionOffset
  rw [readAt_of_inside (by omega)]
  rfl

theorem ffsFileSize_of_inside (header : file + 24 ≤ region.size)
    (inside : file + fileHeaderSize memory file ≤ region.size) :
    ffsFileSize region memory file = .ok (fileSize memory file) := by
  unfold ffsFileSize fileSize
  unfold fileHeaderSize at inside
  rw [readAt_of_inside (by omega), ok_bind]
  split_ifs at inside ⊢
  · exact readAt_of_inside inside
  · exact readAt_of_inside (by omega)

theorem sectionDataOffset_of_inside (inside : csh + 3 ≤ region.size) :
    sectionDataOffset region memory csh = .ok (sectionHeaderSize memory csh) := by
  unfold sectionDataOffset cshSize
  rw [readAt_of_inside inside]
  rfl

theorem sectionDataSize_of_inside (header : csh + 3 ≤ region.size)
    (inside : csh + sectionHeaderSize memory csh ≤ region.size)
    (holds : sectionHeaderSize memory csh ≤ sectionSize memory csh) :
    sectionDataSize region memory csh =
      .ok (sectionSize memory csh - sectionHeaderSize memory csh) := by
  have dataOffset := @sectionDataOffset_of_inside region memory csh header
  have small : sectionSize memory csh < 18446744073709551616 := by
    have first := readLE_lt 4 memory (csh + 4)
    have second := readLE_lt 3 memory csh
    unfold sectionSize
    split_ifs <;> omega
  have difference : wrap (sectionSize memory csh + 18446744073709551616 -
      sectionHeaderSize memory csh) =
        sectionSize memory csh - sectionHeaderSize memory csh := by
    unfold wrap
    omega
  unfold sectionDataSize cshSize
  rw [readAt_of_inside header, ok_bind, dataOffset, ← difference]
  unfold sectionHeaderSize at inside ⊢
  unfold sectionSize
  split_ifs at inside ⊢ with extended
  · rw [readAt_of_inside (by omega)]
    rfl
  · rfl

end Access

structure Volume.Placed (region : Region) (volume : Volume) : Prop where
  length : 56 ≤ volume.length
  inside : volume.offset + volume.length ≤ region.size

structure Frame.Placed (region : Region) (frame : Frame) : Prop where
  volume : frame.volume.Placed region
  inside : frame.fileEnd ≤ frame.volume.offset + frame.volume.length
  aligned : 8 ∣ frame.fileEnd
  stop : frame.stop ≤ frame.fileEnd

structure Image.Placed (region : Region) (image : Image) : Prop where
  frame : image.frame.Placed region
  header : image.te + 40 ≤ image.frame.stop

def Known (region : Region) : Place → Prop
  | .volume offset => offset ≤ region.size
  | .file fv fileOffset => fv.Placed region ∧ fileOffset ≤ fv.offset + fv.length
  | .sectionAt fv fileEnd csh => fv.Placed region ∧ fileEnd ≤ fv.offset + fv.length ∧
      8 ∣ fileEnd ∧ csh ≤ fileEnd
  | .image frame te => frame.Placed region ∧ te + 40 ≤ frame.stop
  | .block image _ _ => image.Placed region
  | .entry image _ relocb _ numRelocs reloc => image.Placed region ∧
      relocb + 8 ≤ image.frame.stop ∧ reloc + 2 * numRelocs ≤ image.frame.stop
  | .items => True
  | .table _ _ _ => True
  | .patch _ _ offset numEntries _ => offset + 12 + 4 * numEntries ≤ region.size

/-- The information header is not known yet or begins in the region. -/
structure State.Placed (region : Region) (state : State) : Prop where
  place : Known region state.place
  fih : state.fihOffset = 0 ∨ state.fihOffset + 24 < region.size

/-- What is left of the volumes, of the files or tables, of the sections or patches, of
the blocks and of the entries. -/
def rank (size : Nat) : Place → Nat × Nat × Nat × Nat × Nat
  | .volume offset => (size - offset + 1, 0, 0, 0, 0)
  | .file fv fileOffset =>
    (size - (fv.offset + fv.length) + 1, size - fileOffset + 1, 0, 0, 0)
  | .sectionAt fv fileEnd csh =>
    (size - (fv.offset + fv.length) + 1, size - fileEnd + 1, size - csh + 1, 0, 0)
  | .image frame _ =>
    (size - (frame.volume.offset + frame.volume.length) + 1, size - frame.fileEnd + 1,
      size - alignUp frame.stop 4 + 1, size + 2, 0)
  | .block image _ relocb =>
    (size - (image.frame.volume.offset + image.frame.volume.length) + 1,
      size - image.frame.fileEnd + 1, size - alignUp image.frame.stop 4 + 1,
      size - relocb + 1, 0)
  | .entry image _ relocb _ numRelocs _ =>
    (size - (image.frame.volume.offset + image.frame.volume.length) + 1,
      size - image.frame.fileEnd + 1, size - alignUp image.frame.stop 4 + 1,
      size - relocb, numRelocs + 1)
  | .items => (0, size + 2, 0, 0, 0)
  | .table _ _ offset => (0, size - offset + 1, 0, 0, 0)
  | .patch _ _ _ numEntries num => (0, 0, numEntries - num + 1, 0, 0)

def Less : Nat × Nat × Nat × Nat × Nat → Nat × Nat × Nat × Nat × Nat → Prop :=
  Prod.Lex (· < ·) (Prod.Lex (· < ·) (Prod.Lex (· < ·) (Prod.Lex (· < ·) (· < ·))))

theorem less_wf : WellFounded Less :=
  (Prod.lex Nat.lt_wfRel (Prod.lex Nat.lt_wfRel (Prod.lex Nat.lt_wfRel
    (Prod.lex Nat.lt_wfRel Nat.lt_wfRel)))).wf

theorem less_iff {a b c d e a' b' c' d' e' : Nat} :
    Less (a, b, c, d, e) (a', b', c', d', e') ↔
      a < a' ∨ a = a' ∧ (b < b' ∨ b = b' ∧ (c < c' ∨ c = c' ∧ (d < d' ∨ d = d' ∧ e < e'))) := by
  simp only [Less, Prod.lex_def]

/-- A turn returns, or what is left becomes less. -/
def Advances (region : Region) (place : Place) : Except Stop State → Prop
  | .error stop => stop ≠ .outside
  | .ok next => next.Placed region ∧
      Less (rank region.size next.place) (rank region.size place)

section Advance

variable {region : Region} {memory : Memory} {fihOffset : Nat} {frame : Frame}

theorem advances_failed (place : Place) : Advances region place failed := by
  intro stopped
  cases stopped

theorem le_alignUp (value : Nat) {alignment : Nat} (positive : 0 < alignment) :
    value ≤ alignUp value alignment := by
  have remainder := Nat.div_add_mod (value + alignment - 1) alignment
  have below := Nat.mod_lt (value + alignment - 1) positive
  unfold alignUp
  rw [Nat.mul_comm]
  omega

theorem alignUp_le {value alignment bound : Nat} (positive : 0 < alignment) (le : value ≤ bound)
    (aligned : alignment ∣ bound) : alignUp value alignment ≤ bound := by
  obtain ⟨quotient, rfl⟩ := aligned
  unfold alignUp
  rw [Nat.mul_comm alignment]
  apply Nat.mul_le_mul_right
  have below : value + alignment - 1 < alignment * (quotient + 1) := by
    rw [Nat.mul_succ]
    omega
  exact Nat.lt_succ_iff.mp (Nat.div_lt_of_lt_mul below)

theorem Volume.Placed.stop_eq {volume : Volume} (known : volume.Placed region)
    (small : region.size < 9223372036854775808) : volume.stop = volume.offset + volume.length := by
  have inside := known.inside
  unfold Volume.stop wrap
  omega

theorem Frame.Placed.next_le (known : frame.Placed region) :
    alignUp frame.stop 4 ≤ frame.fileEnd :=
  alignUp_le (by decide) known.stop ((show 4 ∣ 8 by decide).trans known.aligned)

theorem Frame.Placed.known_next (known : frame.Placed region) :
    Known region frame.next :=
  ⟨known.volume, known.inside, known.aligned, known.next_le⟩

theorem wrap_of_lt {value : Nat} (small : value < 18446744073709551616) : wrap value = value :=
  Nat.mod_eq_of_lt small

theorem fsppReloc_inside {e address : Nat} (large : 4 ≤ region.size)
    (small : region.size < 9223372036854775808) (found : fsppReloc region e = some address) :
    address + 4 ≤ region.size := by
  unfold fsppReloc at found
  dsimp only at found
  split_ifs at found with negative beyond beyond
  · cases found
    unfold wrap at *
    omega
  · cases found
    unfold wrap at *
    omega

section Place

variable (fih : fihOffset = 0 ∨ fihOffset + 24 < region.size)

include fih

variable {offset : Nat} {volume : Volume}

theorem advances_volume (nested : offset < region.size → VolumeNested region memory offset) :
    Advances region (.volume offset) (volumeTurn region memory fihOffset offset) := by
  unfold volumeTurn
  by_cases more : offset < region.size
  · obtain ⟨header, inside, extHeader, first⟩ := nested more
    rw [if_pos more, readAt_of_inside (by omega), ok_bind]
    by_cases signature : readLE 4 memory (offset + 40) = fvhSignature
    · rw [if_neg (not_not.mpr signature), readAt_of_inside (by omega), ok_bind]
      by_cases large : wrap (readLE 8 memory (offset + 32) + offset) > region.size
      · rw [if_pos large]
        exact advances_failed _
      · rw [if_neg large, guidEqual_of_inside (by omega), ok_bind]
        by_cases guid : load memory (offset + 16) 16 = ffs2Guid
        · have accepted : VolumeAccepted region memory offset :=
            ⟨signature, Nat.le_of_not_lt large, guid⟩
          have inside := inside accepted
          have extHeader := extHeader accepted
          have first := first accepted
          have known : Volume.Placed region ⟨offset, fvLength memory offset⟩ :=
            ⟨show 56 ≤ fvLength memory offset by omega, inside⟩
          have begun : Advances region (.volume offset) (.ok ⟨memory, fihOffset,
              .file ⟨offset, fvLength memory offset⟩ (firstFile memory offset)⟩) := by
            refine ⟨⟨⟨known, first.2⟩, fih⟩, ?_⟩
            simp only [rank, less_iff, true_and]
            omega
          rw [if_neg (by simp [guid]), readAt_of_inside (by omega), ok_bind]
          change Advances _ _ (if extHeaderOffset memory offset ≠ 0 then _ else _)
          unfold firstFile at begun
          split_ifs at begun ⊢ with extended
          · have extHeader := extHeader extended
            change Advances _ _ (readAt region memory 4
              (offset + extHeaderOffset memory offset + 16) >>= _)
            rw [readAt_of_inside (by omega), ok_bind]
            exact begun
          · rw [readAt_of_inside (by omega), ok_bind]
            exact begun
        · rw [if_pos (by simp [guid])]
          exact advances_failed _
    · rw [if_pos signature]
      exact advances_failed _
  · rw [if_neg more]
    refine ⟨⟨trivial, fih⟩, ?_⟩
    simp only [rank, less_iff, true_and]
    omega

section

variable (small : region.size < 9223372036854775808) {fileOffset : Nat}
include small

theorem advances_volumeDone (known : volume.Placed region) :
    Advances region (.file volume fileOffset) (volumeDone memory fihOffset volume) := by
  have length := known.length
  have inside := known.inside
  unfold volumeDone
  rw [if_neg (by omega)]
  refine ⟨⟨inside, fih⟩, ?_⟩
  simp only [rank, less_iff, true_and]
  omega

theorem advances_file (known : volume.Placed region) (nested : fileOffset + 24 < volume.stop →
      readLE 1 memory (fileOffset + 18) ≠ ffsMaxType → FileNested memory volume fileOffset) :
    Advances region (.file volume fileOffset)
      (fileTurn region memory fihOffset volume fileOffset) := by
  have stop := known.stop_eq small
  have inside := known.inside
  unfold fileTurn
  by_cases more : fileOffset + 24 < volume.stop
  · have fih' : (if volume.offset = 0 ∧ fihOffset = 0 then fileOffset else fihOffset) = 0 ∨
        (if volume.offset = 0 ∧ fihOffset = 0 then fileOffset else fihOffset) + 24 <
          region.size := by
      split_ifs
      · right
        omega
      · exact fih
    rw [if_pos more]
    generalize (if volume.offset = 0 ∧ fihOffset = 0 then fileOffset else fihOffset) =
      fihOffset at fih' ⊢
    rw [readAt_of_inside (by omega), ok_bind]
    by_cases last : readLE 1 memory (fileOffset + 18) = ffsMaxType
    · rw [if_pos last]
      exact advances_volumeDone fih' small known
    · obtain ⟨header, size, fileInside⟩ := nested more last
      have grows : fileOffset + fileSize memory fileOffset ≤
          alignUp (fileOffset + fileSize memory fileOffset) 8 := le_alignUp _ (by decide)
      have headerSize : 24 ≤ fileHeaderSize memory fileOffset := by
        unfold fileHeaderSize
        split_ifs <;> omega
      rw [if_neg last, ffsFileSize_of_inside (by omega) (by omega), ok_bind]
      by_cases pad : readLE 1 memory (fileOffset + 18) = ffsPadType
      · rw [if_pos pad]
        refine ⟨⟨⟨known, by omega⟩, fih'⟩, ?_⟩
        simp only [rank, less_iff, true_and]
        omega
      · rw [if_neg pad, fileSectionOffset_of_inside (by omega), ok_bind]
        refine ⟨⟨⟨known, by omega, ⟨_, Nat.mul_comm _ _⟩, by omega⟩, fih'⟩, ?_⟩
        simp only [rank, less_iff, true_and]
        omega
  · rw [if_neg more]
    exact advances_volumeDone fih small known

theorem advances_section {fileEnd csh : Nat} (known : volume.Placed region)
    (inside : fileEnd ≤ volume.offset + volume.length) (aligned : 8 ∣ fileEnd)
    (nested : csh + 4 < fileEnd → SectionNested memory fileEnd csh) :
    Advances region (.sectionAt volume fileEnd csh)
      (sectionTurn region memory fihOffset volume fileEnd csh) := by
  have fits := known.inside
  unfold sectionTurn
  by_cases more : csh + 4 < fileEnd
  · obtain ⟨header, size, image⟩ := nested more
    have headerSize : 4 ≤ sectionHeaderSize memory csh := by
      unfold sectionHeaderSize
      split_ifs <;> omega
    have small : sectionSize memory csh < 4294967296 := by
      have first := readLE_lt 4 memory (csh + 4)
      have second := readLE_lt 3 memory csh
      unfold sectionSize
      split_ifs <;> omega
    have total : wrap (sectionSize memory csh - sectionHeaderSize memory csh +
        sectionHeaderSize memory csh + csh) = csh + sectionSize memory csh := by
      unfold wrap
      omega
    rw [if_pos more, readAt_of_inside (by omega), ok_bind,
      sectionDataSize_of_inside (by omega) (by omega) size, ok_bind,
      sectionDataOffset_of_inside (by omega), ok_bind, total]
    by_cases exceeds : csh + sectionSize memory csh > fileEnd
    · rw [if_pos exceeds]
      exact advances_failed _
    · have le := Nat.le_of_not_lt exceeds
      have next := @alignUp_le (csh + sectionSize memory csh) 4 fileEnd (by decide) le
        ((show 4 ∣ 8 by decide).trans aligned)
      have grows := @le_alignUp (csh + sectionSize memory csh) 4 (by decide)
      rw [if_neg exceeds]
      split_ifs with type
      · have holds := image le type
        refine ⟨⟨⟨⟨known, inside, aligned, le⟩, ?_⟩, fih⟩, ?_⟩
        · change _ ≤ csh + sectionSize memory csh
          omega
        · simp only [rank, less_iff, true_and]
          omega
      · refine ⟨⟨⟨known, inside, aligned, next⟩, fih⟩, ?_⟩
        simp only [rank, less_iff, true_and]
        omega
  · rw [if_neg more]
    refine ⟨⟨⟨known, inside⟩, fih⟩, ?_⟩
    simp only [rank, less_iff, true_and]
    omega

omit small in
theorem advances_image {te : Nat} (known : frame.Placed region) (header : te + 40 ≤ frame.stop) :
    Advances region (.image frame te) (imageTurn region memory fihOffset frame te) := by
  have volume := known.volume.inside
  have inside := known.inside
  have stop := known.stop
  unfold imageTurn
  rw [readAt_of_inside (by omega), ok_bind]
  by_cases signature : readLE 2 memory te = teSignature
  · rw [if_neg (not_not.mpr signature), readAt_of_inside (by omega), ok_bind,
      readAt_of_inside (by omega), ok_bind]
    dsimp only
    rw [writeAt_of_inside (by omega), ok_bind, readAt_of_inside (by omega), ok_bind]
    refine ⟨⟨⟨known, header⟩, fih⟩, ?_⟩
    simp only [rank, less_iff, true_and]
    omega
  · rw [if_pos signature]
    refine ⟨⟨known.known_next, fih⟩, ?_⟩
    simp only [Frame.next, rank, less_iff, true_and]
    omega

theorem advances_block {image : Image} {relocdOffset relocb : Nat} (known : image.Placed region)
    (nested : relocdOffset < readLE 4 memory (image.te + 28) → BlockNested memory image relocb) :
    Advances region (.block image relocdOffset relocb)
      (blockTurn region memory fihOffset image relocdOffset relocb) := by
  have volume := known.frame.volume.inside
  have fileInside := known.frame.inside
  have stop := known.frame.stop
  have header := known.header
  unfold blockTurn
  rw [readAt_of_inside (by omega), ok_bind]
  by_cases more : relocdOffset < readLE 4 memory (image.te + 28)
  · obtain ⟨behind, size, inside⟩ := nested more
    have bound : sizeOfBlock memory relocb < 4294967296 := readLE_lt 4 memory (relocb + 4)
    have count : wrap (sizeOfBlock memory relocb + 18446744073709551616 - 8) =
        sizeOfBlock memory relocb - 8 := by
      unfold wrap
      omega
    rw [if_pos more, readAt_of_inside (by omega), ok_bind, wrap_of_lt (by omega),
      readAt_of_inside (by omega), ok_bind]
    change Advances _ _ (.ok ⟨memory, fihOffset, .entry image relocdOffset relocb _
      (wrap (sizeOfBlock memory relocb + 18446744073709551616 - 8) / 2)
      (wrap (relocb + 8))⟩)
    rw [count, wrap_of_lt (by omega)]
    refine ⟨⟨⟨known, by omega, by omega⟩, fih⟩, ?_⟩
    simp only [rank, less_iff, true_and]
    omega
  · rw [if_neg more]
    refine ⟨⟨known.frame.known_next, fih⟩, ?_⟩
    simp only [Frame.next, rank, less_iff, true_and]
    omega

theorem advances_entry {image : Image} {relocdOffset relocb rvaOffset numRelocs reloc : Nat}
    (known : image.Placed region) (block : relocb + 8 ≤ image.frame.stop)
    (entries : reloc + 2 * numRelocs ≤ image.frame.stop)
    (word : 0 < numRelocs → readLE 2 memory reloc / 4096 = basedHighlow →
      WordNested image (wrap (image.base + rvaOffset + readLE 2 memory reloc % 4096)))
    (blockSize : numRelocs = 0 → 8 ≤ sizeOfBlock memory relocb) :
    Advances region (.entry image relocdOffset relocb rvaOffset numRelocs reloc)
      (entryTurn region memory fihOffset image relocdOffset relocb rvaOffset numRelocs reloc) := by
  have volume := known.frame.volume.inside
  have fileInside := known.frame.inside
  have stop := known.frame.stop
  unfold entryTurn
  by_cases more : 0 < numRelocs
  · rw [if_pos more]
    have next (memory : Memory) : Advances region
        (.entry image relocdOffset relocb rvaOffset numRelocs reloc)
        (.ok ⟨memory, fihOffset, .entry image relocdOffset relocb rvaOffset
          (numRelocs - 1) (wrap (reloc + 2))⟩) := by
      rw [wrap_of_lt (by omega)]
      refine ⟨⟨⟨known, block, by omega⟩, fih⟩, ?_⟩
      simp only [rank, less_iff, true_and]
      omega
    rw [readAt_of_inside (by omega), ok_bind]
    by_cases highlow : readLE 2 memory reloc / 4096 = basedHighlow
    · obtain ⟨behind, inside⟩ := word more highlow
      rw [if_pos highlow]
      dsimp only
      rw [readAt_of_inside (by omega), ok_bind, writeAt_of_inside (by omega), ok_bind]
      exact next _
    · rw [if_neg highlow]
      split_ifs with unknown
      · refine ⟨⟨known.frame.known_next, fih⟩, ?_⟩
        simp only [Frame.next, rank, less_iff, true_and]
        omega
      · exact next _
  · have blockSize := blockSize (Nat.eq_zero_of_not_pos more)
    rw [if_neg more]
    have bound : sizeOfBlock memory relocb < 4294967296 := readLE_lt 4 memory (relocb + 4)
    rw [wrap_of_lt (show relocb + 4 < 18446744073709551616 by omega),
      readAt_of_inside (by omega), ok_bind]
    change Advances _ _ (.ok ⟨memory, fihOffset, .block image
      (wrap (relocdOffset + sizeOfBlock memory relocb))
      (wrap (relocb + sizeOfBlock memory relocb))⟩)
    rw [wrap_of_lt (show relocb + sizeOfBlock memory relocb < 18446744073709551616 by omega)]
    refine ⟨⟨known, fih⟩, ?_⟩
    simp only [rank, less_iff, true_and]
    omega

omit small in
theorem advances_items
    (nested : fihOffset ≠ 0 → HeadersNested region memory fihOffset) :
    Advances region .items (itemsTurn region memory fihOffset) := by
  unfold itemsTurn
  by_cases none : fihOffset = 0
  · rw [if_pos none]
    exact advances_failed _
  · obtain ⟨header, info⟩ := nested none
    rw [if_neg none, fileSectionOffset_of_inside (by omega), ok_bind]
    dsimp only
    rw [sectionDataOffset_of_inside (by omega), ok_bind, guidEqual_of_inside (by omega), ok_bind]
    by_cases guid : load memory fihOffset 16 = fihGuid
    · rw [if_neg (by simp [guid]), readAt_of_inside (by omega), ok_bind]
      by_cases type : readLE 1 memory (fihOffset + fileHeaderSize memory fihOffset + 3) = rawSection
      · have inside := info guid type
        rw [if_neg (not_not.mpr type), readAt_of_inside (by omega), ok_bind]
        split_ifs with signature
        · exact advances_failed _
        · rw [readAt_of_inside (by omega), ok_bind, writeAt_of_inside (by omega), ok_bind,
            readAt_of_inside (by omega), ok_bind]
          refine ⟨⟨trivial, fih⟩, ?_⟩
          simp only [rank, less_iff, true_and]
          omega
      · rw [if_pos type]
        exact advances_failed _
    · rw [if_pos (by simp [guid])]
      exact advances_failed _

omit small in
theorem advances_table {info adjustment : Nat}
    (nested : offset + 8 ≤ region.size → TableNested region memory offset) :
    Advances region (.table info adjustment offset)
      (tableTurn region memory fihOffset info adjustment offset) := by
  unfold tableTurn
  by_cases more : offset + 8 ≤ region.size
  · obtain ⟨length, patches⟩ := nested more
    rw [if_pos more, readAt_of_inside (by omega), ok_bind]
    by_cases signature : readLE 4 memory offset = fsppSig
    · rw [if_neg (not_not.mpr signature)]
      split_ifs with short
      · exact advances_failed _
      · rw [readAt_of_inside (by omega), ok_bind]
        split_ifs with long
        · exact advances_failed _
        · have inside := patches signature (Nat.le_of_not_lt short) (Nat.le_of_not_lt long)
          rw [readAt_of_inside (by omega), ok_bind]
          refine ⟨⟨inside, fih⟩, ?_⟩
          simp only [rank, less_iff, true_and]
          omega
    · have positive := length signature
      rw [if_pos signature, readAt_of_inside (by omega), ok_bind]
      refine ⟨⟨trivial, fih⟩, ?_⟩
      simp only [rank, less_iff, true_and]
      omega
  · rw [if_neg more]
    exact advances_failed _

theorem advances_patch {info adjustment numEntries num : Nat}
    (inside : offset + 12 + 4 * numEntries ≤ region.size) :
    Advances region (.patch info adjustment offset numEntries num)
      (patchTurn region memory fihOffset info adjustment offset numEntries num) := by
  unfold patchTurn
  by_cases more : num < numEntries
  · have next (memory : Memory) : Advances region
        (.patch info adjustment offset numEntries num)
        (.ok ⟨memory, fihOffset, .patch info adjustment offset numEntries (num + 1)⟩) := by
      refine ⟨⟨inside, fih⟩, ?_⟩
      simp only [rank, less_iff, true_and]
      omega
    rw [if_pos more, readAt_of_inside (by omega), ok_bind]
    cases found : fsppReloc region (readLE 4 memory (offset + 12 + 4 * num)) with
    | none => exact next _
    | some address =>
      have word := fsppReloc_inside (by omega) small found
      dsimp only
      rw [readAt_of_inside word, ok_bind, writeAt_of_inside word, ok_bind]
      exact next _
  · rw [if_neg more]
    intro stopped
    cases stopped

end

end Place

end Advance

section Run

variable {region : Region} {contents : Memory} {state next : State}

section

variable (small : region.size < 9223372036854775808)
include small

theorem advances_turn (placed : state.Placed region) (nested : Nested region state) :
    Advances region state.place (turn region state) := by
  obtain ⟨memory, fihOffset, place⟩ := state
  obtain ⟨known, fih⟩ := placed
  cases place with
  | volume offset => exact advances_volume fih nested
  | file volume fileOffset => exact advances_file fih small known.1 nested
  | sectionAt volume fileEnd csh =>
    exact advances_section fih small known.1 known.2.1 known.2.2.1 nested
  | image frame te => exact advances_image fih known.1 known.2
  | block image relocdOffset relocb => exact advances_block fih small known nested
  | entry image relocdOffset relocb rvaOffset numRelocs reloc =>
    exact advances_entry fih small known.1 known.2.1 known.2.2 nested.1 nested.2
  | items => exact advances_items fih nested
  | table info adjustment offset => exact advances_table fih nested
  | patch info adjustment offset numEntries num => exact advances_patch fih small known

theorem advances_step (placed : state.Placed region) (nested : Nested region state)
    (moves : step region state = .inl next) :
    next.Placed region ∧ Less (rank region.size next.place) (rank region.size state.place) := by
  have advances := advances_turn small placed nested
  unfold step at moves
  cases taken : turn region state with
  | error stop =>
    rw [taken] at moves
    cases moves
  | ok reached =>
    rw [taken] at moves advances
    cases moves
    exact advances

omit small in
theorem placed_start (region : Region) (contents : Memory) : (start contents).Placed region :=
  ⟨Nat.zero_le _, .inl rfl⟩

theorem placed_of_reaches
    (nested : ∀ state, Reaches (step region) (start contents) state → Nested region state)
    (reaches : Reaches (step region) (start contents) state) : state.Placed region := by
  induction reaches with
  | refl => exact placed_start region contents
  | tail before moves ih => exact (advances_step small ih (nested _ before) moves).1

end

end Run

section Checked

variable (region : Region) (memory : Memory)

instance (offset : Nat) : Decidable (VolumeAccepted region memory offset) :=
  inferInstanceAs (Decidable (_ ∧ _ ∧ _))

instance (offset : Nat) : Decidable (VolumeNested region memory offset) :=
  decidable_of_iff (_ ∧ _ ∧ _ ∧ _) ⟨fun ⟨header, inside, extHeader, first⟩ =>
    ⟨header, inside, extHeader, first⟩, fun nested =>
    ⟨nested.header, nested.inside, nested.extHeader, nested.first⟩⟩

instance (volume : Volume) (file : Nat) : Decidable (FileNested memory volume file) :=
  decidable_of_iff (_ ∧ _ ∧ _) ⟨fun ⟨header, size, inside⟩ => ⟨header, size, inside⟩,
    fun nested => ⟨nested.header, nested.size, nested.inside⟩⟩

instance (fileEnd csh : Nat) : Decidable (SectionNested memory fileEnd csh) :=
  decidable_of_iff (_ ∧ _ ∧ _) ⟨fun ⟨header, size, image⟩ => ⟨header, size, image⟩,
    fun nested => ⟨nested.header, nested.size, nested.image⟩⟩

instance (image : Image) (relocb : Nat) : Decidable (BlockNested memory image relocb) :=
  decidable_of_iff (_ ∧ _ ∧ _) ⟨fun ⟨behind, size, inside⟩ => ⟨behind, size, inside⟩,
    fun nested => ⟨nested.behind, nested.size, nested.inside⟩⟩

instance (image : Image) (address : Nat) : Decidable (WordNested image address) :=
  decidable_of_iff (_ ∧ _) ⟨fun ⟨behind, inside⟩ => ⟨behind, inside⟩,
    fun nested => ⟨nested.behind, nested.inside⟩⟩

instance (file : Nat) : Decidable (HeadersNested region memory file) :=
  decidable_of_iff (_ ∧ _) ⟨fun ⟨first, fih⟩ => ⟨first, fih⟩,
    fun nested => ⟨nested.headerFits, nested.fih⟩⟩

instance (offset : Nat) : Decidable (TableNested region memory offset) :=
  decidable_of_iff (_ ∧ _) ⟨fun ⟨length, patches⟩ => ⟨length, patches⟩,
    fun nested => ⟨nested.length, nested.patches⟩⟩

instance (state : State) : Decidable (Nested region state) :=
  match state with
  | ⟨_, _, .volume _⟩ => inferInstanceAs (Decidable (_ → _))
  | ⟨_, _, .file _ _⟩ => inferInstanceAs (Decidable (_ → _))
  | ⟨_, _, .sectionAt _ _ _⟩ => inferInstanceAs (Decidable (_ → _))
  | ⟨_, _, .image _ _⟩ => inferInstanceAs (Decidable True)
  | ⟨_, _, .block _ _ _⟩ => inferInstanceAs (Decidable (_ → _))
  | ⟨_, _, .entry _ _ _ _ _ _⟩ => inferInstanceAs (Decidable (_ ∧ _))
  | ⟨_, _, .items⟩ => inferInstanceAs (Decidable (_ → _))
  | ⟨_, _, .table _ _ _⟩ => inferInstanceAs (Decidable (_ → _))
  | ⟨_, _, .patch _ _ _ _ _⟩ => inferInstanceAs (Decidable True)

def nestedRun (region : Region) : Nat → State → Bool
  | 0, _ => false
  | fuel + 1, state => decide (Nested region state) &&
      match step region state with
      | .inl next => nestedRun region fuel next
      | .inr _ => true

end Checked

theorem nested_of_nestedRun {region : Region} {fuel : Nat} {state reached : State}
    (checked : nestedRun region fuel state = true)
    (reaches : Reaches (step region) state reached) : Nested region reached := by
  induction fuel generalizing state with
  | zero => cases checked
  | succ fuel ih =>
    rw [nestedRun, Bool.and_eq_true, decide_eq_true_eq] at checked
    obtain ⟨here, later⟩ := checked
    rcases Relation.ReflTransGen.cases_head reaches with rfl | ⟨next, moves, rest⟩
    · exact here
    · rw [show step region state = .inl next from moves] at later
      exact ih later rest

/-- A region with one volume and one file, of a type and a size, with the information
header in its section and an empty table of patches. -/
def smallRegion (type size : Byte) : Memory := fun address =>
  (List.replicate 16 0 ++ ffs2Guid ++ [128, 0, 0, 0, 0, 0, 0, 0] ++
    [0x5f, 0x46, 0x56, 0x48] ++ List.replicate 4 0 ++ [56, 0, 0, 0, 0, 0, 0, 0] ++
    fihGuid ++ [0, 0, type, 0, size, 0, 0, 0] ++
    [48, 0, 0, 0x19] ++
    [0x46, 0x53, 0x50, 0x48, 32, 0, 0, 0] ++ List.replicate 24 0 ++
    [0x46, 0x53, 0x50, 0x50, 12, 0, 0, 0, 0, 0, 0, 0]).getD address 0

/-- The head of the loop over the files, at a padding file without a size. -/
def paddingState : State := ⟨smallRegion 0xf0 0, 56, .file ⟨0, 128⟩ 56⟩

theorem step_paddingState : step ⟨0x10000, 128⟩ paddingState = .inl paddingState := rfl

theorem reaches_paddingState :
    Reaches (step ⟨0x10000, 128⟩) (start (smallRegion 0xf0 0)) paddingState := by
  have first : step ⟨0x10000, 128⟩ (start (smallRegion 0xf0 0)) =
      .inl ⟨smallRegion 0xf0 0, 0, .file ⟨0, 128⟩ 56⟩ := rfl
  have second : step ⟨0x10000, 128⟩ ⟨smallRegion 0xf0 0, 0, .file ⟨0, 128⟩ 56⟩ =
      .inl paddingState := rfl
  exact .head first (.head second .refl)

end Coreboot.FspRelocate
