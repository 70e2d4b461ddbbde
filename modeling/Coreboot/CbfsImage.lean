import Coreboot.ByteMemory

/-!
# The image tool of CBFS

A CBFS is a sequence of entries at multiples of 64 bytes: a header with a name and attributes,
and the contents. A file is carved out of an empty entry, and removing it leaves another one.

Images have no master header in front and are shorter than 2 GiB. Entries are their addresses,
which have 32 bits. A loop that does not come to an end is `none`.
-/

namespace Coreboot.Cbfs

open ByteMemory

def cbfsFileMagic : List Byte := [0x4c, 0x41, 0x52, 0x43, 0x48, 0x49, 0x56, 0x45]

def cbfsComponentDeleted : Nat := 0
def cbfsComponentNull : Nat := 0xffffffff
def cbfsEntryAlignment : Nat := 64
def cbfsFilenameAlign : Nat := 16
def maxCbfsFileHeaderBuffer : Nat := 1024
def cbfsContentDefaultValue : Byte := 0xff

/-- The size of `struct cbfs_file`: magic, length, type, offset of the
attributes and size of the header. -/
def sizeofFile : Nat := 24

def entryLen (data : Memory) (entry : Nat) : Nat := readBE 4 data (entry + 8)

def entryType (data : Memory) (entry : Nat) : Nat := readBE 4 data (entry + 12)

def entryAttributesOffset (data : Memory) (entry : Nat) : Nat := readBE 4 data (entry + 16)

def entryOffset (data : Memory) (entry : Nat) : Nat := readBE 4 data (entry + 20)

def setLen (data : Memory) (entry value : Nat) : Memory := writeBE 4 data (entry + 8) value

def setType (data : Memory) (entry value : Nat) : Memory := writeBE 4 data (entry + 12) value

def setAttributesOffset (data : Memory) (entry value : Nat) : Memory :=
  writeBE 4 data (entry + 16) value

def setOffset (data : Memory) (entry value : Nat) : Memory := writeBE 4 data (entry + 20) value

def filename (entry : Nat) : Nat := entry + sizeofFile

def sub32 (first second : Nat) : Nat := (first + 2 ^ 32 - second) % 2 ^ 32

def add32 (first second : Nat) : Nat := (first + second) % 2 ^ 32

/-- Subtraction of `size_t`, which has 64 bits on the host. -/
def subSize (first second : Nat) : Nat := (first + 2 ^ 64 - second) % 2 ^ 64

def alignUp (value align : Nat) : Nat :=
  if value % align ≠ 0 then add32 value (align - value % align) else value

def cbfsCalculateFileHeaderSize (name : List Byte) : Nat :=
  sizeofFile + alignUp (name.length + 1) cbfsFilenameAlign

/-- The fields that `cbfs_create_file_header` fills in. -/
def fileHeaderFields (type len offset : Nat) : Memory :=
  let entry : Memory := fun _ => cbfsContentDefaultValue
  let entry := store entry 0 cbfsFileMagic
  let entry := setType entry 0 type
  let entry := setLen entry 0 len
  let entry := setAttributesOffset entry 0 0
  setOffset entry 0 offset

/-- `cbfs_create_file_header`, in a buffer that starts at zero. -/
def cbfsCreateFileHeader (type len : Nat) (name : List Byte) : Memory :=
  let entry := fileHeaderFields type len (cbfsCalculateFileHeaderSize name)
  let entry := fill entry (filename 0) (entryOffset entry 0 - sizeofFile) 0
  store entry (filename 0) (name ++ [0])

def cbfsCreateEmptyEntry (data : Memory) (entry type len : Nat) (name : List Byte) : Memory :=
  let tmp := cbfsCreateFileHeader type len name
  let data := store data entry (load tmp 0 (entryOffset tmp 0))
  fill data (entry + entryOffset data entry) len cbfsContentDefaultValue

structure Image where
  size : Nat
  data : Memory

def cbfsFindFirstEntry : Nat := 0

def cbfsFindNextEntry (data : Memory) (entry : Nat) : Nat :=
  alignUp (add32 entry (add32 (entryOffset data entry) (entryLen data entry))) cbfsEntryAlignment

def cbfsIsValidEntry (image : Image) (entry : Nat) : Bool :=
  decide (entry < image.size ∧ cbfsFileMagic.length ≤ image.size - entry ∧
    load image.data entry cbfsFileMagic.length = cbfsFileMagic)

def minEntrySize : Nat := cbfsCalculateFileHeaderSize []

/-- A bound for the number of entries. -/
def Image.fuel (image : Image) : Nat := image.size + 1

/-- The loop of `cbfs_merge_empty_entry` over the entries behind an empty
one. -/
def mergeNext (entry : Nat) : Nat → Image → Nat → Option Image
  | 0, _, _ => none
  | fuel + 1, image, next =>
    if !cbfsIsValidEntry image next then some image
    else
      let type := entryType image.data next
      let data := if type = cbfsComponentDeleted then
        setType image.data next cbfsComponentNull else image.data
      if type ≠ cbfsComponentDeleted ∧ type ≠ cbfsComponentNull then
        some { image with data }
      else
        let lastAddr := cbfsFindNextEntry data next
        let data := cbfsCreateEmptyEntry data entry cbfsComponentNull
          (subSize (sub32 lastAddr entry) minEntrySize) []
        mergeNext entry fuel { image with data } (cbfsFindNextEntry data entry)

def recycle (data : Memory) (entry : Nat) : Memory :=
  if entryType data entry = cbfsComponentDeleted then
    store (setType data entry cbfsComponentNull) (filename entry) [0]
  else data

def cbfsMergeEmptyEntry (image : Image) (entry : Nat) : Option Image :=
  let data := recycle image.data entry
  if entryType data entry ≠ cbfsComponentNull then some { image with data }
  else mergeNext entry image.fuel { image with data } (cbfsFindNextEntry data entry)

/-- The loop of `cbfs_walk` with `cbfs_merge_empty_entry`. -/
def walkMerge : Nat → Image → Nat → Option Image
  | 0, _, _ => none
  | fuel + 1, image, entry =>
    if !cbfsIsValidEntry image entry then some image
    else
      match cbfsMergeEmptyEntry image entry with
      | none => none
      | some image =>
        walkMerge fuel image (cbfsFindNextEntry image.data entry)

def cbfsWalkMerge (image : Image) : Option Image := walkMerge image.fuel image cbfsFindFirstEntry

/-- `cbfs_image_create` of an image without a master header. -/
def cbfsImageCreate (image : Image) (entriesSize : Nat) : Option Image :=
  if cbfsEntryAlignment < minEntrySize then none
  else if entriesSize > image.size then none
  else if minEntrySize > entriesSize then none
  else
    let entriesSize := entriesSize - entriesSize % cbfsEntryAlignment
    let capacity := subSize entriesSize minEntrySize
    some { image with
      data := cbfsCreateEmptyEntry image.data 0 cbfsComponentNull capacity [] }

/-- The empty entry in front of the content in `cbfs_add_entry_at`, with the
entry that follows it. -/
def createBefore (data : Memory) (entry headerOffset : Nat) : Memory × Nat :=
  if sub32 headerOffset entry > minEntrySize then
    let len := sub32 (sub32 headerOffset entry) minEntrySize
    let data := cbfsCreateEmptyEntry data entry cbfsComponentNull len []
    (data, cbfsFindNextEntry data entry)
  else (data, entry)

/-- The header and the content in `cbfs_add_entry_at`. -/
def putFile (data : Memory) (entry : Nat) (content : List Byte)
    (contentOffset : Nat) (header : Memory) : Memory :=
  let headerSize := entryOffset header 0
  let len := sub32 (sub32 contentOffset entry) headerSize
  let data := store data entry (load header 0 headerSize)
  -- The header moved backwards to its alignment.
  let data := if len ≠ 0 then
    setOffset data entry (add32 (entryOffset data entry) len) else data
  store data (entry + entryOffset data entry) (content.take (entryLen data entry))

/-- The empty entry behind the content in `cbfs_add_entry_at`. -/
def createAfter (size : Nat) (data : Memory) (entry addrNext : Nat) : Option Memory :=
  if entry = addrNext then some data
  -- An assertion stops the tool.
  else if ¬ entry < addrNext then none
  else if sub32 addrNext entry < minEntrySize then some data
  else
    let len := sub32 (sub32 addrNext entry) minEntrySize
    -- Keep space for the master header pointer.
    let len := if entry + minEntrySize + len > size - 4 then sub32 len 4 else len
    some (cbfsCreateEmptyEntry data entry cbfsComponentNull len [])

def cbfsAddEntryAt (image : Image) (entry : Nat) (content : List Byte)
    (contentOffset : Nat) (header : Memory) : Option Image :=
  let addrNext := cbfsFindNextEntry image.data entry
  let headerSize := entryOffset header 0
  let headerOffset := sub32 contentOffset headerSize
  let headerOffset := sub32 headerOffset (headerOffset % cbfsEntryAlignment)
  if headerOffset < entry then none
  else
    let (data, entry) := createBefore image.data entry headerOffset
    let data := putFile data entry content contentOffset header
    (createAfter image.size data (cbfsFindNextEntry data entry) addrNext).map
      fun data => { image with data }

/-- What `cbfs_add_entry` does with an entry. -/
inductive Verdict where
  | skip
  | stop
  | place (contentOffset : Nat)
deriving DecidableEq, Repr

/-- The tests of `cbfs_add_entry` on an entry. -/
def testEntry (data : Memory) (entry headerSize size contentOffset : Nat) : Verdict :=
  let needSize := add32 headerSize size
  let addrNext := cbfsFindNextEntry data entry
  if entryType data entry ≠ cbfsComponentNull then .skip
  else if add32 entry needSize > addrNext then .skip
  else if contentOffset > 0 then
    if addrNext < contentOffset then .skip
    else if entry > contentOffset then .stop
    else if add32 entry headerSize > contentOffset then .stop
    else if contentOffset + size > addrNext then .stop
    else .place contentOffset
  else .place (add32 entry headerSize)

/-- The loop of `cbfs_add_entry`, with whether the content was added. -/
def searchSpace (image : Image) (content : List Byte) (contentOffset : Nat)
    (header : Memory) : Nat → Nat → Option (Bool × Image)
  | 0, _ => none
  | fuel + 1, entry =>
    if !cbfsIsValidEntry image entry then some (false, image)
    else
      match testEntry image.data entry (entryOffset header 0) content.length contentOffset with
      | .skip => searchSpace image content contentOffset header fuel
          (cbfsFindNextEntry image.data entry)
      | .stop => some (false, image)
      | .place contentOffset =>
        match cbfsAddEntryAt image entry content contentOffset header with
        | none => some (false, image)
        | some image => some (true, image)

def cbfsAddEntry (image : Image) (content : List Byte) (contentOffset : Nat)
    (header : Memory) : Option (Bool × Image) :=
  match cbfsWalkMerge image with
  | none => none
  | some image => searchSpace image content contentOffset header image.fuel
      cbfsFindFirstEntry

def toLower (c : Byte) : Byte := if 0x41 ≤ c ∧ c ≤ 0x5a then c + 0x20 else c

/-- Whether `strcasecmp` is zero, for a string in the image and a name. -/
def strcasecmpEq (data : Memory) (address : Nat) : List Byte → Bool
  | [] => data address == 0
  | c :: rest =>
    toLower (data address) == toLower c && strcasecmpEq data (address + 1) rest

/-- The loop of `cbfs_get_entry`. -/
def getEntry (image : Image) (name : List Byte) : Nat → Nat → Option (Option Nat)
  | 0, _ => none
  | fuel + 1, entry =>
    if !cbfsIsValidEntry image entry then some none
    else if strcasecmpEq image.data (filename entry) name then
      some (some entry)
    else getEntry image name fuel (cbfsFindNextEntry image.data entry)

/-- `cbfs_get_entry`, with a null pointer as `some none`. -/
def cbfsGetEntry (image : Image) (name : List Byte) : Option (Option Nat) :=
  getEntry image name image.fuel cbfsFindFirstEntry

def cbfsRemoveEntry (image : Image) (name : List Byte) : Option (Bool × Image) :=
  match cbfsGetEntry image name with
  | none => none
  | some none => some (false, image)
  | some (some entry) =>
    (cbfsWalkMerge { image with
      data := setType image.data entry cbfsComponentDeleted }).map fun image => (true, image)

end Coreboot.Cbfs
