import Coreboot.ByteMemory
import Coreboot.RegionDevice
import Coreboot.SteppedRun
import Coreboot.WordAlignment

/-!
# Scanning a region for files

The headers of the files are at multiples of the alignment. A scan takes the next one with the
magic, and goes on behind the contents of the file.
-/

namespace Coreboot.CbfsScan

open ByteMemory RegionDevice SteppedRun

def cbfsFileMagic : List Byte := [0x4c, 0x41, 0x52, 0x43, 0x48, 0x49, 0x56, 0x45]

def cbfsFileSize : Nat := 24

def cbfsHeaderSize : Nat := 32

def cbfsTypeDeleted : Nat := 0x00000000

def cbfsTypeDeleted2 : Nat := 0xffffffff

/-- A region of the boot device.  A flash has 64 MiB at most, so twice the size of
the region still fits into a `size_t`. -/
structure Cbfs (width : Nat) where
  region : Region width
  small : region.offset.toNat + 2 * region.size.toNat < 2 ^ width

/-- `struct cbfsf`, with regions of the boot device. -/
structure Cbfsf (width : Nat) where
  metadata : Region width
  data : Region width

/-- What `cbfs_for_each_file` returns. -/
inductive Scan (width : Nat) where
  | file (fh : Cbfsf width)
  | atEnd
  | failed

/-- `ALIGN_UP` to `CBFS_ALIGNMENT`. -/
def alignUp {width : Nat} (offset : BitVec width) : BitVec width := WordAlignment.alignUp offset 6

def rdevRelativeOffset {width : Nat} (p c : Region width) : BitVec width :=
  if isSubregion p c then c.offset - p.offset else -1

section Functions

variable (contents : Memory) {width : Nat}

/-- The bytes at an interval of a device, if the request is accepted. -/
def access (rd : Region width) (offset size : BitVec width) : Option Memory :=
  (normalizeAndOk rd ⟨offset, size⟩).map fun req index =>
    contents (req.offset.toNat + index)

def rdevReadat : Region width → BitVec width → BitVec width → Option Memory := access contents

def rdevMmap : Region width → BitVec width → BitVec width → Option Memory := access contents

variable (cbfs : Cbfs width)

def cbfsNextOffset : Option (Cbfsf width) → BitVec width
  | none => 0
  | some f => alignUp (rdevRelativeOffset cbfs.region f.data + f.data.size)

def cbfsEnd (offset : BitVec width) : Bool := cbfs.region.size ≤ offset

/-- A turn of the loop of `cbfs_for_each_file`. -/
def scanStep (offset : BitVec width) : BitVec width ⊕ Scan width :=
  if cbfsEnd cbfs offset then .inr .atEnd
  else
    match rdevReadat contents cbfs.region offset (BitVec.ofNat width cbfsFileSize) with
    | none => .inr .failed
    | some file =>
      if load file 0 8 ≠ cbfsFileMagic then .inl (alignUp (offset + 1))
      else
        let fileLen := BitVec.ofNat width (readBE 4 file 8)
        let fileOffset := BitVec.ofNat width (readBE 4 file 20)
        match normalizeAndOk cbfs.region ⟨offset, fileOffset⟩ with
        | none => .inr .failed
        | some metadata =>
          match normalizeAndOk cbfs.region ⟨offset + fileOffset, fileLen⟩ with
          | none => .inr .failed
          | some data => .inr (.file ⟨metadata, data⟩)

def cbfsForEachFile (fuel : Nat) (prev : Option (Cbfsf width)) : Option (Scan width) :=
  run (scanStep contents cbfs) fuel (cbfsNextOffset cbfs prev)

def cbfsfFileType (fh : Cbfsf width) : Option Nat :=
  (rdevReadat contents fh.metadata 12 4).map fun ftype => readBE 4 ftype 0

/-- A loop over the files: it calls `cbfs_for_each_file`, or is inside of it. -/
inductive WalkState (width : Nat) (α : Type*) where
  | calls (prev : Option (Cbfsf width)) (acc : α)
  | scans (offset : BitVec width) (acc : α)

/-- A step of a loop that visits the files, and finishes at the end of the region
or at an error. -/
def walkStep {α ρ : Type*} (visit : α → Cbfsf width → α ⊕ ρ)
    (finish : α → Bool → ρ) : WalkState width α → WalkState width α ⊕ ρ
  | .calls prev acc => .inl (.scans (cbfsNextOffset cbfs prev) acc)
  | .scans offset acc =>
    match scanStep contents cbfs offset with
    | .inl next => .inl (.scans next acc)
    | .inr (.file fh) =>
      match visit acc fh with
      | .inl acc => .inl (.calls (some fh) acc)
      | .inr result => .inr result
    | .inr .atEnd => .inr (finish acc true)
    | .inr .failed => .inr (finish acc false)

/-- What `cbfs_locate` does with a file; it has no value when it breaks off. -/
def locateFile (name : List Byte) (type : Option Nat) (fh : Cbfsf width) :
    Unit ⊕ Option (Cbfsf width) :=
  let fsz := BitVec.ofNat width cbfsFileSize
  match rdevMmap contents fh.metadata fsz (fh.metadata.size - fsz) with
  | none => .inr none
  | some fname =>
    -- The name ends with a zero byte.
    if load fname 0 (name.length + 1) ≠ name ++ [0] then .inl ()
    else
      match type with
      | none => .inr (some fh)
      | some type =>
        match cbfsfFileType contents fh with
        | none => .inr none
        | some ftype => if type ≠ ftype then .inl () else .inr (some fh)

def cbfsLocate (fuel : Nat) (name : List Byte) (type : Option Nat) :
    Option (Option (Cbfsf width)) :=
  run (walkStep contents cbfs (fun _ => locateFile contents name type)
    fun _ _ => none) fuel (.calls none ())

end Functions

structure Vb2Digest (δ : Type) where
  errorUnknown : Int
  init : Nat → Except Int δ
  extend : δ → List Byte → Except Int δ
  finalize : δ → Nat → Except Int (List Byte)

section Digest

variable (contents : Memory) {width : Nat} {δ : Type} (vb2 : Vb2Digest δ)

/-- The loop of `cbfs_extend_hash`, over blocks of the size of the buffer. -/
def extendBlocks (rdev : Region width) (szLeft offset : Nat) (ctx : δ) : Except Int δ :=
  if szLeft = 0 then .ok ctx
  else
    let blockSz := min szLeft 1024
    match rdevReadat contents rdev (BitVec.ofNat width offset) (BitVec.ofNat width blockSz) with
    | none => .error vb2.errorUnknown
    | some buffer =>
      match vb2.extend ctx (load buffer 0 blockSz) with
      | .error rv => .error rv
      | .ok ctx => extendBlocks rdev (szLeft - blockSz) (offset + blockSz) ctx
termination_by szLeft
decreasing_by omega

def cbfsExtendHash (rdev : Region width) (ctx : δ) : Except Int δ :=
  extendBlocks contents vb2 rdev rdev.size.toNat 0 ctx

def cbfsExtendHashWithOffset (p c : Region width) (ctx : δ) : Except Int δ := do
  let soffset := (rdevRelativeOffset p c).setWidth 32
  if soffset.toInt < 0 then throw vb2.errorUnknown
  let ctx ← vb2.extend ctx (encodeBE 4 soffset.toNat)
  cbfsExtendHash contents vb2 c ctx

def chain (p : Region width) (offset size : BitVec width) : Except Int (Region width) :=
  match normalizeAndOk p ⟨offset, size⟩ with
  | none => .error vb2.errorUnknown
  | some rdev => .ok rdev

def cbfsExtendHashMasterHeader (cbfs : Region width) (ctx : δ) : Except Int δ := do
  let rdev ← chain vb2 cbfs 0 (BitVec.ofNat width cbfsHeaderSize)
  let ctx ← cbfsExtendHashWithOffset contents vb2 cbfs rdev ctx
  -- Include potential relative offset at end of region.
  let rdev ← chain vb2 cbfs (cbfs.size - 4) 4
  cbfsExtendHashWithOffset contents vb2 cbfs rdev ctx

/-- What `cbfs_vb2_hash_contents` does with a file. -/
def hashFile (cbfs : Cbfs width) (ctx : δ) (fh : Cbfsf width) : δ ⊕ Except Int (List Byte) :=
  match cbfsExtendHashWithOffset contents vb2 cbfs.region fh.metadata ctx with
  | .error rv => .inr (.error rv)
  | .ok ctx =>
    match cbfsfFileType contents fh with
    | none => .inr (.error vb2.errorUnknown)
    | some ftype =>
      if ftype = cbfsTypeDeleted ∨ ftype = cbfsTypeDeleted2 then .inl ctx
      else
        match cbfsExtendHashWithOffset contents vb2 cbfs.region fh.data ctx with
        | .error rv => .inr (.error rv)
        | .ok ctx => .inl ctx

/-- The end of the loop of `cbfs_vb2_hash_contents`. -/
def hashEnd (digestSz : Nat) (ctx : δ) (atEnd : Bool) : Except Int (List Byte) :=
  if atEnd then vb2.finalize ctx digestSz else .error vb2.errorUnknown

def cbfsVb2HashContents (fuel : Nat) (cbfs : Cbfs width)
    (hashAlg digestSz : Nat) : Option (Except Int (List Byte)) :=
  match vb2.init hashAlg >>= cbfsExtendHashMasterHeader contents vb2 cbfs.region with
  | .error rv => some (.error rv)
  | .ok ctx =>
    run (walkStep contents cbfs (hashFile contents vb2 cbfs)
      (hashEnd vb2 digestSz)) fuel (.calls none ctx)

end Digest

section Headers

variable (contents : Memory) {width : Nat} (cbfs : Cbfs width)

def Cbfs.start : Nat := cbfs.region.offset.toNat

def Cbfs.size : Nat := cbfs.region.size.toNat

def HasMagic (offset : Nat) : Prop := load contents (cbfs.start + offset) 8 = cbfsFileMagic

def fileLen (offset : Nat) : Nat := readBE 4 contents (cbfs.start + offset + 8)

def fileType (offset : Nat) : Nat := readBE 4 contents (cbfs.start + offset + 12)

def fileOffset (offset : Nat) : Nat := readBE 4 contents (cbfs.start + offset + 20)

def fileEnd (offset : Nat) : Nat :=
  offset + fileOffset contents cbfs offset + fileLen contents cbfs offset

structure FileAt (offset : Nat) : Prop where
  header : offset + cbfsFileSize ≤ cbfs.size
  magic : HasMagic contents cbfs offset
  inside : fileEnd contents cbfs offset ≤ cbfs.size

def fileAt (offset : Nat) : Cbfsf width where
  metadata := ⟨BitVec.ofNat width (cbfs.start + offset),
    BitVec.ofNat width (fileOffset contents cbfs offset)⟩
  data := ⟨BitVec.ofNat width (cbfs.start + (offset + fileOffset contents cbfs offset)),
    BitVec.ofNat width (fileLen contents cbfs offset)⟩

/-- The offsets in the order of the walk: aligned slots without the magic are
skipped, and the walk goes on behind the files that let it. -/
inductive Walk (goesOn : Nat → Prop) : Nat → Prop
  | start : Walk goesOn 0
  | skip {offset : Nat} (before : Walk goesOn offset)
      (inside : offset + cbfsFileSize ≤ cbfs.size)
      (other : ¬ HasMagic contents cbfs offset) :
      Walk goesOn (offset + 64)
  | next {offset : Nat} (before : Walk goesOn offset)
      (file : FileAt contents cbfs offset) (goes : goesOn offset) :
      Walk goesOn (WordAlignment.ceil (fileEnd contents cbfs offset) 6)

def Matches (name : List Byte) (type : Option Nat) (offset : Nat) : Prop :=
  load contents (cbfs.start + offset + cbfsFileSize) (name.length + 1) = name ++ [0] ∧
    ∀ wanted ∈ type, fileType contents cbfs offset = wanted

/-- The walk to a name and a type goes on behind a file.  Metadata that is shorter
than the header is malformed. -/
def Passes (name : List Byte) (type : Option Nat) (offset : Nat) : Prop :=
  cbfsFileSize ≤ fileOffset contents cbfs offset ∧ ¬ Matches contents cbfs name type offset

/-- A file is the first one of the walk that has a name and a type, before the end
of the region and the first malformed header. -/
def FirstMatch (name : List Byte) (type : Option Nat) (fh : Cbfsf width) : Prop :=
  ∃ offset, Walk contents cbfs (Passes contents cbfs name type) offset ∧
    FileAt contents cbfs offset ∧
    cbfsFileSize ≤ fileOffset contents cbfs offset ∧
    Matches contents cbfs name type offset ∧ fh = fileAt contents cbfs offset

/-- The files that `cbfs_for_each_file` returns one after the other. -/
inductive Enumerated : Option (Cbfsf width) → Prop
  | start : Enumerated none
  | next {prev : Option (Cbfsf width)} {fh : Cbfsf width}
      (before : Enumerated prev)
      (found : ∃ fuel, cbfsForEachFile contents cbfs fuel prev = some (.file fh)) :
      Enumerated (some fh)

/-- A file is inside of the region, and the next scan starts behind the start of
the scan that found it. -/
structure SoundStep (prev : Option (Cbfsf width)) (fh : Cbfsf width) : Prop where
  metadata : cbfs.region.Holds fh.metadata.offset.toNat fh.metadata.size.toNat
  data : cbfs.region.Holds fh.data.offset.toNat fh.data.size.toNat
  progress : cbfsNextOffset cbfs prev < cbfsNextOffset cbfs (some fh)

/-- What the functions promise for the contents of the flash. -/
structure ScanCorrect : Prop where
  locateEnds : ∀ name type, ∃ fuel result, cbfsLocate contents cbfs fuel name type = some result
  hashEnds : ∀ {δ : Type} (vb2 : Vb2Digest δ) (hashAlg digestSz : Nat),
    ∃ fuel result, cbfsVb2HashContents contents vb2 fuel cbfs hashAlg digestSz = some result
  steps : ∀ prev fh fuel, Enumerated contents cbfs prev →
    cbfsForEachFile contents cbfs fuel prev = some (.file fh) →
    SoundStep cbfs prev fh
  locates : ∀ name type fh,
    (∃ fuel, cbfsLocate contents cbfs fuel name type = some (some fh)) ↔
      FirstMatch contents cbfs name type fh

/-- A header of a file with neither metadata nor data is met. -/
def MeetsEmpty : Prop :=
  ∃ offset, Walk contents cbfs (fun _ => True) offset ∧
    offset + cbfsFileSize ≤ cbfs.size ∧ HasMagic contents cbfs offset ∧
    fileOffset contents cbfs offset = 0 ∧ fileLen contents cbfs offset = 0

end Headers

section Turn

variable {contents : Memory} {width : Nat} {cbfs : Cbfs width} {offset size : BitVec width}

theorem Cbfs.fits (cbfs : Cbfs width) : cbfs.region.Fits := by
  have small := cbfs.small
  rw [Region.Fits]
  omega

theorem Cbfs.not_wraps (cbfs : Cbfs width)
    (near : offset.toNat ≤ cbfs.size) : ¬ cbfs.region.Wraps offset size := by
  have small := cbfs.small
  rw [Cbfs.size] at near
  rintro ⟨short, -, wraps⟩
  omega

theorem Cbfs.size_lt (cbfs : Cbfs width) (wide : 32 ≤ width) : cbfs.size + 64 < 2 ^ width := by
  have small := cbfs.small
  have room : 2 ^ 32 ≤ 2 ^ width := Nat.pow_le_pow_right (by decide) wide
  rw [Cbfs.size]
  omega

theorem load_shift (memory : Memory) (base skip count : Nat) :
    load (fun index => memory (base + index)) skip count = load memory (base + skip) count := by
  induction count generalizing skip with
  | zero => rfl
  | succ count ih => rw [load, load, ih, Nat.add_assoc]

theorem readBE_shift (memory : Memory) (base skip count : Nat) :
    readBE count (fun index => memory (base + index)) skip = readBE count memory (base + skip) := by
  rw [readBE, load_shift, readBE]

theorem toNat_readBE (wide : 32 ≤ width) (memory : Memory) (base : Nat) :
    (BitVec.ofNat width (readBE 4 memory base)).toNat = readBE 4 memory base := by
  have bound := readBE_lt 4 memory base
  have room : 2 ^ 32 ≤ 2 ^ width := Nat.pow_le_pow_right (by decide) wide
  rw [BitVec.toNat_ofNat, Nat.mod_eq_of_lt (by omega)]

theorem access_eq {rd : Region width} (fits : rd.Fits) (exact : ¬ rd.Wraps offset size) :
    access contents rd offset size =
      if offset.toNat + size.toNat ≤ rd.size.toNat then
        some fun index => contents (rd.offset.toNat + offset.toNat + index)
      else none := by
  rw [access, normalizeAndOk_eq fits offset size exact]
  split_ifs with within
  · rw [Region.Fits] at fits
    rw [Option.map_some, BitVec.toNat_ofNat, Nat.mod_eq_of_lt (by omega)]
  · rfl

theorem Cbfs.chain_eq (cbfs : Cbfs width) (near : offset.toNat ≤ cbfs.size) :
    normalizeAndOk cbfs.region ⟨offset, size⟩ =
      if offset.toNat + size.toNat ≤ cbfs.size then
        some ⟨BitVec.ofNat width (cbfs.start + offset.toNat), size⟩
      else none :=
  normalizeAndOk_eq cbfs.fits offset size (cbfs.not_wraps near)

instance (offset : Nat) : Decidable (HasMagic contents cbfs offset) :=
  inferInstanceAs (Decidable (_ = _))

theorem toNat_ofNat_small (wide : 32 ≤ width) {number : Nat}
    (small : number < 2 ^ 32) : (BitVec.ofNat width number).toNat = number := by
  have room : 2 ^ 32 ≤ 2 ^ width := Nat.pow_le_pow_right (by decide) wide
  rw [BitVec.toNat_ofNat, Nat.mod_eq_of_lt (by omega)]

theorem rdevReadat_header (wide : 32 ≤ width) {offset : BitVec width}
    (near : offset.toNat ≤ cbfs.size) :
    rdevReadat contents cbfs.region offset (BitVec.ofNat width cbfsFileSize) =
      if offset.toNat + cbfsFileSize ≤ cbfs.size then
        some fun index => contents (cbfs.start + offset.toNat + index)
      else none := by
  rw [rdevReadat, access_eq cbfs.fits (cbfs.not_wraps near), toNat_ofNat_small wide (by decide)]
  rfl

theorem chained (wide : 32 ≤ width) {offset : BitVec width} (near : offset.toNat ≤ cbfs.size) :
    (match normalizeAndOk cbfs.region ⟨offset,
        BitVec.ofNat width (fileOffset contents cbfs offset.toNat)⟩ with
      | none => .inr .failed
      | some metadata =>
        match normalizeAndOk cbfs.region ⟨offset +
            BitVec.ofNat width (fileOffset contents cbfs offset.toNat),
          BitVec.ofNat width (fileLen contents cbfs offset.toNat)⟩ with
        | none => .inr .failed
        | some data => .inr (.file ⟨metadata, data⟩) :
      BitVec width ⊕ Scan width) =
      if fileEnd contents cbfs offset.toNat ≤ cbfs.size then
        .inr (.file (fileAt contents cbfs offset.toNat))
      else .inr .failed := by
  have metadataSize := toNat_readBE wide contents (cbfs.start + offset.toNat + 20)
  have dataSize := toNat_readBE wide contents (cbfs.start + offset.toNat + 8)
  change (BitVec.ofNat width (fileOffset contents cbfs offset.toNat)).toNat =
    fileOffset contents cbfs offset.toNat at metadataSize
  change (BitVec.ofNat width (fileLen contents cbfs offset.toNat)).toNat =
    fileLen contents cbfs offset.toNat at dataSize
  have room := cbfs.size_lt wide
  rw [cbfs.chain_eq near, metadataSize, fileEnd]
  by_cases metadata : offset.toNat + fileOffset contents cbfs offset.toNat ≤ cbfs.size
  · have dataOffset : (offset + BitVec.ofNat width
        (fileOffset contents cbfs offset.toNat)).toNat =
          offset.toNat + fileOffset contents cbfs offset.toNat := by
      rw [BitVec.toNat_add, metadataSize, Nat.mod_eq_of_lt (by omega)]
    rw [if_pos metadata]
    rw [cbfs.chain_eq (dataOffset.le.trans metadata), dataOffset, dataSize]
    split_ifs
    · rfl
    · rfl
  · rw [if_neg metadata, if_neg (by omega)]

theorem scanStep_eq (wide : 32 ≤ width) (offset : BitVec width) :
    scanStep contents cbfs offset =
      if cbfs.size ≤ offset.toNat then .inr .atEnd
      else if cbfs.size < offset.toNat + cbfsFileSize then .inr .failed
      else if ¬ HasMagic contents cbfs offset.toNat then
        .inl (alignUp (offset + 1))
      else if fileEnd contents cbfs offset.toNat ≤ cbfs.size then
        .inr (.file (fileAt contents cbfs offset.toNat))
      else .inr .failed := by
  have atEnd : cbfsEnd cbfs offset = true ↔ cbfs.size ≤ offset.toNat := by
    rw [cbfsEnd, decide_eq_true_iff]
    rfl
  rw [scanStep]
  by_cases behind : cbfs.size ≤ offset.toNat
  · rw [if_pos (atEnd.mpr behind), if_pos behind]
  rw [if_neg (mt atEnd.mp behind), if_neg behind, rdevReadat_header wide (by omega)]
  by_cases short : cbfs.size < offset.toNat + cbfsFileSize
  · rw [if_neg (Nat.not_le.mpr short), if_pos short]
  rw [if_pos (Nat.not_lt.mp short), if_neg short]
  dsimp only
  rw [load_shift, readBE_shift, readBE_shift]
  by_cases magic : HasMagic contents cbfs offset.toNat
  · rw [if_neg (not_not_intro magic)]
    exact (if_neg (not_not_intro magic)).trans (chained wide (by omega))
  · rw [if_pos magic]
    exact if_pos magic

end Turn

variable {goesOn : Nat → Prop}

section Scanning

variable {contents : Memory} {width : Nat} {cbfs : Cbfs width}

theorem dvd_of_walk {offset : Nat} (walk : Walk contents cbfs goesOn offset) : 64 ∣ offset := by
  induction walk with
  | start => exact Nat.dvd_zero 64
  | skip _ _ _ ih => exact (Nat.dvd_add_right ih).mpr (Nat.dvd_refl 64)
  | next => exact WordAlignment.dvd_ceil _ 6

theorem toNat_alignUp {offset : BitVec width} (small : offset.toNat + 64 ≤ 2 ^ width) :
    (alignUp offset).toNat = WordAlignment.ceil offset.toNat 6 :=
  WordAlignment.toNat_alignUp_of_lt (by omega)

theorem toNat_skip (cbfs : Cbfs width) (wide : 32 ≤ width) {offset : BitVec width}
    (inside : offset.toNat < cbfs.size) :
    (alignUp (offset + 1)).toNat = WordAlignment.ceil (offset.toNat + 1) 6 := by
  have room := cbfs.size_lt wide
  have one : (1 : BitVec width).toNat = 1 := toNat_ofNat_small wide (by decide)
  have sum : (offset + 1).toNat = offset.toNat + 1 := by
    rw [BitVec.toNat_add, one, Nat.mod_eq_of_lt (by omega)]
  rw [toNat_alignUp (by omega), sum]

theorem ceil_succ {offset : Nat} (aligned : 64 ∣ offset) :
    WordAlignment.ceil (offset + 1) 6 = offset + 64 := by
  refine le_antisymm (WordAlignment.ceil_le ?_ (by omega)) ?_
  · exact (Nat.dvd_add_right aligned).mpr (Nat.dvd_refl 64)
  · have above := WordAlignment.le_ceil (offset + 1) 6
    have multiple : 64 ∣ WordAlignment.ceil (offset + 1) 6 := WordAlignment.dvd_ceil (offset + 1) 6
    omega

theorem toNat_region {number : Nat} (inside : number ≤ cbfs.size) :
    (BitVec.ofNat width (cbfs.start + number)).toNat = cbfs.start + number := by
  have small := cbfs.small
  rw [Cbfs.size] at inside
  rw [BitVec.toNat_ofNat, Nat.mod_eq_of_lt]
  rw [Cbfs.start]
  omega

section

variable (wide : 32 ≤ width)
include wide

theorem metadata_inside {offset : Nat} (file : FileAt contents cbfs offset) :
    cbfs.region.Holds (fileAt contents cbfs offset).metadata.offset.toNat
      (fileAt contents cbfs offset).metadata.size.toNat := by
  have inside := file.inside
  rw [fileEnd] at inside
  have start : (fileAt contents cbfs offset).metadata.offset.toNat =
      cbfs.start + offset := toNat_region (by omega)
  have size : (fileAt contents cbfs offset).metadata.size.toNat =
      fileOffset contents cbfs offset := toNat_readBE wide _ _
  rw [Region.Holds, start, size]
  change cbfs.start ≤ _ ∧ _ ≤ cbfs.start + cbfs.size
  omega

theorem data_inside {offset : Nat} (file : FileAt contents cbfs offset) :
    cbfs.region.Holds (fileAt contents cbfs offset).data.offset.toNat
      (fileAt contents cbfs offset).data.size.toNat := by
  have inside := file.inside
  rw [fileEnd] at inside
  have start : (fileAt contents cbfs offset).data.offset.toNat =
      cbfs.start + (offset + fileOffset contents cbfs offset) :=
    toNat_region (by omega)
  have size : (fileAt contents cbfs offset).data.size.toNat =
      fileLen contents cbfs offset := toNat_readBE wide _ _
  rw [Region.Holds, start, size]
  change cbfs.start ≤ _ ∧ _ ≤ cbfs.start + cbfs.size
  omega

theorem toNat_cbfsNextOffset {offset : Nat} (file : FileAt contents cbfs offset) :
    (cbfsNextOffset cbfs (some (fileAt contents cbfs offset))).toNat =
      WordAlignment.ceil (fileEnd contents cbfs offset) 6 := by
  have inside := file.inside
  have room := cbfs.size_lt wide
  have small := cbfs.small
  have within : offset + fileOffset contents cbfs offset ≤ cbfs.size := by
    rw [fileEnd] at inside
    omega
  have start : (fileAt contents cbfs offset).data.offset.toNat =
      cbfs.start + (offset + fileOffset contents cbfs offset) :=
    toNat_region within
  have size : (fileAt contents cbfs offset).data.size.toNat =
      fileLen contents cbfs offset := toNat_readBE wide _ _
  have holds := data_inside wide file
  have fits : (fileAt contents cbfs offset).data.Fits := by
    have bound := holds.2
    rw [Region.Fits]
    omega
  have relative : rdevRelativeOffset cbfs.region
      (fileAt contents cbfs offset).data =
        BitVec.ofNat width (offset + fileOffset contents cbfs offset) := by
    rw [rdevRelativeOffset, if_pos ((isSubregion_of_fits cbfs.fits fits).mpr holds)]
    apply BitVec.eq_of_toNat_eq
    have above : cbfs.region.offset ≤ (fileAt contents cbfs offset).data.offset := holds.1
    rw [BitVec.toNat_sub_of_le above, start, BitVec.toNat_ofNat, Nat.mod_eq_of_lt (by omega)]
    exact Nat.add_sub_cancel_left _ _
  have sum : (BitVec.ofNat width (offset + fileOffset contents cbfs offset) +
      (fileAt contents cbfs offset).data.size).toNat = fileEnd contents cbfs offset := by
    rw [BitVec.toNat_add, size, BitVec.toNat_ofNat,
      Nat.mod_eq_of_lt (by omega : offset + _ < 2 ^ width), ← fileEnd,
      Nat.mod_eq_of_lt (by omega)]
  rw [cbfsNextOffset, relative, toNat_alignUp (by omega), sum]

theorem file_of_scanStep {offset : BitVec width} {fh : Cbfsf width}
    (found : scanStep contents cbfs offset = .inr (.file fh)) :
    FileAt contents cbfs offset.toNat ∧ fh = fileAt contents cbfs offset.toNat := by
  rw [scanStep_eq wide] at found
  split_ifs at found with behind short magic inside <;> cases found
  exact ⟨⟨Nat.not_lt.mp short, magic, inside⟩, rfl⟩

theorem skip_of_scanStep {offset next : BitVec width}
    (moves : scanStep contents cbfs offset = .inl next) :
    offset.toNat + cbfsFileSize ≤ cbfs.size ∧
      ¬ HasMagic contents cbfs offset.toNat ∧
      next.toNat = WordAlignment.ceil (offset.toNat + 1) 6 := by
  rw [scanStep_eq wide] at moves
  split_ifs at moves with behind short magic inside
  cases moves
  exact ⟨Nat.not_lt.mp short, magic, toNat_skip cbfs wide (by omega)⟩

theorem scanStep_of_fileAt {offset : BitVec width} (file : FileAt contents cbfs offset.toNat) :
    scanStep contents cbfs offset = .inr (.file (fileAt contents cbfs offset.toNat)) := by
  have header := file.header
  have eight : cbfsFileSize = 24 := rfl
  rw [scanStep_eq wide, if_neg (by omega), if_neg (by omega),
    if_neg (not_not_intro file.magic), if_pos file.inside]

theorem scanStep_of_other {offset : BitVec width} (inside : offset.toNat + cbfsFileSize ≤ cbfs.size)
    (other : ¬ HasMagic contents cbfs offset.toNat) :
    scanStep contents cbfs offset = .inl (alignUp (offset + 1)) := by
  have eight : cbfsFileSize = 24 := rfl
  rw [scanStep_eq wide, if_neg (by omega), if_neg (by omega), if_pos other]

theorem toNat_slot {offset : BitVec width} (aligned : 64 ∣ offset.toNat)
    (inside : offset.toNat + cbfsFileSize ≤ cbfs.size) :
    (alignUp (offset + 1)).toNat = offset.toNat + 64 := by
  have size : cbfsFileSize = 24 := rfl
  rw [toNat_skip cbfs wide (by omega), ceil_succ aligned]

end

end Scanning

section Loops

variable {contents : Memory} {width : Nat} {cbfs : Cbfs width} {α ρ : Type*}
  {visit : α → Cbfsf width → α ⊕ ρ} {finish : α → Bool → ρ}

def WalkState.offset (cbfs : Cbfs width) : WalkState width α → Nat
  | .calls prev _ => (cbfsNextOffset cbfs prev).toNat
  | .scans offset _ => offset.toNat

theorem walkStep_moves (wide : 32 ≤ width) {state next : WalkState width α}
    (moves : walkStep contents cbfs visit finish state = .inl next) :
    (∃ prev acc, state = .calls prev acc ∧ next = .scans (cbfsNextOffset cbfs prev) acc) ∨
    (∃ offset behind acc, state = .scans offset acc ∧ next = .scans behind acc ∧
      scanStep contents cbfs offset = .inl behind) ∨
    (∃ offset acc after, state = .scans offset acc ∧
      next = .calls (some (fileAt contents cbfs offset.toNat)) after ∧
      FileAt contents cbfs offset.toNat ∧
      visit acc (fileAt contents cbfs offset.toNat) = .inl after) := by
  cases state with
  | calls prev acc =>
    cases moves
    exact .inl ⟨prev, acc, rfl, rfl⟩
  | scans offset acc =>
    rw [walkStep] at moves
    cases scanned : scanStep contents cbfs offset with
    | inl behind =>
      rw [scanned] at moves
      cases moves
      exact .inr (.inl ⟨offset, behind, acc, rfl, rfl, scanned⟩)
    | inr found =>
      rw [scanned] at moves
      cases found with
      | atEnd => cases moves
      | failed => cases moves
      | file fh =>
        obtain ⟨file, rfl⟩ := file_of_scanStep wide scanned
        cases visited : visit acc (fileAt contents cbfs offset.toNat) with
        | inl after =>
          simp only [visited] at moves
          cases moves
          exact .inr (.inr ⟨offset, acc, after, rfl, rfl, file, visited⟩)
        | inr result =>
          simp only [visited] at moves
          cases moves

theorem exists_endsWith_walkStep (wide : 32 ≤ width)
    (stops : ∀ acc offset after, FileAt contents cbfs offset →
      visit acc (fileAt contents cbfs offset) = .inl after →
      fileOffset contents cbfs offset ≠ 0) (state : WalkState width α) :
    ∃ result, EndsWith (walkStep contents cbfs visit finish) state result := by
  refine exists_endsWith (fun state => match state with
    | .calls prev _ => 2 * (2 ^ width - (cbfsNextOffset cbfs prev).toNat) + 1
    | .scans offset _ => 2 * (2 ^ width - offset.toNat)) ?_ state
  intro state next moves
  rcases walkStep_moves wide moves with ⟨prev, acc, rfl, rfl⟩ |
    ⟨offset, behind, acc, rfl, rfl, scanned⟩ |
    ⟨offset, acc, after, rfl, rfl, file, visited⟩
  · exact Nat.lt_succ_self _
  · obtain ⟨-, -, next⟩ := skip_of_scanStep wide scanned
    have above := WordAlignment.le_ceil (offset.toNat + 1) 6
    have bound := behind.isLt
    dsimp only
    omega
  · have next := toNat_cbfsNextOffset wide file
    have above := WordAlignment.le_ceil (fileEnd contents cbfs offset.toNat) 6
    have longer := stops acc _ after file visited
    have bound := (cbfsNextOffset cbfs (some (fileAt contents cbfs offset.toNat))).isLt
    rw [fileEnd] at next above
    dsimp only
    omega

end Loops

section Visits

variable {contents : Memory} {width : Nat} {cbfs : Cbfs width} {offset : Nat}

section

variable (wide : 32 ≤ width) (file : FileAt contents cbfs offset)
include wide file

theorem metadata_fits :
    (fileAt contents cbfs offset).metadata.Fits := by
  have small := cbfs.small
  have bound := (metadata_inside wide file).2
  rw [Region.Fits]
  omega

theorem access_metadata {skip size : BitVec width} (near : skip.toNat ≤ cbfsFileSize) :
    access contents (fileAt contents cbfs offset).metadata skip size =
      if skip.toNat + size.toNat ≤ fileOffset contents cbfs offset then
        some fun index => contents (cbfs.start + offset + skip.toNat + index)
      else none := by
  have small := cbfs.small
  have header := file.header
  have bound := (metadata_inside wide file).2
  have start : (fileAt contents cbfs offset).metadata.offset.toNat =
      cbfs.start + offset := toNat_region (by omega)
  have length : (fileAt contents cbfs offset).metadata.size.toNat =
      fileOffset contents cbfs offset := toNat_readBE wide _ _
  have exact : ¬ (fileAt contents cbfs offset).metadata.Wraps skip size := by
    rintro ⟨short, -, wraps⟩
    rw [Cbfs.size] at header
    rw [start, Cbfs.start] at wraps bound
    omega
  rw [access_eq (metadata_fits wide file) exact, start, length]

theorem cbfsfFileType_eq :
    cbfsfFileType contents (fileAt contents cbfs offset) =
      if 16 ≤ fileOffset contents cbfs offset then
        some (fileType contents cbfs offset)
      else none := by
  have twelve : (12 : BitVec width).toNat = 12 := toNat_ofNat_small wide (by decide)
  have four : (4 : BitVec width).toNat = 4 := toNat_ofNat_small wide (by decide)
  rw [cbfsfFileType, rdevReadat,
    access_metadata wide file (twelve.le.trans (by decide)), twelve, four]
  split_ifs
  · rw [Option.map_some, readBE_shift]
    rfl
  · rfl

theorem locateFile_of_short
    (short : fileOffset contents cbfs offset < cbfsFileSize) (name : List Byte) (type : Option Nat) :
    locateFile contents name type (fileAt contents cbfs offset) = .inr none := by
  have fsz : (BitVec.ofNat width cbfsFileSize).toNat = cbfsFileSize :=
    toNat_ofNat_small wide (by decide)
  have length : (fileAt contents cbfs offset).metadata.size.toNat =
      fileOffset contents cbfs offset := toNat_readBE wide _ _
  have room := cbfs.size_lt wide
  have size : cbfsFileSize = 24 := rfl
  unfold locateFile
  dsimp only
  rw [rdevMmap, access_metadata wide file fsz.le, if_neg]
  rw [BitVec.toNat_sub, fsz, length, Nat.mod_eq_of_lt (by omega)]
  omega

theorem locateFile_of_long
    (long : cbfsFileSize ≤ fileOffset contents cbfs offset) (name : List Byte) (type : Option Nat) :
    (Matches contents cbfs name type offset →
      locateFile contents name type (fileAt contents cbfs offset) =
        .inr (some (fileAt contents cbfs offset))) ∧
    (¬ Matches contents cbfs name type offset →
      locateFile contents name type (fileAt contents cbfs offset) = .inl ()) := by
  have fsz : (BitVec.ofNat width cbfsFileSize).toNat = cbfsFileSize :=
    toNat_ofNat_small wide (by decide)
  have length : (fileAt contents cbfs offset).metadata.size.toNat =
      fileOffset contents cbfs offset := toNat_readBE wide _ _
  have rest : ((fileAt contents cbfs offset).metadata.size -
      BitVec.ofNat width cbfsFileSize).toNat = fileOffset contents cbfs offset - cbfsFileSize := by
    have le : BitVec.ofNat width cbfsFileSize ≤ (fileAt contents cbfs offset).metadata.size := by
      rw [BitVec.le_def, fsz, length]
      exact long
    rw [BitVec.toNat_sub_of_le le, fsz, length]
  unfold locateFile
  dsimp only
  rw [rdevMmap, access_metadata wide file fsz.le, rest, fsz, if_pos (Nat.add_sub_of_le long).le]
  dsimp only
  rw [load_shift, Nat.add_zero]
  by_cases named : load contents (cbfs.start + offset + cbfsFileSize)
      (name.length + 1) = name ++ [0]
  · rw [if_neg (not_not_intro named)]
    cases type with
    | none => exact ⟨fun _ => rfl, fun other => absurd ⟨named, nofun⟩ other⟩
    | some wanted =>
      have sixteen : 16 ≤ cbfsFileSize := by decide
      rw [cbfsfFileType_eq wide file, if_pos (sixteen.trans long)]
      dsimp only
      by_cases same : wanted = fileType contents cbfs offset
      · rw [if_neg (not_not_intro same)]
        refine ⟨fun _ => rfl, fun other => absurd ⟨named, ?_⟩ other⟩
        rintro _ ⟨⟩
        exact same.symm
      · rw [if_pos same]
        exact ⟨fun found => absurd (found.2 wanted rfl).symm same, fun _ => rfl⟩
  · rw [if_pos named]
    exact ⟨fun found => absurd found.1 named, fun _ => rfl⟩

theorem fileOffset_of_locateFile {name : List Byte} {type : Option Nat}
    (passes : locateFile contents name type (fileAt contents cbfs offset) = .inl ()) :
    cbfsFileSize ≤ fileOffset contents cbfs offset ∧ ¬ Matches contents cbfs name type offset := by
  by_cases short : fileOffset contents cbfs offset < cbfsFileSize
  · rw [locateFile_of_short wide file short] at passes
    cases passes
  · have long := Nat.not_lt.mp short
    refine ⟨long, fun found => ?_⟩
    rw [(locateFile_of_long wide file long name type).1 found] at passes
    cases passes

theorem fileOffset_of_hashFile {δ : Type} {vb2 : Vb2Digest δ} {ctx after : δ}
    (passes : hashFile contents vb2 cbfs ctx (fileAt contents cbfs offset) = .inl after) :
    fileOffset contents cbfs offset ≠ 0 := by
  intro empty
  rw [hashFile] at passes
  split at passes
  · cases passes
  · rw [cbfsfFileType_eq wide file, empty] at passes
    cases passes

end

end Visits

section Enumeration

variable {contents : Memory} {width : Nat} {cbfs : Cbfs width}

variable {prev : Option (Cbfsf width)} {fh : Cbfsf width} {first : BitVec width}

theorem found_iff :
    (∃ fuel, cbfsForEachFile contents cbfs fuel prev = some (.file fh)) ↔
      EndsWith (scanStep contents cbfs) (cbfsNextOffset cbfs prev) (.file fh) :=
  exists_run_iff

theorem toNat_start : (cbfsNextOffset cbfs none).toNat = 0 :=
  BitVec.toNat_ofNat 0 width ▸ Nat.zero_mod _

section

variable (wide : 32 ≤ width) {last : BitVec width}
include wide

theorem le_of_reaches (reaches : Reaches (scanStep contents cbfs) first last) :
    first.toNat ≤ last.toNat := by
  induction reaches with
  | refl => exact le_rfl
  | @tail offset next _ moves ih =>
    obtain ⟨-, -, behind⟩ := skip_of_scanStep wide moves
    have above := WordAlignment.le_ceil (offset.toNat + 1) 6
    omega

theorem walk_of_reaches (walk : Walk contents cbfs goesOn first.toNat)
    (reaches : Reaches (scanStep contents cbfs) first last) :
    Walk contents cbfs goesOn last.toNat := by
  induction reaches with
  | refl => exact walk
  | tail _ moves ih =>
    obtain ⟨inside, other, behind⟩ := skip_of_scanStep wide moves
    rw [behind, ceil_succ (dvd_of_walk ih)]
    exact ih.skip inside other

theorem file_of_found (walk : Walk contents cbfs goesOn first.toNat)
    (found : EndsWith (scanStep contents cbfs) first (.file fh)) :
    ∃ offset, Walk contents cbfs goesOn offset ∧ FileAt contents cbfs offset ∧
      fh = fileAt contents cbfs offset ∧ first.toNat ≤ offset := by
  obtain ⟨last, reaches, ended⟩ := found
  obtain ⟨file, is⟩ := file_of_scanStep wide ended
  exact ⟨last.toNat, walk_of_reaches wide walk reaches, file, is, le_of_reaches wide reaches⟩

theorem walk_of_enumerated (enumerated : Enumerated contents cbfs prev) :
    Walk contents cbfs (fun _ => True) (cbfsNextOffset cbfs prev).toNat := by
  induction enumerated with
  | start =>
    rw [toNat_start]
    exact .start
  | next _ found ih =>
    obtain ⟨offset, walk, file, rfl, -⟩ := file_of_found wide ih (found_iff.mp found)
    rw [toNat_cbfsNextOffset wide file]
    exact walk.next file trivial

theorem enumerated_of_walk {offset : Nat} (walk : Walk contents cbfs (fun _ => True) offset) :
    ∃ prev current, Enumerated contents cbfs prev ∧ current.toNat = offset ∧
      Reaches (scanStep contents cbfs) (cbfsNextOffset cbfs prev) current := by
  induction walk with
  | start => exact ⟨none, _, .start, toNat_start, .refl⟩
  | skip before inside other ih =>
    obtain ⟨prev, current, enumerated, rfl, reaches⟩ := ih
    exact ⟨prev, _, enumerated, toNat_slot wide (dvd_of_walk before) inside,
      reaches.tail (scanStep_of_other wide inside other)⟩
  | next before file _ ih =>
    obtain ⟨prev, current, enumerated, rfl, reaches⟩ := ih
    have found := found_iff.mpr ⟨current, reaches, scanStep_of_fileAt wide file⟩
    exact ⟨some _, _, enumerated.next found, toNat_cbfsNextOffset wide file, .refl⟩

theorem soundStep_of_not_meetsEmpty (fine : ¬ MeetsEmpty contents cbfs)
    (enumerated : Enumerated contents cbfs prev)
    (found : EndsWith (scanStep contents cbfs) (cbfsNextOffset cbfs prev) (.file fh)) :
    SoundStep cbfs prev fh := by
  obtain ⟨offset, walk, file, rfl, above⟩ :=
    file_of_found wide (walk_of_enumerated wide enumerated) found
  have behind : offset < fileEnd contents cbfs offset := by
    by_contra stays
    rw [fileEnd] at stays
    exact fine ⟨offset, walk, file.header, file.magic, by omega, by omega⟩
  have next := WordAlignment.le_ceil (fileEnd contents cbfs offset) 6
  rw [← toNat_cbfsNextOffset wide file] at next
  exact
    { metadata := metadata_inside wide file
      data := data_inside wide file
      progress := BitVec.lt_def.mpr (by omega) }

theorem exists_not_soundStep (meets : MeetsEmpty contents cbfs) :
    ∃ prev fh, Enumerated contents cbfs prev ∧
      EndsWith (scanStep contents cbfs) (cbfsNextOffset cbfs prev) (.file fh) ∧
        ¬ SoundStep cbfs prev fh := by
  obtain ⟨offset, walk, header, magic, metadata, data⟩ := meets
  obtain ⟨prev, current, enumerated, rfl, reaches⟩ := enumerated_of_walk wide walk
  have ends : fileEnd contents cbfs current.toNat = current.toNat := by
    rw [fileEnd, metadata, data]
    rfl
  have inside : current.toNat ≤ cbfs.size := (Nat.le_add_right _ _).trans header
  have file : FileAt contents cbfs current.toNat := ⟨header, magic, ends.le.trans inside⟩
  have found := scanStep_of_fileAt wide file
  have next : cbfsNextOffset cbfs (some (fileAt contents cbfs current.toNat)) = current := by
    apply BitVec.eq_of_toNat_eq
    rw [toNat_cbfsNextOffset wide file, ends, WordAlignment.ceil_of_dvd (dvd_of_walk walk)]
  have again : Reaches (scanStep contents cbfs) (cbfsNextOffset cbfs
      (some (fileAt contents cbfs current.toNat))) current := by
    rw [next]
    exact .refl
  refine ⟨some (fileAt contents cbfs current.toNat), _,
    enumerated.next (found_iff.mpr ⟨current, reaches, found⟩),
    ⟨current, again, found⟩, fun sound => ?_⟩
  exact absurd sound.progress (BitVec.lt_irrefl _)

end

end Enumeration

section Locating

variable {contents : Memory} {width : Nat} {cbfs : Cbfs width}
  {name : List Byte} {type : Option Nat}

def locateStep (contents : Memory) (cbfs : Cbfs width) (name : List Byte)
    (type : Option Nat) :
    WalkState width Unit → WalkState width Unit ⊕ Option (Cbfsf width) :=
  walkStep contents cbfs (fun _ => locateFile contents name type) fun _ _ => none

section

variable (wide : 32 ≤ width)
include wide

theorem walk_of_locateStep {state : WalkState width Unit}
    (reaches : Reaches (locateStep contents cbfs name type) (.calls none ()) state) :
    Walk contents cbfs (Passes contents cbfs name type) (state.offset cbfs) := by
  induction reaches with
  | refl =>
    rw [WalkState.offset, toNat_start]
    exact .start
  | tail _ moves ih =>
    rcases walkStep_moves wide moves with ⟨prev, acc, rfl, rfl⟩ |
      ⟨offset, behind, acc, rfl, rfl, scanned⟩ |
      ⟨offset, acc, after, rfl, rfl, file, visited⟩
    · exact ih
    · exact walk_of_reaches wide ih (.single scanned)
    · rw [WalkState.offset, toNat_cbfsNextOffset wide file]
      exact ih.next file (fileOffset_of_locateFile wide file visited)

theorem locateStep_of_walk {offset : Nat}
    (walk : Walk contents cbfs (Passes contents cbfs name type) offset) :
    ∃ current : BitVec width, current.toNat = offset ∧
      Reaches (locateStep contents cbfs name type) (.calls none ()) (.scans current ()) := by
  induction walk with
  | start => exact ⟨_, toNat_start, .single rfl⟩
  | skip before inside other ih =>
    obtain ⟨current, rfl, reaches⟩ := ih
    refine ⟨_, toNat_slot wide (dvd_of_walk before) inside, reaches.tail ?_⟩
    rw [Moves, locateStep, walkStep, scanStep_of_other wide inside other]
  | next before file passes ih =>
    obtain ⟨current, rfl, reaches⟩ := ih
    have visited := (locateFile_of_long wide file passes.1 name type).2 passes.2
    have passed : Moves (locateStep contents cbfs name type)
        (.scans current ()) (.calls (some (fileAt contents cbfs current.toNat)) ()) := by
      rw [Moves, locateStep, walkStep, scanStep_of_fileAt wide file]
      dsimp only
      rw [visited]
    exact ⟨_, toNat_cbfsNextOffset wide file, (reaches.tail passed).trans (.single rfl)⟩

theorem endsWith_locateStep_iff {fh : Cbfsf width} :
    EndsWith (locateStep contents cbfs name type) (.calls none ()) (some fh) ↔
      FirstMatch contents cbfs name type fh := by
  constructor
  · rintro ⟨last, reaches, ended⟩
    have walk := walk_of_locateStep wide reaches
    cases last with
    | calls prev acc => cases ended
    | scans offset acc =>
      rw [locateStep, walkStep] at ended
      cases scanned : scanStep contents cbfs offset with
      | inl next =>
        rw [scanned] at ended
        cases ended
      | inr scan =>
        rw [scanned] at ended
        cases scan with
        | atEnd => cases ended
        | failed => cases ended
        | file found =>
          obtain ⟨file, rfl⟩ := file_of_scanStep wide scanned
          by_cases short : fileOffset contents cbfs offset.toNat < cbfsFileSize
          · simp only [locateFile_of_short wide file short] at ended
            cases ended
          have long := Nat.not_lt.mp short
          obtain ⟨hits, misses⟩ := locateFile_of_long wide file long name type
          by_cases found : Matches contents cbfs name type offset.toNat
          · simp only [hits found] at ended
            cases ended
            exact ⟨offset.toNat, walk, file, long, found, rfl⟩
          · simp only [misses found] at ended
            cases ended
  · rintro ⟨offset, walk, file, long, found, rfl⟩
    obtain ⟨current, rfl, reaches⟩ := locateStep_of_walk wide walk
    refine ⟨_, reaches, ?_⟩
    rw [locateStep, walkStep, scanStep_of_fileAt wide file]
    dsimp only
    rw [(locateFile_of_long wide file long name type).1 found]

theorem exists_cbfsLocate (contents : Memory) (cbfs : Cbfs width) (name : List Byte)
    (type : Option Nat) : ∃ fuel result, cbfsLocate contents cbfs fuel name type = some result := by
  obtain ⟨result, ends⟩ := exists_endsWith_walkStep wide
    (fun _ offset _ file passes => Nat.ne_of_gt (Nat.lt_of_lt_of_le (by decide)
      (fileOffset_of_locateFile wide file passes).1)) (.calls none ())
  obtain ⟨fuel, ran⟩ := exists_run_iff.mpr ends
  exact ⟨fuel, result, ran⟩

theorem exists_cbfsVb2HashContents (contents : Memory) (cbfs : Cbfs width) {δ : Type}
    (vb2 : Vb2Digest δ) (hashAlg digestSz : Nat) :
    ∃ fuel result, cbfsVb2HashContents contents vb2 fuel cbfs hashAlg digestSz = some result := by
  unfold cbfsVb2HashContents
  cases vb2.init hashAlg >>= cbfsExtendHashMasterHeader contents vb2 cbfs.region with
  | error rv => exact ⟨0, .error rv, rfl⟩
  | ok ctx =>
    obtain ⟨result, ends⟩ := exists_endsWith_walkStep wide
      (fun _ _ _ file passes => fileOffset_of_hashFile wide file passes)
      (.calls none ctx)
    obtain ⟨fuel, ran⟩ := exists_run_iff.mpr ends
    exact ⟨fuel, result, ran⟩

end

end Locating

/-- The scans keep their promises exactly when they meet no file that has neither
metadata nor data. -/
theorem scanCorrect_iff {width : Nat} (wide : 32 ≤ width) (contents : Memory) (cbfs : Cbfs width) :
    ScanCorrect contents cbfs ↔ ¬ MeetsEmpty contents cbfs := by
  constructor
  · intro correct meets
    obtain ⟨prev, fh, enumerated, found, unsound⟩ := exists_not_soundStep wide meets
    obtain ⟨fuel, ran⟩ := found_iff.mpr found
    exact unsound (correct.steps prev fh fuel enumerated ran)
  · intro fine
    exact
      { locateEnds := exists_cbfsLocate wide contents cbfs
        hashEnds := exists_cbfsVb2HashContents wide contents cbfs
        steps := fun prev fh fuel enumerated ran =>
          soundStep_of_not_meetsEmpty wide fine enumerated (found_iff.mp ⟨fuel, ran⟩)
        locates := fun name type fh =>
          exists_run_iff.trans (endsWith_locateStep_iff wide) }

def smallCbfs : Cbfs 32 where
  region := ⟨0, 256⟩
  small := by decide

def oneFile : Memory := fun address =>
  (cbfsFileMagic ++ [0, 0, 0, 4, 0, 0, 0, 0x50, 0, 0, 0, 0, 0, 0, 0, 28, 0x63, 0,
    0, 0, 1, 2, 3, 4]).getD address 0xff

theorem scanCorrect_iff_oneFile : ScanCorrect oneFile smallCbfs ↔ ¬ MeetsEmpty oneFile smallCbfs :=
  scanCorrect_iff (by decide) oneFile smallCbfs

example : ((cbfsLocate oneFile smallCbfs 2 [0x63] (some 0x50)).join.map
    fun fh => (fh.data.offset, fh.data.size)) = some (28, 4) := by
  decide +kernel

def zeroHeader : Memory := fun address => cbfsFileMagic.getD address 0

/-- The file at the start of the region is also the next file. -/
theorem not_scanCorrect_zeroHeader : ¬ ScanCorrect zeroHeader smallCbfs := by
  intro correct
  have meets : MeetsEmpty zeroHeader smallCbfs :=
    ⟨0, .start, by decide, by decide, by decide, by decide⟩
  obtain ⟨prev, fh, enumerated, found, unsound⟩ := exists_not_soundStep (by decide) meets
  obtain ⟨fuel, ran⟩ := found_iff.mpr found
  exact unsound (correct.steps prev fh fuel enumerated ran)

end Coreboot.CbfsScan
