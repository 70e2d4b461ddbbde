import Coreboot.CbfsScan

/-!
# Verified regions

The digest of a region is taken over the files that the scan meets, each with its offset.
-/

namespace Coreboot.CbfsVerification

open ByteMemory SteppedRun CbfsScan
open RegionDevice (Region isSubregion isSubregion_of_fits)

/-- A digest that keeps what it is given. -/
def recorder : Vb2Digest (List Byte) where
  errorUnknown := 1
  init _ := .ok []
  extend stream bytes := .ok (stream ++ bytes)
  finalize stream _ := .ok stream

section Stream

variable (contents : Memory) {width : Nat} (cbfs : Cbfs width)

/-- `cbfs_vb2_hash_contents` succeeds, and gives these bytes to the digest. -/
def Hashes (stream : List Byte) : Prop :=
  ∃ fuel hashAlg digestSz, cbfsVb2HashContents contents recorder fuel cbfs hashAlg
    digestSz = some (.ok stream)

def metadataBytes (offset : Nat) : List Byte :=
  load contents (cbfs.start + offset) (fileOffset contents cbfs offset)

def dataBytes (offset : Nat) : List Byte :=
  load contents (cbfs.start + (offset + fileOffset contents cbfs offset))
    (fileLen contents cbfs offset)

/-- Only the metadata of a deleted file is in the digest. -/
def Deleted (type : Nat) : Prop := type = cbfsTypeDeleted ∨ type = cbfsTypeDeleted2

instance (type : Nat) : Decidable (Deleted type) := inferInstanceAs (Decidable (_ ∨ _))

def placed (offset size : Nat) : List Byte :=
  encodeBE 4 offset ++ load contents (cbfs.start + offset) size

def dataRecord (offset : Nat) : List Byte :=
  if Deleted (fileType contents cbfs offset) then []
  else placed contents cbfs (offset + fileOffset contents cbfs offset)
    (fileLen contents cbfs offset)

def record (offset : Nat) : List Byte :=
  placed contents cbfs offset (fileOffset contents cbfs offset) ++ dataRecord contents cbfs offset

/-- The stream from an offset up to the end of the region. -/
inductive HashedFrom : Nat → List Byte → Prop
  | ends {offset : Nat} (behind : cbfs.size ≤ offset) : HashedFrom offset []
  | skip {offset : Nat} {stream : List Byte}
      (inside : offset + cbfsFileSize ≤ cbfs.size)
      (other : ¬ HasMagic contents cbfs offset)
      (rest : HashedFrom (WordAlignment.ceil (offset + 1) 6) stream) :
      HashedFrom offset stream
  | file {offset : Nat} {stream : List Byte}
      (file : FileAt contents cbfs offset)
      (typed : 16 ≤ fileOffset contents cbfs offset)
      (rest : HashedFrom (WordAlignment.ceil (fileEnd contents cbfs offset) 6) stream) :
      HashedFrom offset (record contents cbfs offset ++ stream)

def masterBytes : List Byte :=
  placed contents cbfs 0 cbfsHeaderSize ++ placed contents cbfs (cbfs.size - 4) 4

def NamesInside : Prop :=
  ∀ offset, Walk contents cbfs (fun _ => True) offset →
    FileAt contents cbfs offset →
    cbfsFileSize ≤ fileOffset contents cbfs offset →
    ∃ index < fileOffset contents cbfs offset - cbfsFileSize,
      contents (cbfs.start + offset + cbfsFileSize + index) = 0

/-- The scan meets a file with metadata that is shorter than its header. -/
def MeetsShort : Prop :=
  ∃ offset, Walk contents cbfs (fun _ => True) offset ∧
    FileAt contents cbfs offset ∧
    fileOffset contents cbfs offset < cbfsFileSize

/-- What a lookup has found: the offset of the header in the region, the metadata
and the data. -/
def outcome (fh : Cbfsf width) : Nat × List Byte × List Byte :=
  (fh.metadata.offset.toNat - cbfs.start,
    load contents fh.metadata.offset.toNat fh.metadata.size.toNat,
    load contents fh.data.offset.toNat fh.data.size.toNat)

end Stream

def SameLookups {width : Nat} (contents : Memory) (cbfs : Cbfs width)
    (contents' : Memory) (cbfs' : Cbfs width) : Prop :=
  ∀ name type, 0 ∉ name → ¬ Deleted type →
    ∀ fuel fuel' result result',
      cbfsLocate contents cbfs fuel name (some type) = some result →
      cbfsLocate contents' cbfs' fuel' name (some type) = some result' →
      result.map (outcome contents cbfs) = result'.map (outcome contents' cbfs')

section Intervals

variable {contents : Memory} {width : Nat} {cbfs : Cbfs width}

theorem extendBlocks_recorder (contents : Memory) (rdev : Region width) (fits : rdev.Fits)
    (small : rdev.size.toNat < 2 ^ 32) (wide : 32 ≤ width) (szLeft offset : Nat)
    (inside : offset + szLeft ≤ rdev.size.toNat) (stream : List Byte) :
    extendBlocks contents recorder rdev szLeft offset stream =
      .ok (stream ++ load contents (rdev.offset.toNat + offset) szLeft) := by
  induction szLeft using Nat.strong_induction_on generalizing offset stream with
  | _ szLeft ih =>
    rw [extendBlocks]
    by_cases nothing : szLeft = 0
    · rw [if_pos nothing, nothing, load, List.append_nil]
    rw [if_neg nothing]
    obtain ⟨block, is⟩ : ∃ block, block = min szLeft 1024 := ⟨_, rfl⟩
    have blockLe : block ≤ szLeft := is ▸ Nat.min_le_left _ _
    have positive : 0 < block := by omega
    have offsetNat : (BitVec.ofNat width offset).toNat = offset := toNat_ofNat_small wide (by omega)
    have blockNat : (BitVec.ofNat width block).toNat = block := toNat_ofNat_small wide (by omega)
    have exact : ¬ rdev.Wraps (BitVec.ofNat width offset) (BitVec.ofNat width block) := by
      rintro ⟨-, -, wraps⟩
      rw [offsetNat, blockNat] at wraps
      rw [Region.Fits] at fits
      omega
    have read : rdevReadat contents rdev (BitVec.ofNat width offset)
        (BitVec.ofNat width block) =
          some fun index => contents (rdev.offset.toNat + offset + index) := by
      rw [rdevReadat, access_eq fits exact, offsetNat, blockNat, if_pos (by omega)]
    rw [← is]
    dsimp only
    rw [read]
    dsimp only [recorder]
    rw [load_shift, Nat.add_zero]
    have rest := ih (szLeft - block) (by omega) (offset + block) (by omega)
      (stream ++ load contents (rdev.offset.toNat + offset) block)
    dsimp only [recorder] at rest
    rw [rest, List.append_assoc, ← Nat.add_assoc, ← load_append, Nat.add_sub_of_le blockLe]

theorem extendHash_recorder (contents : Memory) (cbfs : Cbfs width)
    (wide : 32 ≤ width) (flash : cbfs.size < 2 ^ 31) {offset size : Nat} (inside : offset + size ≤ cbfs.size)
    (stream : List Byte) :
    cbfsExtendHashWithOffset contents recorder cbfs.region
        ⟨BitVec.ofNat width (cbfs.start + offset), BitVec.ofNat width size⟩
        stream =
      .ok (stream ++ placed contents cbfs offset size) := by
  have small := cbfs.small
  have room := cbfs.size_lt wide
  have two : 2 ^ 32 ≤ 2 ^ width := Nat.pow_le_pow_right (by decide) wide
  have start : (BitVec.ofNat width (cbfs.start + offset)).toNat =
      cbfs.start + offset := toNat_region (by omega)
  have length : (BitVec.ofNat width size).toNat = size := toNat_ofNat_small wide (by omega)
  have holds : cbfs.region.Holds
      (BitVec.ofNat width (cbfs.start + offset)).toNat (BitVec.ofNat width size).toNat := by
    rw [start, length]
    change cbfs.start ≤ _ ∧ _ ≤ cbfs.start + cbfs.size
    omega
  have fits : Region.Fits
      (⟨BitVec.ofNat width (cbfs.start + offset), BitVec.ofNat width size⟩ : Region width) := by
    have bound := holds.2
    rw [Region.Fits]
    dsimp only
    omega
  have relative : rdevRelativeOffset cbfs.region
      ⟨BitVec.ofNat width (cbfs.start + offset), BitVec.ofNat width size⟩ =
        BitVec.ofNat width offset := by
    rw [rdevRelativeOffset, if_pos ((isSubregion_of_fits cbfs.fits fits).mpr holds)]
    apply BitVec.eq_of_toNat_eq
    have above : cbfs.region.offset ≤ BitVec.ofNat width (cbfs.start + offset) := holds.1
    rw [BitVec.toNat_sub_of_le above, start, toNat_ofNat_small wide (by omega)]
    exact Nat.add_sub_cancel_left _ _
  have soffset : ((BitVec.ofNat width offset).setWidth 32).toNat = offset := by
    rw [BitVec.toNat_setWidth, toNat_ofNat_small wide (by omega), Nat.mod_eq_of_lt (by omega)]
  have positive : ¬ ((BitVec.ofNat width offset).setWidth 32).toInt < 0 := by
    rw [BitVec.toInt_eq_toNat_of_lt (by omega), soffset]
    omega
  have blocks := extendBlocks_recorder contents
    ⟨BitVec.ofNat width (cbfs.start + offset), BitVec.ofNat width size⟩ fits
    (length.trans_lt (by omega)) wide (BitVec.ofNat width size).toNat 0
    (Nat.zero_add _).le (stream ++ encodeBE 4 offset)
  rw [cbfsExtendHashWithOffset, relative]
  simp only [if_neg positive, soffset, cbfsExtendHash]
  change extendBlocks contents recorder _ _ 0 (stream ++ encodeBE 4 offset) = _
  rw [blocks, placed, List.append_assoc, length]
  rw [start, Nat.add_zero]

theorem hashFile_recorder (wide : 32 ≤ width) (flash : cbfs.size < 2 ^ 31)
    {offset : Nat} (file : FileAt contents cbfs offset) (stream : List Byte) :
    hashFile contents recorder cbfs stream (fileAt contents cbfs offset) =
      if 16 ≤ fileOffset contents cbfs offset then
        .inl (stream ++ record contents cbfs offset)
      else .inr (.error recorder.errorUnknown) := by
  have inside := file.inside
  rw [fileEnd] at inside
  rw [hashFile]
  dsimp only [fileAt]
  rw [extendHash_recorder contents cbfs wide flash (by omega : offset +
    fileOffset contents cbfs offset ≤ cbfs.size)]
  have typed := cbfsfFileType_eq wide file
  dsimp only [fileAt] at typed ⊢
  rw [typed]
  by_cases long : 16 ≤ fileOffset contents cbfs offset
  · rw [if_pos long, if_pos long]
    by_cases deleted : Deleted (fileType contents cbfs offset)
    · rw [record, dataRecord, if_pos deleted, List.append_nil]
      exact if_pos deleted
    · rw [record, dataRecord, if_neg deleted,
        extendHash_recorder contents cbfs wide flash inside, List.append_assoc]
      exact if_neg deleted
  · rw [if_neg long, if_neg long]

theorem masterHeader_recorder (wide : 32 ≤ width) (flash : cbfs.size < 2 ^ 31) :
    cbfsExtendHashMasterHeader contents recorder cbfs.region [] =
      if cbfsHeaderSize ≤ cbfs.size then .ok (masterBytes contents cbfs)
      else .error recorder.errorUnknown := by
  have room := cbfs.size_lt wide
  have thirtyTwo : cbfsHeaderSize = 32 := rfl
  have header : (BitVec.ofNat width cbfsHeaderSize).toNat = cbfsHeaderSize :=
    toNat_ofNat_small wide (by decide)
  have zero : (0 : BitVec width).toNat = 0 := BitVec.toNat_ofNat 0 width ▸ Nat.zero_mod _
  have first := @Cbfs.chain_eq width 0 (BitVec.ofNat width cbfsHeaderSize) cbfs (by omega)
  rw [zero, header, Nat.zero_add, Nat.add_zero] at first
  rw [cbfsExtendHashMasterHeader, chain, first]
  by_cases long : cbfsHeaderSize ≤ cbfs.size
  · have four : (4 : BitVec width).toNat = 4 := toNat_ofNat_small wide (by decide)
    have back : (cbfs.region.size - 4).toNat = cbfs.size - 4 := by
      have le : (4 : BitVec width) ≤ cbfs.region.size := by
        rw [BitVec.le_def, four]
        change 4 ≤ cbfs.size
        omega
      rw [BitVec.toNat_sub_of_le le, four]
      rfl
    have last := @Cbfs.chain_eq width (cbfs.region.size - 4) 4 cbfs (by omega)
    rw [back, four, if_pos (by omega)] at last
    have begun := extendHash_recorder contents cbfs wide flash
      (show 0 + cbfsHeaderSize ≤ cbfs.size by omega) []
    have ended := extendHash_recorder contents cbfs wide flash
      (show cbfs.size - 4 + 4 ≤ cbfs.size by omega)
      ([] ++ placed contents cbfs 0 cbfsHeaderSize)
    rw [Nat.add_zero] at begun
    rw [if_pos long, if_pos long]
    simp only [bind, Except.bind, chain, last]
    rw [begun]
    dsimp only
    rw [show (4 : BitVec width) = BitVec.ofNat width 4 from rfl, ended, List.nil_append]
    rfl
  · rw [if_neg long, if_neg long]
    rfl

end Intervals

section Streams

variable {contents : Memory} {width : Nat} {cbfs : Cbfs width}

def hashStep (contents : Memory) (cbfs : Cbfs width) (digestSz : Nat) :
    WalkState width (List Byte) → WalkState width (List Byte) ⊕ Except Int (List Byte) :=
  walkStep contents cbfs (hashFile contents recorder cbfs) (hashEnd recorder digestSz)

def fed : WalkState width (List Byte) → List Byte
  | .calls _ before | .scans _ before => before

theorem hashedFrom_of_endsWith (wide : 32 ≤ width) (flash : cbfs.size < 2 ^ 31)
    {digestSz : Nat} {state : WalkState width (List Byte)} {result : List Byte}
    (ends : EndsWith (hashStep contents cbfs digestSz) state (.ok result)) :
    ∃ stream, HashedFrom contents cbfs (state.offset cbfs) stream ∧
      result = fed state ++ stream := by
  obtain ⟨last, reaches, ended⟩ := ends
  induction reaches using Relation.ReflTransGen.head_induction_on with
  | refl =>
    cases last with
    | calls prev before => cases ended
    | scans offset before =>
      rw [hashStep, walkStep, scanStep_eq wide] at ended
      by_cases behind : cbfs.size ≤ offset.toNat
      · rw [if_pos behind] at ended
        cases ended
        exact ⟨[], .ends behind, (List.append_nil _).symm⟩
      rw [if_neg behind] at ended
      by_cases short : cbfs.size < offset.toNat + cbfsFileSize
      · rw [if_pos short] at ended
        cases ended
      rw [if_neg short] at ended
      by_cases magic : HasMagic contents cbfs offset.toNat
      · rw [if_neg (not_not_intro magic)] at ended
        by_cases inside : fileEnd contents cbfs offset.toNat ≤ cbfs.size
        · rw [if_pos inside] at ended
          simp only [hashFile_recorder wide flash ⟨Nat.not_lt.mp short, magic, inside⟩] at ended
          split_ifs at ended
          cases ended
        · rw [if_neg inside] at ended
          cases ended
      · rw [if_pos magic] at ended
        cases ended
  | @head state next moves _ ih =>
    obtain ⟨stream, rest, is⟩ := ih
    rcases walkStep_moves wide moves with ⟨prev, before, rfl, rfl⟩ |
      ⟨offset, behind, before, rfl, rfl, scanned⟩ |
      ⟨offset, before, after, rfl, rfl, file, visited⟩
    · exact ⟨stream, rest, is⟩
    · obtain ⟨inside, other, next⟩ := skip_of_scanStep wide scanned
      rw [WalkState.offset, next] at rest
      exact ⟨stream, .skip inside other rest, is⟩
    · rw [WalkState.offset, toNat_cbfsNextOffset wide file] at rest
      rw [hashFile_recorder wide flash file] at visited
      split_ifs at visited with typed
      cases visited
      exact ⟨_, .file file typed rest, is.trans (List.append_assoc _ _ _)⟩

theorem endsWith_of_hashedFrom (wide : 32 ≤ width) (flash : cbfs.size < 2 ^ 31)
    {digestSz offset : Nat} {stream : List Byte} (hashed : HashedFrom contents cbfs offset stream) :
    ∀ (current : BitVec width) (before : List Byte), current.toNat = offset →
      EndsWith (hashStep contents cbfs digestSz) (.scans current before)
        (.ok (before ++ stream)) := by
  induction hashed with
  | ends behind =>
    rintro current before rfl
    refine ⟨_, .refl, ?_⟩
    rw [hashStep, walkStep, scanStep_eq wide, if_pos behind, List.append_nil]
    rfl
  | skip inside other _ ih =>
    rintro current before rfl
    have eight : cbfsFileSize = 24 := rfl
    refine .of_moves ?_ (ih _ before (toNat_skip cbfs wide (by omega)))
    rw [hashStep, walkStep, scanStep_of_other wide inside other]
  | file file typed _ ih =>
    rintro current before rfl
    rw [← List.append_assoc]
    have visited : hashStep contents cbfs digestSz (.scans current before) =
        .inl (.calls (some (fileAt contents cbfs current.toNat))
          (before ++ record contents cbfs current.toNat)) := by
      rw [hashStep, walkStep, scanStep_of_fileAt wide file]
      simp only [hashFile_recorder wide flash file, if_pos typed]
    exact .of_moves visited (.of_moves rfl (ih _ _ (toNat_cbfsNextOffset wide file)))

theorem hashes_iff (wide : 32 ≤ width) (flash : cbfs.size < 2 ^ 31) {stream : List Byte} :
    Hashes contents cbfs stream ↔
      cbfsHeaderSize ≤ cbfs.size ∧
        ∃ files, HashedFrom contents cbfs 0 files ∧
          stream = masterBytes contents cbfs ++ files := by
  have begun (hashAlg : Nat) : (recorder.init hashAlg >>=
      cbfsExtendHashMasterHeader contents recorder cbfs.region) =
        if cbfsHeaderSize ≤ cbfs.size then .ok (masterBytes contents cbfs)
        else .error recorder.errorUnknown :=
    masterHeader_recorder wide flash
  have start : (WalkState.calls none (masterBytes contents cbfs)).offset cbfs = 0 := toNat_start
  constructor
  · rintro ⟨fuel, hashAlg, digestSz, ran⟩
    unfold cbfsVb2HashContents at ran
    rw [begun] at ran
    by_cases long : cbfsHeaderSize ≤ cbfs.size
    · rw [if_pos long] at ran
      obtain ⟨files, hashed, is⟩ := hashedFrom_of_endsWith wide flash
        (exists_run_iff.mp ⟨fuel, ran⟩)
      rw [start] at hashed
      exact ⟨long, files, hashed, is⟩
    · rw [if_neg long] at ran
      cases ran
  · rintro ⟨long, files, hashed, rfl⟩
    have ends : EndsWith (hashStep contents cbfs 0)
        (.calls none (masterBytes contents cbfs)) (.ok (masterBytes contents cbfs ++ files)) :=
      .of_moves rfl (endsWith_of_hashedFrom wide flash hashed _ _ toNat_start)
    obtain ⟨fuel, ran⟩ := exists_run_iff.mpr ends
    refine ⟨fuel, 0, 0, ?_⟩
    unfold cbfsVb2HashContents
    rw [begun, if_pos long]
    exact ran

end Streams

section Records

variable {contents contents' : Memory} {width : Nat} {cbfs cbfs' : Cbfs width}

theorem record_append (contents : Memory) (cbfs : Cbfs width) (offset : Nat) (rest : List Byte) :
    record contents cbfs offset ++ rest =
      encodeBE 4 offset ++ (metadataBytes contents cbfs offset ++
        (dataRecord contents cbfs offset ++ rest)) := by
  rw [record, placed, metadataBytes, List.append_assoc, List.append_assoc]

theorem load_part {base base' size skip count : Nat}
    (same : load contents base size = load contents' base' size) (inside : skip + count ≤ size) :
    load contents (base + skip) count = load contents' (base' + skip) count := by
  rw [load_eq_load_iff] at same ⊢
  intro index below
  rw [Nat.add_assoc, Nat.add_assoc]
  exact same (skip + index) (by omega)

theorem encodeBE_injective {first second : Nat} (small : first < 2 ^ 32) (small' : second < 2 ^ 32)
    (same : encodeBE 4 first = encodeBE 4 second) : first = second := by
  have decoded := congrArg decodeBE same
  rwa [decodeBE_encodeBE, decodeBE_encodeBE, Nat.mod_eq_of_lt (by omega),
    Nat.mod_eq_of_lt (by omega)] at decoded

structure SameFile (contents : Memory) (cbfs : Cbfs width) (contents' : Memory)
    (cbfs' : Cbfs width) (offset : Nat) : Prop where
  size : fileOffset contents cbfs offset = fileOffset contents' cbfs' offset
  length : fileLen contents cbfs offset = fileLen contents' cbfs' offset
  type : fileType contents cbfs offset = fileType contents' cbfs' offset
  metadata : metadataBytes contents cbfs offset = metadataBytes contents' cbfs' offset
  data : ¬ Deleted (fileType contents cbfs offset) →
    dataBytes contents cbfs offset = dataBytes contents' cbfs' offset

variable {offset : Nat}

theorem field_eq {skip : Nat} (same : load contents (cbfs.start + offset) cbfsFileSize =
      load contents' (cbfs'.start + offset) cbfsFileSize) (inside : skip + 4 ≤ cbfsFileSize) :
    readBE 4 contents (cbfs.start + offset + skip) =
      readBE 4 contents' (cbfs'.start + offset + skip) := by
  rw [readBE, readBE, load_part same inside]

theorem sameFile_of_record {offset' : Nat} {rest rest' : List Byte} (small : offset < 2 ^ 32)
    (small' : offset' < 2 ^ 32) (long : cbfsFileSize ≤ fileOffset contents cbfs offset)
    (long' : cbfsFileSize ≤ fileOffset contents' cbfs' offset')
    (same : record contents cbfs offset ++ rest = record contents' cbfs' offset' ++ rest') :
    offset = offset' ∧ SameFile contents cbfs contents' cbfs' offset ∧ rest = rest' := by
  rw [record_append, record_append] at same
  obtain ⟨offsets, same⟩ := List.append_inj same
    ((length_encodeBE 4 offset).trans (length_encodeBE 4 offset').symm)
  obtain rfl := encodeBE_injective small small' offsets
  have split : load contents (cbfs.start + offset) cbfsFileSize =
      load contents' (cbfs'.start + offset) cbfsFileSize := by
    rw [metadataBytes, metadataBytes, ← Nat.add_sub_of_le long, ← Nat.add_sub_of_le long',
      load_append, load_append, List.append_assoc, List.append_assoc] at same
    exact (List.append_inj same (by rw [length_load, length_load])).1
  have size : fileOffset contents cbfs offset =
      fileOffset contents' cbfs' offset := field_eq split (by decide)
  have length : fileLen contents cbfs offset =
      fileLen contents' cbfs' offset := field_eq split (by decide)
  have type : fileType contents cbfs offset =
      fileType contents' cbfs' offset := field_eq split (by decide)
  obtain ⟨metadata, same⟩ := List.append_inj same
    (by rw [metadataBytes, metadataBytes, length_load, length_load, size])
  rw [dataRecord, dataRecord, ← type] at same
  by_cases deleted : Deleted (fileType contents cbfs offset)
  · rw [if_pos deleted, if_pos deleted] at same
    exact ⟨rfl, ⟨size, length, type, metadata, fun stays => absurd deleted stays⟩, same⟩
  · rw [if_neg deleted, if_neg deleted, placed, placed, List.append_assoc,
      List.append_assoc] at same
    obtain ⟨-, same⟩ := List.append_inj same (by rw [length_encodeBE, length_encodeBE])
    obtain ⟨data, same⟩ := List.append_inj same (by rw [length_load, length_load, length])
    exact ⟨rfl, ⟨size, length, type, metadata, fun _ => data⟩, same⟩

theorem record_ne_nil (contents : Memory) (cbfs : Cbfs width) (offset : Nat) :
    record contents cbfs offset ≠ [] := by
  intro nothing
  have length := congrArg List.length (record_append contents cbfs offset [])
  rw [nothing, List.nil_append, List.length_append, length_encodeBE, List.length_nil] at length
  omega

theorem matches_of_same {name : List Byte} {type : Option Nat}
    (nonzero : 0 ∉ name) (long : cbfsFileSize ≤ fileOffset contents cbfs offset)
    (ends : ∃ index < fileOffset contents cbfs offset - cbfsFileSize,
      contents (cbfs.start + offset + cbfsFileSize + index) = 0)
    (same : SameFile contents cbfs contents' cbfs' offset)
    (found : Matches contents cbfs name type offset) :
    Matches contents' cbfs' name type offset := by
  obtain ⟨index, below, zero⟩ := ends
  obtain ⟨named, typed⟩ := found
  have short : name.length ≤ index := by
    by_contra inside
    have got := congrArg (·[index]?) named
    rw [List.getElem?_append_left (by omega), getElem?_load (by omega), zero] at got
    exact nonzero (List.mem_of_getElem? got.symm)
  have metadata := same.metadata
  rw [metadataBytes, metadataBytes, ← same.size] at metadata
  refine ⟨?_, fun wanted member => same.type ▸ typed wanted member⟩
  rw [← load_part metadata (by omega), named]

end Records

section Lookups

variable {contents : Memory} {width : Nat} {cbfs : Cbfs width}
  {name : List Byte} {type : Option Nat}

def LookupFrom (contents : Memory) (cbfs : Cbfs width) (name : List Byte)
    (type : Option Nat) (offset : Nat) (result : Option (Cbfsf width)) : Prop :=
  ∃ current : BitVec width, current.toNat = offset ∧
    EndsWith (locateStep contents cbfs name type) (.scans current ()) result

variable {offset : Nat} {result : Option (Cbfsf width)}

section

variable (wide : 32 ≤ width)
include wide

section

variable (lookup : LookupFrom contents cbfs name type offset result)
include lookup

theorem LookupFrom.skip
    (inside : offset + cbfsFileSize ≤ cbfs.size) (other : ¬ HasMagic contents cbfs offset) :
    LookupFrom contents cbfs name type (WordAlignment.ceil (offset + 1) 6) result := by
  obtain ⟨current, rfl, ends⟩ := lookup
  have size : cbfsFileSize = 24 := rfl
  have moves : locateStep contents cbfs name type (.scans current ()) =
      .inl (.scans (alignUp (current + 1)) ()) := by
    rw [locateStep, walkStep, scanStep_of_other wide inside other]
  exact ⟨_, toNat_skip cbfs wide (by omega), (endsWith_iff_of_moves moves).mp ends⟩

theorem LookupFrom.ended (behind : cbfs.size ≤ offset) : result = none := by
  obtain ⟨current, rfl, ends⟩ := lookup
  have stops : locateStep contents cbfs name type (.scans current ()) = .inr none := by
    rw [locateStep, walkStep, scanStep_eq wide, if_pos behind]
  exact ((endsWith_iff_of_ended stops).mp ends).symm

theorem LookupFrom.file (file : FileAt contents cbfs offset)
    (long : cbfsFileSize ≤ fileOffset contents cbfs offset) :
    (Matches contents cbfs name type offset → result = some (fileAt contents cbfs offset)) ∧
    (¬ Matches contents cbfs name type offset →
      LookupFrom contents cbfs name type
        (WordAlignment.ceil (fileEnd contents cbfs offset) 6) result) := by
  obtain ⟨current, rfl, ends⟩ := lookup
  obtain ⟨hits, misses⟩ := locateFile_of_long wide file long name type
  constructor
  · intro found
    have stops : locateStep contents cbfs name type (.scans current ()) =
        .inr (some (fileAt contents cbfs current.toNat)) := by
      rw [locateStep, walkStep, scanStep_of_fileAt wide file]
      simp only [hits found]
    exact ((endsWith_iff_of_ended stops).mp ends).symm
  · intro other
    have moves : locateStep contents cbfs name type (.scans current ()) =
        .inl (.calls (some (fileAt contents cbfs current.toNat)) ()) := by
      rw [locateStep, walkStep, scanStep_of_fileAt wide file]
      simp only [misses other]
    have begins : locateStep contents cbfs name type
        (.calls (some (fileAt contents cbfs current.toNat)) ()) =
          .inl (.scans (cbfsNextOffset cbfs (some (fileAt contents cbfs current.toNat))) ()) := rfl
    exact ⟨_, toNat_cbfsNextOffset wide file, (endsWith_iff_of_moves begins).mp
      ((endsWith_iff_of_moves moves).mp ends)⟩

end

theorem outcome_fileAt (file : FileAt contents cbfs offset) :
    outcome contents cbfs (fileAt contents cbfs offset) =
      (offset, metadataBytes contents cbfs offset, dataBytes contents cbfs offset) := by
  have inside := file.inside
  rw [fileEnd] at inside
  have metadataStart : (fileAt contents cbfs offset).metadata.offset.toNat =
      cbfs.start + offset := toNat_region (by omega)
  have dataStart : (fileAt contents cbfs offset).data.offset.toNat =
      cbfs.start + (offset + fileOffset contents cbfs offset) :=
    toNat_region (by omega)
  have metadataSize : (fileAt contents cbfs offset).metadata.size.toNat =
      fileOffset contents cbfs offset := toNat_readBE wide _ _
  have dataSize : (fileAt contents cbfs offset).data.size.toNat =
      fileLen contents cbfs offset := toNat_readBE wide _ _
  rw [outcome, metadataStart, dataStart, metadataSize, dataSize, Nat.add_sub_cancel_left]
  rfl

theorem next_of_hashedFrom {stream : List Byte} (hashed : HashedFrom contents cbfs offset stream)
    (walk : Walk contents cbfs (fun _ => True) offset)
    (lookup : LookupFrom contents cbfs name type offset result) :
    (stream = [] ∧ result = none) ∨
      ∃ next rest, Walk contents cbfs (fun _ => True) next ∧
        FileAt contents cbfs next ∧
        stream = record contents cbfs next ++ rest ∧
        HashedFrom contents cbfs (WordAlignment.ceil (fileEnd contents cbfs next) 6) rest ∧
        LookupFrom contents cbfs name type next result := by
  induction hashed with
  | ends behind => exact .inl ⟨rfl, lookup.ended wide behind⟩
  | skip inside other _ ih =>
    refine ih ?_ (lookup.skip wide inside other)
    rw [ceil_succ (dvd_of_walk walk)]
    exact walk.skip inside other
  | file file _ rest _ =>
    exact .inr ⟨_, _, walk, file, rfl, rest, lookup⟩

end

end Lookups

section Agreement

variable {contents contents' : Memory} {width : Nat} {cbfs cbfs' : Cbfs width}
  {name : List Byte} {wanted : Nat}

/-- A region whose names end inside of the metadata, which is never shorter than
a header. -/
structure Readable (contents : Memory) (cbfs : Cbfs width) : Prop where
  names : NamesInside contents cbfs
  long : ¬ MeetsShort contents cbfs

theorem Readable.le (readable : Readable contents cbfs) {offset : Nat}
    (walk : Walk contents cbfs (fun _ => True) offset) (file : FileAt contents cbfs offset) :
    cbfsFileSize ≤ fileOffset contents cbfs offset :=
  Nat.not_lt.mp fun short => readable.long ⟨offset, walk, file, short⟩

theorem outcome_eq (wide : 32 ≤ width) (flash : cbfs.size < 2 ^ 31) (flash' : cbfs'.size < 2 ^ 31)
    (readable : Readable contents cbfs) (readable' : Readable contents' cbfs') (nonzero : 0 ∉ name)
    (stays : ¬ Deleted wanted) {result result' : Option (Cbfsf width)} :
    ∀ (count : Nat) {stream : List Byte} {offset offset' : Nat},
      stream.length < count →
      HashedFrom contents cbfs offset stream →
      HashedFrom contents' cbfs' offset' stream →
      Walk contents cbfs (fun _ => True) offset →
      Walk contents' cbfs' (fun _ => True) offset' →
      LookupFrom contents cbfs name (some wanted) offset result →
      LookupFrom contents' cbfs' name (some wanted) offset' result' →
      result.map (outcome contents cbfs) = result'.map (outcome contents' cbfs') := by
  intro count
  induction count with
  | zero => exact fun below => absurd below (Nat.not_lt_zero _)
  | succ count ih =>
    intro stream offset offset' below hashed hashed' walk walk' lookup lookup'
    rcases next_of_hashedFrom wide hashed walk lookup with
      ⟨rfl, rfl⟩ | ⟨next, rest, walk, file, is, hashed, lookup⟩
    · rcases next_of_hashedFrom wide hashed' walk' lookup' with
        ⟨-, rfl⟩ | ⟨next, rest, -, -, is, -, -⟩
      · rfl
      · exact absurd (List.append_eq_nil_iff.mp is.symm).1 (record_ne_nil _ _ next)
    · rcases next_of_hashedFrom wide hashed' walk' lookup' with
        ⟨rfl, rfl⟩ | ⟨next', rest', walk', file', is', hashed', lookup'⟩
      · exact absurd (List.append_eq_nil_iff.mp is.symm).1 (record_ne_nil _ _ next)
      have long := readable.le walk file
      have long' := readable'.le walk' file'
      have header := file.header
      have header' := file'.header
      obtain ⟨rfl, same, rfl⟩ := sameFile_of_record (by omega) (by omega) long
        long' (is.symm.trans is')
      have ends : fileEnd contents cbfs next = fileEnd contents' cbfs' next := by
        rw [fileEnd, fileEnd, same.size, same.length]
      have back : SameFile contents' cbfs' contents cbfs next :=
        ⟨same.size.symm, same.length.symm, same.type.symm, same.metadata.symm,
          fun stays => (same.data (same.type ▸ stays)).symm⟩
      obtain ⟨hits, misses⟩ := lookup.file wide file long
      obtain ⟨hits', misses'⟩ := lookup'.file wide file' long'
      by_cases found : Matches contents cbfs name (some wanted) next
      · have found' := matches_of_same nonzero long (readable.names next walk file long) same found
        have typed : fileType contents cbfs next = wanted := found.2 wanted rfl
        rw [hits found, hits' found', Option.map_some, Option.map_some, outcome_fileAt wide file,
          outcome_fileAt wide file', same.metadata, same.data (typed ▸ stays)]
      · have other : ¬ Matches contents' cbfs' name (some wanted) next :=
          fun found' => found (matches_of_same nonzero long'
            (readable'.names next walk' file' long') back found')
        have shorter : rest.length < count := by
          have positive := List.length_pos_of_ne_nil (record_ne_nil contents cbfs next)
          rw [is, List.length_append] at below
          omega
        exact ih shorter hashed hashed' (walk.next file trivial)
          (walk'.next file' trivial) (misses found) (misses' other)

end Agreement

/-- Regions of the same size with the same stream give the same lookups, if no
file has metadata that is shorter than its header. -/
theorem sameLookups_of_sameStream {width : Nat} (wide : 32 ≤ width) {contents contents' : Memory}
    {cbfs cbfs' : Cbfs width} (sizes : cbfs.size = cbfs'.size) (flash : cbfs.size < 2 ^ 31)
    {stream : List Byte} (hashes : Hashes contents cbfs stream)
    (hashes' : Hashes contents' cbfs' stream) (names : NamesInside contents cbfs)
    (names' : NamesInside contents' cbfs') (long : ¬ MeetsShort contents cbfs)
    (long' : ¬ MeetsShort contents' cbfs') : SameLookups contents cbfs contents' cbfs' := by
  have flash' : cbfs'.size < 2 ^ 31 := sizes ▸ flash
  obtain ⟨-, files, hashed, is⟩ := (hashes_iff wide flash).mp hashes
  obtain ⟨-, files', hashed', is'⟩ := (hashes_iff wide flash').mp hashes'
  have length (memory : Memory) (region : Cbfs width) :
      (masterBytes memory region).length = 44 := by
    simp only [masterBytes, placed, List.length_append, length_encodeBE, length_load]
    rfl
  obtain ⟨-, rfl⟩ := List.append_inj (is.symm.trans is')
    ((length contents cbfs).trans (length contents' cbfs').symm)
  intro name type nonzero stays fuel fuel' result result' ran ran'
  have lookup {memory : Memory} {region : Cbfs width} {steps : Nat}
      {found : Option (Cbfsf width)}
      (ran : cbfsLocate memory region steps name (some type) = some found) :
      LookupFrom memory region name (some type) 0 found := by
    have begins : locateStep memory region name (some type) (.calls none ()) =
        .inl (.scans (cbfsNextOffset region none) ()) := rfl
    exact ⟨_, toNat_start, (endsWith_iff_of_moves begins).mp (exists_run_iff.mp ⟨steps, ran⟩)⟩
  exact outcome_eq wide flash flash' ⟨names, long⟩ ⟨names', long'⟩ nonzero stays
    _ (Nat.lt_succ_self _) hashed hashed' .start .start (lookup ran) (lookup ran')

section Small

variable {contents : Memory} {width : Nat} {cbfs : Cbfs width}

theorem FileAt.lt_size {offset : Nat} (file : FileAt contents cbfs offset) : offset < cbfs.size :=
  Nat.lt_of_lt_of_le (Nat.lt_add_of_pos_right (by decide)) file.header

theorem namesInside_of_forall (ends : ∀ offset < cbfs.size,
      HasMagic contents cbfs offset →
      cbfsFileSize ≤ fileOffset contents cbfs offset →
      ∃ index < fileOffset contents cbfs offset - cbfsFileSize,
        contents (cbfs.start + offset + cbfsFileSize + index) = 0) : NamesInside contents cbfs :=
  fun offset _ file => ends offset (FileAt.lt_size file) file.magic

theorem not_meetsShort_of_forall (long : ∀ offset < cbfs.size,
      HasMagic contents cbfs offset →
      cbfsFileSize ≤ fileOffset contents cbfs offset) : ¬ MeetsShort contents cbfs := by
  rintro ⟨offset, -, file, short⟩
  exact absurd (long offset (FileAt.lt_size file) file.magic) (Nat.not_le.mpr short)

theorem slot_hashedFrom (offset : Nat) {next : Nat} {stream : List Byte}
    (rest : HashedFrom contents cbfs next stream) (inside : offset + cbfsFileSize ≤ cbfs.size)
    (other : ¬ HasMagic contents cbfs offset) (is : WordAlignment.ceil (offset + 1) 6 = next) :
    HashedFrom contents cbfs offset stream :=
  .skip inside other (is ▸ rest)

theorem file_hashedFrom (offset : Nat) {next : Nat} {stream : List Byte}
    (rest : HashedFrom contents cbfs next stream) (file : FileAt contents cbfs offset)
    (typed : 16 ≤ fileOffset contents cbfs offset)
    (is : WordAlignment.ceil (fileEnd contents cbfs offset) 6 = next) :
    HashedFrom contents cbfs offset (record contents cbfs offset ++ stream) :=
  .file file typed (is ▸ rest)

end Small

/-- The region with one file, with something else in the gap behind it. -/
def otherGap : Memory := fun address =>
  if 32 ≤ address ∧ address < 200 then 0 else oneFile address

theorem hashes_of_oneFile {contents : Memory} (file : FileAt contents smallCbfs 0)
    (typed : 16 ≤ fileOffset contents smallCbfs 0)
    (next : WordAlignment.ceil (fileEnd contents smallCbfs 0) 6 = 64)
    (other : ∀ slot < 3, ¬ HasMagic contents smallCbfs (64 + slot * 64)) :
    Hashes contents smallCbfs
      (masterBytes contents smallCbfs ++ (record contents smallCbfs 0 ++ [])) := by
  refine (hashes_iff (by decide) (by decide)).mpr ⟨by decide, _, ?_, rfl⟩
  have tail : HashedFrom contents smallCbfs 256 [] := .ends (by decide)
  have third := slot_hashedFrom 192 tail (by decide) (other 2 (by decide)) (by decide)
  have second := slot_hashedFrom 128 third (by decide) (other 1 (by decide)) (by decide)
  have first := slot_hashedFrom 64 second (by decide) (other 0 (by decide)) (by decide)
  exact file_hashedFrom 0 first file typed next

theorem sameLookups_oneFile_otherGap : SameLookups oneFile smallCbfs otherGap smallCbfs := by
  have hashes := @hashes_of_oneFile oneFile
    ⟨by decide, by decide, by decide⟩ (by decide) (by decide) (by decide)
  have hashes' := @hashes_of_oneFile otherGap
    ⟨by decide, by decide, by decide⟩ (by decide) (by decide) (by decide)
  have same : masterBytes otherGap smallCbfs ++
      (record otherGap smallCbfs 0 ++ []) =
        masterBytes oneFile smallCbfs ++ (record oneFile smallCbfs 0 ++ []) := by
    decide
  rw [same] at hashes'
  exact sameLookups_of_sameStream (by decide) rfl (by decide) hashes hashes'
    (namesInside_of_forall (by decide +kernel))
    (namesInside_of_forall (by decide +kernel))
    (not_meetsShort_of_forall (by decide +kernel))
    (not_meetsShort_of_forall (by decide +kernel))

def headerStart : List Byte := cbfsFileMagic ++ [0, 0, 0, 64, 0, 0, 0, 0x50]

def deletedFile : List Byte := cbfsFileMagic ++ List.replicate 15 0 ++ [60] ++ List.replicate 36 0

def shortMetadata : Memory := fun address =>
  (List.replicate 64 0 ++ headerStart ++ [0, 0, 0, 0, 0, 0, 0, 20] ++
    List.replicate 56 0 ++ [0, 0, 0, 148] ++ List.replicate 44 0 ++ deletedFile).getD address 0

/-- A file with 84 bytes of metadata, and the deleted one in its data. -/
def longMetadata : Memory := fun address =>
  (List.replicate 64 0 ++ headerStart ++ [0, 0, 0, 0, 0, 0, 0, 84] ++
    [0, 0, 0, 20] ++ List.replicate 56 0 ++ [0, 0, 0, 192] ++ deletedFile).getD address 0

/-- The two regions have the same stream, and a file with the empty name is found
in one of them. -/
theorem not_sameLookups_shortMetadata :
    ∃ stream, Hashes shortMetadata smallCbfs stream ∧
      Hashes longMetadata smallCbfs stream ∧
      NamesInside shortMetadata smallCbfs ∧ NamesInside longMetadata smallCbfs ∧
      ¬ SameLookups shortMetadata smallCbfs longMetadata smallCbfs := by
  have hashes : Hashes shortMetadata smallCbfs
      (masterBytes shortMetadata smallCbfs ++
        (record shortMetadata smallCbfs 64 ++ (record shortMetadata smallCbfs 192 ++ []))) := by
    refine (hashes_iff (by decide) (by decide)).mpr ⟨by decide, _, ?_, rfl⟩
    have tail : HashedFrom shortMetadata smallCbfs 256 [] := .ends (by decide)
    have second := file_hashedFrom 192 tail
      ⟨by decide +kernel, by decide +kernel, by decide +kernel⟩
      (by decide +kernel) (by decide +kernel)
    have first := file_hashedFrom 64 second
      ⟨by decide +kernel, by decide +kernel, by decide +kernel⟩
      (by decide +kernel) (by decide +kernel)
    exact slot_hashedFrom 0 first (by decide) (by decide +kernel) (by decide)
  have hashes' : Hashes longMetadata smallCbfs
      (masterBytes longMetadata smallCbfs ++ (record longMetadata smallCbfs 64 ++ [])) := by
    refine (hashes_iff (by decide) (by decide)).mpr ⟨by decide, _, ?_, rfl⟩
    have tail : HashedFrom longMetadata smallCbfs 256 [] := .ends (by decide)
    have first := file_hashedFrom 64 tail
      ⟨by decide +kernel, by decide +kernel, by decide +kernel⟩
      (by decide +kernel) (by decide +kernel)
    exact slot_hashedFrom 0 first (by decide) (by decide +kernel) (by decide)
  have same : masterBytes longMetadata smallCbfs ++
      (record longMetadata smallCbfs 64 ++ []) =
        masterBytes shortMetadata smallCbfs ++
          (record shortMetadata smallCbfs 64 ++ (record shortMetadata smallCbfs 192 ++ [])) := by
    decide +kernel
  rw [same] at hashes'
  refine ⟨_, hashes, hashes', namesInside_of_forall (by decide +kernel),
    namesInside_of_forall (by decide +kernel), fun agrees => ?_⟩
  have missing : (cbfsLocate shortMetadata smallCbfs 3 [] (some 0x50)).map
      Option.isSome = some false := by decide +kernel
  have found : (cbfsLocate longMetadata smallCbfs 3 [] (some 0x50)).map
      Option.isSome = some true := by decide +kernel
  obtain ⟨result, ran, nothing⟩ := Option.map_eq_some_iff.mp missing
  obtain ⟨result', ran', something⟩ := Option.map_eq_some_iff.mp found
  have outcomes := congrArg Option.isSome (agrees [] 0x50 List.not_mem_nil
    (by decide) 3 3 result result' ran ran')
  rw [Option.isSome_map, Option.isSome_map, nothing, something] at outcomes
  cases outcomes

end Coreboot.CbfsVerification
