import Coreboot.CbfsCompacted
import Coreboot.CbfsScan

/-!
# The tool and the firmware

The firmware looks for a file in a region with the image that the tool has built.
-/

namespace Coreboot.CbfsAgreement

open ByteMemory Cbfs
open CbfsScan hiding cbfsFileMagic alignUp fileEnd

section Agreement

variable (contents : Memory) {width : Nat} (cbfs : CbfsScan.Cbfs width)

structure Shows (image : Image) : Prop where
  size : cbfs.size = image.size
  bytes : ∀ offset < image.size, contents (cbfs.start + offset) = image.data offset

def cbfsFileData (fh : Cbfsf width) : List Byte :=
  load contents fh.data.offset.toNat fh.data.size.toNat

/-- A name that is not empty, or a type that is neither empty nor deleted. -/
def Wanted (name : List Byte) (type : Option Nat) : Prop :=
  name ≠ [] ∨ ∃ wanted ∈ type, LiveType wanted

/-- `cbfs_locate` finds the files that were added, and only these, and their data
is what was added. -/
structure Agrees (files : List AddedFile) : Prop where
  ends : ∀ name type, ∃ fuel result, cbfsLocate contents cbfs fuel name type = some result
  finds : ∀ name type, 0 ∉ name → Wanted name type →
    ((∃ fuel fh, cbfsLocate contents cbfs fuel name type = some (some fh)) ↔
      ∃ file ∈ files, file.name = name ∧ ∀ wanted ∈ type, file.type = wanted)
  data : ∀ name type fuel fh, 0 ∉ name → Wanted name type →
    cbfsLocate contents cbfs fuel name type = some (some fh) →
      ∀ file ∈ files, file.name = name → cbfsFileData contents fh = file.content

end Agreement

/-- In every run whose additions meet a condition, the firmware agrees with the
tool. -/
def AgreesUnder (condition : Condition) : Prop :=
  ∀ size image files, AddedRun condition size image files →
    ∀ width, 32 ≤ width → ∀ contents (cbfs : CbfsScan.Cbfs width),
      Shows contents cbfs image → Agrees contents cbfs files

section Entries

variable {contents : Memory} {width : Nat} {cbfs : CbfsScan.Cbfs width} {image : Image}

section

variable (shows : Shows contents cbfs image)
include shows

theorem Shows.load {offset count : Nat} (inside : offset + count ≤ image.size) :
    ByteMemory.load contents (cbfs.start + offset) count =
      ByteMemory.load image.data offset count := by
  refine load_translate fun i below => ?_
  rw [Nat.add_assoc]
  exact shows.bytes (offset + i) (by omega)

variable {entries before after : List Entry} {e : Entry}

structure HeaderSeen (contents : Memory) (cbfs : CbfsScan.Cbfs width)
    (image : Image) (address span : Nat) : Prop where
  file : FileAt contents cbfs address
  offset : fileOffset contents cbfs address = entryOffset image.data address
  len : fileLen contents cbfs address = entryLen image.data address
  type : fileType contents cbfs address = entryType image.data address
  next : WordAlignment.ceil (CbfsScan.fileEnd contents cbfs address) 6 = address + span
  inside : address + span ≤ image.size

theorem headerSeen (held : Held image (before ++ e :: after)) :
    HeaderSeen contents cbfs image (spanOf before) e.span := by
  have here := held.layout.entryAt
  rw [Nat.zero_add] at here
  have whole := held.whole
  rw [spanOf_append, spanOf] at whole
  obtain ⟨magic, named, fits, tight, aligned⟩ := here.header
  have frontAligned : 64 ∣ spanOf before := (layoutAt_append.mp held.layout).1.aligned
  have field (skip : Nat) (low : skip + 4 ≤ 24) :
      readBE 4 contents (cbfs.start + spanOf before + skip) =
        readBE 4 image.data (spanOf before + skip) := by
    rw [readBE, Nat.add_assoc, shows.load (by omega), readBE]
  have offset : fileOffset contents cbfs (spanOf before) =
      entryOffset image.data (spanOf before) := field 20 (by decide)
  have len : fileLen contents cbfs (spanOf before) =
      entryLen image.data (spanOf before) := field 8 (by decide)
  have ends : CbfsScan.fileEnd contents cbfs (spanOf before) = spanOf before +
      entryOffset image.data (spanOf before) + entryLen image.data (spanOf before) := by
    rw [CbfsScan.fileEnd, offset, len]
  have size := shows.size
  refine ⟨⟨?_, ?_, by omega⟩, offset, len, field 12 (by decide), ?_, by omega⟩
  · show spanOf before + 24 ≤ cbfs.size
    omega
  · exact (shows.load (by omega)).trans magic
  · have above := WordAlignment.le_ceil (CbfsScan.fileEnd contents cbfs (spanOf before)) 6
    have near := WordAlignment.ceil_lt_add (CbfsScan.fileEnd contents cbfs (spanOf before)) 6
    have multiple : 64 ∣ WordAlignment.ceil (CbfsScan.fileEnd contents cbfs (spanOf before)) 6 :=
      WordAlignment.dvd_ceil _ 6
    omega

theorem exists_of_walk (held : Held image entries) {goesOn : Nat → Prop} {offset : Nat}
    (walk : Walk contents cbfs goesOn offset) :
    ∃ before after, entries = before ++ after ∧ offset = spanOf before := by
  induction walk with
  | start => exact ⟨[], entries, rfl, rfl⟩
  | skip walk inside other ih =>
    obtain ⟨before, after, rfl, rfl⟩ := ih
    cases after with
    | nil =>
      have whole := held.whole
      have size := shows.size
      rw [List.append_nil] at whole
      change _ + 24 ≤ _ at inside
      omega
    | cons e rest => exact absurd (headerSeen shows held).file.magic other
  | next walk file goes ih =>
    obtain ⟨before, after, rfl, rfl⟩ := ih
    cases after with
    | nil =>
      have whole := held.whole
      have size := shows.size
      have header := file.header
      rw [List.append_nil] at whole
      change _ + 24 ≤ _ at header
      omega
    | cons e rest =>
      refine ⟨before ++ [e], rest, List.append_cons before e rest, ?_⟩
      rw [(headerSeen shows held).next, spanOf_append]
      rfl

end

end Entries

theorem eq_of_load {memory : Memory} {address : Nat} {first second : List Byte}
    (firstAt : load memory address (first.length + 1) = first ++ [0])
    (secondAt : load memory address (second.length + 1) = second ++ [0])
    (firstString : 0 ∉ first) (secondString : 0 ∉ second) : first = second := by
  induction first generalizing address second with
  | nil =>
    cases second with
    | nil => rfl
    | cons c second =>
      have zero := (List.cons.inj firstAt).1
      have here := (List.cons.inj secondAt).1
      exact absurd (zero.symm.trans here ▸ (.head _)) secondString
  | cons c first ih =>
    have here := (List.cons.inj firstAt).1
    cases second with
    | nil =>
      have zero := (List.cons.inj secondAt).1
      exact absurd (zero.symm.trans here ▸ (.head _)) firstString
    | cons d second =>
      rw [here.symm.trans (List.cons.inj secondAt).1,
        ih (List.cons.inj firstAt).2 (List.cons.inj secondAt).2
          (fun member => firstString (List.mem_cons_of_mem c member))
          fun member => secondString (List.mem_cons_of_mem d member)]

section Matching

variable {contents : Memory} {width : Nat} {cbfs : CbfsScan.Cbfs width}
  {image : Image} {entries before after : List Entry} {name : List Byte}
  {type : Option Nat} {span : Nat} {record : Record}

section

variable (shows : Shows contents cbfs image)
include shows

theorem matches_file_iff (clean : Clean image (before ++ ⟨span, .file record⟩ :: after))
    (string : 0 ∉ name) :
    Matches contents cbfs name type (spanOf before) ↔
      record.name = name ∧ ∀ wanted ∈ type, record.type = wanted := by
  have seen := headerSeen shows clean.held
  have here := clean.held.layout.entryAt
  rw [Nat.zero_add] at here
  obtain ⟨-, ⟨offset, -⟩, metadata, -⟩ := here.slot
  have length := clean.terminated_file.length_le
  have fits := here.header.fits
  have inside := seen.inside
  change 24 + _ ≤ _ at length
  change _ ≤ span at fits
  change _ + span ≤ _ at inside
  have named : load contents (cbfs.start + spanOf before + cbfsFileSize)
      (record.name.length + 1) = record.name ++ [0] := by
    rw [Nat.add_assoc]
    refine (shows.load ?_).trans clean.load_name
    show spanOf before + 24 + (record.name.length + 1) ≤ _
    omega
  have typed : fileType contents cbfs (spanOf before) = record.type := by
    obtain ⟨rest, total⟩ : ∃ rest, record.metadata.length = 12 + 4 + rest :=
      Nat.exists_eq_add_of_le (by omega)
    rw [total] at metadata
    rw [seen.type, Record.type, ← metadata, take_drop_load, entryType, readBE]
  rw [Matches, typed]
  refine and_congr_left fun _ => ⟨fun other => ?_, fun same => same ▸ named⟩
  exact eq_of_load named other record.string string

theorem not_matches_empty (held : Held image (before ++ ⟨span, .empty⟩ :: after))
    (string : 0 ∉ name) (wanted : Wanted name type) :
    ¬ Matches contents cbfs name type (spanOf before) := by
  rintro ⟨named, typed⟩
  have seen := headerSeen shows held
  have here := held.layout.entryAt
  rw [Nat.zero_add] at here
  obtain ⟨null, zero⟩ := here.slot
  have named' := here.header.named
  have fits := here.header.fits
  have inside := seen.inside
  change _ ≤ span at fits
  change _ + span ≤ _ at inside
  rcases wanted with nonempty | ⟨type', member, live⟩
  · cases name with
    | nil => exact nonempty rfl
    | cons c rest =>
      have first := (List.cons.inj named).1
      rw [Nat.add_assoc, shows.bytes _ (by show _ + 24 < _; omega)] at first
      exact string (first.symm.trans zero ▸ (.head _))
  · have same := typed type' member
    rw [seen.type, null] at same
    exact live.2 (same ▸ rfl)

omit shows in
theorem cbfsFileData_fileAt (wide : 32 ≤ width) (shows : Shows contents cbfs image)
    (held : Held image (before ++ ⟨span, .file record⟩ :: after)) :
    cbfsFileData contents (fileAt contents cbfs (spanOf before)) = record.content := by
  have seen := headerSeen shows held
  have here := held.layout.entryAt
  rw [Nat.zero_add] at here
  obtain ⟨-, ⟨offset, len⟩, -, content⟩ := here.slot
  have fits := here.header.fits
  have inside := seen.inside
  have size := shows.size
  change _ ≤ span at fits
  change _ + span ≤ _ at inside
  have start : (fileAt contents cbfs (spanOf before)).data.offset.toNat =
      cbfs.start + (spanOf before + fileOffset contents cbfs (spanOf before)) :=
    toNat_region (by rw [seen.offset]; omega)
  have length : (fileAt contents cbfs (spanOf before)).data.size.toNat =
      fileLen contents cbfs (spanOf before) := toNat_readBE wide _ _
  rw [cbfsFileData, start, length, seen.offset, seen.len, shows.load (by omega), offset, len]
  exact content

theorem stored_of_firstMatch (clean : Clean image entries) (string : 0 ∉ name)
    (wanted : Wanted name type) {fh : Cbfsf width} (found : FirstMatch contents cbfs name type fh) :
    ∃ before span record after,
      entries = before ++ ⟨span, .file record⟩ :: after ∧
        record.name = name ∧ (∀ wanted ∈ type, record.type = wanted) ∧
          fh = fileAt contents cbfs (spanOf before) := by
  obtain ⟨offset, walk, file, -, matched, rfl⟩ := found
  obtain ⟨before, after, rfl, rfl⟩ := exists_of_walk shows clean.held walk
  cases after with
  | nil =>
    have whole := clean.held.whole
    have size := shows.size
    have header := file.header
    rw [List.append_nil] at whole
    change _ + 24 ≤ _ at header
    omega
  | cons e after =>
    obtain ⟨span, slot⟩ := e
    cases slot with
    | empty =>
      exact absurd matched (not_matches_empty shows clean.held string wanted)
    | deleted =>
      exact absurd rfl (clean.merged _ (List.mem_append_right _ (.head _)))
    | file record =>
      obtain ⟨named, typed⟩ := (matches_file_iff shows clean string).mp matched
      exact ⟨before, span, record, after, rfl, named, typed, rfl⟩

theorem walk_or_match (held : Held image (before ++ after)) :
    Walk contents cbfs (Passes contents cbfs name type) (spanOf before) ∨
      ∃ fh, FirstMatch contents cbfs name type fh := by
  induction before using List.reverseRecOn generalizing after with
  | nil => exact .inl .start
  | append_singleton before e ih =>
    rw [← List.append_cons] at held
    rcases ih held with walk | found
    · have seen := headerSeen shows held
      have here := held.layout.entryAt
      rw [Nat.zero_add] at here
      have named := here.header.named
      have long : cbfsFileSize ≤ fileOffset contents cbfs (spanOf before) := by
        rw [seen.offset]
        exact named.le
      by_cases matched : Matches contents cbfs name type (spanOf before)
      · exact .inr ⟨_, spanOf before, walk, seen.file, long, matched, rfl⟩
      · refine .inl ?_
        have next := walk.next seen.file ⟨long, matched⟩
        rw [seen.next] at next
        rw [spanOf_append]
        exact next
    · exact .inr found

theorem exists_firstMatch (clean : Clean image (before ++ ⟨span, .file record⟩ :: after))
    (string : 0 ∉ name) (named : record.name = name) (typed : ∀ wanted ∈ type, record.type = wanted) :
    ∃ fh, FirstMatch contents cbfs name type fh := by
  rcases walk_or_match shows clean.held with walk | found
  · have seen := headerSeen shows clean.held
    have here := clean.held.layout.entryAt
    rw [Nat.zero_add] at here
    refine ⟨_, spanOf before, walk, seen.file, ?_,
      (matches_file_iff shows clean string).mpr ⟨named, typed⟩, rfl⟩
    rw [seen.offset]
    exact here.header.named.le
  · exact found

end

end Matching

theorem locate_iff {contents : Memory} {width : Nat} {cbfs : CbfsScan.Cbfs width}
    (wide : 32 ≤ width) {name : List Byte} {type : Option Nat} {fh : Cbfsf width} :
    (∃ fuel, cbfsLocate contents cbfs fuel name type = some (some fh)) ↔
      FirstMatch contents cbfs name type fh :=
  SteppedRun.exists_run_iff.trans (endsWith_locateStep_iff wide)

theorem agrees_of_describes {contents : Memory} {width : Nat} {cbfs : CbfsScan.Cbfs width}
    (wide : 32 ≤ width) {image : Image} {entries : List Entry} {files : List AddedFile}
    (shows : Shows contents cbfs image) (describes : Describes image entries files) :
    Agrees contents cbfs files := by
  have stored {before after : List Entry} {span : Nat} {record : Record}
      (split : entries = before ++ ⟨span, .file record⟩ :: after) :
      record.toAdded ∈ files := by
    refine describes.mem_iff.mpr ⟨(spanOf before, record), ?_, rfl⟩
    rw [storedFiles_of_held describes.clean.held]
    exact mem_filesOf_iff.mpr ⟨before, span, after, split, (Nat.zero_add _).symm⟩
  refine ⟨exists_cbfsLocate wide contents cbfs, ?_, ?_⟩
  · intro name type string wanted
    constructor
    · rintro ⟨fuel, fh, ran⟩
      obtain ⟨before, span, record, after, split, named, typed, -⟩ :=
        stored_of_firstMatch shows describes.clean string wanted ((locate_iff wide).mp ⟨fuel, ran⟩)
      exact ⟨record.toAdded, stored split, named, typed⟩
    · rintro ⟨file, member, named, typed⟩
      obtain ⟨⟨address, record⟩, inImage, rfl⟩ := describes.mem_iff.mp member
      rw [storedFiles_of_held describes.clean.held] at inImage
      obtain ⟨before, span, after, rfl, -⟩ := mem_filesOf_iff.mp inImage
      obtain ⟨fh, found⟩ := exists_firstMatch shows describes.clean string named typed
      obtain ⟨fuel, ran⟩ := (locate_iff wide).mpr found
      exact ⟨fuel, fh, ran⟩
  · intro name type fuel fh string wanted ran file member named
    obtain ⟨before, span, record, after, rfl, named', -, rfl⟩ :=
      stored_of_firstMatch shows describes.clean string wanted ((locate_iff wide).mp ⟨fuel, ran⟩)
    rw [cbfsFileData_fileAt wide shows describes.clean.held,
      describes.eq_of_name member (stored rfl) (named.trans named'.symm)]
    rfl

/-- Without overflow of the size that is needed, the firmware agrees with the
tool. -/
theorem agrees_of_fitting {size : Nat} {image : Image} {files : List AddedFile}
    (run : AddedRun Fitting size image files) {width : Nat} (wide : 32 ≤ width)
    {contents : Memory} {cbfs : CbfsScan.Cbfs width}
    (shows : Shows contents cbfs image) : Agrees contents cbfs files := by
  obtain ⟨entries, describes, -⟩ := describes_of_addedRun run
  exact agrees_of_describes wide shows describes

def oneSlot : CbfsScan.Cbfs 32 where
  region := ⟨0, 64⟩
  small := by decide

theorem shows_oneSlot {image : Image} (size : image.size = 64) : Shows image.data oneSlot image :=
  ⟨size.symm, fun offset _ => congrArg image.data (Nat.zero_add offset)⟩

theorem agrees_threeBytes :
    ∃ image, AddedRun Fitting 64 image [⟨[0x62], 0x50, [1, 2, 3]⟩] ∧
      Agrees image.data oneSlot [⟨[0x62], 0x50, [1, 2, 3]⟩] := by
  obtain ⟨image, metadata, run, size, -⟩ :=
    @exists_oneAdded Fitting [1, 2, 3] (by decide)
      fun image entries header held built => fitting_of_short held built (by decide)
  exact ⟨image, run, agrees_of_fitting run (by decide) (shows_oneSlot size)⟩

/-- Compactions between the additions and the removals hide no file. -/
theorem agrees_of_compactedRun {image : Image} {files : List AddedFile}
    (run : CompactedRun image files) {width : Nat} (wide : 32 ≤ width) {contents : Memory}
    {cbfs : CbfsScan.Cbfs width} (shows : Shows contents cbfs image) :
    Agrees contents cbfs files := by
  obtain ⟨entries, describes⟩ := describes_of_compactedRun run
  exact agrees_of_describes wide shows describes

theorem agrees_of_compactedRun_threeBytes :
    ∃ image, CompactedRun image [⟨[0x62], 0x50, [1, 2, 3]⟩] ∧
      Agrees image.data oneSlot [⟨[0x62], 0x50, [1, 2, 3]⟩] := by
  obtain ⟨image, metadata, run, size, clean⟩ :=
    @exists_oneAdded Fitting [1, 2, 3] (by decide)
      fun image entries header held built => fitting_of_short held built (by decide)
  have merged := merged_coalesce none [⟨64, .file ⟨metadata, [1, 2, 3]⟩⟩]
  have compactable := merged.single ⟨.inl rfl, trivial⟩
  obtain ⟨data, entries, result, -⟩ := exists_compacted clean.held compactable
  have run' : CompactedRun { image with data } _ :=
    .compact (.added run) clean.held compactable result
  exact ⟨_, run', agrees_of_compactedRun run' (by decide) (shows_oneSlot size)⟩

/-- Of a content of 4 GiB nothing is stored. -/
theorem not_agrees_fourGiB : ¬ AgreesUnder fun _ _ _ _ => True := by
  intro agrees
  obtain ⟨content, long⟩ : ∃ content : List Byte, content.length = 4294967296 :=
    ⟨List.replicate 4294967296 0, List.length_replicate⟩
  have nothing : content.length % 2 ^ 32 = 0 := by
    rw [long]
    rfl
  obtain ⟨image, metadata, run, size, clean⟩ :=
    @exists_oneAdded (fun _ _ _ _ => True) content (by omega) fun _ _ _ _ _ => trivial
  rw [nothing, List.take_zero] at clean
  have shows := shows_oneSlot size
  have correct := agrees 64 image _ run 32 le_rfl _ _ shows
  have wanted : Wanted [0x62] none := .inl (List.cons_ne_nil _ _)
  obtain ⟨fuel, fh, ran⟩ := (correct.finds [0x62] none (by decide) wanted).mpr
    ⟨_, List.mem_singleton_self _, rfl, nofun⟩
  have data := correct.data _ _ _ _ (by decide) wanted ran _ (List.mem_singleton_self _) rfl
  obtain ⟨before, span, record, after, split, -, -, rfl⟩ :=
    stored_of_firstMatch shows clean (by decide) wanted ((locate_iff (by decide)).mp ⟨fuel, ran⟩)
  have empty : record.content = [] := by
    cases before with
    | nil =>
      cases split
      rfl
    | cons head before =>
      exact absurd (List.cons.inj split).2 (by simp)
  rw [split] at clean
  rw [cbfsFileData_fileAt (by decide) shows clean.held, empty] at data
  change [] = content at data
  rw [← data] at long
  cases long

end Coreboot.CbfsAgreement
