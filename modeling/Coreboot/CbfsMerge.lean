import Coreboot.CbfsLayout

/-!
# Merging empty entries

The walk replaces each run of deleted and empty entries by one empty entry.
-/

namespace Coreboot.Cbfs

open ByteMemory

structure Header (header : Memory) (type len offset : Nat) (name : List Byte) :
    Prop where
  magic : load header 0 8 = cbfsFileMagic
  type : entryType header 0 = type % 2 ^ 32
  len : entryLen header 0 = len % 2 ^ 32
  offset : entryOffset header 0 = offset
  name : load header (filename 0) (name.length + 1) = name ++ [0]

theorem fileHeaderFields_spec (type len offset : Nat) :
    load (fileHeaderFields type len offset) 0 8 = cbfsFileMagic ∧
      entryType (fileHeaderFields type len offset) 0 = type % 2 ^ 32 ∧
        entryLen (fileHeaderFields type len offset) 0 = len % 2 ^ 32 ∧
          entryAttributesOffset (fileHeaderFields type len offset) 0 = 0 ∧
            entryOffset (fileHeaderFields type len offset) 0 = offset % 2 ^ 32 := by
  delta fileHeaderFields
  extract_lets blank magic typed sized attributed
  have offsetChange : SameOutside attributed (setOffset attributed 0 offset) 20 24 :=
    sameOutside_writeBE le_rfl le_rfl
  have attributesChange : SameOutside sized attributed 16 20 := sameOutside_writeBE le_rfl le_rfl
  have lenChange : SameOutside typed sized 8 12 := sameOutside_writeBE le_rfl le_rfl
  have typeChange : SameOutside magic typed 12 16 := sameOutside_writeBE le_rfl le_rfl
  refine ⟨?_, ?_, ?_, ?_, readBE_writeBE_self 4 offset _ _⟩
  · rw [offsetChange.load (by omega), attributesChange.load (by omega),
      lenChange.load (by omega), typeChange.load (by omega)]
    exact load_store_self blank 0 cbfsFileMagic
  · rw [entryType, offsetChange.readBE (by omega),
      attributesChange.readBE (by omega), lenChange.readBE (by omega)]
    exact readBE_writeBE_self 4 type _ _
  · rw [entryLen, offsetChange.readBE (by omega), attributesChange.readBE (by omega)]
    exact readBE_writeBE_self 4 len _ _
  · rw [entryAttributesOffset, offsetChange.readBE (by omega)]
    exact readBE_writeBE_self 4 0 _ _

theorem header_createFileHeader (type len : Nat) {name : List Byte}
    (fits : cbfsCalculateFileHeaderSize name < 2 ^ 32) :
    Header (cbfsCreateFileHeader type len name) type len (cbfsCalculateFileHeaderSize name) name ∧
      entryAttributesOffset (cbfsCreateFileHeader type len name) 0 = 0 := by
  obtain ⟨magic, typeEq, lenEq, attributesEq, offsetEq⟩ :=
    fileHeaderFields_spec type len (cbfsCalculateFileHeaderSize name)
  rw [Nat.mod_eq_of_lt fits] at offsetEq
  delta cbfsCreateFileHeader
  extract_lets fields cleared
  have named : SameOutside fields (store cleared (filename 0) (name ++ [0])) 24
      (24 + max (entryOffset fields 0 - sizeofFile) (name.length + 1)) := by
    have clears : SameOutside fields cleared 24 (24 +
        max (entryOffset fields 0 - sizeofFile) (name.length + 1)) :=
      sameOutside_fill le_rfl (by show 24 + _ ≤ _; omega)
    refine clears.trans (sameOutside_store le_rfl ?_)
    rw [List.length_append]
    show 24 + (name.length + 1) ≤ _
    omega
  refine ⟨⟨?_, ?_, ?_, ?_, ?_⟩, ?_⟩
  · rw [named.load (by omega), magic]
  · rw [entryType, named.readBE (by omega)]
    exact typeEq
  · rw [entryLen, named.readBE (by omega)]
    exact lenEq
  · rw [entryOffset, named.readBE (by omega)]
    exact offsetEq
  · have stored := load_store_self cleared (filename 0) (name ++ [0])
    rwa [List.length_append] at stored
  · rw [entryAttributesOffset, named.readBE (by omega)]
    exact attributesEq

theorem copied_header {data header : Memory} {type len offset : Nat}
    {name : List Byte} (created : Header header type len offset name)
    (entry : Nat) {count : Nat} (covers : 24 ≤ count) :
    load (store data entry (load header 0 count)) entry 8 = cbfsFileMagic ∧
      entryType (store data entry (load header 0 count)) entry = type % 2 ^ 32 ∧
      entryLen (store data entry (load header 0 count)) entry = len % 2 ^ 32 ∧
      entryOffset (store data entry (load header 0 count)) entry = offset := by
  have field (skip : Nat) (inside : skip + 4 ≤ count) :
      readBE 4 (store data entry (load header 0 count)) (entry + skip) = readBE 4 header skip := by
    rw [readBE, load_store_load inside, readBE]
  refine ⟨?_, ?_, ?_, ?_⟩
  · rw [← created.magic]
    exact @load_store_load data header entry count 0 8 (by omega)
  · rw [entryType, field 12 (by omega), ← created.type]
    rfl
  · rw [entryLen, field 8 (by omega), ← created.len]
    rfl
  · rw [entryOffset, field 20 (by omega), ← created.offset]
    rfl

theorem createEmptyEntry_fields (data : Memory) (entry len : Nat) :
    load (cbfsCreateEmptyEntry data entry cbfsComponentNull len []) entry 8 = cbfsFileMagic ∧
      entryType (cbfsCreateEmptyEntry data entry cbfsComponentNull len [])
        entry = cbfsComponentNull ∧
      entryLen (cbfsCreateEmptyEntry data entry cbfsComponentNull len []) entry = len % 2 ^ 32 ∧
      entryOffset (cbfsCreateEmptyEntry data entry cbfsComponentNull len []) entry = 40 ∧
      cbfsCreateEmptyEntry data entry cbfsComponentNull len [] (filename entry) = 0 ∧
      SameOutside data
        (cbfsCreateEmptyEntry data entry cbfsComponentNull len []) entry
        (entry + 40 + len) := by
  have headerSize : cbfsCalculateFileHeaderSize [] = 40 := rfl
  obtain ⟨created, -⟩ := header_createFileHeader cbfsComponentNull len
    (show cbfsCalculateFileHeaderSize [] < 2 ^ 32 by decide)
  rw [headerSize] at created
  delta cbfsCreateEmptyEntry
  extract_lets tmp copied
  have tmpOffset : entryOffset tmp 0 = 40 := created.offset
  have copiedEq : copied = store data entry (load tmp 0 40) := by
    rw [← tmpOffset]
  obtain ⟨magic, type, lenEq, offset⟩ := @copied_header data _ _ _ _ _ created entry 40 (by omega)
  rw [← copiedEq] at magic type lenEq offset
  have name : copied (filename entry) = 0 := by
    have first := @load_store_load data tmp entry 40 24 1 (by omega)
    rw [← copiedEq, show load tmp 24 1 = [0] from created.name] at first
    exact (List.cons.inj first).1
  have copy : SameOutside data copied entry (entry + 40) := by
    rw [copiedEq]
    exact sameOutside_store le_rfl (by rw [length_load])
  have clears : SameOutside copied (fill copied (entry + entryOffset copied
      entry) len cbfsContentDefaultValue) (entry + 40) (entry + 40 + len) := by
    rw [offset]
    exact sameOutside_fill le_rfl le_rfl
  refine ⟨?_, ?_, ?_, ?_, ?_, ?_⟩
  · rw [clears.load (by omega)]
    exact magic
  · rw [entryType, clears.readBE (by omega)]
    exact type
  · rw [entryLen, clears.readBE (by omega)]
    exact lenEq
  · rw [entryOffset, clears.readBE (by omega)]
    exact offset
  · rw [clears _ (Or.inl (by show entry + 24 < _; omega))]
    exact name
  · exact (copy.mono le_rfl (by omega)).trans (clears.mono (by omega) le_rfl)

theorem createEmptyEntry_spec (data : Memory) (entry : Nat) {len span : Nat}
    (fits : 40 + len ≤ span) (tight : span < 40 + len + 64)
    (aligned : 64 ∣ span) (small : len < 4294967296) :
    EntryAt (cbfsCreateEmptyEntry data entry cbfsComponentNull len []) entry ⟨span, .empty⟩ ∧
      SameOutside data
        (cbfsCreateEmptyEntry data entry cbfsComponentNull len []) entry
        (entry + 40 + len) := by
  obtain ⟨magic, type, lenEq, offset, name, change⟩ := createEmptyEntry_fields data entry len
  rw [show len % 2 ^ 32 = len from Nat.mod_eq_of_lt small] at lenEq
  refine ⟨⟨⟨magic, ?_, ?_, ?_, aligned⟩, type, name⟩, change⟩
  · rw [offset]
    decide
  · rwa [offset, lenEq]
  · rwa [offset, lenEq]

def Entry.isFree (e : Entry) : Bool := e.slot.isFree

/-- Every run of free entries as one empty entry.  The option is the space of a
run that has begun. -/
def coalesce : Option Nat → List Entry → List Entry
  | none, [] => []
  | some span, [] => [⟨span, .empty⟩]
  | none, ⟨length, .file record⟩ :: rest =>
    ⟨length, .file record⟩ :: coalesce none rest
  | some span, ⟨length, .file record⟩ :: rest =>
    ⟨span, .empty⟩ :: ⟨length, .file record⟩ :: coalesce none rest
  | none, ⟨length, _⟩ :: rest => coalesce (some length) rest
  | some span, ⟨length, _⟩ :: rest => coalesce (some (span + length)) rest

def freeRun (entries : List Entry) : List Entry := entries.takeWhile Entry.isFree

def afterRun (entries : List Entry) : List Entry := entries.dropWhile Entry.isFree

theorem freeRun_append_afterRun (entries : List Entry) :
    freeRun entries ++ afterRun entries = entries :=
  List.takeWhile_append_dropWhile

theorem spanOf_run (entries : List Entry) :
    spanOf (freeRun entries) + spanOf (afterRun entries) = spanOf entries := by
  rw [← spanOf_append, freeRun_append_afterRun]

theorem length_afterRun_le (entries : List Entry) : (afterRun entries).length ≤ entries.length := by
  rw [← congrArg List.length (freeRun_append_afterRun entries), List.length_append]
  exact Nat.le_add_left _ _

theorem coalesce_some (span : Nat) (entries : List Entry) :
    coalesce (some span) entries =
      ⟨span + spanOf (freeRun entries), .empty⟩ :: coalesce none (afterRun entries) := by
  induction entries generalizing span with
  | nil => rfl
  | cons e rest ih =>
    obtain ⟨length, slot⟩ := e
    cases slot with
    | file record => rfl
    | empty =>
      refine (ih (span + length)).trans ?_
      rw [Nat.add_assoc]
      rfl
    | deleted =>
      refine (ih (span + length)).trans ?_
      rw [Nat.add_assoc]
      rfl

theorem coalesce_free {e : Entry} (free : e.isFree = true) (rest : List Entry) :
    coalesce none (e :: rest) = ⟨e.span + spanOf (freeRun rest), .empty⟩ ::
      coalesce none (afterRun rest) := by
  obtain ⟨length, slot⟩ := e
  cases slot with
  | file record => exact Bool.noConfusion free
  | empty => exact coalesce_some length rest
  | deleted => exact coalesce_some length rest

def TailApart (entries : List Entry) : Prop :=
  ∀ before first second, entries = before ++ [first, second] →
    first.isFree = true → second.isFree = false

theorem TailApart.suffix {before entries : List Entry}
    (apart : TailApart (before ++ entries)) : TailApart entries :=
  fun middle first second same => apart (before ++ middle) first second
    (by rw [same, List.append_assoc])

variable {rest : List Entry}

theorem TailApart.afterRun_ne_nil {e : Entry} (apart : TailApart (e :: rest))
    (free : e.isFree = true) (run : freeRun rest ≠ []) : afterRun rest ≠ [] := by
  intro ends
  have whole : freeRun rest = rest := by
    have parts := freeRun_append_afterRun rest
    rwa [ends, List.append_nil] at parts
  have allFree : ∀ other ∈ e :: rest, other.isFree = true := by
    intro other member
    rcases List.mem_cons.mp member with rfl | later
    · exact free
    · rw [← whole] at later
      exact List.all_eq_true.mp List.all_takeWhile other later
  rcases List.eq_nil_or_concat' rest with none | ⟨before, second, same⟩
  · rw [none] at run
    exact run rfl
  · rcases List.eq_nil_or_concat' (e :: before) with none | ⟨start, first, same'⟩
    · exact List.cons_ne_nil _ _ none
    · have split : e :: rest = start ++ [first, second] := by
        rw [same, ← List.cons_append, same', List.append_assoc]
        rfl
      have differ := apart start first second split (allFree first (by rw [split]; simp))
      rw [allFree second (by rw [split]; simp)] at differ
      exact Bool.noConfusion differ

section Loops

variable {image : Image} {entry span : Nat}

variable {data : Memory} {e : Entry} {entries : List Entry}

theorem HeaderAt.setType (header : HeaderAt data entry span) (type : Nat) :
    HeaderAt (setType data entry type) entry span := by
  have change : SameOutside data (Cbfs.setType data entry type) (entry + 12) (entry + 16) :=
    sameOutside_writeBE le_rfl le_rfl
  have offset : entryOffset (Cbfs.setType data entry type) entry = entryOffset data entry :=
    change.readBE (by omega)
  have len : entryLen (Cbfs.setType data entry type) entry = entryLen data entry :=
    change.readBE (by omega)
  obtain ⟨magic, named, fits, tight, aligned⟩ := header
  refine ⟨?_, by rwa [offset], by rwa [offset, len], by rwa [offset, len], aligned⟩
  rw [change.load (by omega)]
  exact magic

theorem subSize_of_le {first second : Nat} (le : second ≤ first)
    (fits : first < 4294967296) : subSize first second = first - second := by
  have turn : first + 18446744073709551616 - second = first - second + 18446744073709551616 := by
    omega
  show (first + 18446744073709551616 - second) % 18446744073709551616 = _
  rw [turn, Nat.add_mod_right, Nat.mod_eq_of_lt (by omega)]

theorem type_of_free (entryAt : EntryAt data entry e) (free : e.isFree = true) :
    ¬ (entryType data entry ≠ cbfsComponentDeleted ∧ entryType data entry ≠ cbfsComponentNull) := by
  obtain ⟨length, slot⟩ := e
  rw [← not_or, not_not]
  cases slot with
  | file record => exact Bool.noConfusion free
  | empty => exact Or.inr entryAt.slot.1
  | deleted => exact Or.inl entryAt.slot

theorem mergeNext_free (fuel : Nat) (here : EntryAt image.data entry ⟨span, .empty⟩)
    (next : EntryAt image.data (entry + span) e) (free : e.isFree = true)
    (inside : entry + span + e.span ≤ image.size) (small : image.size < 2147483648)
    (aligned : 64 ∣ entry) :
    ∃ data, mergeNext entry (fuel + 1) image (entry + span) =
        mergeNext entry fuel { image with data } (entry + (span + e.span)) ∧
      EntryAt data entry ⟨span + e.span, .empty⟩ ∧
      SameOutside image.data data entry (entry + span + e.span) ∧
      ∃ recycled, data = cbfsCreateEmptyEntry recycled entry cbfsComponentNull
        (span + e.span - 40) [] := by
  have spanAligned : 64 ∣ span := here.header.aligned
  have nextAligned := Nat.dvd_add aligned spanAligned
  have sumAligned : 64 ∣ span + e.span := Nat.dvd_add spanAligned next.header.aligned
  have positive : 64 ≤ e.span := next.positive
  obtain ⟨data, recycled, headerAt, change⟩ : ∃ data, (if
      entryType image.data (entry + span) = cbfsComponentDeleted then
        setType image.data (entry + span) cbfsComponentNull
      else image.data) = data ∧ HeaderAt data (entry + span) e.span ∧
        SameOutside image.data data entry (entry + span + e.span) := by
    by_cases deleted : entryType image.data (entry + span) = cbfsComponentDeleted
    · refine ⟨_, if_pos deleted, next.header.setType _, ?_⟩
      exact sameOutside_writeBE (by omega) (by omega)
    · exact ⟨_, if_neg deleted, next.header, SameOutside.refl _ _ _⟩
  have last : cbfsFindNextEntry data (entry + span) = entry + span + e.span :=
    headerAt.findNext nextAligned (by omega)
  have length : subSize (sub32 (entry + span + e.span) entry) minEntrySize =
      span + e.span - 40 := by
    rw [sub32_of_le (by omega) (by omega)]
    show subSize _ 40 = _
    rw [subSize_of_le (by omega) (by omega)]
    omega
  obtain ⟨merged, cleared⟩ := @createEmptyEntry_spec data entry
    (span + e.span - 40) (span + e.span) (by omega) (by omega) sumAligned
    (by omega)
  refine ⟨_, ?_, merged, change.trans (cleared.mono le_rfl (by omega)), data, rfl⟩
  rw [mergeNext, next.valid inside]
  simp only [Bool.not_true, Bool.false_eq_true, if_false]
  rw [if_neg (type_of_free next free), recycled, last, length,
    merged.header.findNext aligned (show entry + (span + e.span) < _ by omega)]

theorem mergeNext_spec {fuel : Nat} (here : EntryAt image.data entry ⟨span, .empty⟩)
    (layout : LayoutAt image.data (entry + span) entries)
    (whole : entry + span + spanOf entries = image.size) (small : image.size < 2147483648)
    (aligned : 64 ∣ entry) (enough : entries.length < fuel) :
    ∃ data, mergeNext entry fuel image (entry + span) = some { image with data } ∧
      EntryAt data entry ⟨span + spanOf (freeRun entries), .empty⟩ ∧
      SameOutside image.data data entry (entry + span + spanOf (freeRun entries)) ∧
      (freeRun entries = [] → data = image.data) := by
  induction entries generalizing image span fuel with
  | nil =>
    rcases fuel with _ | fuel
    · omega
    have stop : mergeNext entry (fuel + 1) image (entry + span) = some image := by
      rw [mergeNext, show entry + span = image.size from whole, not_valid_end]
      rfl
    exact ⟨image.data, stop, here, SameOutside.refl _ _ _, fun _ => rfl⟩
  | cons e rest ih =>
    rcases fuel with _ | fuel
    · omega
    obtain ⟨entryAt, later⟩ := layout
    have valid := entryAt.valid (by rw [spanOf] at whole; omega)
    rw [List.length_cons] at enough
    cases free : e.isFree with
    | true =>
      rw [spanOf] at whole
      obtain ⟨data, step, merged, change, -⟩ := mergeNext_free fuel here
        entryAt free (by omega) small aligned
      have later' : LayoutAt data (entry + (span + e.span)) rest := by
        rw [← Nat.add_assoc]
        exact later.congr change (Or.inr le_rfl)
      obtain ⟨data', run, merged', change', -⟩ := @ih { image with data }
        (span + e.span) fuel merged later' (by show _ = image.size; omega)
        small (by omega)
      have runs : freeRun (e :: rest) = e :: freeRun rest := List.takeWhile_cons_of_pos free
      refine ⟨data', step.trans run, ?_, ?_, fun none => ?_⟩
      · rw [runs, spanOf, ← Nat.add_assoc]
        exact merged'
      · rw [runs, spanOf]
        change SameOutside data data' entry _ at change'
        exact (change.mono le_rfl (by omega)).trans (change'.mono le_rfl (by omega))
      · rw [runs] at none
        exact absurd none (List.cons_ne_nil _ _)
    | false =>
      obtain ⟨length, slot⟩ := e
      cases slot with
      | empty => exact Bool.noConfusion free
      | deleted => exact Bool.noConfusion free
      | file record =>
        have types := entryAt.slot.1
        have stop : mergeNext entry (fuel + 1) image (entry + span) = some image := by
          rw [mergeNext, valid]
          simp only [Bool.not_true, Bool.false_eq_true, if_false]
          rw [if_neg types.1, if_pos types]
        exact ⟨image.data, stop, here, SameOutside.refl _ _ _, fun _ => rfl⟩

theorem recycle_spec (entryAt : EntryAt data entry e) (free : e.isFree = true) :
    EntryAt (recycle data entry) entry ⟨e.span, .empty⟩ ∧
      SameOutside data (recycle data entry) (entry + 12) (entry + 25) := by
  have named := entryAt.header.named
  have fits := entryAt.header.fits
  by_cases deleted : entryType data entry = cbfsComponentDeleted
  · have typed : SameOutside data (setType data entry cbfsComponentNull)
        (entry + 12) (entry + 16) :=
      sameOutside_writeBE le_rfl le_rfl
    have cleared : SameOutside (setType data entry cbfsComponentNull)
        (recycle data entry) (entry + 24) (entry + 25) := by
      rw [recycle, if_pos deleted]
      exact sameOutside_store le_rfl le_rfl
    have change := (typed.mono le_rfl (by omega)).trans (cleared.mono (by omega) le_rfl)
    obtain ⟨magic, named', fits', tight', aligned'⟩ := entryAt.header.setType cbfsComponentNull
    have offset : entryOffset (recycle data entry) entry =
        entryOffset (setType data entry cbfsComponentNull) entry :=
      cleared.readBE (by omega)
    have len : entryLen (recycle data entry) entry =
        entryLen (setType data entry cbfsComponentNull) entry :=
      cleared.readBE (by omega)
    refine ⟨⟨⟨?_, by rwa [offset], by rwa [offset, len], by rwa [offset, len],
      aligned'⟩, ?_, ?_⟩, change⟩
    · rw [cleared.load (by omega)]
      exact magic
    · rw [entryType, cleared.readBE (by omega)]
      exact readBE_writeBE_self 4 cbfsComponentNull _ _
    · rw [recycle, if_pos deleted]
      exact if_pos rfl
  · have same : recycle data entry = data := if_neg deleted
    rw [same]
    refine ⟨⟨entryAt.header, ?_⟩, SameOutside.refl _ _ _⟩
    obtain ⟨length, slot⟩ := e
    cases slot with
    | file record => exact Bool.noConfusion free
    | empty => exact entryAt.slot
    | deleted => exact absurd entryAt.slot deleted

theorem cbfsMergeEmptyEntry_file (entryAt : EntryAt image.data entry e) (free : e.isFree = false) :
    cbfsMergeEmptyEntry image entry = some image := by
  obtain ⟨length, slot⟩ := e
  cases slot with
  | empty => exact Bool.noConfusion free
  | deleted => exact Bool.noConfusion free
  | file record =>
    have types := entryAt.slot.1
    have same : recycle image.data entry = image.data := if_neg types.1
    rw [cbfsMergeEmptyEntry, same, if_pos types.2]

theorem cbfsMergeEmptyEntry_free (entryAt : EntryAt image.data entry e)
    (free : e.isFree = true) (layout : LayoutAt image.data (entry + e.span) rest)
    (whole : entry + e.span + spanOf rest = image.size) (small : image.size < 2147483648)
    (aligned : 64 ∣ entry) :
    ∃ data, cbfsMergeEmptyEntry image entry = some { image with data } ∧
      EntryAt data entry ⟨e.span + spanOf (freeRun rest), .empty⟩ ∧
      SameOutside image.data data entry (entry + e.span + spanOf (freeRun rest)) ∧
      (freeRun rest = [] → SameOutside image.data data (entry + 12) (entry + 25)) := by
  have positive := entryAt.positive
  obtain ⟨recycled, change⟩ := recycle_spec entryAt free
  have length := layout.length_le
  have layout' : LayoutAt (recycle image.data entry) (entry + e.span) rest :=
    layout.congr change (Or.inr (by omega))
  have next := recycled.header.findNext aligned (show entry + e.span < _ by omega)
  obtain ⟨data, run, merged, change', unchanged⟩ :=
    @mergeNext_spec { image with data := recycle image.data entry } entry e.span
      rest image.fuel recycled layout' whole small aligned
      (by show _ < image.size + 1; omega)
  refine ⟨data, ?_, merged, ?_, fun none => ?_⟩
  · rw [cbfsMergeEmptyEntry, if_neg (not_not.mpr recycled.slot.1), next]
    exact run
  · exact (change.mono (by omega) (by omega)).trans change'
  · rw [unchanged none]
    exact change

/-- The walk merges every run, and keeps the last word of the image while the
last two entries are not both free. -/
theorem walkMerge_spec (fuel : Nat)
    (layout : LayoutAt image.data entry entries) (whole : entry + spanOf entries = image.size)
    (small : image.size < 2147483648) (aligned : 64 ∣ entry) (enough : entries.length < fuel) :
    ∃ data, walkMerge fuel image entry = some { image with data } ∧
      LayoutAt data entry (coalesce none entries) ∧
      SameOutside image.data data entry image.size ∧
      (TailApart entries → SameOutside image.data data entry (image.size - 4)) := by
  induction fuel generalizing image entry entries with
  | zero => omega
  | succ fuel ih =>
    cases entries with
    | nil =>
      have stop : walkMerge (fuel + 1) image entry = some image := by
        rw [walkMerge, show entry = image.size from whole, not_valid_end]
        rfl
      exact ⟨image.data, stop, trivial, SameOutside.refl _ _ _, fun _ => SameOutside.refl _ _ _⟩
    | cons e rest =>
      obtain ⟨entryAt, later⟩ := layout
      rw [spanOf] at whole
      rw [List.length_cons] at enough
      have positive := entryAt.positive
      have valid := entryAt.valid (by omega)
      have aligned' : 64 ∣ entry + e.span := Nat.dvd_add aligned entryAt.header.aligned
      cases free : e.isFree with
      | true =>
        obtain ⟨data, merge, merged, change, single⟩ :=
          cbfsMergeEmptyEntry_free entryAt free later (by omega) small aligned
        have parts := spanOf_run rest
        have laterAll := layoutAt_append.mp ((freeRun_append_afterRun rest).symm ▸ later)
        have after : LayoutAt data (entry + (e.span + spanOf (freeRun rest))) (afterRun rest) := by
          rw [← Nat.add_assoc]
          exact laterAll.2.congr change (Or.inr le_rfl)
        have runAligned : 64 ∣ entry + (e.span + spanOf (freeRun rest)) :=
          Nat.dvd_add aligned merged.header.aligned
        obtain ⟨data', walk, walked, change', tail⟩ :=
          @ih { image with data } _ _ after
            (by show _ = image.size; omega) small runAligned
            (lt_of_le_of_lt (length_afterRun_le rest) (by omega))
        change SameOutside data data' _ image.size at change'
        refine ⟨data', ?_, ?_, ?_, fun apart => ?_⟩
        · rw [walkMerge, valid]
          simp only [Bool.not_true, Bool.false_eq_true, if_false, merge]
          rw [merged.header.findNext aligned
            (show entry + (e.span + spanOf (freeRun rest)) < _ by omega)]
          exact walk
        · rw [coalesce_free free]
          exact ⟨merged.congr change' (Or.inl le_rfl), walked⟩
        · exact (change.mono le_rfl (by omega)).trans (change'.mono (by omega) le_rfl)
        · have apart' : TailApart (afterRun rest) := by
            apply @TailApart.suffix (e :: freeRun rest)
            rw [List.cons_append, freeRun_append_afterRun]
            exact apart
          have change'' : SameOutside data data' _ (image.size - 4) := tail apart'
          by_cases run : freeRun rest = []
          · exact ((single run).mono (by omega) (by omega)).trans (change''.mono (by omega) le_rfl)
          · have further : 64 ≤ spanOf (afterRun rest) := by
              have length := after.length_le
              have positive := List.length_pos_iff.mpr (apart.afterRun_ne_nil free run)
              omega
            exact (change.mono le_rfl (by omega)).trans (change''.mono (by omega) le_rfl)
      | false =>
        obtain ⟨data, walk, walked, change, tail⟩ := ih later (by omega) small aligned' (by omega)
        refine ⟨data, ?_, ?_, change.mono (by omega) le_rfl, fun apart => ?_⟩
        · rw [walkMerge, valid]
          simp only [Bool.not_true, Bool.false_eq_true, if_false,
            cbfsMergeEmptyEntry_file entryAt free]
          rw [entryAt.header.findNext aligned (by omega)]
          exact walk
        · obtain ⟨length, slot⟩ := e
          cases slot with
          | empty => exact Bool.noConfusion free
          | deleted => exact Bool.noConfusion free
          | file record =>
            exact ⟨entryAt.congr change (Or.inl le_rfl), walked⟩
        · exact (tail (@TailApart.suffix [e] rest apart)).mono (by omega) le_rfl

end Loops

end Coreboot.Cbfs
