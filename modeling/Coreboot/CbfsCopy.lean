import Coreboot.CbfsAddedFiles
import Coreboot.CbfsCompaction

/-!
# Copying an image

The files of an image are copied one behind the other to a buffer, and an empty entry takes what is
left of it.
-/

namespace Coreboot.Cbfs

open ByteMemory

def cbfsComponentCbfsheader : Nat := 0x02

/-- The destination, with the start and the length of every write to it. -/
structure Target where
  data : Memory
  writes : List (Nat × Nat)

/-- The loop of `cbfs_copy_instance`, with the place behind the last copy unless
there is no room left. -/
def copyLoop (source : Image) (copyEnd : Nat) :
    Nat → Nat → Nat → Target → Option (Option Nat × Target)
  | 0, _, _, _ => none
  | fuel + 1, srcEntry, dstEntry, dst =>
    if !cbfsIsValidEntry source srcEntry then some (some dstEntry, dst)
    else if entryType source.data srcEntry = cbfsComponentNull ∨
        entryType source.data srcEntry = cbfsComponentCbfsheader ∨
          entryType source.data srcEntry = cbfsComponentDeleted then
      copyLoop source copyEnd fuel (cbfsFindNextEntry source.data srcEntry) dstEntry dst
    else
      let entrySize := add32 (entryLen source.data srcEntry) (entryOffset source.data srcEntry)
      let dst : Target :=
        ⟨store dst.data dstEntry (load source.data srcEntry entrySize),
          dst.writes ++ [(dstEntry, entrySize)]⟩
      let dstEntry := dstEntry + alignUp entrySize cbfsEntryAlignment
      if dstEntry ≥ copyEnd then some (none, dst)
      else copyLoop source copyEnd fuel (cbfsFindNextEntry source.data srcEntry) dstEntry dst

/-- The last entry of `cbfs_copy_instance`, unless its `ssize_t` is negative. -/
def createLast (copyEnd dstEntry : Nat) (dst : Target) : Target :=
  let lastEntrySize := Int.bmod (copyEnd - dstEntry - cbfsCalculateFileHeaderSize [] - 4) (2 ^ 64)
  if lastEntrySize < 0 then dst
  else
    let len := lastEntrySize.toNat
    ⟨cbfsCreateEmptyEntry dst.data dstEntry cbfsComponentNull len [],
      dst.writes ++ [(dstEntry, cbfsCalculateFileHeaderSize []),
        (dstEntry + cbfsCalculateFileHeaderSize [], len)]⟩

def cbfsCopyInstance (source : Image) (copyEnd : Nat) (data : Memory) : Option (Nat × Target) :=
  (copyLoop source copyEnd source.fuel cbfsFindFirstEntry 0 ⟨data, []⟩).map
    fun
      | (none, dst) => (1, dst)
      | (some dstEntry, dst) => (0, createLast copyEnd dstEntry dst)

def copiedRecords (entries : List Entry) : List Record :=
  (recordsOf entries).filter fun record =>
    record.type ≠ cbfsComponentCbfsheader

/-- The bytes of a file up to the next entry. -/
def Record.padded (record : Record) : Nat := (record.size + 63) / 64 * 64

def paddedSize (records : List Record) : Nat := (records.map Record.padded).sum

def RoomBehind (copyEnd : Nat) : Nat → List Record → Prop
  | _, [] => True
  | place, record :: rest =>
    place + record.padded < copyEnd ∧ RoomBehind copyEnd (place + record.padded) rest

/-- The first file without room behind it ends inside of the buffer. -/
def EndsInside (copyEnd : Nat) : Nat → List Record → Prop
  | _, [] => True
  | place, record :: rest =>
    if place + record.padded < copyEnd then
      EndsInside copyEnd (place + record.padded) rest
    else place + record.size ≤ copyEnd

variable {record : Record}

section Records

variable {copyEnd place : Nat} {records : List Record} {address length : Nat}

theorem paddedSize_cons (record : Record) (records : List Record) :
    paddedSize (record :: records) = record.padded + paddedSize records :=
  List.sum_cons

theorem roomBehind_iff :
    RoomBehind copyEnd place records ↔ records = [] ∨ place + paddedSize records < copyEnd := by
  induction records generalizing place with
  | nil => exact iff_of_true trivial (.inl rfl)
  | cons record rest ih =>
    rw [RoomBehind, ih, paddedSize_cons, or_iff_right (List.cons_ne_nil _ _)]
    constructor
    · rintro ⟨room, rfl | more⟩
      · exact room
      · omega
    · intro room
      exact ⟨by omega, .inr (by omega)⟩

theorem RoomBehind.endsInside (room : RoomBehind copyEnd place records) :
    EndsInside copyEnd place records := by
  induction records generalizing place with
  | nil => trivial
  | cons record rest ih =>
    rw [EndsInside, if_pos room.1]
    exact ih room.2

theorem Record.size_le_padded (record : Record) : record.size ≤ record.padded := by
  rw [padded]
  omega

theorem EntryAt.span_eq {data : Memory}
    (file : EntryAt data address ⟨length, .file record⟩) : length = record.padded := by
  have fits := file.header.fits
  have tight := file.header.tight
  obtain ⟨blocks, same⟩ := file.header.aligned
  change length = 64 * blocks at same
  change _ ≤ length at fits
  change length < _ at tight
  have sizes := file.slot.2.1
  rw [Record.padded, Record.size]
  omega

theorem EntryAt.type_eq {data : Memory} (file : EntryAt data address ⟨length, .file record⟩) :
    entryType data address = record.type := by
  have named := file.header.named
  have offset := file.slot.2.1.1
  have metadata := file.slot.2.2.1
  obtain ⟨rest, total⟩ := Nat.exists_eq_add_of_le (show 12 + 4 ≤ record.metadata.length by omega)
  rw [Record.type, ← metadata, total, take_drop_load]
  rfl

/-- The next entry is passed over, or it is a file to be copied. -/
theorem EntryAt.copied_cases {data : Memory} {e : Entry} (entryAt : EntryAt data address e)
    (rest : List Entry) :
    (copiedRecords (e :: rest) = copiedRecords rest ∧
      (entryType data address = cbfsComponentNull ∨
        entryType data address = cbfsComponentCbfsheader ∨
          entryType data address = cbfsComponentDeleted)) ∨
    ∃ length record, e = ⟨length, .file record⟩ ∧ record.type ≠ cbfsComponentCbfsheader ∧
      copiedRecords (e :: rest) = record :: copiedRecords rest := by
  rcases e.file_or_free with ⟨length, record, rfl⟩ | free
  · by_cases header : record.type = cbfsComponentCbfsheader
    · exact .inl ⟨List.filter_cons_of_neg (by simpa using header),
        .inr (.inl (entryAt.type_eq.trans header))⟩
    · exact .inr ⟨length, record, rfl, header, List.filter_cons_of_pos (by simpa using header)⟩
  · have types := type_of_free entryAt free
    refine .inl ⟨?_, by tauto⟩
    rw [copiedRecords, recordsOf_free free]
    rfl

end Records

section Loop

variable {source : Image} {copyEnd srcEntry dstEntry : Nat} {dst : Target} {entries : List Entry}

theorem copyLoop_skip {e : Entry} (entryAt : EntryAt source.data srcEntry e)
    (inside : srcEntry + e.span ≤ source.size) (small : source.size < 2147483648)
    (aligned : 64 ∣ srcEntry) (skipped : entryType source.data srcEntry = cbfsComponentNull ∨
      entryType source.data srcEntry = cbfsComponentCbfsheader ∨
        entryType source.data srcEntry = cbfsComponentDeleted) (fuel : Nat) :
    copyLoop source copyEnd (fuel + 1) srcEntry dstEntry dst =
      copyLoop source copyEnd fuel (srcEntry + e.span) dstEntry dst := by
  rw [copyLoop, entryAt.valid inside, if_neg (by decide), if_pos skipped,
    entryAt.header.findNext aligned (by omega)]

def Target.copy (dst : Target) (place : Nat) (source : Memory) (srcEntry size : Nat) : Target :=
  ⟨store dst.data place (load source srcEntry size), dst.writes ++ [(place, size)]⟩

theorem copyLoop_copy {length : Nat} (file : EntryAt source.data srcEntry ⟨length, .file record⟩)
    (inside : srcEntry + length ≤ source.size) (small : source.size < 2147483648)
    (aligned : 64 ∣ srcEntry) (kept : record.type ≠ cbfsComponentCbfsheader) (fuel : Nat) :
    copyLoop source copyEnd (fuel + 1) srcEntry dstEntry dst =
      if dstEntry + record.padded ≥ copyEnd then
        some (none, dst.copy dstEntry source.data srcEntry record.size)
      else copyLoop source copyEnd fuel (srcEntry + length)
        (dstEntry + record.padded)
        (dst.copy dstEntry source.data srcEntry record.size) := by
  have types := file.slot.1
  have sizes := file.slot.2.1
  have span := file.span_eq
  have fits := record.size_le_padded
  have type := file.type_eq
  have size : add32 (entryLen source.data srcEntry)
      (entryOffset source.data srcEntry) = record.size := by
    rw [sizes.1, sizes.2, add32_of_lt (by rw [Record.size] at fits; omega),
      Record.size, Nat.add_comm]
  have padded : alignUp record.size cbfsEntryAlignment = record.padded :=
    alignUp_eq fits (by rw [Record.padded]; omega)
      (by rw [← span]; exact file.header.aligned) (by omega)
  have skipped : ¬ (entryType source.data srcEntry = cbfsComponentNull ∨
      entryType source.data srcEntry = cbfsComponentCbfsheader ∨
        entryType source.data srcEntry = cbfsComponentDeleted) := by
    rw [← type] at kept
    tauto
  rw [copyLoop, file.valid inside, if_neg (by decide), if_neg skipped]
  dsimp only
  rw [size, padded, file.header.findNext aligned (show srcEntry + length < 4294967296 by omega)]
  rfl

theorem copyLoop_of_room (fuel : Nat) (layout : LayoutAt source.data srcEntry entries)
    (whole : srcEntry + spanOf entries = source.size) (small : source.size < 2147483648)
    (aligned : 64 ∣ srcEntry) (enough : entries.length < fuel)
    (room : RoomBehind copyEnd dstEntry (copiedRecords entries)) :
    ∃ data writes files, copyLoop source copyEnd fuel srcEntry dstEntry dst =
        some (some (dstEntry + paddedSize (copiedRecords entries)), ⟨data, dst.writes ++ writes⟩) ∧
      LayoutAt data dstEntry files ∧ (∀ e ∈ files, e.isFree = false) ∧
      recordsOf files = copiedRecords entries ∧
      spanOf files = paddedSize (copiedRecords entries) ∧
      SameOutside dst.data data dstEntry (dstEntry + paddedSize (copiedRecords entries)) ∧
      ∀ w ∈ writes, w.1 + w.2 ≤ dstEntry + paddedSize (copiedRecords entries) := by
  induction entries generalizing fuel srcEntry dstEntry dst with
  | nil =>
    rcases fuel with _ | fuel
    · omega
    refine ⟨dst.data, [], [], ?_, trivial, List.forall_mem_nil _, rfl, rfl,
      SameOutside.refl _ _ _, List.forall_mem_nil _⟩
    rw [copyLoop, show srcEntry = source.size from whole, not_valid_end, List.append_nil]
    rfl
  | cons e rest ih =>
    rcases fuel with _ | fuel
    · omega
    obtain ⟨entryAt, later⟩ := layout
    rw [spanOf] at whole
    rw [List.length_cons] at enough
    have aligned' := Nat.dvd_add aligned entryAt.header.aligned
    rcases entryAt.copied_cases rest with ⟨none, skipped⟩ | ⟨length, record, rfl, header, kept⟩
    · rw [none] at room ⊢
      rw [copyLoop_skip entryAt (by omega) small aligned skipped]
      exact ih fuel later (by omega) aligned' (by omega) room
    · change srcEntry + (length + spanOf rest) = source.size at whole
      have fits := record.size_le_padded
      rw [kept] at room ⊢
      rw [paddedSize_cons]
      obtain ⟨data, writes, files, run, placed, all, records, spans, change,
        inside⟩ := @ih _ _ (dst.copy dstEntry source.data srcEntry
          record.size) fuel later
          (by show srcEntry + length + _ = _; omega) aligned' (by omega)
          room.2
      have copied : EntryAt
          (dst.copy dstEntry source.data srcEntry record.size).data dstEntry
            ⟨length, .file record⟩ :=
        entryAt.translate fun i below => store_load_apply_add below
      have copy : SameOutside dst.data
          (dst.copy dstEntry source.data srcEntry record.size).data dstEntry
            (dstEntry + record.size) :=
        sameOutside_store le_rfl (by rw [length_load])
      have span := entryAt.span_eq
      refine ⟨data, (dstEntry, record.size) :: writes,
        ⟨length, .file record⟩ :: files, ?_, ⟨?_, ?_⟩, ?_, ?_, ?_, ?_, ?_⟩
      · rw [copyLoop_copy entryAt (by omega) small aligned header, if_neg (not_le.mpr room.1)]
        refine run.trans ?_
        rw [Target.copy, List.append_assoc, Nat.add_assoc]
        rfl
      · exact copied.congr change (.inl (by
          show dstEntry + length ≤ _
          omega))
      · rw [span]
        exact placed
      · exact List.forall_mem_cons.mpr ⟨rfl, all⟩
      · exact congrArg (record :: ·) records
      · rw [spanOf, spans, span]
      · exact (copy.mono le_rfl (by omega)).trans (change.mono (by omega) (by omega))
      · intro w member
        rcases List.mem_cons.mp member with rfl | later
        · show dstEntry + record.size ≤ _
          omega
        · have bound := inside w later
          omega

theorem copyLoop_of_full (fuel : Nat) (layout : LayoutAt source.data srcEntry entries)
    (whole : srcEntry + spanOf entries = source.size) (small : source.size < 2147483648)
    (aligned : 64 ∣ srcEntry) (enough : entries.length < fuel)
    (full : ¬ RoomBehind copyEnd dstEntry (copiedRecords entries)) :
    ∃ data writes, copyLoop source copyEnd fuel srcEntry dstEntry dst =
        some (none, ⟨data, dst.writes ++ writes⟩) ∧
      ((∀ w ∈ writes, w.1 + w.2 ≤ copyEnd) ↔
        EndsInside copyEnd dstEntry (copiedRecords entries)) := by
  induction entries generalizing fuel srcEntry dstEntry dst with
  | nil => exact absurd trivial full
  | cons e rest ih =>
    rcases fuel with _ | fuel
    · omega
    obtain ⟨entryAt, later⟩ := layout
    rw [spanOf] at whole
    rw [List.length_cons] at enough
    have aligned' := Nat.dvd_add aligned entryAt.header.aligned
    rcases entryAt.copied_cases rest with ⟨none, skipped⟩ | ⟨length, record, rfl, header, kept⟩
    · rw [none] at full ⊢
      rw [copyLoop_skip entryAt (by omega) small aligned skipped]
      exact ih fuel later (by omega) aligned' (by omega) full
    · change srcEntry + (length + spanOf rest) = source.size at whole
      have fits := record.size_le_padded
      rw [kept] at full ⊢
      rw [copyLoop_copy entryAt (by omega) small aligned header, EndsInside]
      by_cases room : dstEntry + record.padded < copyEnd
      · rw [if_neg (not_le.mpr room), if_pos room]
        obtain ⟨data, writes, run, inside⟩ := @ih _ _ (dst.copy dstEntry
          source.data srcEntry record.size) fuel later
            (by show srcEntry + length + _ = _; omega) aligned' (by omega)
            fun rest => full ⟨room, rest⟩
        refine ⟨data, (dstEntry, record.size) :: writes, ?_, ?_⟩
        · refine run.trans ?_
          rw [Target.copy, List.append_assoc]
          rfl
        · rw [List.forall_mem_cons, inside]
          exact and_iff_right (show dstEntry + record.size ≤ copyEnd by
            omega)
      · rw [if_pos (not_lt.mp room), if_neg room]
        refine ⟨_, [(dstEntry, record.size)], rfl, ?_⟩
        rw [List.forall_mem_singleton]

end Loop

end Coreboot.Cbfs
