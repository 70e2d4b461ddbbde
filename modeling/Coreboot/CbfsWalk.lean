import Coreboot.CbfsOperations

/-!
# Walking over an image

What a walk over an image sees: the addresses of its entries, and the files among them.
-/

namespace Coreboot.Cbfs

open ByteMemory

/-- The entries that a loop over the image visits, and where it stops. -/
def visit (image : Image) : Nat → Nat → Option (List Nat × Nat)
  | 0, _ => none
  | fuel + 1, entry =>
    if !cbfsIsValidEntry image entry then some ([], entry)
    else
      match visit image fuel (cbfsFindNextEntry image.data entry) with
      | none => none
      | some (entries, stop) => some (entry :: entries, stop)

def visited (image : Image) : Option (List Nat × Nat) := visit image image.fuel cbfsFindFirstEntry

def isFile (data : Memory) (entry : Nat) : Bool :=
  entryType data entry != cbfsComponentDeleted && entryType data entry != cbfsComponentNull

def recordAt (data : Memory) (entry : Nat) : Record :=
  ⟨load data entry (entryOffset data entry),
    load data (entry + entryOffset data entry) (entryLen data entry)⟩

def storedFiles (image : Image) : List (Nat × Record) :=
  match visited image with
  | none => []
  | some (entries, _) => (entries.filter (isFile image.data)).map fun entry =>
    (entry, recordAt image.data entry)

def entryEnd (data : Memory) (entry : Nat) : Nat :=
  entry + entryOffset data entry + entryLen data entry

/-- The walk visits valid headers from the start of the image to its end.  The
entries are apart and inside, and they cover the aligned addresses. -/
structure Structured (image : Image) (entries : List Nat) : Prop where
  walk : visited image = some (entries, image.size)
  valid : ∀ entry ∈ entries, cbfsIsValidEntry image entry = true
  increasing : entries.Pairwise (· < ·)
  aligned : ∀ entry ∈ entries, 64 ∣ entry
  disjoint : entries.Pairwise fun first second =>
    entryEnd image.data first ≤ second
  inside : ∀ entry ∈ entries, entryEnd image.data entry ≤ image.size
  covered : ∀ address < image.size, 64 ∣ address →
    ∃ entry ∈ entries, entry ≤ address ∧ address < entryEnd image.data entry

def startsOf (address : Nat) : List Entry → List Nat
  | [] => []
  | e :: rest => address :: startsOf (address + e.span) rest

theorem startsOf_append (address : Nat) (first second : List Entry) :
    startsOf address (first ++ second) =
      startsOf address first ++ startsOf (address + spanOf first) second := by
  induction first generalizing address with
  | nil => rfl
  | cons e rest ih =>
    have later := ih (address + e.span)
    rw [Nat.add_assoc] at later
    exact congrArg (address :: ·) later

section Layouts

variable {data : Memory} {address : Nat} {entries : List Entry}

theorem le_of_mem_startsOf {entry : Nat}
    (member : entry ∈ startsOf address entries) : address ≤ entry := by
  induction entries generalizing address with
  | nil => cases member
  | cons e rest ih =>
    rcases List.mem_cons.mp member with rfl | later
    · exact le_rfl
    · exact le_trans (Nat.le_add_right _ _) (ih later)

theorem exists_of_mem_startsOf {entry : Nat} (member : entry ∈ startsOf address entries) :
    ∃ before e after, entries = before ++ e :: after ∧ entry = address + spanOf before := by
  induction entries generalizing address with
  | nil => cases member
  | cons e rest ih =>
    rcases List.mem_cons.mp member with rfl | later
    · exact ⟨[], e, rest, rfl, rfl⟩
    · obtain ⟨before, e', after, split, same⟩ := ih later
      refine ⟨e :: before, e', after, congrArg (e :: ·) split, ?_⟩
      rw [same, spanOf, Nat.add_assoc]

theorem mem_startsOf (before : List Entry) (e : Entry) (after : List Entry) :
    address + spanOf before ∈ startsOf address (before ++ e :: after) := by
  rw [startsOf_append]
  exact List.mem_append_right _ (.head _)

variable {e : Entry}

theorem LayoutAt.entryAt {before after : List Entry}
    (layout : LayoutAt data address (before ++ e :: after)) :
    EntryAt data (address + spanOf before) e :=
  (layoutAt_append.mp layout).2.1

theorem EntryAt.end_bounds (entryAt : EntryAt data address e) :
    address < entryEnd data address ∧
      entryEnd data address ≤ address + e.span ∧
      address + e.span < entryEnd data address + 64 := by
  obtain ⟨magic, named, fits, tight, aligned⟩ := entryAt.header
  rw [entryEnd]
  omega

theorem visit_spec {image : Image} {fuel : Nat} (layout : LayoutAt image.data address entries)
    (whole : address + spanOf entries = image.size) (small : image.size < 2147483648)
    (aligned : 64 ∣ address) (enough : entries.length < fuel) :
    visit image fuel address = some (startsOf address entries, image.size) := by
  induction fuel generalizing address entries with
  | zero => omega
  | succ fuel ih =>
    cases entries with
    | nil =>
      rw [visit, show address = image.size from whole, not_valid_end]
      rfl
    | cons e rest =>
      obtain ⟨entryAt, later⟩ := layout
      rw [spanOf] at whole
      rw [List.length_cons] at enough
      rw [visit, entryAt.valid (by omega), if_neg (by decide),
        entryAt.header.findNext aligned (by omega), ih later (by omega)
          (Nat.dvd_add aligned entryAt.header.aligned) (by omega)]
      rfl

section

variable (layout : LayoutAt data address entries)
include layout

theorem LayoutAt.disjoint :
    (startsOf address entries).Pairwise fun first second =>
      entryEnd data first ≤ second := by
  induction entries generalizing address with
  | nil => exact List.Pairwise.nil
  | cons e rest ih =>
    refine List.Pairwise.cons (fun entry member => ?_) (ih layout.2)
    have bounds := layout.1.end_bounds
    have above := le_of_mem_startsOf member
    omega

/-- An aligned address is in an entry, since the rest of a span is shorter than
the alignment. -/
theorem LayoutAt.covered (aligned : 64 ∣ address) {inner : Nat} (innerAligned : 64 ∣ inner)
    (above : address ≤ inner) (below : inner < address + spanOf entries) :
    ∃ entry ∈ startsOf address entries, entry ≤ inner ∧ inner < entryEnd data entry := by
  induction entries generalizing address with
  | nil =>
    rw [spanOf] at below
    omega
  | cons e rest ih =>
    have spanAligned := layout.1.header.aligned
    have bounds := layout.1.end_bounds
    rw [spanOf] at below
    by_cases here : inner < address + e.span
    · exact ⟨address, (.head _), above, by omega⟩
    · obtain ⟨entry, member, inside⟩ := ih layout.2
        (Nat.dvd_add aligned spanAligned) (by omega) (by omega)
      exact ⟨entry, List.mem_cons_of_mem _ member, inside⟩

omit layout in
theorem isFile_of_slotAt (entryAt : EntryAt data address e) : isFile data address = !e.isFree := by
  obtain ⟨span, slot⟩ := e
  have slotAt := entryAt.slot
  cases slot with
  | empty =>
    have type : entryType data address = cbfsComponentNull := slotAt.1
    rw [isFile, type]
    rfl
  | deleted =>
    have type : entryType data address = cbfsComponentDeleted := slotAt
    rw [isFile, type]
    rfl
  | file record =>
    rw [isFile, bne_iff_ne.mpr slotAt.1.1, bne_iff_ne.mpr slotAt.1.2]
    rfl

omit layout in
theorem recordAt_of_slotAt {record : Record} (slotAt : SlotAt data address (.file record)) :
    recordAt data address = record := by
  obtain ⟨-, ⟨offset, len⟩, metadata, content⟩ := slotAt
  rw [recordAt, offset, len, metadata, content]

theorem LayoutAt.files :
    ((startsOf address entries).filter (isFile data)).map
        (fun entry => (entry, recordAt data entry)) =
      filesOf address entries := by
  induction entries generalizing address with
  | nil => rfl
  | cons e rest ih =>
    obtain ⟨entryAt, later⟩ := layout
    have file := isFile_of_slotAt entryAt
    rw [startsOf]
    cases free : e.isFree with
    | true =>
      rw [free] at file
      rw [List.filter_cons_of_neg (by rw [file]; decide), ih later]
      exact (filesOf_cons_free free address e.span rest).symm
    | false =>
      rw [free] at file
      rw [List.filter_cons_of_pos file, List.map_cons, ih later]
      obtain ⟨span, slot⟩ := e
      cases slot with
      | empty => cases free
      | deleted => cases free
      | file record =>
        rw [recordAt_of_slotAt entryAt.slot]
        rfl

theorem LayoutAt.mem_files {file : Nat × Record} (member : file ∈ filesOf address entries) :
    address ≤ file.1 ∧ file.1 < address + spanOf entries := by
  induction entries generalizing address with
  | nil => cases member
  | cons e rest ih =>
    obtain ⟨entryAt, later⟩ := layout
    have positive := entryAt.positive
    have inRest (member : file ∈ filesOf (address + e.span) rest) :
        address ≤ file.1 ∧ file.1 < address + spanOf (e :: rest) := by
      have bounds := ih later member
      rw [spanOf]
      omega
    obtain ⟨span, slot⟩ := e
    cases slot with
    | empty => exact inRest member
    | deleted => exact inRest member
    | file record =>
      rcases List.mem_cons.mp member with rfl | member
      · change 64 ≤ span at positive
        show address ≤ address ∧ address < address + (span + spanOf rest)
        omega
      · exact inRest member

end

end Layouts

section Images

variable {image : Image} {entries : List Entry}

theorem visited_of_held (held : Held image entries) :
    visited image = some (startsOf 0 entries, image.size) :=
  visit_spec held.layout ((Nat.zero_add _).trans held.whole) held.small
    (Nat.dvd_zero 64) held.length_lt

theorem storedFiles_of_held (held : Held image entries) :
    storedFiles image = filesOf 0 entries := by
  rw [storedFiles, visited_of_held held]
  exact held.layout.files

theorem structured_of_held (held : Held image entries) : Structured image (startsOf 0 entries) := by
  have whole := held.whole
  have part {entry : Nat} (member : entry ∈ startsOf 0 entries) :
      ∃ e, EntryAt image.data entry e ∧ 64 ∣ entry ∧ entry + e.span ≤ image.size := by
    obtain ⟨before, e, after, split, same⟩ := exists_of_mem_startsOf member
    rw [split, spanOf_append, spanOf] at whole
    have layout := held.layout
    rw [split] at layout
    refine ⟨e, same ▸ layout.entryAt, ?_, by omega⟩
    rw [same, Nat.zero_add]
    exact (layoutAt_append.mp layout).1.aligned
  have disjoint := held.layout.disjoint
  refine ⟨visited_of_held held, fun entry member => ?_, ?_, fun entry member => ?_, disjoint,
    fun entry member => ?_, fun address below aligned => ?_⟩
  · obtain ⟨e, entryAt, -, inside⟩ := part member
    exact entryAt.valid inside
  · refine disjoint.imp_of_mem fun {first second} member _ apart => ?_
    obtain ⟨e, entryAt, -, -⟩ := part member
    exact lt_of_lt_of_le entryAt.end_bounds.1 apart
  · obtain ⟨e, entryAt, aligned, -⟩ := part member
    exact aligned
  · obtain ⟨e, entryAt, -, inside⟩ := part member
    exact entryAt.end_bounds.2.1.trans inside
  · exact held.layout.covered (Nat.dvd_zero 64) aligned (Nat.zero_le _)
      (by rw [Nat.zero_add, held.whole]; exact below)

end Images

end Coreboot.Cbfs
