import Coreboot.CbfsImage

/-!
# The layout of an image

An image is a list of spans: files, and free space.  The memory of an image
holds a layout when every span starts with a valid header whose sizes lead to
the next span.
-/

namespace Coreboot.Cbfs

open ByteMemory

/-- The bytes of a file: its header with name and attributes, and its
contents. -/
structure Record where
  metadata : List Byte
  content : List Byte
deriving DecidableEq, Repr

inductive Slot where
  | empty
  | deleted
  | file (record : Record)
deriving DecidableEq, Repr

/-- An entry with the distance to the next one. -/
structure Entry where
  span : Nat
  slot : Slot
deriving DecidableEq, Repr

def Slot.isFree : Slot → Bool
  | .empty | .deleted => true
  | .file _ => false

def Slot.isEmpty : Slot → Bool
  | .empty => true
  | .deleted | .file _ => false

def spanOf : List Entry → Nat
  | [] => 0
  | e :: rest => e.span + spanOf rest

def filesOf (address : Nat) : List Entry → List (Nat × Record)
  | [] => []
  | ⟨span, .file record⟩ :: rest =>
    (address, record) :: filesOf (address + span) rest
  | e :: rest => filesOf (address + e.span) rest

@[simp]
theorem spanOf_append (first second : List Entry) :
    spanOf (first ++ second) = spanOf first + spanOf second := by
  induction first with
  | nil => exact (Nat.zero_add _).symm
  | cons e rest ih =>
    rw [List.cons_append, spanOf, spanOf, ih, Nat.add_assoc]

theorem filesOf_cons_free {slot : Slot} (free : slot.isFree = true)
    (address span : Nat) (rest : List Entry) :
    filesOf address (⟨span, slot⟩ :: rest) = filesOf (address + span) rest := by
  cases slot with
  | file => exact Bool.noConfusion free
  | empty => rfl
  | deleted => rfl

theorem filesOf_append (address : Nat) (first second : List Entry) :
    filesOf address (first ++ second) =
      filesOf address first ++ filesOf (address + spanOf first) second := by
  induction first generalizing address with
  | nil => rfl
  | cons e rest ih =>
    obtain ⟨span, slot⟩ := e
    have later := ih (address + span)
    rw [Nat.add_assoc] at later
    cases slot with
    | file record => exact congrArg (_ :: ·) later
    | empty => exact later
    | deleted => exact later

/-- A valid header whose sizes lead to the next span. -/
structure HeaderAt (data : Memory) (address span : Nat) : Prop where
  magic : load data address 8 = cbfsFileMagic
  named : 24 < entryOffset data address
  fits : entryOffset data address + entryLen data address ≤ span
  tight : span < entryOffset data address + entryLen data address + 64
  aligned : 64 ∣ span

def SlotAt (data : Memory) (address : Nat) : Slot → Prop
  | .empty => entryType data address = cbfsComponentNull ∧
      data (filename address) = 0
  | .deleted => entryType data address = cbfsComponentDeleted
  | .file record =>
    (entryType data address ≠ cbfsComponentDeleted ∧ entryType data address ≠ cbfsComponentNull) ∧
    (entryOffset data address = record.metadata.length ∧
      entryLen data address = record.content.length) ∧
    load data address record.metadata.length = record.metadata ∧
    load data (address + record.metadata.length) record.content.length = record.content

structure EntryAt (data : Memory) (address : Nat) (e : Entry) : Prop where
  header : HeaderAt data address e.span
  slot : SlotAt data address e.slot

def LayoutAt (data : Memory) : Nat → List Entry → Prop
  | _, [] => True
  | address, e :: rest =>
    EntryAt data address e ∧ LayoutAt data (address + e.span) rest

theorem layoutAt_append {data : Memory} {address : Nat} {first second : List Entry} :
    LayoutAt data address (first ++ second) ↔ LayoutAt data address first ∧
      LayoutAt data (address + spanOf first) second := by
  induction first generalizing address with
  | nil => exact (and_iff_right trivial).symm
  | cons e rest ih =>
    rw [List.cons_append, LayoutAt, LayoutAt, spanOf, ih, and_assoc, Nat.add_assoc]

section Changes

variable {first second : Memory} {lower upper address : Nat}

section

variable (change : SameOutside first second lower upper)
include change

theorem HeaderAt.congr {span : Nat} (header : HeaderAt first address span)
    (outside : address + span ≤ lower ∨ upper ≤ address) : HeaderAt second address span := by
  obtain ⟨magic, named, fits, tight, aligned⟩ := header
  have offset : entryOffset second address = entryOffset first address := change.readBE (by omega)
  have len : entryLen second address = entryLen first address := change.readBE (by omega)
  refine ⟨?_, by rwa [offset], by rwa [offset, len], by rwa [offset, len], aligned⟩
  rw [← magic]
  exact change.load (by omega)

theorem EntryAt.congr {e : Entry} (entryAt : EntryAt first address e)
    (outside : address + e.span ≤ lower ∨ upper ≤ address) : EntryAt second address e := by
  obtain ⟨header, slot⟩ := entryAt
  refine ⟨header.congr change outside, ?_⟩
  obtain ⟨span, kind⟩ := e
  obtain ⟨magic, named, fits, tight, aligned⟩ := header
  change address + span ≤ lower ∨ upper ≤ address at outside
  change _ ≤ span at fits
  have type : entryType second address = entryType first address := change.readBE (by omega)
  cases kind with
  | empty =>
    refine ⟨type.trans slot.1, ?_⟩
    exact (change (filename address) (by simp only [filename, sizeofFile]; omega)).trans slot.2
  | deleted => exact type.trans slot
  | file record =>
    obtain ⟨types, ⟨offsetEq, lenEq⟩, metadata, content⟩ := slot
    have offset : entryOffset second address = entryOffset first address := change.readBE (by omega)
    have len : entryLen second address = entryLen first address := change.readBE (by omega)
    refine ⟨by rwa [type], ⟨offset.trans offsetEq, len.trans lenEq⟩, ?_, ?_⟩
    · exact (change.load (by omega)).trans metadata
    · exact (change.load (by omega)).trans content

theorem LayoutAt.congr {entries : List Entry} (layout : LayoutAt first address entries)
    (outside : address + spanOf entries ≤ lower ∨ upper ≤ address) :
    LayoutAt second address entries := by
  induction entries generalizing address with
  | nil => trivial
  | cons e rest ih =>
    rw [spanOf] at outside
    exact ⟨layout.1.congr change (by omega), ih layout.2 (by omega)⟩

end

end Changes

theorem add32_of_lt {first second : Nat} (fits : first + second < 4294967296) :
    add32 first second = first + second :=
  Nat.mod_eq_of_lt fits

theorem sub32_of_le {first second : Nat} (le : second ≤ first)
    (fits : first < 4294967296) : sub32 first second = first - second := by
  have turn : first + 4294967296 - second = first - second + 4294967296 := by
    omega
  show (first + 4294967296 - second) % 4294967296 = _
  rw [turn, Nat.add_mod_right, Nat.mod_eq_of_lt (by omega)]

theorem alignUp_eq {value next : Nat} (above : value ≤ next) (near : next < value + 64)
    (aligned : 64 ∣ next) (fits : next < 4294967296) : alignUp value cbfsEntryAlignment = next := by
  show (if value % 64 ≠ 0 then add32 value (64 - value % 64) else value) = next
  split_ifs with odd
  · rw [add32_of_lt (by omega)]
    omega
  · omega

section Walking

variable {data : Memory} {address : Nat} {e : Entry}

theorem EntryAt.positive (entryAt : EntryAt data address e) : 64 ≤ e.span := by
  have header := entryAt.header
  have named := header.named
  have fits := header.fits
  obtain ⟨blocks, span⟩ := header.aligned
  omega

theorem HeaderAt.findNext {span : Nat} (header : HeaderAt data address span)
    (aligned : 64 ∣ address) (fits : address + span < 4294967296) :
    cbfsFindNextEntry data address = address + span := by
  have inside := header.fits
  have tight := header.tight
  rw [cbfsFindNextEntry, add32_of_lt
    (show entryOffset data address + entryLen data address < 4294967296 by
      omega), add32_of_lt (by omega)]
  exact alignUp_eq (by omega) (by omega) (Nat.dvd_add aligned header.aligned) fits

theorem EntryAt.valid {image : Image} (entryAt : EntryAt image.data address e)
    (inside : address + e.span ≤ image.size) : cbfsIsValidEntry image address = true := by
  have positive := entryAt.positive
  apply decide_eq_true
  refine ⟨by omega, ?_, entryAt.header.magic⟩
  show 8 ≤ image.size - address
  omega

theorem not_valid_end (image : Image) : cbfsIsValidEntry image image.size = false :=
  decide_eq_false fun valid => Nat.lt_irrefl _ valid.1

theorem LayoutAt.length_le {entries : List Entry} (layout : LayoutAt data address entries) :
    64 * entries.length ≤ spanOf entries := by
  induction entries generalizing address with
  | nil => exact le_rfl
  | cons e rest ih =>
    have positive := layout.1.positive
    have later := ih layout.2
    rw [List.length_cons, spanOf]
    omega

theorem LayoutAt.aligned {entries : List Entry}
    (layout : LayoutAt data address entries) : 64 ∣ spanOf entries := by
  induction entries generalizing address with
  | nil => exact Nat.dvd_zero 64
  | cons e rest ih =>
    exact Nat.dvd_add layout.1.header.aligned (ih layout.2)

end Walking

end Coreboot.Cbfs
