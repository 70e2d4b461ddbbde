import Coreboot.DescendingBlocks
import Coreboot.Imd
import Mathlib.Data.List.Basic

/-!
# Directories and their representation in memory

A directory is the list of the entries below its root: the table has room, the regions descend from
the root, and their offsets are aligned.
-/

namespace Coreboot.Imd

open ByteMemory DescendingBlocks

section Integers

variable {width : Nat}

variable {value : Int}

theorem toUnsigned_of_lt {number : Nat} (same : value = number)
    (fits : number < 2 ^ width) : toUnsigned width value = number := by
  rw [toUnsigned, same, ← Int.natCast_mod, Int.toNat_natCast, Nat.mod_eq_of_lt fits]

theorem relativePointer_of_eq {base address : Nat} {offset : Int} (same : base + offset = address)
    (fits : address < 2 ^ width) : relativePointer width base offset = address :=
  toUnsigned_of_lt same fits

theorem toSigned_of_lt (wide : 32 ≤ width) (lower : -2147483648 ≤ value)
    (upper : value < 2147483648) : toSigned width value = value := by
  have large : 2 ^ 32 ≤ 2 ^ width := Nat.pow_le_pow_right (by decide) wide
  apply Int.bmod_eq_of_le
  · omega
  · omega

theorem toSigned_sub_toSigned (first second : Int) :
    toSigned width (first - toSigned width second) = toSigned width (first - second) :=
  Int.sub_bmod_bmod

theorem toSigned_toUnsigned (lower : -2147483648 ≤ value) (upper : value < 2147483648) :
    toSigned 32 (toUnsigned 32 value) = value := by
  have reduced : ((toUnsigned 32 value : Nat) : Int) = value % (2 ^ 32 : Nat) :=
    Int.toNat_of_nonneg (Int.emod_nonneg _ (by decide))
  rw [reduced, toSigned, Int.emod_bmod]
  exact toSigned_of_lt le_rfl lower upper

theorem mask_eq_lowMask (width power : Nat) :
    BitVec.ofNat width (2 ^ power) - BitVec.ofNat width 1 = WordAlignment.lowMask width power := by
  rw [WordAlignment.lowMask]
  congr 1
  apply BitVec.eq_of_toNat_eq
  rw [BitVec.toNat_shiftLeft, BitVec.toNat_ofNat, BitVec.toNat_ofNat,
    Nat.shiftLeft_eq, Nat.mod_mul_mod, Nat.one_mul]

theorem alignUp_eq_ceil {value power : Nat} (fits : value + 2 ^ power ≤ 2 ^ width) :
    alignUp width value (2 ^ power) = WordAlignment.ceil value power := by
  have positive : 0 < 2 ^ power := Nat.two_pow_pos power
  have reduced : (BitVec.ofNat width value).toNat = value := by
    rw [BitVec.toNat_ofNat, Nat.mod_eq_of_lt (by omega)]
  rw [alignUp, mask_eq_lowMask]
  change (WordAlignment.alignUp (BitVec.ofNat width value) power).toNat = _
  rw [WordAlignment.toNat_alignUp_of_lt (by omega), reduced]

theorem alignDown_eq {value : Nat} (power : Nat) (fits : value < 2 ^ width) :
    alignDown width value (2 ^ power) = value / 2 ^ power * 2 ^ power := by
  rw [alignDown, mask_eq_lowMask]
  change (WordAlignment.alignDown (BitVec.ofNat width value) power).toNat = _
  rw [WordAlignment.toNat_alignDown, BitVec.toNat_ofNat, Nat.mod_eq_of_lt fits]

theorem isPowerOf2_two_pow (power : Nat) : isPowerOf2 (2 ^ power) = true := by
  rw [isPowerOf2, mask_eq_lowMask, beq_iff_eq]
  apply BitVec.eq_of_getLsbD_eq
  intro index _
  rw [BitVec.getLsbD_and, WordAlignment.getLsbD_lowMask, BitVec.getLsbD_ofNat, Nat.testBit_two_pow]
  by_cases same : power = index
  · simp [same]
  · simp [same]

end Integers

section Fields

variable {memory : Memory}

variable {address : Nat} {lower upper : Nat} {second : Memory}

theorem readUint32_write_self {value : Nat} (fits : value < 2 ^ 32) :
    readUint32 (writeUint32 memory address value) address = value :=
  readLE_writeLE_self memory address fits

theorem readInt32_write_self {value : Int} (lower : -2147483648 ≤ value)
    (upper : value < 2147483648) : readInt32 (writeInt32 memory address value) address = value := by
  have fits : toUnsigned 32 value < 256 ^ 4 := by
    have reduced := Int.emod_lt_of_pos value (show (0 : Int) < (2 ^ 32 : Nat) by decide)
    rw [toUnsigned]
    omega
  rw [readInt32, writeInt32, readLE_writeLE_self memory address fits,
    toSigned_toUnsigned lower upper]

theorem readUint32_lt (memory : Memory) (address : Nat) : readUint32 memory address < 2 ^ 32 :=
  readLE_lt 4 memory address

theorem readUint32_congr (change : SameOutside memory second lower upper)
    (outside : address + 4 ≤ lower ∨ upper ≤ address) :
    readUint32 second address = readUint32 memory address := by
  rw [readUint32, readUint32, change.readLE outside]

theorem readInt32_congr (change : SameOutside memory second lower upper)
    (outside : address + 4 ≤ lower ∨ upper ≤ address) :
    readInt32 second address = readInt32 memory address := by
  rw [readInt32, readInt32, change.readLE outside]

theorem sameOutside_writeUint32 {base value lower upper : Nat} (above : lower ≤ base)
    (below : base + 4 ≤ upper) : SameOutside memory (writeUint32 memory base value) lower upper :=
  sameOutside_writeLE above below

theorem sameOutside_writeInt32 {base lower upper : Nat} {value : Int} (above : lower ≤ base)
    (below : base + 4 ≤ upper) : SameOutside memory (writeInt32 memory base value) lower upper :=
  sameOutside_writeLE above below

end Fields

structure Entry where
  offset : Int
  size : Nat
  id : Nat
deriving DecidableEq, Repr

/-- A directory: the entries after the one of the root, which lie below the
root in order. -/
structure Directory where
  rootSize : Nat
  maxEntries : Nat
  power : Nat
  flags : Nat
  maxOffset : Int
  others : List Entry
  table : 28 + 16 * maxEntries ≤ rootSize
  rootSize_le : rootSize ≤ 4096
  align_le : 2 ^ power ≤ rootSize
  room : others.length < maxEntries
  descends : DescendsFrom Entry.offset Entry.size 0 others
  aligned : ∀ e ∈ others, ((2 ^ power : Nat) : Int) ∣ e.offset

namespace Directory

def rootEntryOf (d : Directory) : Entry := ⟨0, d.rootSize, cbmemIdImdRoot⟩

def entries (d : Directory) : List Entry := d.rootEntryOf :: d.others

def lowest (d : Directory) : Int := bottom Entry.offset 0 d.others

section

variable (d : Directory)
include d

theorem length_entries : d.entries.length = d.others.length + 1 := rfl

theorem lowest_le : d.lowest ≤ 0 := d.descends.bottom_le

theorem descends_entries : DescendsFrom Entry.offset Entry.size d.rootSize d.entries :=
  ⟨by simp [rootEntryOf], d.descends⟩

theorem lowest_le_offset {e : Entry} (member : e ∈ d.entries) : d.lowest ≤ e.offset :=
  d.descends_entries.bottom_le_start member

theorem offset_dvd {e : Entry} (member : e ∈ d.entries) :
    ((2 ^ d.power : Nat) : Int) ∣ e.offset := by
  rcases List.mem_cons.mp member with rfl | later
  · exact Int.dvd_zero _
  · exact d.aligned e later

theorem entries_ne_nil : d.entries ≠ [] := List.cons_ne_nil _ _

theorem lowest_eq_getLast : (d.entries.getLast d.entries_ne_nil).offset = d.lowest := by
  rcases List.eq_nil_or_concat' d.others with none | ⟨before, last, same⟩
  · simp [entries, lowest, none, bottom, rootEntryOf]
  · simp [entries, lowest, same]

theorem lowest_dvd : ((2 ^ d.power : Nat) : Int) ∣ d.lowest := by
  rw [← d.lowest_eq_getLast]
  exact d.offset_dvd (List.getLast_mem _)

def empty (rootSize maxEntries power : Nat)
    (table : 28 + 16 * maxEntries ≤ rootSize) (small : rootSize ≤ 4096)
    (align : 2 ^ power ≤ rootSize) (room : 0 < maxEntries) : Directory where
  rootSize := rootSize
  maxEntries := maxEntries
  power := power
  flags := 0
  maxOffset := 0
  others := []
  table := table
  rootSize_le := small
  align_le := align
  room := room
  descends := trivial
  aligned := fun _ member => absurd member List.not_mem_nil

/-- The entry that an addition makes: its region is rounded up to the
alignment. -/
def newEntry (d : Directory) (id size : Nat) : Entry :=
  ⟨d.lowest - WordAlignment.ceil size d.power, size, id⟩

def add (d : Directory) (id size : Nat)
    (room : d.others.length + 1 < d.maxEntries) : Directory where
  __ := d
  others := d.others ++ [d.newEntry id size]
  room := by simpa using room
  descends := by
    apply d.descends.append
    have covers := WordAlignment.le_ceil size d.power
    change d.lowest - WordAlignment.ceil size d.power + size ≤ d.lowest
    omega
  aligned := by
    intro e member
    rcases List.mem_append.mp member with old | new
    · exact d.aligned e old
    · rw [List.mem_singleton.mp new]
      exact Int.dvd_sub d.lowest_dvd
        (Int.natCast_dvd_natCast.mpr (WordAlignment.dvd_ceil size d.power))

def removeLast (d : Directory) : Directory where
  __ := d
  others := d.others.dropLast
  room := by
    have room := d.room
    rw [List.length_dropLast]
    omega
  descends := by
    rcases List.eq_nil_or_concat' d.others with none | ⟨before, last, same⟩
    · rw [none]
      exact trivial
    · have descends := d.descends
      rw [same] at descends ⊢
      rw [List.dropLast_concat]
      exact descends.of_append
  aligned := fun e member => d.aligned e (List.dropLast_subset _ member)

def withMaxOffset (d : Directory) (maxOffset : Int) : Directory := { d with maxOffset }

def withFlags (d : Directory) (flags : Nat) : Directory := { d with flags }

@[simp]
theorem lowest_add (id size : Nat) (room : d.others.length + 1 < d.maxEntries) :
    (d.add id size room).lowest = d.lowest - WordAlignment.ceil size d.power :=
  bottom_append_singleton Entry.offset 0 d.others _

theorem lowest_le_removeLast : d.lowest ≤ d.removeLast.lowest := by
  rcases List.eq_nil_or_concat' d.others with none | ⟨before, last, same⟩
  · have unchanged : d.removeLast.others = [] := by simp [removeLast, none]
    rw [lowest, lowest, unchanged, none]
  · have shorter : d.removeLast.others = before := by simp [removeLast, same]
    have descends := d.descends
    rw [same] at descends
    rw [lowest, lowest, shorter, same]
    exact descends.bottom_append_le

end

end Directory

end Coreboot.Imd
