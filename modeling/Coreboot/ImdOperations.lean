import Coreboot.ImdDirectory

/-!
# Operations on one directory

What each operation on a root does to its directory: the new one is in memory, and nothing outside
of the root has changed.
-/

namespace Coreboot.Imd

open ByteMemory DescendingBlocks

structure EntryAt (memory : Memory) (e : Nat) (entry : Entry) : Prop where
  magic : entryMagic memory e = imdEntryMagic
  offset : entryStartOffset memory e = entry.offset
  size : entrySize memory e = entry.size
  id : entryId memory e = entry.id

structure RootAt (memory : Memory) (r : Nat) (d : Directory) : Prop where
  maxEntries : rootMaxEntries memory r = d.maxEntries
  numEntries : rootNumEntries memory r = d.others.length + 1
  flags : rootFlags memory r = d.flags
  entryAlign : rootEntryAlign memory r = 2 ^ d.power
  maxOffset : rootMaxOffset memory r = d.maxOffset
  entries : ∀ i (inside : i < d.entries.length), EntryAt memory (r + 20 + 16 * i) d.entries[i]

/-- A directory below its limit, with the root pointer that leads to it.  Its
offsets have 32 bits, and its regions do not wrap around. -/
structure DirectoryAt (width : Nat) (memory : Memory) (imdr : Imdr)
    (d : Directory) : Prop where
  positive : 0 < imdr.r
  limit_eq : imdr.r + d.rootSize = imdr.limit
  limit_lt : imdr.limit < 2 ^ width
  magic : readUint32 memory (imdr.limit - 8) = imdRootPtrMagic
  link : readInt32 memory (imdr.limit - 4) = 8 - d.rootSize
  root : RootAt memory imdr.r d
  lowest_ge : -2147483648 ≤ d.lowest
  above : 0 ≤ imdr.r + d.lowest

variable {r : Nat}

section Changes

variable {first second : Memory} {lower upper : Nat}

section

variable (change : SameOutside first second lower upper)
include change

theorem EntryAt.congr {e : Nat} {entry : Entry} (entryAt : EntryAt first e entry)
    (outside : e + 16 ≤ lower ∨ upper ≤ e) : EntryAt second e entry where
  magic := (readUint32_congr change (by omega)).trans entryAt.magic
  offset := (readInt32_congr change (by omega)).trans entryAt.offset
  size := (readUint32_congr change (by omega)).trans entryAt.size
  id := (readUint32_congr change (by omega)).trans entryAt.id

theorem RootAt.congr {d : Directory} (root : RootAt first r d)
    (outside : r + d.rootSize - 8 ≤ lower ∨ upper ≤ r) :
    RootAt second r d where
  maxEntries := by
    have table := d.table
    exact (readUint32_congr change (by omega)).trans root.maxEntries
  numEntries := by
    have table := d.table
    exact (readUint32_congr change (by omega)).trans root.numEntries
  flags := by
    have table := d.table
    exact (readUint32_congr change (by omega)).trans root.flags
  entryAlign := by
    have table := d.table
    exact (readUint32_congr change (by omega)).trans root.entryAlign
  maxOffset := by
    have table := d.table
    exact (readInt32_congr change (by omega)).trans root.maxOffset
  entries := by
    intro i inside
    have table := d.table
    have room := d.room
    have length := d.length_entries
    exact (root.entries i inside).congr change (by omega)

theorem DirectoryAt.congr {width : Nat} {imdr : Imdr} {d : Directory}
    (directory : DirectoryAt width first imdr d) (outside : imdr.limit ≤ lower ∨ upper ≤ imdr.r) :
    DirectoryAt width second imdr d := by
  have table := d.table
  obtain ⟨positive, limit_eq, limit_lt, magic, link, root, lowest_ge, above⟩ := directory
  refine ⟨positive, limit_eq, limit_lt, ?_, ?_, ?_, lowest_ge, above⟩
  · exact (readUint32_congr change (by omega)).trans magic
  · exact (readInt32_congr change (by omega)).trans link
  · exact root.congr change (by omega)

end

end Changes

theorem sameOutside_imdEntryAssign (memory : Memory) (e id : Nat) (offset : Int) (size : Nat) :
    SameOutside memory (imdEntryAssign memory e id offset size) e (e + 16) := by
  have magic : SameOutside memory (writeUint32 memory e imdEntryMagic) e (e + 16) :=
    sameOutside_writeUint32 le_rfl (by omega)
  have withOffset := magic.trans
    (@sameOutside_writeInt32 _ (e + 4) e (e + 16) offset (by omega) (by omega))
  have withSize := withOffset.trans
    (@sameOutside_writeUint32 _ (e + 8) size e (e + 16) (by omega) (by omega))
  exact withSize.trans (@sameOutside_writeUint32 _ (e + 12) id e (e + 16) (by omega) (by omega))

theorem entryAt_imdEntryAssign (memory : Memory) (e : Nat) {entry : Entry}
    (lower : -2147483648 ≤ entry.offset) (upper : entry.offset < 2147483648)
    (size : entry.size < 2 ^ 32) (id : entry.id < 2 ^ 32) :
    EntryAt (imdEntryAssign memory e entry.id entry.offset entry.size) e entry where
  magic := by
    rw [entryMagic, imdEntryAssign,
      readUint32_congr (sameOutside_writeUint32 le_rfl le_rfl) (by omega),
      readUint32_congr (sameOutside_writeUint32 le_rfl le_rfl) (by omega),
      readUint32_congr (sameOutside_writeInt32 le_rfl le_rfl) (by omega),
      readUint32_write_self (by decide)]
  offset := by
    rw [entryStartOffset, imdEntryAssign,
      readInt32_congr (sameOutside_writeUint32 le_rfl le_rfl) (by omega),
      readInt32_congr (sameOutside_writeUint32 le_rfl le_rfl) (by omega),
      readInt32_write_self lower upper]
  size := by
    rw [entrySize, imdEntryAssign,
      readUint32_congr (sameOutside_writeUint32 le_rfl le_rfl) (by omega),
      readUint32_write_self size]
  id := by
    rw [entryId, imdEntryAssign, readUint32_write_self id]

section Reading

variable {width : Nat} {memory : Memory} {imdr : Imdr} {d : Directory}

variable {i : Nat}

theorem rootEntry_eq (fits : r + 20 + 16 * i < 2 ^ width) :
    rootEntry width r i = r + 20 + 16 * i := by
  apply relativePointer_of_eq _ fits
  simp only [sizeofRoot, sizeofEntry]
  omega

section

variable (directory : DirectoryAt width memory imdr d)
include directory

theorem DirectoryAt.rootEntry_eq (inTable : i ≤ d.maxEntries) :
    rootEntry width imdr.r i = imdr.r + 20 + 16 * i := by
  have table := d.table
  have limit := directory.limit_eq
  have fits := directory.limit_lt
  exact Imd.rootEntry_eq (by omega)

theorem DirectoryAt.entryAt (inside : i < d.entries.length) :
    EntryAt memory (rootEntry width imdr.r i) d.entries[i] := by
  have room := d.room
  have length := d.length_entries
  rw [directory.rootEntry_eq (by omega)]
  exact directory.root.entries i inside

theorem DirectoryAt.entryAt_of_getElem? {entry : Entry} (present : d.entries[i]? = some entry) :
    EntryAt memory (rootEntry width imdr.r i) entry := by
  obtain ⟨inside, rfl⟩ := List.getElem?_eq_some_iff.mp present
  exact directory.entryAt inside

theorem DirectoryAt.rootLastEntry_eq :
    rootLastEntry width memory imdr.r = rootEntry width imdr.r d.others.length := by
  have table := d.table
  have small := d.rootSize_le
  have room := d.room
  have index : toUnsigned 32 (rootNumEntries memory imdr.r - 1) = d.others.length :=
    toUnsigned_of_lt (by rw [directory.root.numEntries]; omega) (by omega)
  rw [rootLastEntry, index]

theorem DirectoryAt.lastOffset :
    entryStartOffset memory (rootLastEntry width memory imdr.r) = d.lowest := by
  have length := d.length_entries
  have last := (directory.entryAt (show d.others.length < d.entries.length by omega)).offset
  rw [directory.rootLastEntry_eq, last, ← d.lowest_eq_getLast, List.getLast_eq_getElem]
  rfl

end

theorem DirectoryAt.dataLeft_eq (wide : 32 ≤ width) (directory : DirectoryAt width memory imdr d)
    (limited : -2147483648 < d.maxOffset) (negative : d.maxOffset < 0)
    (reached : d.maxOffset ≤ d.lowest) :
    (imdRootDataLeft width memory imdr.r : Int) = d.lowest - d.maxOffset := by
  have large : 2 ^ 32 ≤ 2 ^ width := Nat.pow_le_pow_right (by decide) wide
  have lowest := d.lowest_le
  have limitNotZero : rootMaxOffset memory imdr.r ≠ 0 := by
    rw [directory.root.maxOffset]
    omega
  rw [imdRootDataLeft, if_pos limitNotZero, directory.lastOffset,
    directory.root.maxOffset, toSigned_of_lt le_rfl (by omega) (by omega)]
  obtain ⟨left, same⟩ := Int.eq_ofNat_of_zero_le (show 0 ≤ d.lowest - d.maxOffset by omega)
  rw [toUnsigned_of_lt same (by omega)]
  exact same.symm

end Reading

section Adding

variable {width : Nat} {memory : Memory} {imdr : Imdr} {d : Directory}

theorem entries_add (id size : Nat) (room : d.others.length + 1 < d.maxEntries) :
    (d.add id size room).entries = d.entries ++ [d.newEntry id size] :=
  rfl

theorem RootAt.add (root : RootAt memory r d) {id size : Nat}
    (room : d.others.length + 1 < d.maxEntries) (idFits : id < 2 ^ 32) (sizeFits : size < 2 ^ 32)
    (lower : -2147483648 ≤ (d.newEntry id size).offset) :
    RootAt (imdEntryAssign (writeUint32 memory (r + 4)
        (rootNumEntries memory r + 1)) (r + 20 + 16 * (d.others.length + 1)) id
      (d.newEntry id size).offset size) r (d.add id size room) := by
  have table := d.table
  have small := d.rootSize_le
  have lowest := d.lowest_le
  have length := d.length_entries
  have negative : (d.newEntry id size).offset ≤ 0 := by
    have covers := WordAlignment.le_ceil size d.power
    change d.lowest - WordAlignment.ceil size d.power ≤ 0
    omega
  have counted : SameOutside memory (writeUint32 memory (r + 4)
      (rootNumEntries memory r + 1)) (r + 4) (r + 8) :=
    sameOutside_writeUint32 le_rfl (by omega)
  have assigned := sameOutside_imdEntryAssign
    (writeUint32 memory (r + 4) (rootNumEntries memory r + 1))
    (r + 20 + 16 * (d.others.length + 1)) id (d.newEntry id size).offset size
  constructor
  · rw [rootMaxEntries, readUint32_congr assigned (by omega), readUint32_congr counted (by omega)]
    exact root.maxEntries
  · rw [rootNumEntries, readUint32_congr assigned (by omega),
      readUint32_write_self (by rw [root.numEntries]; omega), root.numEntries]
    simp [Directory.add]
  · rw [rootFlags, readUint32_congr assigned (by omega), readUint32_congr counted (by omega)]
    exact root.flags
  · rw [rootEntryAlign, readUint32_congr assigned (by omega), readUint32_congr counted (by omega)]
    exact root.entryAlign
  · rw [rootMaxOffset, readInt32_congr assigned (by omega), readInt32_congr counted (by omega)]
    exact root.maxOffset
  · intro i inside
    simp only [entries_add] at inside ⊢
    rcases Nat.lt_or_ge i d.entries.length with old | new
    · rw [List.getElem_append_left old]
      exact ((root.entries i old).congr counted (by omega)).congr assigned (by omega)
    · have last : i = d.others.length + 1 := by
        rw [List.length_append, List.length_singleton] at inside
        omega
      subst last
      rw [List.getElem_append_right new]
      simp only [length, Nat.sub_self, List.getElem_cons_zero]
      exact entryAt_imdEntryAssign _ _ lower (by omega) sizeFits idFits

/-- An addition is refused, or the entry is in memory after it.  When the
request fits what is left, its region has an offset of 32 bits and does not
wrap around. -/
theorem DirectoryAt.entryAdd (wide : 32 ≤ width) (directory : DirectoryAt width memory imdr d)
    {id size : Nat} (idFits : id < 2 ^ 32) (noWrap : size + 2 ^ d.power ≤ 2 ^ width)
    (bound : WordAlignment.ceil size d.power ≤ imdRootDataLeft width memory imdr.r →
      -2147483648 ≤ (d.newEntry id size).offset ∧ 0 ≤ imdr.r + (d.newEntry id size).offset) :
    imdEntryAddToRoot width memory imdr.r id size = none ∨
      ∃ (room : d.others.length + 1 < d.maxEntries) (memory' : Memory),
        imdEntryAddToRoot width memory imdr.r id size =
            some (rootEntry width imdr.r (d.others.length + 1), memory') ∧
          WordAlignment.ceil size d.power ≤ imdRootDataLeft width memory imdr.r ∧
            DirectoryAt width memory' imdr (d.add id size room) ∧
              SameOutside memory memory' imdr.r (imdr.limit - 8) := by
  have table := d.table
  have small := d.rootSize_le
  have lowest := d.lowest_le
  have limit := directory.limit_eq
  have fits := directory.limit_lt
  have used : alignUp width size (rootEntryAlign memory imdr.r) =
      WordAlignment.ceil size d.power := by
    rw [directory.root.entryAlign, alignUp_eq_ceil noWrap]
  rw [imdEntryAddToRoot, used, directory.root.numEntries, directory.root.maxEntries]
  by_cases full : d.others.length + 1 = d.maxEntries
  · exact Or.inl (if_pos full)
  · by_cases enough : WordAlignment.ceil size d.power ≤ imdRootDataLeft width memory imdr.r
    · have room : d.others.length + 1 < d.maxEntries := by
        have room := d.room
        omega
      obtain ⟨lower, above⟩ := bound enough
      have covers := WordAlignment.le_ceil size d.power
      have offset : (d.newEntry id size).offset = d.lowest - WordAlignment.ceil size d.power := rfl
      have newOffset : toSigned width (d.lowest - toSigned width
          (WordAlignment.ceil size d.power)) = (d.newEntry id size).offset := by
        rw [toSigned_sub_toSigned]
        exact toSigned_of_lt wide lower (by omega)
      have entry : relativePointer width
          (rootEntry width imdr.r d.others.length) sizeofEntry =
            imdr.r + 20 + 16 * (d.others.length + 1) := by
        apply relativePointer_of_eq _ (by omega)
        rw [directory.rootEntry_eq (by omega), sizeofEntry]
        omega
      have change := (sameOutside_writeUint32 (show imdr.r ≤ imdr.r + 4 by
          omega) (show imdr.r + 4 + 4 ≤ imdr.limit - 8 by omega)).trans
        ((sameOutside_imdEntryAssign (writeUint32 memory (imdr.r + 4)
          (d.others.length + 1 + 1)) (imdr.r + 20 + 16 * (d.others.length + 1))
          id (d.newEntry id size).offset size).mono
            (show imdr.r ≤ _ by omega)
            (show _ ≤ imdr.limit - 8 by omega))
      have root := directory.root.add room idFits (by omega) lower
      rw [directory.root.numEntries] at root
      refine Or.inr ⟨room, _, ?_, enough, ⟨directory.positive, limit, fits,
        ?_, ?_, root, ?_, ?_⟩, change⟩
      · rw [if_neg full, if_neg (not_lt.mpr enough)]
        dsimp only
        rw [directory.lastOffset, newOffset, if_neg (by omega),
          directory.rootLastEntry_eq, entry, directory.rootEntry_eq (by omega)]
      · exact (readUint32_congr change (by omega)).trans directory.magic
      · exact (readInt32_congr change (by omega)).trans directory.link
      · rw [Directory.lowest_add]
        omega
      · rw [Directory.lowest_add]
        omega
    · exact Or.inl (by rw [if_neg full, if_pos (not_le.mp enough)])

end Adding

section Header

variable {width : Nat} {memory memory' : Memory} {imdr : Imdr} {d d' : Directory}

theorem RootAt.entries_of_header (root : RootAt memory r d)
    (change : SameOutside memory memory' r (r + 20)) (kept : d'.entries <+: d.entries) :
    ∀ i (inside : i < d'.entries.length), EntryAt memory' (r + 20 + 16 * i) d'.entries[i] := by
  intro i inside
  have length := kept.length_le
  rw [kept.getElem inside]
  exact (root.entries i (by omega)).congr change (by omega)

section

variable (directory : DirectoryAt width memory imdr d)
include directory

theorem DirectoryAt.ofHeader (change : SameOutside memory memory' imdr.r (imdr.r + 20))
    (root : RootAt memory' imdr.r d') (size : d'.rootSize = d.rootSize)
    (lowest : d.lowest ≤ d'.lowest) : DirectoryAt width memory' imdr d' := by
  have table := d.table
  have limit := directory.limit_eq
  have lowest_ge := directory.lowest_ge
  have above := directory.above
  have sameLimit : imdr.r + d'.rootSize = imdr.limit := by rw [size, limit]
  have sameLink : readInt32 memory (imdr.limit - 4) = 8 - d'.rootSize := by
    rw [size, directory.link]
  exact
    { positive := directory.positive
      limit_eq := sameLimit
      limit_lt := directory.limit_lt
      magic := (readUint32_congr change (by omega)).trans directory.magic
      link := (readInt32_congr change (by omega)).trans sameLink
      root := root
      lowest_ge := lowest_ge.trans lowest
      above := by omega }

theorem DirectoryAt.header_le : imdr.r + 20 ≤ imdr.limit - 8 := by
  have table := d.table
  have limit := directory.limit_eq
  omega

omit directory in
theorem prefix_removeLast (d : Directory) : d.removeLast.entries <+: d.entries :=
  (List.prefix_cons_inj d.rootEntryOf).mpr (List.dropLast_prefix _)

omit directory in
theorem DirectoryAt.remove (directory : DirectoryAt width memory imdr d) (more : d.others ≠ []) :
    DirectoryAt width (writeUint32 memory (imdr.r + 4)
      (toUnsigned 32 (rootNumEntries memory imdr.r - 1))) imdr d.removeLast := by
  have root := directory.root
  have small := d.rootSize_le
  have table := d.table
  have room := d.room
  have some := List.length_pos_of_ne_nil more
  have count : toUnsigned 32 (rootNumEntries memory imdr.r - 1) = d.others.length :=
    toUnsigned_of_lt (by rw [root.numEntries]; omega) (by omega)
  have counted : SameOutside memory (writeUint32 memory (imdr.r + 4)
      (toUnsigned 32 (rootNumEntries memory imdr.r - 1)))
      (imdr.r + 4) (imdr.r + 8) :=
    sameOutside_writeUint32 le_rfl (by omega)
  have change := counted.mono (show imdr.r ≤ imdr.r + 4 by omega)
    (show imdr.r + 8 ≤ imdr.r + 20 by omega)
  refine directory.ofHeader change ⟨?_, ?_, ?_, ?_, ?_,
    root.entries_of_header change (prefix_removeLast d)⟩ rfl d.lowest_le_removeLast
  · exact (readUint32_congr counted (by omega)).trans root.maxEntries
  · have shorter : d.removeLast.others.length + 1 = d.others.length := by
      change d.others.dropLast.length + 1 = _
      rw [List.length_dropLast]
      omega
    rw [rootNumEntries, readUint32_write_self (by omega), count, shorter]
  · exact (readUint32_congr counted (by omega)).trans root.flags
  · exact (readUint32_congr counted (by omega)).trans root.entryAlign
  · exact (readInt32_congr counted (by omega)).trans root.maxOffset

theorem DirectoryAt.limitOffset {maxOffset stored : Int}
    (same : readInt32 (writeInt32 memory (imdr.r + 16) maxOffset) (imdr.r + 16) = stored) :
    DirectoryAt width (writeInt32 memory (imdr.r + 16) maxOffset) imdr
      (d.withMaxOffset stored) := by
  have root := directory.root
  have limited : SameOutside memory (writeInt32 memory (imdr.r + 16)
      maxOffset) (imdr.r + 16) (imdr.r + 20) :=
    sameOutside_writeInt32 le_rfl (by omega)
  have change := limited.mono (show imdr.r ≤ imdr.r + 16 by omega) (le_refl (imdr.r + 20))
  refine directory.ofHeader change ⟨?_, ?_, ?_, ?_, same,
    root.entries_of_header change (List.prefix_refl _)⟩ rfl le_rfl
  · exact (readUint32_congr limited (by omega)).trans root.maxEntries
  · exact (readUint32_congr limited (by omega)).trans root.numEntries
  · exact (readUint32_congr limited (by omega)).trans root.flags
  · exact (readUint32_congr limited (by omega)).trans root.entryAlign

theorem DirectoryAt.lock :
    DirectoryAt width (lockRoot memory imdr.r) imdr (d.withFlags (d.flags ||| imdFlagLocked)) := by
  have root := directory.root
  have flagged : SameOutside memory (lockRoot memory imdr.r) (imdr.r + 8) (imdr.r + 12) :=
    sameOutside_writeUint32 le_rfl (by omega)
  have change := flagged.mono (show imdr.r ≤ imdr.r + 8 by omega)
    (show imdr.r + 12 ≤ imdr.r + 20 by omega)
  have narrow : d.flags < 2 ^ 32 := by
    rw [← root.flags]
    exact readUint32_lt memory _
  refine directory.ofHeader change ⟨?_, ?_, ?_, ?_, ?_,
    root.entries_of_header change (List.prefix_refl _)⟩ rfl le_rfl
  · exact (readUint32_congr flagged (by omega)).trans root.maxEntries
  · exact (readUint32_congr flagged (by omega)).trans root.numEntries
  · rw [rootFlags, lockRoot, root.flags, readUint32_write_self]
    · rfl
    · exact Nat.or_lt_two_pow narrow (by decide)
  · exact (readUint32_congr flagged (by omega)).trans root.entryAlign
  · exact (readInt32_congr flagged (by omega)).trans root.maxOffset

end

end Header

section Creating

variable {width : Nat}

theorem readLE_fill_zero {memory : Memory} {base count address : Nat} (above : base ≤ address)
    (below : address + 4 ≤ base + count) : readLE 4 (fill memory base count 0) address = 0 := by
  have zeros : load (fill memory base count 0) address 4 = List.replicate 4 0 :=
    load_eq_replicate fun inner first last => if_pos (by omega)
  rw [readLE, zeros]
  rfl

variable {rootSize : Nat}

theorem numEntriesOfRootSize_eq (large : 28 ≤ rootSize) (fits : rootSize < 2 ^ width) :
    numEntriesOfRootSize width rootSize = (rootSize - 28) / 16 := by
  have left : toUnsigned width (rootSize - sizeofRootPointer - sizeofRoot) = rootSize - 28 := by
    apply toUnsigned_of_lt _ (by omega)
    simp only [sizeofRootPointer, sizeofRoot]
    omega
  rw [numEntriesOfRootSize, left, sizeofEntry]

/-- A root of 44 bytes has room for the first entry. -/
def emptyOfRootSize (rootSize power : Nat) (large : 44 ≤ rootSize)
    (small : rootSize ≤ 4096) (align : 2 ^ power ≤ rootSize) : Directory :=
  Directory.empty rootSize ((rootSize - 28) / 16) power (by omega) small align (by omega)

def writtenRoot (memory : Memory) (r rootSize power : Nat) : Memory :=
  let memory := fill memory r 20 0
  let memory := writeUint32 memory (r + 12) (2 ^ power)
  let memory := writeUint32 memory r ((rootSize - 28) / 16)
  let memory := writeUint32 memory (r + 4) 1
  imdEntryAssign memory (r + 20) cbmemIdImdRoot 0 rootSize

theorem sameOutside_writtenRoot (memory : Memory) (r rootSize power : Nat) :
    SameOutside memory (writtenRoot memory r rootSize power) r (r + 36) := by
  have filled := @sameOutside_fill memory r 20 0 r (r + 36) le_rfl (by omega)
  have aligned := filled.trans
    (@sameOutside_writeUint32 _ (r + 12) (2 ^ power) r (r + 36) (by omega) (by omega))
  have sized := aligned.trans
    (@sameOutside_writeUint32 _ r ((rootSize - 28) / 16) r (r + 36) le_rfl (by omega))
  have counted := sized.trans
    (@sameOutside_writeUint32 _ (r + 4) 1 r (r + 36) (by omega) (by omega))
  exact counted.trans ((sameOutside_imdEntryAssign _ (r + 20) cbmemIdImdRoot 0
    rootSize).mono (by omega) (by omega))

theorem rootAt_writtenRoot (memory : Memory) (r : Nat) {power : Nat} (large : 44 ≤ rootSize)
    (small : rootSize ≤ 4096) (align : 2 ^ power ≤ rootSize) :
    RootAt (writtenRoot memory r rootSize power) r
      (emptyOfRootSize rootSize power large small align) := by
  rw [writtenRoot]
  generalize filled : fill memory r 20 0 = first
  generalize aligned : writeUint32 first (r + 12) (2 ^ power) = second
  generalize sized : writeUint32 second r ((rootSize - 28) / 16) = third
  generalize counted : writeUint32 third (r + 4) 1 = fourth
  have changeAlign : SameOutside first second (r + 12) (r + 16) := by
    rw [← aligned]
    exact sameOutside_writeUint32 le_rfl (by omega)
  have changeSize : SameOutside second third r (r + 4) := by
    rw [← sized]
    exact sameOutside_writeUint32 le_rfl le_rfl
  have changeCount : SameOutside third fourth (r + 4) (r + 8) := by
    rw [← counted]
    exact sameOutside_writeUint32 le_rfl (by omega)
  have changeEntry := sameOutside_imdEntryAssign fourth (r + 20) cbmemIdImdRoot 0 rootSize
  have narrow : 2 ^ power < 2 ^ 32 := by omega
  constructor
  · rw [rootMaxEntries, readUint32_congr changeEntry (by omega),
      readUint32_congr changeCount (by omega), ← sized,
      readUint32_write_self (by omega)]
    rfl
  · rw [rootNumEntries, readUint32_congr changeEntry (by omega), ← counted,
      readUint32_write_self (by decide)]
    rfl
  · rw [rootFlags, readUint32_congr changeEntry (by omega),
      readUint32_congr changeCount (by omega),
      readUint32_congr changeSize (by omega),
      readUint32_congr changeAlign (by omega), ← filled]
    exact readLE_fill_zero (by omega) (by omega)
  · rw [rootEntryAlign, readUint32_congr changeEntry (by omega),
      readUint32_congr changeCount (by omega),
      readUint32_congr changeSize (by omega), ← aligned,
      readUint32_write_self narrow]
    rfl
  · rw [rootMaxOffset, readInt32_congr changeEntry (by omega),
      readInt32_congr changeCount (by omega),
      readInt32_congr changeSize (by omega),
      readInt32_congr changeAlign (by omega), ← filled, readInt32,
      readLE_fill_zero (by omega) (by omega)]
    rfl
  · intro i inside
    have first : i = 0 := Nat.lt_one_iff.mp inside
    subst first
    exact @entryAt_imdEntryAssign fourth (r + 20) ⟨0, rootSize,
      cbmemIdImdRoot⟩ (show -2147483648 ≤ (0 : Int) by decide)
        (show (0 : Int) < 2147483648 by decide)
        (show rootSize < 2 ^ 32 by omega)
        (show cbmemIdImdRoot < 2 ^ 32 by decide)

theorem imdrCreateEmpty_eq {imdr : Imdr} (limit_lt : imdr.limit < 2 ^ width) (memory : Memory)
    {power : Nat} (large : 44 ≤ rootSize) (small : rootSize ≤ 4096) (align : 2 ^ power ≤ rootSize)
    (below : rootSize < imdr.limit) :
    ∃ memory', imdrCreateEmpty width imdr memory rootSize (2 ^ power) =
        some (⟨imdr.limit, imdr.limit - rootSize⟩, memory') ∧
      DirectoryAt width memory' ⟨imdr.limit, imdr.limit - rootSize⟩
          (emptyOfRootSize rootSize power large small align) ∧
        SameOutside memory memory' (imdr.limit - rootSize) imdr.limit := by
  obtain ⟨limit, oldRoot⟩ := imdr
  simp only at limit_lt below ⊢
  obtain ⟨r, sum⟩ := Nat.exists_eq_add_of_lt below
  have root : limit - rootSize = r + 1 := by omega
  rw [root]
  have rp : imdrGetRootPointer width ⟨limit, oldRoot⟩ = limit - 8 := by
    apply relativePointer_of_eq _ (by omega)
    simp only [sizeofRootPointer]
    omega
  have base : relativePointer width limit (-rootSize) = r + 1 :=
    relativePointer_of_eq (by omega) (by omega)
  have entry : rootEntry width (r + 1) 0 = r + 1 + 20 := rootEntry_eq (by omega)
  have created : imdrCreateEmpty width ⟨limit, oldRoot⟩ memory rootSize
      (2 ^ power) = some (⟨limit, r + 1⟩, writtenRoot
        (imdLinkRoot memory (limit - 8) (r + 1)) (r + 1) rootSize power) := by
    rw [imdrCreateEmpty, if_neg (show ¬ limit = 0 by omega), if_neg, if_neg, if_neg (by omega)]
    · dsimp only
      rw [rp, base, entry, numEntriesOfRootSize_eq (by omega) (by omega)]
      rfl
    · simp only [limitAlign]
      omega
    · simp only [sizeofRootPointer, sizeofRoot]
      omega
  have linked : SameOutside memory (imdLinkRoot memory (limit - 8) (r + 1)) (limit - 8) limit :=
    (sameOutside_writeUint32 le_rfl (by omega)).trans (sameOutside_writeInt32 (by omega) (by omega))
  have written := sameOutside_writtenRoot
    (imdLinkRoot memory (limit - 8) (r + 1)) (r + 1) rootSize power
  refine ⟨_, created, ⟨Nat.succ_pos r, ?_, limit_lt, ?_, ?_,
    rootAt_writtenRoot _ _ large small align, ?_, ?_⟩,
    (linked.mono (by omega) le_rfl).trans (written.mono le_rfl (by omega))⟩
  · change r + 1 + rootSize = limit
    omega
  · change readUint32 _ (limit - 8) = _
    rw [readUint32_congr written (by omega), imdLinkRoot,
      readUint32_congr (sameOutside_writeInt32 le_rfl le_rfl) (by omega),
      readUint32_write_self (by decide)]
  · change readInt32 _ (limit - 4) = 8 - (rootSize : Int)
    rw [readInt32_congr written (by omega), imdLinkRoot,
      show limit - 4 = limit - 8 + 4 by omega,
      readInt32_write_self (by omega) (by omega)]
    omega
  · change -2147483648 ≤ (0 : Int)
    decide
  · change 0 ≤ ((r + 1 : Nat) : Int) + 0
    omega

end Creating

end Coreboot.Imd
