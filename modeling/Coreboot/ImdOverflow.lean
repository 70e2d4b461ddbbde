import Coreboot.ImdRun

/-!
# Additions of every size

The size of an entry is a `size_t`, its offset is computed as an `ssize_t`, and both are stored
in 32 bits.
-/

namespace Coreboot.Imd

open ByteMemory

section Checks

variable (width : Nat) (imdr : Imdr) (memory : Memory) (size : Nat)

def roundedSize : Nat :=
  let align := rootEntryAlign memory imdr.r
  (size + (align - 1)) / align * align

def RoundsUp : Prop := size + (rootEntryAlign memory imdr.r - 1) < 2 ^ width

def lowestOffset : Int := entryStartOffset memory (rootLastEntry width memory imdr.r)

/-- The directory is locked or full, or the rounded size exceeds what is left or
the range of the signed offsets. -/
def Refuses : Prop :=
  rootIsLocked memory imdr.r = true ∨
    rootNumEntries memory imdr.r = rootMaxEntries memory imdr.r ∨
      RoundsUp width imdr memory size ∧
        (imdRootDataLeft width memory imdr.r < roundedSize imdr memory size ∨
          lowestOffset width imdr memory - roundedSize imdr memory size < -2 ^ (width - 1))

/-- The rounded size does not wrap around, the offset has 32 bits, and the region
is above address zero. -/
structure Fits : Prop where
  roundsUp : RoundsUp width imdr memory size
  offset : -2147483648 ≤ lowestOffset width imdr memory - roundedSize imdr memory size
  above : 0 ≤ imdr.r + (lowestOffset width imdr memory - roundedSize imdr memory size)

/-- At the top of the address space, an offset that is cut to 32 bits leads around
it to a place below the other regions. -/
structure LeadsAround : Prop where
  roundsUp : RoundsUp width imdr memory size
  narrow : size < 2 ^ 32
  offset : lowestOffset width imdr memory - roundedSize imdr memory size < -2147483648
  top : (2 ^ width : Nat) ≤ imdr.r +
    (lowestOffset width imdr memory - roundedSize imdr memory size) + 2 ^ 32

/-- The entry behind the last one has the requested size, and its region lies
below the ones of the earlier entries. -/
structure Placed (memory' : Memory) (entry : Nat) : Prop where
  last : entry = rootEntry width imdr.r (rootNumEntries memory imdr.r)
  recorded : imdrEntrySize memory' entry = size
  below : ∀ i < rootNumEntries memory imdr.r,
    imdrEntryAt width imdr memory' entry + size ≤ regionStart width imdr memory i

end Checks

section Fields

variable {memory : Memory}

theorem readUint32_write (address value : Nat) :
    readUint32 (writeUint32 memory address value) address = value % 2 ^ 32 := by
  have low : writeUint32 memory address value = writeUint32 memory address (value % 2 ^ 32) := by
    rw [writeUint32, writeUint32, writeLE, writeLE]
    exact congrArg _ (encodeLE_mod 4 value).symm
  rw [low, readUint32_write_self (Nat.mod_lt _ (by decide))]

theorem readInt32_write (address : Nat) (value : Int) :
    readInt32 (writeInt32 memory address value) address = toSigned 32 value := by
  have reduced : ((toUnsigned 32 value : Nat) : Int) = value % (2 ^ 32 : Nat) :=
    Int.toNat_of_nonneg (Int.emod_nonneg _ (by decide))
  have narrow : toUnsigned 32 value < 256 ^ 4 := by
    have below := Int.emod_lt_of_pos value (show (0 : Int) < (2 ^ 32 : Nat) by decide)
    omega
  rw [readInt32, writeInt32, readLE_writeLE_self memory address narrow, reduced,
    toSigned, Int.emod_bmod]
  rfl

variable (e id size : Nat) (offset : Int)

theorem entrySize_imdEntryAssign :
    imdrEntrySize (imdEntryAssign memory e id offset size) e = size % 2 ^ 32 := by
  rw [imdrEntrySize, entrySize, imdEntryAssign,
    readUint32_congr (sameOutside_writeUint32 le_rfl le_rfl) (by omega)]
  exact readUint32_write _ _

theorem entryStartOffset_imdEntryAssign :
    entryStartOffset (imdEntryAssign memory e id offset size) e = toSigned 32 offset := by
  rw [entryStartOffset, imdEntryAssign,
    readInt32_congr (sameOutside_writeUint32 le_rfl le_rfl) (by omega),
    readInt32_congr (sameOutside_writeUint32 le_rfl le_rfl) (by omega)]
  exact readInt32_write _ _

end Fields

section Directory

variable {width : Nat} {memory : Memory} {imdr : Imdr} {d : Directory} {id size : Nat}
  {base address : Nat}

section

variable (directory : DirectoryAt width memory imdr d)
include directory

theorem DirectoryAt.roundedSize_eq (size : Nat) :
    roundedSize imdr memory size = WordAlignment.ceil size d.power := by
  rw [roundedSize, directory.root.entryAlign, WordAlignment.ceil]

theorem DirectoryAt.roundsUp_iff :
    RoundsUp width imdr memory size ↔ size + (2 ^ d.power - 1) < 2 ^ width := by
  rw [RoundsUp, directory.root.entryAlign]

omit directory in
theorem DirectoryAt.alignUp_of_wraps (wide : 32 ≤ width)
    (directory : DirectoryAt width memory imdr d) (fits : size < 2 ^ width)
    (wraps : ¬ RoundsUp width imdr memory size) : alignUp width size (2 ^ d.power) = 0 := by
  rw [directory.roundsUp_iff] at wraps
  have large : 2 ^ 32 ≤ 2 ^ width := Nat.pow_le_pow_right (by decide) wide
  have align := d.align_le
  have small := d.rootSize_le
  have positive : 0 < 2 ^ d.power := Nat.two_pow_pos d.power
  have reduced : (BitVec.ofNat width size).toNat = size := by
    rw [BitVec.toNat_ofNat, Nat.mod_eq_of_lt fits]
  have rest : (size + (2 ^ d.power - 1)) % 2 ^ width < 2 ^ d.power := by
    rw [Nat.mod_eq_sub_mod (not_lt.mp wraps), Nat.mod_eq_of_lt (by omega)]
    omega
  rw [alignUp, mask_eq_lowMask]
  change (WordAlignment.alignUp (BitVec.ofNat width size) d.power).toNat = _
  rw [WordAlignment.toNat_alignUp, reduced, Nat.div_eq_of_lt rest, Nat.zero_mul]

def computedOffset (width : Nat) (imdr : Imdr) (memory : Memory) (size : Nat) : Int :=
  toSigned width (lowestOffset width imdr memory -
    alignUp width size (rootEntryAlign memory imdr.r))

theorem DirectoryAt.lowestOffset_eq : lowestOffset width imdr memory = d.lowest :=
  directory.lastOffset

theorem DirectoryAt.alignUp_eq (roundsUp : RoundsUp width imdr memory size) :
    alignUp width size (2 ^ d.power) = roundedSize imdr memory size := by
  have positive : 0 < 2 ^ d.power := Nat.two_pow_pos d.power
  have room := directory.roundsUp_iff.mp roundsUp
  rw [directory.roundedSize_eq, alignUp_eq_ceil (by omega)]

omit directory in
theorem toSigned_difference (wide : 32 ≤ width) {lowest : Int} {rounded : Nat}
    (lower : -2147483648 ≤ lowest) (negative : lowest ≤ 0) (fits : rounded < 2 ^ width) :
    (-2 ^ (width - 1) ≤ lowest - rounded ∧ toSigned width (lowest - rounded) = lowest - rounded) ∨
      (lowest - rounded < -2 ^ (width - 1) ∧ lowest < toSigned width (lowest - rounded)) := by
  obtain ⟨half, same⟩ : ∃ half, width = half + 1 := ⟨width - 1, by omega⟩
  have large : 2 ^ 31 ≤ 2 ^ half := Nat.pow_le_pow_right (by decide) (by omega)
  have double : 2 ^ width = 2 ^ half + 2 ^ half := by
    rw [same, Nat.pow_succ]
    omega
  rw [show width - 1 = half by omega, toSigned, double]
  rw [double] at fits
  have cast : ((2 ^ half : Nat) : Int) = 2 ^ half := by norm_cast
  rw [← cast]
  generalize 2 ^ half = bound at *
  rcases lt_or_ge (lowest - rounded) (-(bound : Int)) with below | inside
  · refine .inr ⟨below, ?_⟩
    have wrapped : Int.bmod (lowest - rounded) (bound + bound) =
        lowest - rounded + (bound + bound : Nat) := by
      rw [← Int.add_bmod_right]
      exact Int.bmod_eq_of_le (by omega) (by omega)
    rw [wrapped]
    omega
  · exact .inl ⟨inside, Int.bmod_eq_of_le (by omega) (by omega)⟩

theorem DirectoryAt.roundedSize_lt (roundsUp : RoundsUp width imdr memory size) :
    roundedSize imdr memory size < 2 ^ width := by
  have positive : 0 < 2 ^ d.power := Nat.two_pow_pos d.power
  have below := WordAlignment.ceil_lt_add size d.power
  have room := directory.roundsUp_iff.mp roundsUp
  rw [directory.roundedSize_eq]
  omega

theorem DirectoryAt.imdEntryAddToRoot_eq (id size : Nat) :
    imdEntryAddToRoot width memory imdr.r id size =
      if rootNumEntries memory imdr.r = rootMaxEntries memory imdr.r then none
      else if alignUp width size (rootEntryAlign memory imdr.r) >
          imdRootDataLeft width memory imdr.r then none
      else if computedOffset width imdr memory size > lowestOffset width imdr memory then none
      else some (rootEntry width imdr.r (rootNumEntries memory imdr.r),
        imdEntryAssign (writeUint32 memory (imdr.r + 4)
          (rootNumEntries memory imdr.r + 1))
          (rootEntry width imdr.r (rootNumEntries memory imdr.r)) id
          (computedOffset width imdr memory size) size) := by
  have table := d.table
  have room := d.room
  have limit := directory.limit_eq
  have limit_lt := directory.limit_lt
  have next : relativePointer width (rootLastEntry width memory imdr.r)
      sizeofEntry = rootEntry width imdr.r (rootNumEntries memory imdr.r) := by
    rw [directory.rootLastEntry_eq, directory.root.numEntries,
      directory.rootEntry_eq (by omega), directory.rootEntry_eq (by omega)]
    apply relativePointer_of_eq _ (by omega)
    rw [sizeofEntry]
    omega
  rw [imdEntryAddToRoot]
  dsimp only
  rw [next, toSigned_sub_toSigned]
  rfl

omit directory in
theorem DirectoryAt.imdrEntryAdd_eq (wide : 32 ≤ width)
    (directory : DirectoryAt width memory imdr d) (fits : size < 2 ^ width) (id : Nat) :
    (Refuses width imdr memory size ∧ imdrEntryAdd width imdr memory id size = none) ∨
      (¬ Refuses width imdr memory size ∧
        imdrEntryAdd width imdr memory id size =
          some (rootEntry width imdr.r (rootNumEntries memory imdr.r),
            imdEntryAssign (writeUint32 memory (imdr.r + 4)
              (rootNumEntries memory imdr.r + 1))
              (rootEntry width imdr.r (rootNumEntries memory imdr.r)) id
              (computedOffset width imdr memory size) size)) := by
  have positive := directory.positive
  have lowest_le := d.lowest_le
  have lowest_ge := directory.lowest_ge
  rw [imdrEntryAdd, if_neg (by omega)]
  by_cases locked : rootIsLocked memory imdr.r = true
  · exact .inl ⟨.inl locked, if_pos locked⟩
  rw [if_neg locked, directory.imdEntryAddToRoot_eq]
  by_cases full : rootNumEntries memory imdr.r = rootMaxEntries memory imdr.r
  · exact .inl ⟨.inr (.inl full), if_pos full⟩
  rw [if_neg full]
  have refuses : Refuses width imdr memory size ↔
      RoundsUp width imdr memory size ∧
        (imdRootDataLeft width memory imdr.r < roundedSize imdr memory size ∨
          lowestOffset width imdr memory - roundedSize imdr memory size < -2 ^ (width - 1)) :=
    (or_iff_right locked).trans (or_iff_right full)
  rw [refuses]
  by_cases roundsUp : RoundsUp width imdr memory size
  · have used := directory.alignUp_eq roundsUp
    rw [← directory.root.entryAlign] at used
    rw [and_iff_right roundsUp, computedOffset, used, directory.lowestOffset_eq]
    by_cases exceeds : imdRootDataLeft width memory imdr.r < roundedSize imdr memory size
    · exact .inl ⟨.inl exceeds, if_pos exceeds⟩
    rw [if_neg exceeds, or_iff_right exceeds]
    rcases toSigned_difference wide lowest_ge lowest_le
      (directory.roundedSize_lt roundsUp) with ⟨inside, same⟩ | ⟨below, wrapped⟩
    · have negative := Int.sub_le_self d.lowest (Int.natCast_nonneg (roundedSize imdr memory size))
      refine .inr ⟨not_lt.mpr inside, if_neg ?_⟩
      rw [same]
      exact not_lt.mpr negative
    · exact .inl ⟨below, if_pos wrapped⟩
  · have used := directory.alignUp_of_wraps wide fits roundsUp
    rw [← directory.root.entryAlign] at used
    rw [computedOffset, used, directory.lowestOffset_eq, Nat.cast_zero,
      Int.sub_zero, toSigned_of_lt wide lowest_ge (by omega),
      if_neg (Nat.not_lt_zero _), if_neg (lt_irrefl _)]
    exact .inr ⟨fun refused => roundsUp refused.1, rfl⟩

theorem DirectoryAt.below_iff (bound : Nat) :
    (∀ i < rootNumEntries memory imdr.r, bound ≤ regionStart width imdr memory i) ↔
      (bound : Int) ≤ imdr.r + d.lowest := by
  have length := d.length_entries
  rw [directory.root.numEntries]
  constructor
  · intro below
    have last := below d.others.length (by omega)
    have start := directory.regionStart_eq (show d.others.length < d.entries.length by omega)
    have lowest : d.entries[d.others.length].offset = d.lowest := by
      rw [← d.lowest_eq_getLast, List.getLast_eq_getElem]
      rfl
    omega
  · intro low i inside
    have start := directory.regionStart_eq (show i < d.entries.length by omega)
    have lowest := d.lowest_le_offset (List.getElem_mem (show i < d.entries.length by omega))
    omega

theorem DirectoryAt.placed_assign_iff (m : Memory) (id : Nat) (offset : Int) :
    Placed width imdr memory size (imdEntryAssign m
        (rootEntry width imdr.r (rootNumEntries memory imdr.r)) id offset size)
        (rootEntry width imdr.r (rootNumEntries memory imdr.r)) ↔
      size < 2 ^ 32 ∧
        (relativePointer width imdr.r (toSigned 32 offset) + size : Nat) ≤
          (imdr.r + d.lowest : Int) := by
  have narrow : size % 2 ^ 32 = size ↔ size < 2 ^ 32 :=
    ⟨fun same => same ▸ Nat.mod_lt _ (by decide), Nat.mod_eq_of_lt⟩
  constructor
  · rintro ⟨-, recorded, below⟩
    rw [entrySize_imdEntryAssign, narrow] at recorded
    rw [directory.below_iff, imdrEntryAt, entryStartOffset_imdEntryAssign] at below
    exact ⟨recorded, below⟩
  · rintro ⟨recorded, below⟩
    refine ⟨rfl, ?_, ?_⟩
    · rwa [entrySize_imdEntryAssign, narrow]
    · rwa [directory.below_iff, imdrEntryAt, entryStartOffset_imdEntryAssign]

end

theorem toSigned_of_below {value : Int} (lower : -6442450944 ≤ value)
    (upper : value < -2147483648) :
    toSigned 32 value = value + 4294967296 := by
  rw [toSigned, ← Int.add_bmod_right]
  exact Int.bmod_eq_of_le (by omega) (by omega)

theorem relativePointer_of_neg {offset : Int}
    (same : base + offset + (2 ^ width : Nat) = address) (fits : address < 2 ^ width) :
    relativePointer width base offset = address := by
  rw [relativePointer, toUnsigned, ← Int.add_emod_right, same,
    ← Int.natCast_mod, Int.toNat_natCast, Nat.mod_eq_of_lt fits]

theorem relativePointer_of_over {offset : Int}
    (same : base + offset = address + (2 ^ width : Nat)) (fits : address < 2 ^ width) :
    relativePointer width base offset = address := by
  rw [relativePointer, toUnsigned, same, Int.add_emod_right,
    ← Int.natCast_mod, Int.toNat_natCast, Nat.mod_eq_of_lt fits]

theorem DirectoryAt.not_placed_of_wraps (wide : 32 ≤ width)
    (directory : DirectoryAt width memory imdr d) (fits : size < 2 ^ width)
    (wraps : ¬ RoundsUp width imdr memory size) :
    ¬ (relativePointer width imdr.r
        (toSigned 32 (computedOffset width imdr memory size)) + size : Nat) ≤
          (imdr.r + d.lowest : Int) := by
  have used := directory.alignUp_of_wraps wide fits wraps
  have large : 2 ^ 32 ≤ 2 ^ width := Nat.pow_le_pow_right (by decide) wide
  have positive : 0 < size := by
    have align := d.align_le
    have small := d.rootSize_le
    rw [directory.roundsUp_iff] at wraps
    omega
  have lowest_le := d.lowest_le
  have lowest_ge := directory.lowest_ge
  have limit := directory.limit_eq
  have limit_lt := directory.limit_lt
  obtain ⟨address, same⟩ := Int.eq_ofNat_of_zero_le directory.above
  rw [← directory.root.entryAlign] at used
  rw [computedOffset, used, directory.lowestOffset_eq, Nat.cast_zero,
    Int.sub_zero, toSigned_of_lt wide lowest_ge (by omega),
    toSigned_of_lt le_rfl lowest_ge (by omega),
    relativePointer_of_eq same (by omega)]
  omega

theorem DirectoryAt.roundedSize_le (directory : DirectoryAt width memory imdr d)
    (narrow : size < 2 ^ 32) : roundedSize imdr memory size ≤ 4294967296 := by
  have align : 2 ^ d.power ≤ 2 ^ 12 := d.align_le.trans d.rootSize_le
  have power : d.power ≤ 12 := (Nat.pow_le_pow_iff_right (by decide)).mp align
  have multiple : 2 ^ d.power ∣ 4294967296 := Nat.pow_dvd_pow 2 (show d.power ≤ 32 by omega)
  rw [directory.roundedSize_eq]
  exact WordAlignment.ceil_le multiple narrow.le

/-- The region of a stored offset lies below the earlier ones if the offset has
32 bits and stays above address zero, or if the cut offset leads around. -/
theorem stored_below_iff (wide : 32 ≤ width) {r rounded : Nat} {lowest : Int}
    (lower : -2147483648 ≤ lowest) (negative : lowest ≤ 0) (above : 0 ≤ r + lowest)
    (root : r < 2 ^ width) (covers : size ≤ rounded) (close : rounded < size + 4096)
    (most : size < 2 ^ 32 → rounded ≤ 4294967296) :
    (size < 2 ^ 32 ∧
        (relativePointer width r (toSigned 32 (lowest - rounded)) + size : Nat) ≤ r + lowest) ↔
      (-2147483648 ≤ lowest - rounded ∧ 0 ≤ r + (lowest - rounded)) ∨
        (size < 2 ^ 32 ∧ lowest - rounded < -2147483648 ∧
          (2 ^ width : Nat) ≤ r + (lowest - rounded) + 2 ^ 32) := by
  have large : 2 ^ 32 ≤ 2 ^ width := Nat.pow_le_pow_right (by decide) wide
  obtain ⟨space, size_eq⟩ : ∃ space, 2 ^ width = space := ⟨_, rfl⟩
  rw [size_eq] at root large ⊢
  rcases lt_or_ge (lowest - rounded) (-2147483648) with below | kept
  · constructor
    · rintro ⟨narrow, placed⟩
      have rest := most narrow
      rw [toSigned_of_below (by omega) below] at placed
      refine .inr ⟨narrow, below, not_lt.mp fun inside => ?_⟩
      obtain ⟨address, same⟩ := Int.eq_ofNat_of_zero_le
        (show 0 ≤ r + (lowest - rounded + 4294967296) by omega)
      rw [relativePointer_of_eq same (by omega)] at placed
      omega
    · rintro (⟨kept, -⟩ | ⟨narrow, -, top⟩)
      · exact absurd kept (not_le.mpr below)
      have rest := most narrow
      obtain ⟨address, same⟩ := Int.eq_ofNat_of_zero_le
        (show 0 ≤ r + (lowest - rounded + 4294967296) - space by omega)
      rw [toSigned_of_below (by omega) below,
        @relativePointer_of_over width r address _ (by omega) (by omega)]
      exact ⟨narrow, by omega⟩
  · have narrow : size < 2 ^ 32 := by omega
    rw [toSigned_of_lt le_rfl kept (by omega)]
    rcases lt_or_ge (r + (lowest - rounded) : Int) 0 with wraps | stays
    · obtain ⟨address, same⟩ := Int.eq_ofNat_of_zero_le
        (show 0 ≤ r + (lowest - rounded) + (space : Int) by omega)
      rw [@relativePointer_of_neg width r address _ (by omega) (by omega)]
      omega
    · obtain ⟨address, same⟩ := Int.eq_ofNat_of_zero_le stays
      rw [relativePointer_of_eq same (by omega)]
      exact iff_of_true ⟨narrow, by omega⟩ (.inl ⟨kept, stays⟩)

theorem DirectoryAt.placed_of_roundsUp (wide : 32 ≤ width)
    (directory : DirectoryAt width memory imdr d) (roundsUp : RoundsUp width imdr memory size)
    (inside : -2 ^ (width - 1) ≤ lowestOffset width imdr memory - roundedSize imdr memory size) :
    (size < 2 ^ 32 ∧ (relativePointer width imdr.r
        (toSigned 32 (computedOffset width imdr memory size)) + size : Nat) ≤
          (imdr.r + d.lowest : Int)) ↔
      Fits width imdr memory size ∨ LeadsAround width imdr memory size := by
  have align := d.align_le
  have small := d.rootSize_le
  have limit := directory.limit_eq
  have limit_lt := directory.limit_lt
  have close := WordAlignment.ceil_lt_add size d.power
  have used := directory.alignUp_eq roundsUp
  have computed : computedOffset width imdr memory size =
      d.lowest - roundedSize imdr memory size := by
    rw [← directory.root.entryAlign] at used
    rw [computedOffset, used, directory.lowestOffset_eq]
    rw [directory.lowestOffset_eq] at inside
    rcases toSigned_difference wide directory.lowest_ge d.lowest_le
      (directory.roundedSize_lt roundsUp) with ⟨-, same⟩ | ⟨below, -⟩
    · exact same
    · exact absurd inside (not_le.mpr below)
  have covers : size ≤ roundedSize imdr memory size := by
    rw [directory.roundedSize_eq]
    exact WordAlignment.le_ceil size d.power
  have tight : roundedSize imdr memory size < size + 4096 := by
    rw [directory.roundedSize_eq]
    omega
  rw [computed, stored_below_iff wide directory.lowest_ge d.lowest_le
    directory.above (by omega) covers tight directory.roundedSize_le,
    ← directory.lowestOffset_eq]
  constructor
  · rintro (⟨kept, above⟩ | ⟨narrow, below, top⟩)
    · exact .inl ⟨roundsUp, kept, above⟩
    · exact .inr ⟨roundsUp, narrow, below, top⟩
  · rintro (⟨-, kept, above⟩ | ⟨-, narrow, below, top⟩)
    · exact .inl ⟨kept, above⟩
    · exact .inr ⟨narrow, below, top⟩

theorem DirectoryAt.placed_iff (wide : 32 ≤ width)
    (directory : DirectoryAt width memory imdr d) (fits : size < 2 ^ width)
    (accepted : ¬ Refuses width imdr memory size) (m : Memory) (id : Nat) :
    Placed width imdr memory size (imdEntryAssign m
        (rootEntry width imdr.r (rootNumEntries memory imdr.r)) id
        (computedOffset width imdr memory size) size)
        (rootEntry width imdr.r (rootNumEntries memory imdr.r)) ↔
      Fits width imdr memory size ∨ LeadsAround width imdr memory size := by
  rw [directory.placed_assign_iff]
  by_cases roundsUp : RoundsUp width imdr memory size
  · refine directory.placed_of_roundsUp wide roundsUp (not_lt.mp fun below => ?_)
    exact accepted (.inr (.inr ⟨roundsUp, .inr below⟩))
  · have wrong := directory.not_placed_of_wraps wide fits roundsUp
    constructor
    · exact fun placed => absurd placed.2 wrong
    · rintro (sound | around)
      · exact absurd sound.roundsUp roundsUp
      · exact absurd around.roundsUp roundsUp

end Directory

section Handle

variable (width : Nat) (imd : Handle) (memory : Memory) (size : Nat)

/-- A tiered imd takes sizes up to the small alignment or a quarter of what is
left from the small directory, unless that refuses them. -/
def TakenBySmall : Prop :=
  imd.sm.r ≠ 0 ∧
    (size ≤ rootEntryAlign memory imd.sm.r ∨
      size ≤ imdRootDataLeft width memory imd.sm.r / 4) ∧ ¬ Refuses width imd.sm memory size

/-- An addition of the size is taken by the small directory, or the large one
refuses it or has a place for it. -/
def HasPlace : Prop :=
  TakenBySmall width imd memory size ∨ Refuses width imd.lg memory size ∨
    Fits width imd.lg memory size

def AddSound (id : Nat) : Prop :=
  ∀ entry memory',
    imdEntryAdd width imd memory id size = some (entry, memory') →
      ∃ imdr, (imdr = imd.lg ∨ imdr = imd.sm ∧ imd.sm.r ≠ 0) ∧
        Placed width imdr memory size memory' entry

end Handle

section Both

variable {width : Nat} {imd : Handle} {powers : Powers}
  {memory memory' : Memory} {limit : Option Nat} {lg sm : Directory}
  {size region : Nat}

section

variable (wide : 32 ≤ width)
include wide

theorem SmallIn.fits_of_taken (small : SmallIn width imd powers memory lg sm region)
    (large : DirectoryAt width memory imd.lg lg) (taken : size ≤ rootEntryAlign memory imd.sm.r ∨
      size ≤ imdRootDataLeft width memory imd.sm.r / 4)
    (accepted : ¬ Refuses width imd.sm memory size) : Fits width imd.sm memory size := by
  have wider : 2 ^ 32 ≤ 2 ^ width := Nat.pow_le_pow_right (by decide) wide
  have directory := small.directory
  have align := sm.align_le
  have small4096 := sm.rootSize_le
  have lowest := sm.lowest_le
  have limitEq := directory.limit_eq
  have smallLimit := small.limit
  have regionFits := small.fits
  have maxOffset := small.maxOffset
  have room := small.room
  have within := small.within
  have inside := small.size_le large
  have left := directory.dataLeft_eq wide (by omega) (by omega) within
  have narrow : size < 2147483648 := by
    rw [directory.root.entryAlign] at taken
    omega
  have roundsUp : RoundsUp width imd.sm memory size := directory.roundsUp_iff.mpr (by omega)
  have enough : roundedSize imd.sm memory size ≤ imdRootDataLeft width memory imd.sm.r :=
    not_lt.mp fun exceeds =>
      accepted (.inr (.inr ⟨roundsUp, .inl exceeds⟩))
  constructor
  · exact roundsUp
  · rw [directory.lowestOffset_eq]
    omega
  · rw [directory.lowestOffset_eq]
    omega

omit wide in
theorem SmallIn.rootEntry_ne (small : SmallIn width imd powers memory lg sm region)
    (large : DirectoryAt width memory imd.lg lg) :
    rootEntry width imd.lg.r (rootNumEntries memory imd.lg.r) ≠
      rootEntry width imd.sm.r (rootNumEntries memory imd.sm.r) := by
  have smallLimit := small.limit
  have limitEq := small.directory.limit_eq
  have table := sm.table
  have room := sm.room
  have lgRoom := lg.room
  rw [large.root.numEntries, small.directory.root.numEntries,
    large.rootEntry_eq (by omega), small.directory.rootEntry_eq (by omega)]
  omega

section

variable (handle : HandleAt width imd powers memory limit lg) (fits : size < 2 ^ width)
include handle fits

theorem HandleAt.largeSound_iff (id : Nat) :
    (∀ entry memory',
      imdrEntryAdd width imd.lg memory id size = some (entry, memory') →
        ∃ imdr, (imdr = imd.lg ∨ imdr = imd.sm ∧ imd.sm.r ≠ 0) ∧
          Placed width imdr memory size memory' entry) ↔
      Refuses width imd.lg memory size ∨ Fits width imd.lg memory size ∨
        LeadsAround width imd.lg memory size := by
  have large := handle.large
  rcases large.imdrEntryAdd_eq wide fits id with ⟨refused, result⟩ | ⟨accepted, result⟩
  · refine iff_of_true ?_ (.inl refused)
    intro entry memory' added
    exact absurd (result.symm.trans added) (by simp)
  · rw [result, or_iff_right accepted, ← large.placed_iff wide fits accepted]
    constructor
    · intro sound
      obtain ⟨imdr, rfl | ⟨rfl, tiered⟩, placed⟩ := sound _ _ rfl
      · exact placed
      · obtain ⟨sm, region, small⟩ := handle.small.resolve_left tiered
        exact absurd placed.last (small.rootEntry_ne large)
    · intro placed entry memory' added
      cases added
      exact ⟨imd.lg, .inl rfl, placed⟩

theorem HandleAt.imdEntryAdd_of_taken (id : Nat) (taken : TakenBySmall width imd memory size) :
    imdEntryAdd width imd memory id size = imdrEntryAdd width imd.sm memory id size := by
  obtain ⟨tiered, small, accepted⟩ := taken
  obtain ⟨sm, region, smallIn⟩ := handle.small.resolve_left tiered
  have result := (smallIn.directory.imdrEntryAdd_eq wide fits id).resolve_left
    fun refused => accepted refused.1
  rw [imdEntryAdd, if_neg tiered, if_pos small, result.2]

theorem HandleAt.imdEntryAdd_of_not_taken
    (id : Nat) (taken : ¬ TakenBySmall width imd memory size) :
    imdEntryAdd width imd memory id size = imdrEntryAdd width imd.lg memory id size := by
  by_cases plain : imd.sm.r = 0
  · rw [imdEntryAdd, if_pos plain]
  by_cases small : size ≤ rootEntryAlign memory imd.sm.r ∨
    size ≤ imdRootDataLeft width memory imd.sm.r / 4
  · obtain ⟨sm, region, smallIn⟩ := handle.small.resolve_left plain
    have result := (smallIn.directory.imdrEntryAdd_eq wide fits
      id).resolve_right fun accepted => taken ⟨plain, small, accepted.1⟩
    rw [imdEntryAdd, if_neg plain, if_pos small, result.2]
  · rw [imdEntryAdd, if_neg plain, if_neg small]

theorem HandleAt.addSound_iff (id : Nat) :
    AddSound width imd memory size id ↔
      HasPlace width imd memory size ∨ LeadsAround width imd.lg memory size := by
  rw [HasPlace, or_assoc, or_assoc, AddSound]
  by_cases taken : TakenBySmall width imd memory size
  · refine iff_of_true ?_ (.inl taken)
    rw [handle.imdEntryAdd_of_taken wide fits id taken]
    intro entry memory' added
    obtain ⟨tiered, small, accepted⟩ := taken
    obtain ⟨sm, region, smallIn⟩ := handle.small.resolve_left tiered
    have result := (smallIn.directory.imdrEntryAdd_eq wide fits id).resolve_left
      fun refused => accepted refused.1
    rw [result.2] at added
    cases added
    refine ⟨imd.sm, .inr ⟨rfl, tiered⟩, ?_⟩
    exact (smallIn.directory.placed_iff wide fits accepted _ _).mpr
      (.inl (smallIn.fits_of_taken wide handle.large small accepted))
  · rw [or_iff_right taken, handle.imdEntryAdd_of_not_taken wide fits id taken]
    exact handle.largeSound_iff wide fits id

end

end

end Both

/-- Every addition has a place, and no entry of the metadata is removed while it
is the last one. -/
def Careful (width : Nat) (imd : Handle) (memory : Memory) : Request → Prop
  | .limitSize _ => True
  | .entryAdd _ size => size < 2 ^ width ∧ HasPlace width imd memory size
  | .entryFindOrAdd id size =>
    size < 2 ^ width ∧
      (imdEntryFind width imd memory id.toNat = none → HasPlace width imd memory size)
  | .entryRemove entry =>
    IsMetadata width imd entry → ¬ IsLast width imd memory entry
  | .lockdown => True

section Runs

variable {width : Nat} {imd : Handle} {powers : Powers}
  {memory memory' : Memory} {limit : Option Nat} {lg : Directory} {size : Nat}

theorem HandleAt.add_of_hasPlace (wide : 32 ≤ width)
    (handle : HandleAt width imd powers memory limit lg) (fits : size < 2 ^ width) {id : BitVec 32}
    (place : HasPlace width imd memory size) {entry : Nat}
    (added : imdEntryAdd width imd memory id.toNat size = some (entry, memory')) :
    ∃ lg', HandleAt width imd powers memory' limit lg' := by
  have wider : 2 ^ 32 ≤ 2 ^ width := Nat.pow_le_pow_right (by decide) wide
  by_cases taken : TakenBySmall width imd memory size
  · rw [handle.imdEntryAdd_of_taken wide fits _ taken] at added
    obtain ⟨tiered, small, accepted⟩ := taken
    obtain ⟨sm, region, smallIn⟩ := handle.small.resolve_left tiered
    have narrow := (smallIn.fits_of_taken wide handle.large small accepted).offset
    have covers := WordAlignment.le_ceil size sm.power
    have lowest := sm.lowest_le
    rw [smallIn.directory.lowestOffset_eq, smallIn.directory.roundedSize_eq] at narrow
    exact ⟨lg, handle.addSmall wide tiered (by omega) added⟩
  · rw [handle.imdEntryAdd_of_not_taken wide fits _ taken] at added
    have accepted : ¬ Refuses width imd.lg memory size := by
      intro refused
      have result := (handle.large.imdrEntryAdd_eq wide fits
        id.toNat).resolve_right fun accepted => accepted.1 refused
      exact absurd (result.2.symm.trans added) (by simp)
    obtain ⟨roundsUp, offset, above⟩ := (place.resolve_left taken).resolve_left accepted
    have positive : 0 < 2 ^ lg.power := Nat.two_pow_pos lg.power
    rw [handle.large.roundsUp_iff] at roundsUp
    rw [handle.large.lowestOffset_eq, handle.large.roundedSize_eq] at offset above
    exact handle.addLarge wide (by omega) offset above added

theorem HandleAt.perform_careful (wide : 32 ≤ width)
    (handle : HandleAt width imd powers memory limit lg) {request : Request}
    (careful : Careful width imd memory request)
    (accepted : Imd.perform width imd memory request = some memory') :
    ∃ lg' limit', HandleAt width imd powers memory' limit' lg' := by
  cases request with
  | limitSize maxSize =>
    -- No offset of 32 bits reaches a limit of 4 GiB.
    rw [Imd.perform, imdLimitSize, imdrLimitSize,
      if_neg (by have := handle.large.positive; omega)] at accepted
    dsimp only at accepted
    split_ifs at accepted with tooSmall
    cases accepted
    have lowest := handle.large.lowest_ge
    have small := lg.rootSize_le
    exact ⟨_, some 4294967296, handle.withLimit rfl
      (limited_withMaxOffset (by omega) (.inl (by omega)))⟩
  | entryAdd id size =>
    obtain ⟨⟨entry, after⟩, added, rfl⟩ := Option.map_eq_some_iff.mp accepted
    obtain ⟨lg', handle'⟩ := handle.add_of_hasPlace wide careful.1 careful.2 added
    exact ⟨lg', limit, handle'⟩
  | entryFindOrAdd id size =>
    obtain ⟨⟨entry, after⟩, added, rfl⟩ := Option.map_eq_some_iff.mp accepted
    rw [imdEntryFindOrAdd] at added
    cases found : imdEntryFind width imd memory id.toNat with
    | some other =>
      rw [found] at added
      cases added
      exact ⟨lg, limit, handle⟩
    | none =>
      rw [found] at added
      obtain ⟨lg', handle'⟩ := handle.add_of_hasPlace wide careful.1 (careful.2 found) added
      exact ⟨lg', limit, handle'⟩
  | entryRemove entry =>
    obtain ⟨lg', handle'⟩ := handle.remove careful accepted
    exact ⟨lg', limit, handle'⟩
  | lockdown =>
    obtain ⟨lg', handle'⟩ := handle.lockdown accepted
    exact ⟨lg', limit, handle'⟩

theorem HandleAt.run_careful (wide : 32 ≤ width) {start : Memory}
    (handle : HandleAt width imd powers start none lg)
    (run : Run width imd (Careful width imd) start memory limit) :
    ∃ lg' limit', HandleAt width imd powers memory limit' lg' := by
  induction run with
  | start => exact ⟨lg, none, handle⟩
  | refused _ _ _ ih => exact ih
  | accepted _ meets accepted ih =>
    obtain ⟨before, bound, handle⟩ := ih
    exact handle.perform_careful wide meets accepted

/-- In every state of a careful run, the next addition is sound exactly for the
sizes that have a place or are led around. -/
theorem addSound_iff_of_run (wide : 32 ≤ width) {upperLimit : Nat}
    (fits : upperLimit < 2 ^ width) {imd : Handle} {start memory : Memory}
    {limit : Option Nat} (created : Created width upperLimit imd start)
    (run : Run width imd (Careful width imd) start memory limit)
    (id : BitVec 32) {size : Nat} (sizeFits : size < 2 ^ width) :
    AddSound width imd memory size id.toNat ↔
      HasPlace width imd memory size ∨ LeadsAround width imd.lg memory size := by
  obtain ⟨powers, lg, handle, -⟩ := created.handleAt wide fits
  obtain ⟨lg', limit', handle'⟩ := handle.run_careful wide run
  exact handle'.addSound_iff wide sizeFits id.toNat

end Runs

/-- A plain imd with a root of 64 bytes and an alignment of 16 bytes below 8 KiB,
in cleared memory. -/
def alignedRoot : Handle × Memory :=
  (imdCreateEmpty 32 (imdHandleInit 32 8192) (fun _ => 0) (2 ^ 6) (2 ^ 4)).get (by decide +kernel)

theorem created_alignedRoot : Created 32 8192 alignedRoot.1 alignedRoot.2 := by
  refine @Created.plain _ _ (fun _ => 0) _ _ 6 4 (by decide) (by decide) ?_
  rw [alignedRoot, Prod.mk.eta, Option.some_get]

/-- After a region of 100 bytes. -/
theorem addSound_iff_of_run_alignedRoot :
    ∃ memory,
      perform 32 alignedRoot.1 alignedRoot.2 (.entryAdd 7 100) = some memory ∧
        (AddSound 32 alignedRoot.1 memory 200 (8 : BitVec 32).toNat ↔
          HasPlace 32 alignedRoot.1 memory 200 ∨ LeadsAround 32 alignedRoot.1.lg memory 200) := by
  obtain ⟨memory, accepted⟩ := Option.isSome_iff_exists.mp
    (show (perform 32 alignedRoot.1 alignedRoot.2 (.entryAdd 7
      100)).isSome = true by decide +kernel)
  have place : HasPlace 32 alignedRoot.1 alignedRoot.2 100 := by
    refine .inr (.inr ⟨?_, ?_, ?_⟩)
    · show _ < _
      decide +kernel
    · decide +kernel
    · decide +kernel
  have run : Run 32 alignedRoot.1 (Careful 32 alignedRoot.1) alignedRoot.2 memory none :=
    .accepted .start (show Careful 32 alignedRoot.1 alignedRoot.2
      (.entryAdd 7 100) from ⟨by decide, place⟩) accepted
  exact ⟨memory, accepted, addSound_iff_of_run (by decide) (by decide)
    created_alignedRoot run 8 (by decide)⟩

/-- Rounding up a size just below 4 GiB gives zero, and the addition accepts it
without moving the offset. -/
theorem not_addSound_wrappedSize :
    ¬ ∀ (width upperLimit : Nat) (imd : Handle) (start memory : Memory)
      (limit : Option Nat), 32 ≤ width → upperLimit < 2 ^ width →
      Created width upperLimit imd start →
      Run width imd (fun _ _ => True) start memory limit →
      ∀ (id : BitVec 32) (size : Nat), size < 2 ^ width →
        AddSound width imd memory size id.toNat := by
  intro claim
  have sound := claim 32 8192 alignedRoot.1 alignedRoot.2 alignedRoot.2 none
    (by decide) (by decide) created_alignedRoot .start 7 4294967295 (by decide)
  obtain ⟨⟨entry, memory'⟩, added⟩ := Option.isSome_iff_exists.mp
    (show (imdEntryAdd 32 alignedRoot.1 alignedRoot.2 (7 : BitVec 32).toNat
      4294967295).isSome = true by decide +kernel)
  obtain ⟨imdr, rfl | ⟨-, tiered⟩, placed⟩ := sound entry memory' added
  · have below := placed.below 0 (by decide +kernel)
    have low : regionStart 32 alignedRoot.1.lg alignedRoot.2 0 < 4294967295 := by
      decide +kernel
    omega
  · exact tiered (by decide +kernel)

end Coreboot.Imd
