import Coreboot.ImdOperations

/-!
# Safety of the regions over runs

A run creates a plain or a tiered imd and then limits, extends, shrinks and locks it.
-/

namespace Coreboot.Imd

open ByteMemory DescendingBlocks

/-- A request to an imd.  An entry is its address. -/
inductive Request where
  | limitSize (maxSize : Nat)
  | entryAdd (id : BitVec 32) (size : Nat)
  | entryFindOrAdd (id : BitVec 32) (size : Nat)
  | entryRemove (entry : Nat)
  | lockdown
deriving DecidableEq, Repr

def perform (width : Nat) (imd : Handle) (memory : Memory) : Request → Option Memory
  | .limitSize maxSize => imdLimitSize width imd memory maxSize
  | .entryAdd id size => (imdEntryAdd width imd memory id.toNat size).map
      Prod.snd
  | .entryFindOrAdd id size =>
    (imdEntryFindOrAdd width imd memory id.toNat size).map Prod.snd
  | .entryRemove entry => imdEntryRemove width imd memory entry
  | .lockdown => imdLockdown imd memory

def limitAfter (limit : Option Nat) : Request → Option Nat
  | .limitSize maxSize => some maxSize
  | _ => limit

/-- Requests that meet a condition in the state before them, with the memory
they leave and the last accepted limit. -/
inductive Run (width : Nat) (imd : Handle)
    (condition : Memory → Request → Prop) (start : Memory) :
    Memory → Option Nat → Prop
  | start : Run width imd condition start start none
  | refused {memory : Memory} {limit : Option Nat} {request : Request}
      (before : Run width imd condition start memory limit)
      (meets : condition memory request)
      (refused : perform width imd memory request = none) :
      Run width imd condition start memory limit
  | accepted {memory memory' : Memory} {limit : Option Nat}
      {request : Request} (before : Run width imd condition start memory limit)
      (meets : condition memory request)
      (accepted : perform width imd memory request = some memory') :
      Run width imd condition start memory' (limitAfter limit request)

/-- The bytes from the lowest region up to the upper limit. -/
def usedSize (width : Nat) (imd : Handle) (memory : Memory) : Nat :=
  ((imdRegionUsed width imd memory).map Prod.snd).getD 0

/-- A request of this size, rounded up to the alignment of the large directory,
keeps the total below the bound. -/
def StaysBelow (width : Nat) (imd : Handle) (memory : Memory) (size bound : Nat) : Prop :=
  let align := rootEntryAlign memory imd.lg.r
  usedSize width imd memory + (size + (align - 1)) / align * align < bound

/-- The entries that hold the directories themselves: the roots and the small
region. -/
def IsMetadata (width : Nat) (imd : Handle) (entry : Nat) : Prop :=
  entry = rootEntry width imd.lg.r 0 ∨
    imd.sm.r ≠ 0 ∧ (entry = rootEntry width imd.lg.r 1 ∨ entry = rootEntry width imd.sm.r 0)

def IsLast (width : Nat) (imd : Handle) (memory : Memory) (entry : Nat) : Prop :=
  entry = rootLastEntry width memory imd.lg.r ∨
    imd.sm.r ≠ 0 ∧ entry = rootLastEntry width memory imd.sm.r

/-- The requests that keep a directory safe: a limit leaves room beyond the
root and is not below what is used, an addition stays below 2 GiB and above
address zero, and no entry of the metadata is removed while it is the last
one. -/
def Allowed (width : Nat) (imd : Handle) (memory : Memory) : Request → Prop
  | .limitSize maxSize =>
    imd.lg.limit - imd.lg.r ≤ maxSize →
      imd.lg.limit - imd.lg.r < maxSize ∧ usedSize width imd memory ≤ maxSize
  | .entryAdd _ size | .entryFindOrAdd _ size =>
    StaysBelow width imd memory size (2 ^ 31) ∧ StaysBelow width imd memory size (imd.lg.limit + 1)
  | .entryRemove entry =>
    IsMetadata width imd entry → ¬ IsLast width imd memory entry
  | .lockdown => True

def regionStart (width : Nat) (imdr : Imdr) (memory : Memory) (i : Nat) : Nat :=
  imdrEntryAt width imdr memory (rootEntry width imdr.r i)

def regionEnd (width : Nat) (imdr : Imdr) (memory : Memory) (i : Nat) : Nat :=
  regionStart width imdr memory i + imdrEntrySize memory (rootEntry width imdr.r i)

structure SafeDirectory (width : Nat) (imdr : Imdr) (memory : Memory)
    (floor : Nat) : Prop where
  nonempty : 1 ≤ rootNumEntries memory imdr.r
  count : rootNumEntries memory imdr.r ≤ rootMaxEntries memory imdr.r
  table : rootEntry width imdr.r (rootMaxEntries memory imdr.r) ≤ imdrGetRootPointer width imdr
  disjoint : ∀ i j, i < j → j < rootNumEntries memory imdr.r →
    regionEnd width imdr memory j ≤ regionStart width imdr memory i ∨
      regionEnd width imdr memory i ≤ regionStart width imdr memory j
  aligned : ∀ i < rootNumEntries memory imdr.r,
    rootEntryAlign memory imdr.r ∣ regionStart width imdr memory i
  below : ∀ i < rootNumEntries memory imdr.r, regionEnd width imdr memory i ≤ imdr.limit
  above : ∀ i < rootNumEntries memory imdr.r, floor ≤ regionStart width imdr memory i

/-- Both directories are safe, the small one inside of its entry in the large
one. -/
structure SafeHandle (width : Nat) (imd : Handle) (memory : Memory)
    (limit : Option Nat) : Prop where
  large : SafeDirectory width imd.lg memory (imd.lg.limit - limit.getD imd.lg.limit)
  small : imd.sm.r ≠ 0 → ∃ e,
    imdrEntryFind width imd.lg memory smallRegionId = some e ∧
      imd.sm.limit = imdrEntryAt width imd.lg memory e + imdrEntrySize memory e ∧
      SafeDirectory width imd.sm memory (imdrEntryAt width imd.lg memory e)

section Safety

variable {width : Nat} {memory : Memory} {imdr : Imdr} {d : Directory}

section

variable (directory : DirectoryAt width memory imdr d)
include directory

theorem DirectoryAt.regionStart_eq {i : Nat} (inside : i < d.entries.length) :
    (regionStart width imdr memory i : Int) = imdr.r + d.entries[i].offset := by
  have table := d.table
  have limit := directory.limit_eq
  have fits := directory.limit_lt
  have above := directory.above
  have lowest := d.lowest_le_offset (List.getElem_mem inside)
  have highest := d.descends_entries.end_le (List.getElem_mem inside)
  obtain ⟨address, same⟩ := Int.eq_ofNat_of_zero_le (show 0 ≤ imdr.r + d.entries[i].offset by omega)
  rw [regionStart, imdrEntryAt, (directory.entryAt inside).offset,
    relativePointer_of_eq same (by omega), same]

theorem DirectoryAt.regionEnd_eq {i : Nat} (inside : i < d.entries.length) :
    (regionEnd width imdr memory i : Int) = imdr.r + d.entries[i].offset + d.entries[i].size := by
  rw [regionEnd, Nat.cast_add, directory.regionStart_eq inside, imdrEntrySize,
    (directory.entryAt inside).size]

theorem DirectoryAt.safe (aligned : 2 ^ d.power ∣ imdr.r) {floor : Nat}
    (above : (floor : Int) ≤ imdr.r + d.lowest) : SafeDirectory width imdr memory floor := by
  have table := d.table
  have room := d.room
  have length := d.length_entries
  have limit := directory.limit_eq
  have fits := directory.limit_lt
  have root := directory.root
  have inside {i : Nat} (live : i < rootNumEntries memory imdr.r) : i < d.entries.length := by
    rwa [root.numEntries] at live
  constructor
  · rw [root.numEntries]
    omega
  · rw [root.numEntries, root.maxEntries]
    omega
  · have rp : imdrGetRootPointer width imdr = imdr.limit - 8 := by
      apply relativePointer_of_eq _ (by omega)
      simp only [sizeofRootPointer]
      omega
    rw [root.maxEntries, directory.rootEntry_eq le_rfl, rp]
    omega
  · intro i j before live
    have ordered := d.descends_entries.ordered before (inside live)
    have start := directory.regionStart_eq (before.trans (inside live))
    have finish := directory.regionEnd_eq (inside live)
    exact Or.inl (by omega)
  · intro i live
    rw [root.entryAlign, ← Int.natCast_dvd_natCast, directory.regionStart_eq (inside live)]
    exact Int.dvd_add (Int.natCast_dvd_natCast.mpr aligned) (d.offset_dvd (List.getElem_mem _))
  · intro i live
    have highest := d.descends_entries.end_le (List.getElem_mem (inside live))
    have finish := directory.regionEnd_eq (inside live)
    omega
  · intro i live
    have lowest := d.lowest_le_offset (List.getElem_mem (inside live))
    have start := directory.regionStart_eq (inside live)
    omega

end

end Safety

/-- The offsets of the large directory respect the last accepted limit. -/
def Limited (d : Directory) : Option Nat → Prop
  | none => d.maxOffset = 0
  | some maxSize =>
    d.rootSize - d.lowest ≤ maxSize ∧
      ((2147483648 : Int) ≤ maxSize - d.rootSize ∨
        d.maxOffset = d.rootSize - maxSize ∧ d.maxOffset < 0 ∧ -2147483648 < d.maxOffset)

/-- The exponents of the entry alignments, large and small. -/
structure Powers where
  lg : Nat
  sm : Nat

/-- The small directory fills the first entry of the large one. -/
structure SmallIn (width : Nat) (imd : Handle) (powers : Powers)
    (memory : Memory) (lg sm : Directory) (size : Nat) : Prop where
  directory : DirectoryAt width memory imd.sm sm
  power : sm.power = powers.sm
  region : lg.others.head? = some ⟨-size, size, smallRegionId⟩
  limit : imd.sm.limit = imd.lg.r
  fits : size < 2147483648
  room : sm.rootSize < size
  maxOffset : sm.maxOffset = sm.rootSize - size
  within : sm.maxOffset ≤ sm.lowest

structure HandleAt (width : Nat) (imd : Handle) (powers : Powers)
    (memory : Memory) (limit : Option Nat) (lg : Directory) : Prop where
  large : DirectoryAt width memory imd.lg lg
  power : lg.power = powers.lg
  limited : Limited lg limit
  small : imd.sm.r = 0 ∨ ∃ sm size, SmallIn width imd powers memory lg sm size

section Steps

variable {width : Nat} {imd : Handle} {powers : Powers}
  {memory memory' : Memory} {limit : Option Nat} {lg sm : Directory}
  {size : Nat}

theorem DirectoryAt.usedSize_eq (directory : DirectoryAt width memory imd.lg lg) :
    (usedSize width imd memory : Int) = lg.rootSize - lg.lowest := by
  have table := lg.table
  have limit := directory.limit_eq
  have fits := directory.limit_lt
  have above := directory.above
  have lowest := lg.lowest_le
  have positive := directory.positive
  obtain ⟨address, low⟩ := Int.eq_ofNat_of_zero_le above
  obtain ⟨used, same⟩ := Int.eq_ofNat_of_zero_le (show 0 ≤ imd.lg.limit - (address : Int) by omega)
  rw [usedSize, imdRegionUsed, if_neg (by omega), if_neg (by omega)]
  dsimp only
  rw [directory.lastOffset, relativePointer_of_eq low (by omega), toUnsigned_of_lt same (by omega)]
  change (used : Int) = _
  omega

variable {upper size entry : Nat} {id : BitVec 32} {limit' : Option Nat} {lg' : Directory}

theorem SmallIn.ofLarge (small : SmallIn width imd powers memory lg sm size)
    (change : SameOutside memory memory' imd.lg.r upper)
    (same : lg'.others.head? = lg.others.head?) : SmallIn width imd powers memory' lg' sm size := by
  obtain ⟨directory, power, region, smallLimit, fits, room, maxOffset, within⟩ := small
  exact ⟨directory.congr change (Or.inl smallLimit.le), power,
    same.trans region, smallLimit, fits, room, maxOffset, within⟩

section

variable (handle : HandleAt width imd powers memory limit lg)
include handle

theorem HandleAt.ofSmall {sm' : Directory} {lower : Nat}
    (change : SameOutside memory memory' lower upper) (below : upper ≤ imd.lg.r)
    (small : SmallIn width imd powers memory' lg sm' size) :
    HandleAt width imd powers memory' limit lg :=
  ⟨handle.large.congr change (Or.inr below), handle.power, handle.limited,
    Or.inr ⟨sm', size, small⟩⟩

theorem HandleAt.ofLarge (change : SameOutside memory memory' imd.lg.r upper)
    (large : DirectoryAt width memory' imd.lg lg')
    (power : lg'.power = lg.power) (limited : Limited lg' limit')
    (same : imd.sm.r ≠ 0 → lg'.others.head? = lg.others.head?) :
    HandleAt width imd powers memory' limit' lg' := by
  refine ⟨large, power.trans handle.power, limited, ?_⟩
  by_cases plain : imd.sm.r = 0
  · exact Or.inl plain
  · obtain ⟨sm, size, small⟩ := handle.small.resolve_left plain
    exact Or.inr ⟨sm, size, small.ofLarge change (same plain)⟩

theorem HandleAt.staysBelow_iff (size bound : Nat) :
    StaysBelow width imd memory size bound ↔
      lg.rootSize - lg.lowest + WordAlignment.ceil size lg.power < bound := by
  rw [StaysBelow, handle.large.root.entryAlign, ← handle.large.usedSize_eq, WordAlignment.ceil]
  norm_cast

end

/-- An addition to the large directory whose region has an offset of 32 bits and
does not wrap around. -/
theorem HandleAt.addLarge (wide : 32 ≤ width) (handle : HandleAt width imd powers memory limit lg)
    (noWrap : size + 2 ^ lg.power ≤ 2 ^ width)
    (lower : -2147483648 ≤ (lg.newEntry id.toNat size).offset)
    (above : 0 ≤ imd.lg.r + (lg.newEntry id.toNat size).offset)
    (added : imdrEntryAdd width imd.lg memory id.toNat size = some (entry, memory')) :
    ∃ lg', HandleAt width imd powers memory' limit lg' := by
  have directory := handle.large
  have lowest := lg.lowest_le
  rw [imdrEntryAdd, if_neg (by have := directory.positive; omega)] at added
  by_cases locked : rootIsLocked memory imd.lg.r = true
  · rw [if_pos locked] at added
    exact absurd added (by simp)
  · rw [if_neg locked] at added
    have offset : (lg.newEntry id.toNat size).offset =
      lg.lowest - WordAlignment.ceil size lg.power := rfl
    rcases directory.entryAdd wide id.isLt noWrap
      (fun _ => ⟨lower, above⟩) with
      refused | ⟨room, next, accepted, enough, nextAt, change⟩
    · exact absurd (refused.symm.trans added) (by simp)
    · cases accepted.symm.trans added
      refine ⟨_, handle.ofLarge change nextAt rfl ?_ ?_⟩
      · cases limit with
        | none => exact handle.limited
        | some maxSize =>
          obtain ⟨used, unreached | ⟨exact, negative, least⟩⟩ := handle.limited
          · refine ⟨?_, Or.inl unreached⟩
            rw [Directory.lowest_add]
            change (lg.rootSize : Int) - _ ≤ _
            omega
          · refine ⟨?_, Or.inr ⟨exact, negative, least⟩⟩
            have left := directory.dataLeft_eq wide least negative (by omega)
            rw [Directory.lowest_add]
            change (lg.rootSize : Int) - _ ≤ _
            omega
      · intro tiered
        obtain ⟨sm, size, small⟩ := handle.small.resolve_left tiered
        change (lg.others ++ [lg.newEntry id.toNat _]).head? = _
        rw [List.head?_append, small.region]
        rfl

theorem HandleAt.addSmall (wide : 32 ≤ width) (handle : HandleAt width imd powers memory limit lg)
    (tiered : imd.sm.r ≠ 0) (fits : size + 4096 ≤ 2 ^ width)
    (added : imdrEntryAdd width imd.sm memory id.toNat size = some (entry, memory')) :
    HandleAt width imd powers memory' limit lg := by
  obtain ⟨sm, region, small⟩ := handle.small.resolve_left tiered
  have directory := small.directory
  have smLowest := sm.lowest_le
  have align := sm.align_le
  have small4096 := sm.rootSize_le
  have limitEq := directory.limit_eq
  have smallLimit := small.limit
  have regionFits := small.fits
  have maxOffset := small.maxOffset
  have room := small.room
  have within := small.within
  rw [imdrEntryAdd, if_neg tiered] at added
  -- The region of the small directory does not wrap around.
  have regionAbove : (region : Int) ≤ imd.lg.r := by
    have member : (⟨-region, region, smallRegionId⟩ : Entry) ∈ lg.entries :=
      List.mem_cons_of_mem _ (List.mem_of_mem_head? small.region)
    have lowestLe := lg.lowest_le_offset member
    have above := handle.large.above
    simp only at lowestLe
    omega
  by_cases locked : rootIsLocked memory imd.sm.r = true
  · rw [if_pos locked] at added
    exact absurd added (by simp)
  · rw [if_neg locked] at added
    have left := directory.dataLeft_eq wide (by omega) (by omega) within
    have offset : (sm.newEntry id.toNat size).offset =
      sm.lowest - WordAlignment.ceil size sm.power := rfl
    rcases directory.entryAdd wide id.isLt
      (show size + 2 ^ sm.power ≤ 2 ^ width by omega)
      (fun enough => ⟨by omega, by omega⟩) with
      refused | ⟨smRoom, next, accepted, enough, nextAt, change⟩
    · exact absurd (refused.symm.trans added) (by simp)
    · cases accepted.symm.trans added
      refine handle.ofSmall change (by omega) ⟨nextAt, small.power,
        small.region, smallLimit, regionFits, room, maxOffset, ?_⟩
      rw [Directory.lowest_add]
      change sm.maxOffset ≤ _
      omega

theorem imdEntryRemove_eq_some (removed : imdEntryRemove width imd memory entry = some memory') :
    ∃ imdr, (imdr = imd.lg ∨ imdr = imd.sm ∧ imd.sm.r ≠ 0) ∧
      entry = rootLastEntry width memory imdr.r ∧
        memory' = writeUint32 memory (imdr.r + 4)
          (toUnsigned 32 (rootNumEntries memory imdr.r - 1)) := by
  rw [imdEntryRemove] at removed
  cases owner : imdEntryToImdr width imd memory entry with
  | none =>
    rw [owner] at removed
    exact absurd removed (by simp)
  | some imdr =>
    rw [owner] at removed
    dsimp only at removed
    split_ifs at removed with null locked other
    refine ⟨imdr, ?_, not_not.mp other, (Option.some.inj removed).symm⟩
    rw [imdEntryToImdr] at owner
    split_ifs at owner with inLarge inSmall
    · exact Or.inl (Option.some.inj owner).symm
    · cases owner
      exact Or.inr ⟨rfl, null⟩

theorem HandleAt.remove (handle : HandleAt width imd powers memory limit lg)
    {entry : Nat} (allowed : IsMetadata width imd entry → ¬ IsLast width imd memory entry)
    (removed : imdEntryRemove width imd memory entry = some memory') :
    ∃ lg', HandleAt width imd powers memory' limit lg' := by
  obtain ⟨imdr, owner, last, rfl⟩ := imdEntryRemove_eq_some removed
  have notLast {i : Nat} {imdr : Imdr} {d : Directory}
      (directory : DirectoryAt width memory imdr d)
      (last : entry = rootLastEntry width memory imdr.r)
      (isLast : IsLast width imd memory entry)
      (metadata : IsMetadata width imd (rootEntry width imdr.r i)) :
      d.others.length ≠ i := by
    rintro rfl
    rw [directory.rootLastEntry_eq] at last
    exact allowed (by rwa [last]) isLast
  rcases owner with rfl | ⟨rfl, tiered⟩
  · have isLast : IsLast width imd memory entry := Or.inl last
    have more := notLast handle.large last isLast (Or.inl rfl)
    have notEmpty : lg.others ≠ [] := fun none => more (by rw [none]; rfl)
    refine ⟨_, handle.ofLarge (@sameOutside_writeUint32 _ _ _ imd.lg.r
      (imd.lg.r + 8) (by omega) (by omega)) (handle.large.remove notEmpty)
      rfl ?_ ?_⟩
    · have raised := lg.lowest_le_removeLast
      cases limit with
      | none => exact handle.limited
      | some maxSize =>
        obtain ⟨used, bound⟩ := handle.limited
        refine ⟨?_, bound⟩
        change (lg.rootSize : Int) - _ ≤ _
        omega
    · intro tiered
      have twoMore := notLast handle.large last isLast (Or.inr ⟨tiered, Or.inl rfl⟩)
      obtain ⟨first, second, rest, same⟩ : ∃ first second rest,
          lg.others = first :: second :: rest := by
        match shape : lg.others with
        | [] => exact absurd shape notEmpty
        | [_] => exact absurd (congrArg List.length shape) twoMore
        | first :: second :: rest => exact ⟨first, second, rest, rfl⟩
      change lg.others.dropLast.head? = lg.others.head?
      rw [same]
      rfl
  · obtain ⟨sm, region, small⟩ := handle.small.resolve_left tiered
    have isLast : IsLast width imd memory entry := Or.inr ⟨tiered, last⟩
    have more := notLast small.directory last isLast (Or.inr ⟨tiered, Or.inr rfl⟩)
    have notEmpty : sm.others ≠ [] := fun none => more (by rw [none]; rfl)
    have header := small.directory.header_le
    have smallLimit := small.limit
    have within := small.within
    have raised := sm.lowest_le_removeLast
    refine ⟨lg, handle.ofSmall (@sameOutside_writeUint32 _ _ _ imd.sm.r
      (imd.sm.r + 8) (by omega) (by omega)) (by omega)
      ⟨small.directory.remove notEmpty, small.power, small.region, smallLimit,
        small.fits, small.room, small.maxOffset, ?_⟩⟩
    change sm.maxOffset ≤ _
    omega

theorem limited_withMaxOffset {stored : Int} {maxSize : Nat}
    (used : lg.rootSize - lg.lowest ≤ maxSize) (bound : (2147483648 : Int) ≤ maxSize - lg.rootSize ∨
      stored = lg.rootSize - maxSize ∧ stored < 0 ∧ -2147483648 < stored) :
    Limited (lg.withMaxOffset stored) (some maxSize) :=
  ⟨used, bound⟩

theorem HandleAt.withLimit (handle : HandleAt width imd powers memory limit lg)
    {maxOffset stored : Int}
    (same : readInt32 (writeInt32 memory (imd.lg.r + 16) maxOffset) (imd.lg.r + 16) = stored)
    (limited : Limited (lg.withMaxOffset stored) limit') :
    HandleAt width imd powers (writeInt32 memory (imd.lg.r + 16) maxOffset) limit'
      (lg.withMaxOffset stored) :=
  handle.ofLarge (@sameOutside_writeInt32 _ _ _ (imd.lg.r + 20) _ (by omega)
    (by omega)) (handle.large.limitOffset same) rfl limited fun _ => rfl

theorem HandleAt.limitSize (wide : 32 ≤ width) (handle : HandleAt width imd powers memory limit lg)
    {maxSize : Nat} (allowed : imd.lg.limit - imd.lg.r ≤ maxSize →
      imd.lg.limit - imd.lg.r < maxSize ∧ usedSize width imd memory ≤ maxSize)
    (limited : imdLimitSize width imd memory maxSize = some memory') :
    ∃ lg', HandleAt width imd powers memory' (some maxSize) lg' := by
  have large : 2 ^ 32 ≤ 2 ^ width := Nat.pow_le_pow_right (by decide) wide
  have directory := handle.large
  have limitEq := directory.limit_eq
  have limitLt := directory.limit_lt
  have used := directory.usedSize_eq
  have small := lg.rootSize_le
  have rootSize : toUnsigned width (imd.lg.limit - imd.lg.r) = lg.rootSize :=
    toUnsigned_of_lt (by omega) (by omega)
  rw [imdLimitSize, imdrLimitSize, if_neg (by have := directory.positive; omega)] at limited
  rw [rootSize] at limited
  by_cases tooSmall : maxSize < lg.rootSize
  · rw [if_pos tooSmall] at limited
    exact absurd limited (by simp)
  · obtain ⟨beyond, inUse⟩ := allowed (by omega)
    rw [if_neg tooSmall] at limited
    cases limited
    by_cases narrow : maxSize < 2147483648 + lg.rootSize
    · have positive : toSigned width ((maxSize : Int) - lg.rootSize) = maxSize - lg.rootSize :=
        toSigned_of_lt wide (by omega) (by omega)
      have negative : toSigned width (-((maxSize : Int) - lg.rootSize)) =
          -((maxSize : Int) - lg.rootSize) :=
        toSigned_of_lt wide (by omega) (by omega)
      rw [positive, negative, Int.neg_sub]
      exact ⟨_, handle.withLimit
        (readInt32_write_self (by omega) (by omega))
        (limited_withMaxOffset (by omega) (Or.inr ⟨rfl, by omega, by omega⟩))⟩
    · -- The stored offset is truncated, and no other offset reaches the limit.
      exact ⟨_, handle.withLimit rfl (limited_withMaxOffset (by omega) (Or.inl (by omega)))⟩

theorem HandleAt.lockdown (handle : HandleAt width imd powers memory limit lg)
    (locked : imdLockdown imd memory = some memory') :
    ∃ lg', HandleAt width imd powers memory' limit lg' := by
  rw [imdLockdown, if_neg (by have := handle.large.positive; omega)] at locked
  cases locked
  have change : SameOutside memory (lockRoot memory imd.lg.r) imd.lg.r (imd.lg.r + 12) :=
    sameOutside_writeUint32 (by omega) (by omega)
  have lockedLarge := handle.ofLarge change handle.large.lock rfl
    (show Limited (lg.withFlags _) limit from handle.limited) fun _ => rfl
  by_cases plain : imd.sm.r = 0
  · rw [if_neg (not_not.mpr plain)]
    exact ⟨_, lockedLarge⟩
  · rw [if_pos plain]
    obtain ⟨sm, region, small⟩ := lockedLarge.small.resolve_left plain
    have header := small.directory.header_le
    have smallLimit := small.limit
    refine ⟨_, lockedLarge.ofSmall (@sameOutside_writeUint32 _ _ _ imd.sm.r
      (imd.sm.r + 12) (by omega) (by omega)) (by omega)
      ⟨small.directory.lock, small.power, small.region, smallLimit, small.fits,
        small.room, small.maxOffset, small.within⟩⟩

theorem HandleAt.entryAdd (wide : 32 ≤ width) (handle : HandleAt width imd powers memory limit lg)
    (small : StaysBelow width imd memory size (2 ^ 31))
    (above : StaysBelow width imd memory size (imd.lg.limit + 1))
    (added : imdEntryAdd width imd memory id.toNat size = some (entry, memory')) :
    ∃ lg', HandleAt width imd powers memory' limit lg' := by
  have wider : 2 ^ 32 ≤ 2 ^ width := Nat.pow_le_pow_right (by decide) wide
  have lowest := lg.lowest_le
  have table := lg.table
  have align := lg.align_le
  have small4096 := lg.rootSize_le
  have covers := WordAlignment.le_ceil size lg.power
  have limitEq := handle.large.limit_eq
  have offset : (lg.newEntry id.toNat size).offset =
    lg.lowest - WordAlignment.ceil size lg.power := rfl
  rw [handle.staysBelow_iff] at small above
  have addLarge (added : imdrEntryAdd width imd.lg memory id.toNat size =
      some (entry, memory')) : ∃ lg', HandleAt width imd powers memory' limit lg' :=
    handle.addLarge wide (by omega) (by omega) (by omega) added
  rw [imdEntryAdd] at added
  split_ifs at added with plain fitsSmall
  · exact addLarge added
  · cases result : imdrEntryAdd width imd.sm memory id.toNat size with
    | none =>
      rw [result] at added
      exact addLarge added
    | some pair =>
      rw [result] at added
      cases added
      exact ⟨lg, handle.addSmall wide plain (by omega) result⟩
  · exact addLarge added

theorem HandleAt.perform (wide : 32 ≤ width) (handle : HandleAt width imd powers memory limit lg)
    {request : Request} (allowed : Allowed width imd memory request)
    (accepted : perform width imd memory request = some memory') :
    ∃ lg', HandleAt width imd powers memory' (limitAfter limit request) lg' := by
  cases request with
  | limitSize maxSize => exact handle.limitSize wide allowed accepted
  | entryAdd id size =>
    obtain ⟨⟨entry, after⟩, added, rfl⟩ := Option.map_eq_some_iff.mp accepted
    exact handle.entryAdd wide allowed.1 allowed.2 added
  | entryFindOrAdd id size =>
    obtain ⟨⟨entry, after⟩, added, rfl⟩ := Option.map_eq_some_iff.mp accepted
    rw [imdEntryFindOrAdd] at added
    cases found : imdEntryFind width imd memory id.toNat with
    | some other =>
      rw [found] at added
      cases added
      exact ⟨lg, handle⟩
    | none =>
      rw [found] at added
      exact handle.entryAdd wide allowed.1 allowed.2 added
  | entryRemove entry => exact handle.remove allowed accepted
  | lockdown => exact handle.lockdown accepted

theorem HandleAt.run (wide : 32 ≤ width) {start : Memory}
    (handle : HandleAt width imd powers start none lg)
    (run : Run width imd (Allowed width imd) start memory limit) :
    ∃ lg', HandleAt width imd powers memory limit lg' := by
  induction run with
  | start => exact ⟨lg, handle⟩
  | refused _ _ _ ih => exact ih
  | accepted _ meets accepted ih =>
    obtain ⟨before, handle⟩ := ih
    exact handle.perform wide meets accepted

end Steps

end Coreboot.Imd
