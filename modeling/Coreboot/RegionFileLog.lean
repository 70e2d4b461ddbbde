import Coreboot.RegionFile

/-!
# Logs and how they are found again

An erased device holds no metadata. A log fills the slots of its metadata from the front, with
increasing block offsets, and leaves the rest unallocated.
-/

namespace Coreboot.Regf

open ByteMemory

theorem normalizeAndOk_eq (outer : Region) (offset size : Nat) :
    normalizeAndOk outer offset size =
      if offset + size ≤ outer.size then some ⟨offset + outer.offset, size⟩
      else none := by
  have subregion : isSubregion outer ⟨offset + outer.offset, size⟩ = true ↔
      offset + size ≤ outer.size := by
    simp only [isSubregion, regionEnd]
    split_ifs <;> simp <;> omega
  rw [normalizeAndOk]
  by_cases inside : offset + size ≤ outer.size
  · rw [if_pos inside, if_pos (subregion.mpr inside)]
  · rw [if_neg inside, if_neg fun accepted => inside (subregion.mp accepted)]

variable {offset size count i : Nat} {memory : Memory} {f : RegionFile} {rd : Region}

theorem rdevChain_of_le {parent : Region} (inside : offset + size ≤ parent.size) :
    rdevChain parent offset size = some ⟨offset + parent.offset, size⟩ := by
  rw [rdevChain, normalizeAndOk_eq, if_pos inside]

theorem rdevReadat_of_le (inside : offset + size ≤ rd.size) (memory : Memory) :
    rdevReadat rd memory offset size = some (load memory (offset + rd.offset) size) := by
  rw [rdevReadat, normalizeAndOk_eq, if_pos inside, Option.map_some]

theorem rdevWriteat_of_le {bytes : List Byte} (inside : offset + bytes.length ≤ rd.size) :
    rdevWriteat rd bytes offset = some (.writeat (offset + rd.offset) bytes) := by
  rw [rdevWriteat, normalizeAndOk_eq, if_pos inside, Option.map_some]

theorem rdevEraseat_of_le {offset size : Nat} (inside : offset + size ≤ rd.size) :
    rdevEraseat rd offset size = some (.eraseat (offset + rd.offset) size) := by
  rw [rdevEraseat, normalizeAndOk_eq, if_pos inside, Option.map_some]

def slotAt (memory : Memory) (slot : Nat) : Nat := readLE 2 memory (2 * slot)

theorem slotAt_lt (memory : Memory) (slot : Nat) : slotAt memory slot < 2 ^ 16 :=
  readLE_lt 2 memory _

def Erased (size : Nat) (memory : Memory) : Prop := ∀ address < size, memory address = 0xff

/-- A log of `count` updates: the first `count + 1` slots are allocated, with
increasing offsets that stay in the region, and the rest of the metadata is
not. -/
structure Log (size : Nat) (memory : Memory) (count : Nat) : Prop where
  positive : 0 < slotAt memory 0
  room : count < 8 * slotAt memory 0
  increasing : ∀ slot < count, slotAt memory slot < slotAt memory (slot + 1)
  inRegion : slotAt memory count ≤ size / 16
  addressable : slotAt memory count < regfUnallocatedBlock
  free : ∀ slot, count < slot → slot < 8 * slotAt memory 0 →
    slotAt memory slot = regfUnallocatedBlock

/-- What `region_file_init` accepts without a complaint. -/
def Recoverable (size : Nat) (memory : Memory) : Prop :=
  Erased size memory ∨ ∃ count, Log size memory count

section

variable (log : Log size memory count)
include log

theorem Log.mono {first second : Nat} (ordered : first ≤ second) (allocated : second ≤ count) :
    slotAt memory first ≤ slotAt memory second := by
  induction second, ordered using Nat.le_induction with
  | base => exact le_rfl
  | succ second _ ih =>
    exact (ih (by omega)).trans (log.increasing second (by omega)).le

theorem Log.unallocated_iff {slot : Nat} (inMetadata : slot < 8 * slotAt memory 0) :
    slotAt memory slot = regfUnallocatedBlock ↔ count < slot := by
  constructor
  · intro unallocated
    by_contra allocated
    have bound := log.mono (not_lt.mp allocated) le_rfl
    have := log.addressable
    omega
  · exact fun beyond => log.free slot beyond inMetadata

theorem Log.metadata_le : slotAt memory 0 * 16 ≤ size := by
  have first := log.mono (Nat.zero_le count) le_rfl
  have last := log.inRegion
  omega

def fileOf (size : Nat) (memory : Memory) (count : Nat) : RegionFile where
  rdev := ⟨0, size⟩
  metadata := ⟨0, slotAt memory 0 * 16⟩
  dataBlocks0 := slotAt memory (count - 1)
  dataBlocks1 := slotAt memory count
  slot := count

omit log in
theorem getD_metadataBlockOfBytes (memory : Memory) (base : Nat) (inBlock : i < 8) :
    (metadataBlockOfBytes (load memory base 16)).blocks.getD i 0 =
      readLE 2 memory (base + 2 * i) := by
  have part := take_drop_load memory base (2 * i) 2 (14 - 2 * i)
  rw [show 2 * i + 2 + (14 - 2 * i) = 16 by omega] at part
  have inRange : i < regfUpdatesPerMetadataBlock := inBlock
  simp [metadataBlockOfBytes, List.getD_eq_getElem?_getD, inRange, part, readLE]

omit log in
theorem all_metadataBlockOfBytes (memory : Memory) (base : Nat) :
    allBlockOffsetsUnallocated (metadataBlockOfBytes (load memory base 16)) = true ↔
      ∀ i < 8, readLE 2 memory (base + 2 * i) = regfUnallocatedBlock := by
  have part (i : Nat) (inBlock : i < 8) :
      decodeLE (((load memory base 16).drop (2 * i)).take 2) = readLE 2 memory (base + 2 * i) := by
    have part := take_drop_load memory base (2 * i) 2 (14 - 2 * i)
    rw [show 2 * i + 2 + (14 - 2 * i) = 16 by omega] at part
    rw [part, readLE]
  simp only [allBlockOffsetsUnallocated, metadataBlockOfBytes, List.all_map, List.all_eq_true,
    List.mem_range, Function.comp_apply, blockOffsetUnallocated, beq_iff_eq]
  exact forall₂_congr fun i inBlock => by rw [part i inBlock]

omit log in
theorem readMb_of_lt (memory : Memory) {y : Nat} (metadata : f.metadata = ⟨0, y * 16⟩)
    (inMetadata : i < y) (narrow : y < 2 ^ 16) :
    readMb i f memory = some (metadataBlockOfBytes (load memory (16 * i) 16)) := by
  have offset : blockToBytes i = 16 * i := by
    rw [blockToBytes, Nat.mod_eq_of_lt (by omega), Nat.mul_comm]
  have inside : blockToBytes i + 16 ≤ f.metadata.size := by
    rw [offset, metadata]
    change 16 * i + 16 ≤ y * 16
    omega
  rw [readMb, rdevReadat_of_le inside, offset, metadata]
  rfl

theorem allUnallocated_iff (inMetadata : i < slotAt memory 0) :
    allBlockOffsetsUnallocated (metadataBlockOfBytes (load memory (16 * i) 16)) = true ↔
      count < 8 * i := by
  have slotOf (j : Nat) : readLE 2 memory (16 * i + 2 * j) = slotAt memory (8 * i + j) := by
    rw [slotAt, show 2 * (8 * i + j) = 16 * i + 2 * j by ring]
  rw [all_metadataBlockOfBytes]
  constructor
  · intro all
    have first := all 0 (by decide)
    rw [slotOf, log.unallocated_iff (by omega)] at first
    omega
  · intro beyond j inBlock
    rw [slotOf, log.unallocated_iff (by omega)]
    omega

theorem findLatestMbFrom_of_log (metadata : f.metadata = ⟨0, slotAt memory 0 * 16⟩) {l r : Nat}
    (low : 8 * l ≤ count) (high : count < 8 * r) (inMetadata : r ≤ slotAt memory 0) :
    findLatestMbFrom f memory l r = some (count / 8) := by
  induction l, r using findLatestMbFrom.induct f memory with
  | case1 l r apart unread =>
    rw [readMb_of_lt memory metadata (by omega) (slotAt_lt memory 0)] at unread
    exact absurd unread (by simp)
  | case2 l r apart mb read unallocated ih =>
    rw [findLatestMbFrom, if_pos apart, read]
    rw [readMb_of_lt memory metadata (by omega) (slotAt_lt memory 0)] at read
    cases read
    have beyond := (allUnallocated_iff log (by omega)).mp unallocated
    simp only [unallocated, if_true]
    exact ih low beyond (by omega)
  | case3 l r apart mb read allocated ih =>
    rw [findLatestMbFrom, if_pos apart, read]
    rw [readMb_of_lt memory metadata (by omega) (slotAt_lt memory 0)] at read
    cases read
    have before : ¬ count < 8 * ((l + r) / 2) := fun beyond =>
      allocated ((allUnallocated_iff log (by omega)).mpr beyond)
    simp only [allocated, Bool.false_eq_true, if_false]
    exact ih (by omega) high inMetadata
  | case4 l r together =>
    rw [findLatestMbFrom, if_neg together]
    congr 1
    omega

omit log in
theorem latestSlotFrom_eq {mb : MetadataBlock} {latest : Nat} (reached : latest ≤ i)
    (beyond : ∀ j, latest < j → j ≤ i → mb.blocks.getD j 0 = regfUnallocatedBlock)
    (allocated : 0 < latest → mb.blocks.getD latest 0 ≠ regfUnallocatedBlock) :
    latestSlotFrom mb i = latest := by
  induction i with
  | zero => exact (Nat.le_zero.mp reached).symm
  | succ i ih =>
    rw [latestSlotFrom, blockOffsetUnallocated]
    rcases Nat.lt_or_eq_of_le reached with earlier | rfl
    · rw [beyond (i + 1) earlier le_rfl]
      simp only [beq_self_eq_true, Bool.not_true, Bool.false_eq_true, if_false]
      exact ih (by omega) fun j above below => beyond j above (by omega)
    · rw [beq_eq_false_iff_ne.mpr (allocated (Nat.succ_pos i))]
      rfl

theorem findLatest_of_log (metadata : f.metadata = ⟨0, slotAt memory 0 * 16⟩) :
    ∃ mb found, findLatestMb (slotAt memory 0) f memory = some (mb, found) ∧
      findLatestSlot mb found = { f with slot := count } := by
  have positive := log.positive
  have room := log.room
  have search : findLatestMbFrom f memory 0 (slotAt memory 0) = _ :=
    findLatestMbFrom_of_log log metadata (Nat.zero_le _) room le_rfl
  have foundMetadata :
      { f with slot := (count / 8 * 8 : Nat) }.metadata = ⟨0, slotAt memory 0 * 16⟩ := metadata
  have read := readMb_of_lt memory foundMetadata (show count / 8 < _ by omega) (slotAt_lt memory 0)
  refine ⟨metadataBlockOfBytes (load memory (16 * (count / 8)) 16),
    { f with slot := (count / 8 * 8 : Nat) }, ?_, ?_⟩
  · rw [findLatestMb, search]
    simp only [regfUpdatesPerMetadataBlock, read]
  · have slotOf (j : Nat) (inBlock : j < 8) :
        (metadataBlockOfBytes (load memory (16 * (count / 8)) 16)).blocks.getD
          j 0 = slotAt memory (count / 8 * 8 + j) := by
      rw [getD_metadataBlockOfBytes _ _ inBlock, slotAt,
        show 2 * (count / 8 * 8 + j) = 16 * (count / 8) + 2 * j by ring]
    have latest : latestSlotFrom (metadataBlockOfBytes
        (load memory (16 * (count / 8)) 16)) 7 = count % 8 := by
      apply latestSlotFrom_eq (by omega)
      · intro j above below
        rw [slotOf j (by omega), log.unallocated_iff (by omega)]
        omega
      · intro _
        rw [slotOf _ (by omega), Ne, log.unallocated_iff (by omega)]
        omega
    simp only [findLatestSlot, regfUpdatesPerMetadataBlock, latest]
    congr 1
    omega

theorem fillDataBoundaries_of_log (rdev : f.rdev = ⟨0, size⟩)
    (metadata : f.metadata = ⟨0, slotAt memory 0 * 16⟩) (slot : f.slot = count) :
    fillDataBoundaries f memory = some (fileOf size memory count) := by
  have narrow := slotAt_lt memory 0
  obtain ⟨_, _, _, _, _⟩ := f
  simp only at rdev metadata slot
  subst rdev metadata slot
  cases count with
  | zero =>
    have start : slotAt memory 0 * 16 / 16 % 2 ^ 16 = slotAt memory 0 := by
      omega
    simp only [fillDataBoundaries, rfOnlyMetadata, bytesToBlock, start, Nat.cast_zero, if_true]
    rfl
  | succ count =>
    have room := log.room
    have increasing := log.increasing count (Nat.lt_succ_self _)
    have inRegion := log.inRegion
    have index : ((count + 1 : Nat) - 1 : Int).toNat * 2 = 2 * count := by
      omega
    have notFirst : ((count + 1 : Nat) : Int) ≠ rfOnlyMetadata := by
      rw [rfOnlyMetadata]
      omega
    have chained : rdevChain ⟨0, slotAt memory 0 * 16⟩ (2 * count) 4 = some ⟨2 * count, 4⟩ := by
      apply rdevChain_of_le
      change 2 * count + 4 ≤ slotAt memory 0 * 16
      omega
    have bytes : rdevReadat ⟨2 * count, 4⟩ memory 0 4 = some (load memory (2 * count) 4) := by
      rw [rdevReadat_of_le (by change 0 + 4 ≤ 4; omega), Nat.zero_add]
    have first : decodeLE ((load memory (2 * count) 4).take 2) = slotAt memory count := by
      have part := take_drop_load memory (2 * count) 0 2 2
      rw [List.drop_zero] at part
      rw [part]
      rfl
    have second : decodeLE (((load memory (2 * count) 4).drop 2).take 2) =
        slotAt memory (count + 1) := by
      have part := take_drop_load memory (2 * count) 2 2 0
      rw [part]
      rfl
    have apart : ¬ slotAt memory count ≥ slotAt memory (count + 1) := by
      omega
    have inside : ¬ slotAt memory (count + 1) > size / 16 := by omega
    rw [fillDataBoundaries, if_neg notFirst, index]
    simp only [chained, bytes, first, second, bytesToBlock, if_neg apart, if_neg inside]
    rfl

theorem regionFileInit_of_log :
    regionFileInit ⟨0, size⟩ memory = (fileOf size memory count, 0) := by
  have positive := log.positive
  have metadataFits := log.metadata_le
  have narrow := slotAt_lt memory 0
  have first : (metadataBlockOfBytes (load memory 0 16)).blocks.getD 0 0 = slotAt memory 0 :=
    getD_metadataBlockOfBytes memory 0 (by decide)
  have allocated : blockOffsetUnallocated (slotAt memory 0) = false := by
    have unallocated := log.unallocated_iff (show 0 < _ by omega)
    rw [blockOffsetUnallocated, beq_eq_false_iff_ne, Ne, unallocated]
    omega
  have whole : rdevChain ⟨0, size⟩ 0 size = some ⟨0, size⟩ :=
    rdevChain_of_le (by change 0 + size ≤ size; omega)
  have bytes : rdevReadat ⟨0, size⟩ memory 0 16 = some (load memory 0 16) :=
    rdevReadat_of_le (by change 0 + 16 ≤ size; omega) memory
  have asBytes : blockToBytes (slotAt memory 0) = slotAt memory 0 * 16 := by
    rw [blockToBytes, Nat.mod_eq_of_lt narrow]
  have metadata : rdevChain ⟨0, size⟩ 0 (slotAt memory 0 * 16) = some ⟨0, slotAt memory 0 * 16⟩ :=
    rdevChain_of_le (by change 0 + slotAt memory 0 * 16 ≤ size; omega)
  have notZero : slotAt memory 0 ≠ 0 := by omega
  obtain ⟨mb, found, search, slot⟩ := findLatest_of_log log
    (show (⟨⟨0, size⟩, ⟨0, slotAt memory 0 * 16⟩, 0, 0, rfFatal⟩ :
      RegionFile).metadata = _ from rfl)
  have boundaries := fillDataBoundaries_of_log log
    (show (⟨⟨0, size⟩, ⟨0, slotAt memory 0 * 16⟩, 0, 0, count⟩ :
      RegionFile).rdev = _ from rfl) rfl rfl
  simp only [regionFileInit, whole, bytes, Option.map_some, first, allocated, Bool.false_eq_true,
    if_false, notZero, asBytes, metadata, search, slot, boundaries]

end

end Coreboot.Regf
