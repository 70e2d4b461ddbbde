import Coreboot.MtrrEffectiveType
import Coreboot.SteppedRun

/-!
# Fixed memory type range registers

Below 1 MiB the memory types are given by 88 blocks of three sizes. Each range paints blocks from
its begin until the end is met exactly.
-/

namespace Coreboot.Mtrr

open Memrange SteppedRun

structure FixedMtrrDesc where
  rangeBegin : RangeAddr
  rangeEnd : RangeAddr
  step : RangeAddr
  rangeIndex : Nat
deriving DecidableEq, Repr

def numFixedRanges : Nat := 88

def fixedMtrrDesc : List FixedMtrrDesc :=
  [⟨physToRangeAddr 0x000000, physToRangeAddr 0x080000, physToRangeAddr (64 * 1024), 0⟩,
    ⟨physToRangeAddr 0x080000, physToRangeAddr 0x0C0000, physToRangeAddr (16 * 1024), 8⟩,
    ⟨physToRangeAddr 0x0C0000, physToRangeAddr 0x100000, physToRangeAddr (4 * 1024), 24⟩]

def lastDescEnd : RangeAddr := (fixedMtrrDesc.getLast (by decide)).rangeEnd

/-- What is accessed outside its array. -/
inductive FixedFault where
  | descriptor
  | type
deriving DecidableEq, Repr

/-- Where the walk is: before the entries that are left, or among the blocks of
an entry. -/
inductive FixedPlace where
  | entries (rest : List RangeEntry)
  | blocks (current : RangeEntry) (rest : List RangeEntry)
      (rangeBegin rangeEnd : RangeAddr) (typeIndex : Nat)

/-- The variables of `calc_fixed_mtrrs`. -/
structure FixedWalk where
  fixedMtrrTypes : List (BitVec 8)
  desc : Nat
  place : FixedPlace

def seekDesc (rangeBegin : RangeAddr) : Nat → List FixedMtrrDesc → Option (Nat × FixedMtrrDesc)
  | _, [] => none
  | desc, current :: rest =>
    if current.rangeEnd ≤ rangeBegin then
      seekDesc rangeBegin (desc + 1) rest
    else some (desc, current)

/-- The type written for a tag, with `MTRR_FIXED_WRBACK_BITS`. -/
def fixedMtrrType (fixedWrbackBits : BitVec 8) (tag : Tag) : BitVec 8 :=
  let type := tag.setWidth 8
  if type = mtrrTypeWrback.setWidth 8 then type ||| fixedWrbackBits else type

/-- A turn of one of the loops of `calc_fixed_mtrrs`. -/
def fixedStep (fixedWrbackBits : BitVec 8) (walk : FixedWalk) :
    FixedWalk ⊕ Except FixedFault FixedWalk :=
  match walk.place with
  | .entries [] => .inr (.ok walk)
  | .entries (r :: rest) =>
    let rangeBegin := rangeEntryBaseMtrrAddr r
    let rangeEnd := rangeEntryEndMtrrAddr r
    if lastDescEnd ≤ rangeBegin then .inr (.ok walk)
    else
      let rangeEnd := if lastDescEnd < rangeEnd then lastDescEnd else rangeEnd
      match seekDesc rangeBegin walk.desc (fixedMtrrDesc.drop walk.desc) with
      | none => .inr (.error .descriptor)
      | some (desc, current) =>
        .inl { walk with
          desc := desc
          place := .blocks r rest rangeBegin rangeEnd
            (current.rangeIndex + ((rangeBegin - current.rangeBegin) / current.step).toNat) }
  | .blocks r rest rangeBegin rangeEnd typeIndex =>
    -- The end is met only when it is at a multiple of the step.
    if rangeBegin = rangeEnd then .inl { walk with place := .entries rest }
    else if numFixedRanges ≤ typeIndex then .inr (.error .type)
    else
      match fixedMtrrDesc[walk.desc]? with
      | none => .inr (.error .descriptor)
      | some current =>
        .inl
          { fixedMtrrTypes := walk.fixedMtrrTypes.set typeIndex
              (fixedMtrrType fixedWrbackBits r.tag)
            desc :=
              if rangeBegin + current.step = current.rangeEnd then
                walk.desc + 1
              else walk.desc
            place := .blocks r rest (rangeBegin + current.step) rangeEnd (typeIndex + 1) }

def fixedStart (entries : List RangeEntry) : FixedWalk where
  fixedMtrrTypes := List.replicate numFixedRanges (mtrrTypeUncacheable.setWidth 8)
  desc := 0
  place := .entries entries

def calcFixedMtrrs (fixedWrbackBits : BitVec 8) (fuel : Nat)
    (entries : List RangeEntry) : Option (Except FixedFault FixedWalk) :=
  run (fixedStep fixedWrbackBits) fuel (fixedStart entries)

/-- The page at which a block begins; the last one is the end of the blocks. -/
def blockBegin (block : Nat) : Nat :=
  if block < 8 then 16 * block
  else if block < 24 then 128 + 4 * (block - 8)
  else 192 + (block - 24)

def blockDesc (block : Nat) : Nat :=
  if block < 8 then 0 else if block < 24 then 1
  else if block < numFixedRanges then 2 else 3

def BlockInside (block : Nat) (entry : RangeEntry) : Prop :=
  entry.rangeBegin.toNat ≤ 4096 * blockBegin block ∧
    4096 * blockBegin (block + 1) ≤ entry.rangeEnd.toNat + 1

def BlockTouches (block : Nat) (entry : RangeEntry) : Prop :=
  entry.rangeBegin.toNat < 4096 * blockBegin (block + 1) ∧
    4096 * blockBegin block ≤ entry.rangeEnd.toNat

/-- The walk ends, with accesses to existing types and descriptors only, and no
descriptor after the given one is reached; the blocks have the types of their
entries. -/
def FixedExact (lastDesc : Nat) (fixedWrbackBits : BitVec 8) (entries : List RangeEntry) : Prop :=
  ∃ fuel final, calcFixedMtrrs fixedWrbackBits fuel entries = some (.ok final) ∧
    final.desc ≤ lastDesc ∧ final.fixedMtrrTypes.length = numFixedRanges ∧
    ∀ block < numFixedRanges,
      (∀ entry ∈ entries, BlockInside block entry →
        final.fixedMtrrTypes[block]? = some (fixedMtrrType fixedWrbackBits entry.tag)) ∧
      ((∀ entry ∈ entries, ¬ BlockTouches block entry) →
        final.fixedMtrrTypes[block]? = some (mtrrTypeUncacheable.setWidth 8))

def BlockAligned (entries : List RangeEntry) : Prop :=
  ∀ entry ∈ entries, entry.rangeBegin.toNat < 0x100000 →
    (∃ block ≤ numFixedRanges, entry.rangeBegin.toNat = 4096 * blockBegin block) ∧
    ∃ block ≤ numFixedRanges, min (entry.rangeEnd.toNat + 1) 0x100000 = 4096 * blockBegin block

instance (entries : List RangeEntry) : Decidable (BlockAligned entries) :=
  inferInstanceAs (Decidable (∀ entry ∈ entries, _ → (∃ block ≤ _, _) ∧ ∃ block ≤ _, _))

/-- Page numbers fit their 32 bits: the entries begin below 16 TiB, and those
below 1 MiB end below 16 TiB. -/
def PagesFit (entries : List RangeEntry) : Prop :=
  ∀ entry ∈ entries, entry.rangeBegin.toNat < 2 ^ 44 ∧
    (entry.rangeBegin.toNat < 0x100000 → entry.rangeEnd.toNat + 1 < 2 ^ 44)

instance (entries : List RangeEntry) : Decidable (PagesFit entries) :=
  inferInstanceAs (Decidable (∀ entry ∈ entries, _ ∧ _))

variable {first second block : Nat} {desc : Nat}

theorem blockBegin_lt_iff : blockBegin first < blockBegin second ↔ first < second := by
  unfold blockBegin
  split_ifs <;> omega

theorem blockBegin_le_iff : blockBegin first ≤ blockBegin second ↔ first ≤ second := by
  rw [← not_lt, blockBegin_lt_iff, not_lt]

theorem blockBegin_numFixedRanges : blockBegin numFixedRanges = 256 := rfl

theorem blockBegin_le (bound : block ≤ numFixedRanges) : blockBegin block ≤ 256 :=
  blockBegin_le_iff.mpr bound

theorem blockDesc_le (block : Nat) : blockDesc block ≤ 3 := by
  unfold blockDesc
  split_ifs <;> decide

theorem blockDesc_mono (before : first ≤ second) : blockDesc first ≤ blockDesc second := by
  unfold blockDesc numFixedRanges
  split_ifs <;> omega

theorem desc_of_block (bound : block < numFixedRanges) :
    ∃ current, fixedMtrrDesc[blockDesc block]? = some current ∧
      BitVec.ofNat 32 (blockBegin block) + current.step = BitVec.ofNat 32 (blockBegin (block + 1)) ∧
      (if BitVec.ofNat 32 (blockBegin (block + 1)) = current.rangeEnd then
        blockDesc block + 1 else blockDesc block) = blockDesc (block + 1) := by
  have table : ∀ block < numFixedRanges,
      (fixedMtrrDesc[blockDesc block]?.any fun current =>
        BitVec.ofNat 32 (blockBegin block) + current.step =
            BitVec.ofNat 32 (blockBegin (block + 1)) ∧
          (if BitVec.ofNat 32 (blockBegin (block + 1)) = current.rangeEnd then
            blockDesc block + 1 else blockDesc block) = blockDesc (block + 1)) = true := by
    decide
  obtain ⟨current, found, facts⟩ := Option.any_eq_true _ _ |>.mp (table block bound)
  exact ⟨current, found, of_decide_eq_true facts⟩

theorem seekDesc_block (bound : block < numFixedRanges) (before : desc ≤ blockDesc block) :
    ∃ current, seekDesc (BitVec.ofNat 32 (blockBegin block)) desc
        (fixedMtrrDesc.drop desc) = some (blockDesc block, current) ∧
      current.rangeIndex + ((BitVec.ofNat 32 (blockBegin block) -
        current.rangeBegin) / current.step).toNat = block := by
  have table : ∀ block < numFixedRanges, ∀ desc < 3, desc ≤ blockDesc block →
      ((seekDesc (BitVec.ofNat 32 (blockBegin block)) desc
        (fixedMtrrDesc.drop desc)).any fun found =>
          found.1 = blockDesc block ∧
          found.2.rangeIndex + ((BitVec.ofNat 32 (blockBegin block) -
            found.2.rangeBegin) / found.2.step).toNat = block) = true := by
    decide
  have inside : blockDesc block < 3 := by
    unfold blockDesc
    split_ifs <;> decide
  obtain ⟨⟨_, current⟩, found, facts⟩ := Option.any_eq_true _ _ |>.mp
    (table block bound desc (Nat.lt_of_le_of_lt before inside) before)
  obtain ⟨rfl, index⟩ := of_decide_eq_true facts
  exact ⟨current, found, index⟩

section Painting

variable (fixedWrbackBits : BitVec 8) {r : RangeEntry} {rest : List RangeEntry}
  {types : List (BitVec 8)}

theorem reaches_blocks (r : RangeEntry) (rest : List RangeEntry) {last : Nat}
    (lastBound : last ≤ numFixedRanges) (distance block : Nat) (reach : block + distance = last)
    (types : List (BitVec 8)) (length : types.length = numFixedRanges) :
    ∃ painted : List (BitVec 8),
      Reaches (fixedStep fixedWrbackBits)
        ⟨types, blockDesc block, .blocks r rest
          (BitVec.ofNat 32 (blockBegin block))
          (BitVec.ofNat 32 (blockBegin last)) block⟩
        ⟨painted, blockDesc last, .entries rest⟩ ∧
      painted.length = numFixedRanges ∧
      ∀ other < numFixedRanges, painted[other]? =
        if block ≤ other ∧ other < last then
          some (fixedMtrrType fixedWrbackBits r.tag)
        else types[other]? := by
  induction distance generalizing block types with
  | zero =>
    obtain rfl : block = last := reach
    refine ⟨types, .single ?_, length, fun other _ => ?_⟩
    · rw [Moves, fixedStep]
      exact if_pos rfl
    · rw [if_neg (by omega)]
  | succ distance ih =>
    have bound : block < numFixedRanges := by omega
    have differ : BitVec.ofNat 32 (blockBegin block) ≠
        BitVec.ofNat 32 (blockBegin last) := fun same => by
      have less := blockBegin_lt_iff.mpr (show block < last by omega)
      have small := blockBegin_le lastBound
      have equal := congrArg BitVec.toNat same
      rw [BitVec.toNat_ofNat, BitVec.toNat_ofNat] at equal
      omega
    obtain ⟨current, found, next, desc⟩ := desc_of_block bound
    obtain ⟨painted, reaches, paintedLength, colours⟩ :=
      ih (block + 1) (by omega)
        (types.set block (fixedMtrrType fixedWrbackBits r.tag))
        (by rw [List.length_set, length])
    refine ⟨painted, .head ?_ reaches, paintedLength, fun other otherBound => ?_⟩
    · rw [Moves, fixedStep]
      simp only [if_neg differ, if_neg (Nat.not_le.mpr bound), found, next, desc]
    · rw [colours other otherBound]
      by_cases same : block = other
      · subst same
        rw [if_neg (by omega), if_pos (by omega), List.getElem?_set_self]
        omega
      · rw [List.getElem?_set_ne same]
        exact if_congr (by omega) rfl rfl

theorem range_of_aligned {first last : Nat} (low : r.rangeBegin.toNat = 4096 * blockBegin first)
    (high : min (r.rangeEnd.toNat + 1) 0x100000 = 4096 * blockBegin last)
    (fits : r.rangeEnd.toNat + 1 < 2 ^ 44) (firstBound : first < numFixedRanges) :
    rangeEntryBaseMtrrAddr r = BitVec.ofNat 32 (blockBegin first) ∧
      (if lastDescEnd < rangeEntryEndMtrrAddr r then lastDescEnd
        else rangeEntryEndMtrrAddr r) = BitVec.ofNat 32 (blockBegin last) := by
  have firstSmall := blockBegin_le (Nat.le_of_lt firstBound)
  have limit : lastDescEnd.toNat = 256 := by decide
  have one : (1 : Address).toNat = 1 := rfl
  have endPage : (rangeEntryEndMtrrAddr r).toNat = (r.rangeEnd.toNat + 1) / 4096 := by
    rw [rangeEntryEndMtrrAddr, toNat_physToRangeAddr, rangeEntryEnd, BitVec.toNat_add, one]
    omega
  constructor
  · apply BitVec.eq_of_toNat_eq
    rw [rangeEntryBaseMtrrAddr, toNat_physToRangeAddr, rangeEntryBase, low, BitVec.toNat_ofNat]
    omega
  · apply BitVec.eq_of_toNat_eq
    rw [BitVec.toNat_ofNat]
    split_ifs with above
    · rw [BitVec.lt_def, endPage, limit] at above
      rw [limit]
      omega
    · rw [BitVec.lt_def, endPage, limit] at above
      rw [endPage]
      omega

theorem stops_of_high (high : 0x100000 ≤ r.rangeBegin.toNat) (fits : r.rangeBegin.toNat < 2 ^ 44) :
    fixedStep fixedWrbackBits ⟨types, desc, .entries (r :: rest)⟩ =
      .inr (.ok ⟨types, desc, .entries (r :: rest)⟩) := by
  rw [fixedStep]
  refine if_pos (BitVec.le_def.mpr ?_)
  rw [rangeEntryBaseMtrrAddr, toNat_physToRangeAddr, rangeEntryBase]
  have limit : lastDescEnd.toNat = 256 := by decide
  omega

theorem endsWith_of_aligned {entries : List RangeEntry}
    (sorted : entries.Pairwise fun first second => first.rangeEnd < second.rangeBegin)
    (nonempty : ∀ entry ∈ entries, entry.rangeBegin ≤ entry.rangeEnd)
    (aligned : BlockAligned entries) (fits : PagesFit entries) {block : Nat}
    (bound : block ≤ numFixedRanges)
    (start : ∀ entry ∈ entries, 4096 * blockBegin block ≤ entry.rangeBegin.toNat)
    (length : types.length = numFixedRanges)
    (before : desc ≤ blockDesc block) :
    ∃ final, EndsWith (fixedStep fixedWrbackBits) ⟨types, desc, .entries entries⟩ (.ok final) ∧
      final.desc ≤ 3 ∧ final.fixedMtrrTypes.length = numFixedRanges ∧
      ∀ other < numFixedRanges,
        (∀ entry ∈ entries, BlockInside other entry →
          final.fixedMtrrTypes[other]? = some (fixedMtrrType fixedWrbackBits entry.tag)) ∧
        ((∀ entry ∈ entries, ¬ BlockTouches other entry) →
          final.fixedMtrrTypes[other]? = types[other]?) := by
  induction entries generalizing block types desc with
  | nil =>
    exact ⟨_, ⟨_, .refl, rfl⟩, before.trans (blockDesc_le block), length,
      fun _ _ => ⟨nofun, fun _ => rfl⟩⟩
  | cons r rest ih =>
    have later (entry) (member : entry ∈ rest) : r.rangeEnd.toNat < entry.rangeBegin.toNat :=
      BitVec.lt_def.mp (List.rel_of_pairwise_cons sorted member)
    have ordered : r.rangeBegin.toNat ≤ r.rangeEnd.toNat :=
      BitVec.le_def.mp (nonempty r (.head _))
    have rFits := fits r (.head _)
    rcases Nat.lt_or_ge r.rangeBegin.toNat 0x100000 with low | high
    · obtain ⟨⟨first, firstBound, begins⟩, last, lastBound, ends⟩ :=
        aligned r (.head _) low
      have firstInside : first < numFixedRanges := by
        rw [← blockBegin_lt_iff, blockBegin_numFixedRanges]
        omega
      obtain ⟨baseAddr, endAddr⟩ := range_of_aligned begins ends (rFits.2 low) firstInside
      have endInside : 4096 * blockBegin last ≤ r.rangeEnd.toNat + 1 := ends ▸ Nat.min_le_left _ _
      have endCases : r.rangeEnd.toNat + 1 = 4096 * blockBegin last ∨ blockBegin last = 256 := by
        rcases Nat.le_total (r.rangeEnd.toNat + 1) 0x100000 with below | above
        · exact .inl ((Nat.min_eq_left below).symm.trans ends)
        · rw [Nat.min_eq_right above] at ends
          exact .inr (by omega)
      clear ends
      have forward : first < last := by
        rw [← blockBegin_lt_iff]
        have small := blockBegin_lt_iff.mpr firstInside
        rw [blockBegin_numFixedRanges] at small
        omega
      have blockFirst : block ≤ first := by
        rw [← blockBegin_le_iff]
        have := start r (.head _)
        omega
      obtain ⟨current, found, index⟩ := seekDesc_block firstInside
        (before.trans (blockDesc_mono blockFirst))
      obtain ⟨painted, reaches, paintedLength, colours⟩ :=
        reaches_blocks fixedWrbackBits r rest lastBound (last - first) first (by omega) types length
      have moves : Moves (fixedStep fixedWrbackBits)
          ⟨types, desc, .entries (r :: rest)⟩
          ⟨types, blockDesc first, .blocks r rest
            (BitVec.ofNat 32 (blockBegin first))
            (BitVec.ofNat 32 (blockBegin last)) first⟩ := by
        have notHigh : ¬ lastDescEnd ≤ rangeEntryBaseMtrrAddr r := by
          have limit : lastDescEnd.toNat = 256 := by decide
          have small := blockBegin_lt_iff.mpr firstInside
          rw [blockBegin_numFixedRanges] at small
          rw [BitVec.le_def, limit, baseAddr, BitVec.toNat_ofNat]
          omega
        rw [Moves, fixedStep]
        simp only [if_neg notHigh, endAddr]
        rw [baseAddr]
        simp only [found, index]
      obtain ⟨final, run, finalDesc, finalLength, final_colours⟩ :=
        ih (List.Pairwise.of_cons sorted) (List.forall_mem_cons.mp nonempty).2
          (List.forall_mem_cons.mp aligned).2 (List.forall_mem_cons.mp fits).2
          lastBound
          (fun entry member => by have := later entry member; omega)
          paintedLength le_rfl
      refine ⟨final, .of_moves moves (.of_reaches reaches run), finalDesc,
        finalLength, fun other otherBound => ?_⟩
      have otherSmall : blockBegin (other + 1) ≤ 256 := blockBegin_le otherBound
      have forwardOther : blockBegin other < blockBegin (other + 1) :=
        blockBegin_lt_iff.mpr (Nat.lt_succ_self other)
      have painting : first ≤ other ∧ other < last ↔
          r.rangeBegin.toNat ≤ 4096 * blockBegin other ∧
            4096 * blockBegin (other + 1) ≤ r.rangeEnd.toNat + 1 := by
        have lower : first ≤ other ↔ blockBegin first ≤ blockBegin other := blockBegin_le_iff.symm
        have upper : other < last ↔ blockBegin (other + 1) ≤ blockBegin last := by
          rw [blockBegin_le_iff, Nat.succ_le_iff]
        rw [lower, upper]
        omega
      refine ⟨?_, fun untouched => ?_⟩
      · intro entry member inside
        rcases List.mem_cons.mp member with rfl | inRest
        · rw [(final_colours other otherBound).2 ?_, colours other otherBound,
            if_pos (painting.mpr inside)]
          intro next nextMember touches
          have := later next nextMember
          have := inside.2
          have := touches.1
          omega
        · exact (final_colours other otherBound).1 entry inRest inside
      · rw [(final_colours other otherBound).2 (List.forall_mem_cons.mp untouched).2,
          colours other otherBound, if_neg]
        rw [painting]
        intro inside
        refine untouched r (.head _) ⟨?_, ?_⟩
        · omega
        · omega
    · have small (entry) (member : entry ∈ r :: rest) : 0x100000 ≤ entry.rangeBegin.toNat := by
        rcases List.mem_cons.mp member with rfl | inRest
        · exact high
        · have := later entry inRest
          omega
      refine ⟨_, ⟨_, .refl, stops_of_high fixedWrbackBits high rFits.1⟩,
        before.trans (blockDesc_le block), length, fun other otherBound =>
        ⟨fun entry member inside => ?_, fun _ => rfl⟩⟩
      have := small entry member
      have begins := inside.1
      have := blockBegin_lt_iff.mpr otherBound
      rw [blockBegin_numFixedRanges] at this
      omega

end Painting

/-- On block boundaries the walk ends, and the blocks have the types of their
entries; the descriptor is at most one past the last, and is not read there. -/
theorem fixedExact_of_aligned (fixedWrbackBits : BitVec 8) {entries : List RangeEntry}
    (wellFormed : WellFormed entries) (aligned : BlockAligned entries) (fits : PagesFit entries) :
    FixedExact fixedMtrrDesc.length fixedWrbackBits entries := by
  obtain ⟨final, ends, desc, length, colours⟩ :=
    endsWith_of_aligned fixedWrbackBits wellFormed.sorted
      wellFormed.nonempty aligned fits (Nat.zero_le numFixedRanges)
      (fun _ _ => Nat.zero_le _) List.length_replicate (Nat.zero_le _)
  obtain ⟨fuel, ran⟩ := exists_run_iff.mpr ends
  refine ⟨fuel, final, ran, desc, length, fun block bound =>
    ⟨(colours block bound).1, fun untouched => ?_⟩⟩
  rw [(colours block bound).2 untouched, List.getElem?_replicate, if_pos bound]

/-- Conventional memory below 640 KiB, the VGA window and the option ROMs. -/
def lowMemory : List RangeEntry :=
  [⟨0, 0x9ffff, mtrrTypeWrback⟩, ⟨0xa0000, 0xbffff, mtrrTypeWrcomb⟩,
    ⟨0xc0000, 0x7fffffff, mtrrTypeWrback⟩]

theorem fixedExact_lowMemory : FixedExact fixedMtrrDesc.length 0x18 lowMemory :=
  fixedExact_of_aligned 0x18
    { sorted := by decide
      nonempty := by decide
      aligned := by decide
      merged := by decide }
    (by decide +kernel) (by decide +kernel)

/-- The last descriptor is left after the page below 1 MiB, and the end of an
entry in the middle of a block is not met. -/
theorem not_fixedExact_misaligned :
    (WellFormed [⟨0xff000, 0xfffff, mtrrTypeWrback⟩] ∧
      ¬ FixedExact 2 0 [⟨0xff000, 0xfffff, mtrrTypeWrback⟩]) ∧
    WellFormed [⟨0, 0x7fff, mtrrTypeWrback⟩] ∧
      ¬ FixedExact fixedMtrrDesc.length 0 [⟨0, 0x7fff, mtrrTypeWrback⟩] := by
  have only {entries : List RangeEntry} (fuel : Nat) (result : Option Nat)
      (ran : (calcFixedMtrrs 0 fuel entries).map (fun outcome =>
        outcome.toOption.map (·.desc)) = some result) {other : Nat}
      {final : FixedWalk}
      (ends : calcFixedMtrrs 0 other entries = some (.ok final)) :
      result = some final.desc := by
    obtain ⟨outcome, first, rfl⟩ := Option.map_eq_some_iff.mp ran
    rw [(exists_run_iff.mp ⟨fuel, first⟩).unique (exists_run_iff.mp ⟨other, ends⟩)]
    rfl
  refine ⟨⟨⟨by decide, by decide, by decide, by decide⟩, ?_⟩,
    ⟨by decide, by decide, by decide, by decide⟩, ?_⟩
  · rintro ⟨fuel, final, ends, desc, -⟩
    have last := Option.some.inj (only 4 (some 3) (by decide) ends)
    omega
  · rintro ⟨fuel, final, ends, -⟩
    exact nomatch only 100 none (by decide) ends

end Coreboot.Mtrr
