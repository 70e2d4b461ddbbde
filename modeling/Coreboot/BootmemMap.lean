import Coreboot.MemrangeRefinement
import Coreboot.Selfload

/-!
# The map of the usable memory

The payload loader asks the map whether a region is usable memory, and takes buffers for the
payload from it. Sums of addresses wrap.
-/

namespace Coreboot.Selfload

open Memrange IntervalMap

def UsableAt (bootmem : Memranges) (address : Nat) : Prop :=
  valueAt (segments bootmem.entries) address = some lbMemRam

def TargetsExactly (bootmem : Memranges) (start size : Address) : Prop :=
  bootmemRegionTargetsUsableRam bootmem start size = true ↔
    start.toNat + size.toNat ≤ 2 ^ 64 ∧
      ∀ address, start.toNat ≤ address →
        address < start.toNat + size.toNat → UsableAt bootmem address

variable {entry : RangeEntry}

theorem mem_takeWhile_iff {entries : List RangeEntry} (ordered : Ordered (segments entries))
    {limit : Address} :
    entry ∈ entries.takeWhile (fun entry =>
        ! decide (limit ≤ rangeEntryBase entry)) ↔
      entry ∈ entries ∧ rangeEntryBase entry < limit := by
  induction entries with
  | nil => simp
  | cons first rest ih =>
    obtain ⟨nonempty, after, later⟩ := ordered_cons_entries ordered
    rw [List.takeWhile_cons]
    by_cases reached : limit ≤ rangeEntryBase first
    · rw [decide_eq_true reached]
      refine iff_of_false List.not_mem_nil ?_
      rintro ⟨member, below⟩
      rcases List.mem_cons.mp member with rfl | member
      · exact absurd below (BitVec.not_lt.mpr reached)
      · have before := after entry member
        have start : limit.toNat ≤ first.rangeBegin.toNat := reached
        have stop : entry.rangeBegin.toNat < limit.toNat := below
        omega
    · rw [decide_eq_false reached, Bool.not_false, if_pos rfl,
        List.mem_cons, List.mem_cons, ih later]
      constructor
      · rintro (rfl | found)
        · exact ⟨.inl rfl, BitVec.not_le.mp reached⟩
        · exact ⟨.inr found.1, found.2⟩
      · rintro ⟨rfl | member, below⟩
        · exact .inl rfl
        · exact .inr ⟨member, below⟩

theorem targetsUsableRam_iff {bootmem : Memranges}
    (ordered : Ordered (segments bootmem.entries)) (start size : Address) :
    bootmemRegionTargetsUsableRam bootmem start size = true ↔
      ∃ entry ∈ bootmem.entries, rangeEntryBase entry < start + size ∧
        rangeEntryBase entry ≤ start ∧ start + size ≤ rangeEntryEnd entry ∧
          entry.tag = lbMemRam := by
  rw [bootmemRegionTargetsUsableRam, List.any_eq_true]
  constructor
  · rintro ⟨entry, taken, meets⟩
    obtain ⟨member, below⟩ := (mem_takeWhile_iff ordered).mp taken
    obtain ⟨above, upTo, tag⟩ := of_decide_eq_true meets
    exact ⟨entry, member, below, above, upTo, tag⟩
  · rintro ⟨entry, member, below, above, upTo, tag⟩
    exact ⟨entry, (mem_takeWhile_iff ordered).mpr ⟨member, below⟩,
      decide_eq_true ⟨above, upTo, tag⟩⟩

section Regions

variable {bootmem : Memranges} (wellFormed : WellFormed bootmem.entries)
  (below : ∀ entry ∈ bootmem.entries, entry.rangeEnd.toNat < 2 ^ 64 - 1)
  {start size : Address}

include wellFormed below

omit wellFormed in
theorem toNat_rangeEntryEnd (member : entry ∈ bootmem.entries) :
    (rangeEntryEnd entry).toNat = entry.rangeEnd.toNat + 1 := by
  have small := below entry member
  rw [rangeEntryEnd, BitVec.toNat_add]
  exact Nat.mod_eq_of_lt (by change _ + 1 < _; omega)

theorem targetsUsableRam_iff_of_fits (positive : size ≠ 0)
    (fits : start.toNat + size.toNat < 2 ^ 64) :
    bootmemRegionTargetsUsableRam bootmem start size = true ↔
      ∀ address, start.toNat ≤ address →
        address < start.toNat + size.toNat → UsableAt bootmem address := by
  obtain ⟨ordered, canonical, -⟩ := (wellFormed_iff _).mp wellFormed
  have filled : 0 < size.toNat :=
    Nat.pos_of_ne_zero fun zero => positive (BitVec.eq_of_toNat_eq zero)
  have sum : (start + size).toNat = start.toNat + size.toNat := by
    rw [BitVec.toNat_add, Nat.mod_eq_of_lt fits]
  rw [targetsUsableRam_iff ordered]
  constructor
  · rintro ⟨entry, member, -, above, upTo, tag⟩ address lower upper
    have last := toNat_rangeEntryEnd below member
    rw [BitVec.le_def, sum, last] at upTo
    have first : entry.rangeBegin.toNat ≤ start.toNat := above
    rw [UsableAt, ← tag]
    exact valueAt_of_mem ordered
      (mem_segments.mpr ⟨entry, member, rfl⟩)
      ⟨by rw [toSegment_lower]; omega, by rw [toSegment_upper]; omega⟩
  · intro usable
    obtain ⟨segment, member, value, lower, upper⟩ :=
      exists_covering ordered canonical (by omega) usable
    obtain ⟨entry, entryMember, rfl⟩ := mem_segments.mp member
    rw [toSegment_lower] at lower
    rw [toSegment_upper] at upper
    refine ⟨entry, entryMember, ?_, lower, ?_, value⟩
    · rw [BitVec.lt_def, sum]
      change entry.rangeBegin.toNat < _
      omega
    · rw [BitVec.le_def, sum, toNat_rangeEntryEnd below entryMember]
      exact upper

theorem targetsUsableRam_iff_of_wraps (wraps : 2 ^ 64 < start.toNat + size.toNat) :
    bootmemRegionTargetsUsableRam bootmem start size = true ↔
      UsableAt bootmem (start.toNat + size.toNat - 2 ^ 64 - 1) := by
  obtain ⟨ordered, -, -⟩ := (wellFormed_iff _).mp wellFormed
  have startSmall := start.isLt
  have sizeSmall := size.isLt
  have sum : (start + size).toNat = start.toNat + size.toNat - 2 ^ 64 := by
    rw [BitVec.toNat_add]
    omega
  rw [targetsUsableRam_iff ordered]
  constructor
  · rintro ⟨entry, member, starts, -, upTo, tag⟩
    have last := toNat_rangeEntryEnd below member
    rw [BitVec.le_def, sum, last] at upTo
    rw [BitVec.lt_def, sum] at starts
    change entry.rangeBegin.toNat < _ at starts
    rw [UsableAt, ← tag]
    exact valueAt_of_mem ordered
      (mem_segments.mpr ⟨entry, member, rfl⟩)
      ⟨by rw [toSegment_lower]; omega, by rw [toSegment_upper]; omega⟩
  · intro usable
    obtain ⟨segment, member, inside, value⟩ := exists_of_valueAt usable
    obtain ⟨entry, entryMember, rfl⟩ := mem_segments.mp member
    obtain ⟨lower, upper⟩ := inside
    rw [toSegment_lower] at lower
    rw [toSegment_upper] at upper
    refine ⟨entry, entryMember, ?_, ?_, ?_, value⟩
    · rw [BitVec.lt_def, sum]
      change entry.rangeBegin.toNat < _
      omega
    · change entry.rangeBegin.toNat ≤ _
      omega
    · rw [BitVec.le_def, sum, toNat_rangeEntryEnd below entryMember]
      omega

/-- The check is exact for a map that ends below the last address if the region
does not wrap, or wraps to an end that is not usable memory. -/
theorem targetsExactly_iff_of_wellFormed (positive : size ≠ 0) :
    TargetsExactly bootmem start size ↔
      start.toNat + size.toNat ≤ 2 ^ 64 ∨
        ¬ UsableAt bootmem (start.toNat + size.toNat - 2 ^ 64 - 1) := by
  obtain ⟨ordered, -, -⟩ := (wellFormed_iff _).mp wellFormed
  rw [TargetsExactly]
  rcases lt_trichotomy (start.toNat + size.toNat) (2 ^ 64) with
    fits | full | wraps
  · rw [targetsUsableRam_iff_of_fits wellFormed below positive fits]
    exact iff_of_true ⟨fun usable => ⟨fits.le, usable⟩, fun both => both.2⟩ (.inl fits.le)
  · -- The end is zero, and the last address is not in the map.
    refine iff_of_true (iff_of_false ?_ ?_) (.inl full.le)
    · rw [targetsUsableRam_iff ordered]
      rintro ⟨entry, -, starts, -⟩
      rw [BitVec.lt_def, BitVec.toNat_add, full, Nat.mod_self] at starts
      omega
    · rintro ⟨-, usable⟩
      have filled : 0 < size.toNat :=
        Nat.pos_of_ne_zero fun zero => positive (BitVec.eq_of_toNat_eq zero)
      obtain ⟨segment, member, inside, -⟩ :=
        exists_of_valueAt (usable (2 ^ 64 - 1) (by omega) (by omega))
      obtain ⟨entry, entryMember, rfl⟩ := mem_segments.mp member
      have small := below entry entryMember
      have upper := inside.2
      rw [toSegment_upper] at upper
      omega
  · rw [targetsUsableRam_iff_of_wraps wellFormed below wraps]
    have large : ¬ start.toNat + size.toNat ≤ 2 ^ 64 := not_le.mpr wraps
    constructor
    · exact fun exact => .inr fun usable => large (exact.mp usable).1
    · exact fun outside => iff_of_false (outside.resolve_left large) fun both => large both.1

end Regions

/-- The check of a map that calls of `memranges` have built, and that ends below
the last address, is exact if the region does not wrap, or wraps to an end that
is not usable memory. -/
theorem targetsExactly_iff (numFree : Nat) (operations : List Operation)
    (fits : ∀ operation ∈ operations, operation.Fits) {bootmem : Memranges}
    (built : operations.foldl Operation.perform (memrangesInitEmpty numFree) = bootmem)
    (below : ∀ entry ∈ bootmem.entries, entry.rangeEnd.toNat < 2 ^ 64 - 1)
    (start : Address) {size : Address} (positive : size ≠ 0) :
    TargetsExactly bootmem start size ↔
      start.toNat + size.toNat ≤ 2 ^ 64 ∨
        ¬ UsableAt bootmem (start.toNat + size.toNat - 2 ^ 64 - 1) := by
  have represents : Represents
      (operations.foldl Operation.perform (memrangesInitEmpty numFree))
      (operations.foldl Operation.apply fun _ => none) :=
    List.foldl_rel (represents_empty numFree)
      fun operation member _ _ before =>
        perform_represents before (fits operation member)
  rw [built] at represents
  exact targetsExactly_iff_of_wellFormed represents.wellFormed below positive

def smallMap : Memranges := memrangesInsert true (memrangesInitEmpty 0) 0x1000 0x4000 lbMemRam

theorem targetsExactly_smallMap :
    TargetsExactly smallMap 0x2000 0x1000 ↔
      (0x2000 : Address).toNat + (0x1000 : Address).toNat ≤ 2 ^ 64 ∨
        ¬ UsableAt smallMap ((0x2000 : Address).toNat + (0x1000 : Address).toNat - 2 ^ 64 - 1) :=
  targetsExactly_iff 0 [.insert 0x1000 0x4000 lbMemRam]
    (by simp [Operation.Fits]) rfl (by decide) 0x2000 (by decide)

/-- The region wraps, and its end is usable memory. -/
theorem not_targetsExactly_wrappedRegion :
    ¬ ∀ (numFree : Nat) (operations : List Operation),
      (∀ operation ∈ operations, operation.Fits) →
      ∀ bootmem : Memranges,
        operations.foldl Operation.perform (memrangesInitEmpty numFree) = bootmem →
        (∀ entry ∈ bootmem.entries, entry.rangeEnd.toNat < 2 ^ 64 - 1) →
        ∀ start size : Address, size ≠ 0 → TargetsExactly bootmem start size := by
  intro claim
  have exact := claim 0 [.insert 0x1000 0x4000 lbMemRam]
    (by simp [Operation.Fits]) smallMap rfl (by decide) 0xfffffffffffff000 0x3000
    (by decide)
  exact absurd (exact.mp (by decide)).1 (by decide)

end Coreboot.Selfload
