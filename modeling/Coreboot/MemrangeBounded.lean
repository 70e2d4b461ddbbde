import Coreboot.MemrangeOrder

/-!
# Calls without `malloc`

Before ramstage an entry can only be taken from the free list.
-/

namespace Coreboot.Memrange

open IntervalMap

/-- The range lies strictly inside of the entry, which has to be split. -/
def Splits (rangeBegin rangeEnd : Address) (entry : RangeEntry) : Prop :=
  entry.rangeBegin < rangeBegin ∧ rangeEnd < entry.rangeEnd

section Removal

variable {rangeBegin rangeEnd : Address} {free : Nat} {entries : List RangeEntry}

theorem removeMemrangesFrom_of_room (ordered : Ordered (segments entries))
    (room : free ≠ 0 ∨ ∀ entry ∈ entries, ¬ Splits rangeBegin rangeEnd entry) :
    removeMemrangesFrom false rangeBegin rangeEnd free entries =
      removeMemrangesFrom true rangeBegin rangeEnd free entries := by
  induction entries generalizing rangeBegin free with
  | nil => rfl
  | cons current next ih =>
    obtain ⟨nonempty, after, nextOrdered⟩ := ordered_cons_entries ordered
    have later (room : free ≠ 0 ∨
        ∀ entry ∈ current :: next, ¬ Splits rangeBegin rangeEnd entry) :
        free ≠ 0 ∨ ∀ entry ∈ next, ¬ Splits rangeBegin rangeEnd entry :=
      room.imp_right fun none entry member =>
        none entry (.tail _ member)
    unfold removeMemrangesFrom
    by_cases before : rangeEnd < current.rangeBegin
    · rw [if_pos before, if_pos before]
    rw [if_neg before, if_neg before]
    by_cases behind : rangeBegin > current.rangeEnd
    · rw [if_pos behind, if_pos behind, ih nextOrdered (later room)]
    rw [if_neg behind, if_neg behind]
    by_cases full : rangeBegin ≤ current.rangeBegin ∧ rangeEnd ≥ current.rangeEnd
    · rw [if_pos full, if_pos full]
      exact ih nextOrdered (.inl (Nat.succ_ne_zero free))
    rw [if_neg full, if_neg full]
    by_cases atBegin : rangeBegin ≤ current.rangeBegin
    · -- The lower end moves up to the entry, and the rest begins behind it.
      rw [if_pos atBegin]
      have none : ¬ (current.rangeBegin > current.rangeBegin ∧
          (if rangeEnd > current.rangeEnd then current.rangeEnd
            else rangeEnd) < current.rangeEnd) :=
        fun middle => absurd middle.1 (BitVec.lt_irrefl _)
      rw [if_neg none, if_neg none]
      rw [ih nextOrdered]
      refine .inr fun entry member splits => ?_
      have above := after entry member
      have below := BitVec.lt_def.mp splits.1
      omega
    · rw [if_neg atBegin]
      by_cases middle : rangeBegin > current.rangeBegin ∧
          (if rangeEnd > current.rangeEnd then current.rangeEnd else rangeEnd) < current.rangeEnd
      · rw [if_pos middle, if_pos middle]
        have inside : rangeEnd < current.rangeEnd := by
          have short := middle.2
          split_ifs at short with long
          · exact absurd short (BitVec.lt_irrefl _)
          · exact short
        cases free with
        | zero =>
          rcases room with some | none
          · exact absurd rfl some
          · exact absurd ⟨middle.1, inside⟩ (none current (.head _))
        | succ free => rfl
      · rw [if_neg middle, if_neg middle, ih nextOrdered (later room)]

theorem removeMemrangesFrom_of_splits (ordered : Ordered (segments entries))
    (range : rangeBegin ≤ rangeEnd) {entry : RangeEntry}
    (member : entry ∈ entries) (splits : Splits rangeBegin rangeEnd entry) :
    removeMemrangesFrom false rangeBegin rangeEnd 0 entries =
      removeMemrangesFrom true rangeBegin entry.rangeEnd 0 entries := by
  induction entries with
  | nil => cases member
  | cons current next ih =>
    obtain ⟨nonempty, after, nextOrdered⟩ := ordered_cons_entries ordered
    obtain ⟨lower, upper⟩ := splits
    have lowerNat := BitVec.lt_def.mp lower
    have upperNat := BitVec.lt_def.mp upper
    have rangeNat := BitVec.le_def.mp range
    unfold removeMemrangesFrom
    rcases List.mem_cons.mp member with rfl | member
    · have before : ¬ rangeEnd < entry.rangeBegin := by
        rw [BitVec.lt_def]
        omega
      have before' : ¬ entry.rangeEnd < entry.rangeBegin := by
        rw [BitVec.lt_def]
        omega
      have behind : ¬ rangeBegin > entry.rangeEnd := by
        rw [gt_iff_lt, BitVec.lt_def]
        omega
      have below : ¬ rangeBegin ≤ entry.rangeBegin := by
        rw [BitVec.le_def]
        omega
      have short : ¬ rangeEnd > entry.rangeEnd := by
        rw [gt_iff_lt, BitVec.lt_def]
        omega
      have notBegin : rangeBegin ≠ entry.rangeBegin := by
        rintro rfl
        omega
      have notFull (last : Address) : ¬ (rangeBegin ≤ entry.rangeBegin ∧ last ≥ entry.rangeEnd) :=
        fun full => below full.1
      have notMiddle : ¬ (rangeBegin > entry.rangeBegin ∧ entry.rangeEnd < entry.rangeEnd) :=
        fun middle => absurd middle.2 (BitVec.lt_irrefl _)
      have middle : rangeBegin > entry.rangeBegin ∧ rangeEnd < entry.rangeEnd := ⟨lower, upper⟩
      rw [if_neg before, if_neg before', if_neg behind, if_neg behind,
        if_neg (notFull _), if_neg (notFull _)]
      dsimp only
      rw [if_neg below, if_neg short, if_pos middle, ite_self,
        if_neg notMiddle, if_neg notBegin, if_pos rfl]
      have rest : removeMemrangesFrom true rangeBegin entry.rangeEnd 0 next = (next, 0) := by
        cases next with
        | nil => rfl
        | cons other rest =>
          rw [removeMemrangesFrom, if_pos]
          exact BitVec.lt_def.mpr (after other (.head _))
      rw [rest]
      rfl
    · have above := after entry member
      have before : ¬ rangeEnd < current.rangeBegin := by
        rw [BitVec.lt_def]
        omega
      have before' : ¬ entry.rangeEnd < current.rangeBegin := by
        rw [BitVec.lt_def]
        omega
      have behind : rangeBegin > current.rangeEnd := by
        rw [gt_iff_lt, BitVec.lt_def]
        omega
      rw [if_neg before, if_neg before', if_pos behind, if_pos behind, ih nextOrdered member]

theorem addBefore_zero (rangeBegin rangeEnd : Address) (tag : Tag) (entries : List RangeEntry) :
    addBefore false rangeBegin rangeEnd tag 0 entries = (entries, 0) := by
  induction entries with
  | nil => rfl
  | cons current next ih =>
    unfold addBefore
    rw [ih]
    split_ifs <;> rfl

theorem addBefore_succ (rangeBegin rangeEnd : Address) (tag : Tag)
    (free : Nat) (entries : List RangeEntry) :
    addBefore false rangeBegin rangeEnd tag (free + 1) entries =
      addBefore true rangeBegin rangeEnd tag (free + 1) entries := by
  induction entries with
  | nil => rfl
  | cons current next ih =>
    unfold addBefore
    rw [ih]
    rfl

end Removal

/-- Perform the call, where entries come from the free list only. -/
def Operation.performBounded (ranges : Memranges) : Operation → Memranges
  | .insert base size tag => memrangesInsert false ranges base size tag
  | .createHole base size => memrangesCreateHole false ranges base size
  | .updateTag oldTag newTag => memrangesUpdateTag ranges oldTag newTag

/-- The pages that a call has nothing to do with. -/
def Operation.Outside (entries : List RangeEntry) : Operation → Nat → Prop
  | .insert base size _, page | .createHole base size, page =>
    ¬ PageIn base size page
  | .updateTag oldTag _, page => pageTag entries page ≠ some oldTag

/-- There is a free entry, or no entry begins before the pages of the range and
ends behind them. -/
def Operation.HasRoom (entries : List RangeEntry) (freeList : Nat) : Operation → Prop
  | .insert base size _ | .createHole base size =>
    size ≠ 0 → freeList = 0 → ∀ entry ∈ entries,
      ¬ (entry.rangeBegin.toNat < base.toNat / 4096 * 4096 ∧
        (base.toNat + size.toNat + 4095) / 4096 * 4096 ≤ entry.rangeEnd.toNat)
  | .updateTag _ _ => True

section Calls

variable {ranges : Memranges} {base size rangeBegin rangeEnd : Address} {tag : Tag}

theorem CoversPages.ends (covers : CoversPages base size rangeBegin rangeEnd) (nonzero : size ≠ 0) :
    rangeBegin.toNat = base.toNat / 4096 * 4096 ∧
      rangeEnd.toNat + 1 = (base.toNat + size.toNat + 4095) / 4096 * 4096 := by
  have positive : 0 < size.toNat :=
    Nat.pos_of_ne_zero fun zero => nonzero (BitVec.eq_of_toNat_eq zero)
  obtain ⟨first, atBegin⟩ := covers.beginAligned
  obtain ⟨last, atEnd⟩ := covers.endAligned
  have nonempty := covers.nonempty
  obtain ⟨lowest, aboveBase, -, lowestPage⟩ := (covers.pages first).mpr ⟨by omega, by omega⟩
  obtain ⟨highest, -, belowEnd, highestPage⟩ := (covers.pages (last - 1)).mpr ⟨by omega, by omega⟩
  have firstPage := (covers.pages (base.toNat / 4096)).mp ⟨base.toNat, le_rfl, by omega, rfl⟩
  have lastPage := (covers.pages ((base.toNat + size.toNat - 1) / 4096)).mp
    ⟨base.toNat + size.toNat - 1, by omega, by omega, rfl⟩
  omega

/-- Where a removal ends: at the end of the range, or with the entry that it
cannot split. -/
structure Cleared (ranges : Memranges) (rangeBegin rangeEnd : Address)
    (upper : Nat) : Prop where
  le : rangeEnd.toNat + 1 ≤ upper
  aligned : 4096 ∣ rangeEnd.toNat + 1 → 4096 ∣ upper
  segments : segments (removeMemranges false ranges rangeBegin rangeEnd).entries =
    erase (segments ranges.entries) rangeBegin.toNat upper
  exact : (ranges.freeList = 0 → ∀ entry ∈ ranges.entries,
    ¬ Splits rangeBegin rangeEnd entry) → upper = rangeEnd.toNat + 1
  lost : ranges.freeList = 0 → ∀ entry ∈ ranges.entries,
    Splits rangeBegin rangeEnd entry → upper = entry.rangeEnd.toNat + 1

theorem removeMemranges_bounded (wellFormed : WellFormed ranges.entries)
    (range : rangeBegin.toNat < rangeEnd.toNat + 1) :
    ∃ upper, Cleared ranges rangeBegin rangeEnd upper := by
  have ordered := ((wellFormed_iff _).mp wellFormed).1
  have single {entry other : RangeEntry} (member : entry ∈ ranges.entries)
      (member' : other ∈ ranges.entries)
      (splits : Splits rangeBegin rangeEnd entry)
      (splits' : Splits rangeBegin rangeEnd other) : entry = other := by
    have lower := BitVec.lt_def.mp splits.1
    have upper := BitVec.lt_def.mp splits.2
    have lower' := BitVec.lt_def.mp splits'.1
    have upper' := BitVec.lt_def.mp splits'.2
    rcases separated_of_mem ordered (mem_segments.mpr ⟨entry, member, rfl⟩)
      (mem_segments.mpr ⟨other, member', rfl⟩) with same | before | after
    · exact toSegment_injective same
    · simp only [toSegment_upper, toSegment_lower] at before
      omega
    · simp only [toSegment_upper, toSegment_lower] at after
      omega
  by_cases room : ranges.freeList ≠ 0 ∨ ∀ entry ∈ ranges.entries, ¬ Splits rangeBegin rangeEnd entry
  · refine ⟨rangeEnd.toNat + 1, le_rfl, id, ?_, fun _ => rfl, fun empty entry member splits => ?_⟩
    · rw [removeMemranges, removeMemrangesFrom_of_room ordered room]
      exact segments_removeMemranges wellFormed range
    · rcases room with some | none
      · exact absurd empty some
      · exact absurd splits (none entry member)
  · push Not at room
    obtain ⟨empty, entry, member, splits⟩ := room
    have same := removeMemrangesFrom_of_splits ordered (BitVec.le_def.mpr (by omega)) member splits
    have inside := BitVec.lt_def.mp splits.2
    refine ⟨entry.rangeEnd.toNat + 1, by omega,
      fun _ => (wellFormed.aligned entry member).2, ?_,
      fun room => absurd splits (room empty entry member),
      fun _ other member' splits' => by
        rw [single member member' splits splits']⟩
    rw [removeMemranges, empty, same, ← empty]
    exact segments_removeMemranges wellFormed (by omega)

section Pages

variable {upper : Nat}

section

variable (cleared : Cleared ranges rangeBegin rangeEnd upper)
include cleared

theorem Cleared.wellFormed
    (wellFormed : WellFormed ranges.entries) (covers : CoversPages base size rangeBegin rangeEnd) :
    WellFormed (removeMemranges false ranges rangeBegin rangeEnd).entries := by
  obtain ⟨ordered, canonical, endpoints⟩ := (wellFormed_iff _).mp wellFormed
  have range : rangeBegin.toNat < upper := covers.nonempty.trans_le cleared.le
  rw [wellFormed_iff, cleared.segments]
  exact ⟨ordered.erase range.le, canonical.erase ordered range,
    endpoints.erase covers.beginAligned (cleared.aligned covers.endAligned)⟩

theorem Cleared.pageTag (covers : CoversPages base size rangeBegin rangeEnd) (page : Nat) :
    pageTag (removeMemranges false ranges rangeBegin rangeEnd).entries page =
      if rangeBegin.toNat ≤ page * 4096 ∧ page * 4096 < upper then none
      else pageTag ranges.entries page := by
  rw [pageTag_eq_valueAt, cleared.segments,
    valueAt_erase _ (covers.nonempty.le.trans cleared.le), ← pageTag_eq_valueAt]

theorem Cleared.mergeAdd (wellFormed : WellFormed ranges.entries)
    (covers : CoversPages base size rangeBegin rangeEnd) (tag : Tag) :
    WellFormed (mergeAddMemranges false ranges rangeBegin rangeEnd tag).entries ∧
      ∀ page, ¬ PageIn base size page →
        Memrange.pageTag (mergeAddMemranges false ranges rangeBegin rangeEnd tag).entries page =
          Memrange.pageTag (removeMemranges false ranges rangeBegin rangeEnd).entries page := by
  have left := cleared.wellFormed wellFormed covers
  obtain ⟨ordered, -, endpoints⟩ := (wellFormed_iff _).mp left
  have avoids : ∀ other ∈ Memrange.segments (removeMemranges false ranges
      rangeBegin rangeEnd).entries, other.upper ≤ rangeBegin.toNat ∨
        rangeEnd.toNat + 1 ≤ other.lower := by
    intro other member
    rw [cleared.segments] at member
    have le := cleared.le
    rcases erase_avoids member with below | above
    · exact .inl below
    · exact .inr (by omega)
  rw [mergeAddMemranges]
  generalize removeMemranges false ranges rangeBegin rangeEnd = removed at *
  obtain ⟨entries, free⟩ := removed
  cases free with
  | zero =>
    rw [addBefore_zero]
    have merged := @segments_mergeNeighborEntries ⟨entries, 0⟩ ordered
    refine ⟨?_, fun page _ => ?_⟩
    · rw [wellFormed_iff, merged]
      exact ⟨ordered.coalesce, coalesce_canonical ordered, endpoints.coalesce⟩
    · rw [pageTag_eq_valueAt, merged, valueAt_coalesce ordered, pageTag_eq_valueAt]
  | succ free =>
    let added : Segment Tag := ⟨rangeBegin.toNat, rangeEnd.toNat + 1, tag⟩
    have placed := segments_addBefore rangeBegin rangeEnd tag (free + 1) entries
    have addedOrdered : Ordered (IntervalMap.insert added (Memrange.segments entries)) :=
      ordered.insert covers.nonempty avoids
    rw [addBefore_succ]
    generalize addBefore true rangeBegin rangeEnd tag (free + 1) entries = result at *
    have merged : Memrange.segments (mergeNeighborEntries
        ⟨result.1, result.2⟩).entries = coalesce (IntervalMap.insert added
          (Memrange.segments entries)) := by
      rw [← show _ = IntervalMap.insert added _ from placed]
      apply segments_mergeNeighborEntries
      change Ordered (Memrange.segments result.1)
      rw [placed]
      exact addedOrdered
    refine ⟨?_, fun page outside => ?_⟩
    · rw [wellFormed_iff, merged]
      exact ⟨addedOrdered.coalesce, coalesce_canonical addedOrdered,
        (endpoints.insert covers.beginAligned covers.endAligned).coalesce⟩
    · rw [pageTag_eq_valueAt, merged, valueAt_coalesce addedOrdered,
        valueAt_insert avoids, if_neg fun inside =>
          outside ((covers.pages page).mpr inside), ← pageTag_eq_valueAt]

/-- A removal keeps the pages outside of its range exactly if no entry has to be
split without a free one. -/
theorem Cleared.keeps_iff
    (wellFormed : WellFormed ranges.entries) (covers : CoversPages base size rangeBegin rangeEnd) :
    (∀ page, ¬ PageIn base size page →
        Memrange.pageTag (removeMemranges false ranges rangeBegin
          rangeEnd).entries page = Memrange.pageTag ranges.entries page) ↔
      (ranges.freeList = 0 → ∀ entry ∈ ranges.entries, ¬ Splits rangeBegin rangeEnd entry) := by
  constructor
  · intro keeps empty entry member splits
    have upperEq := cleared.lost empty entry member splits
    have lower := BitVec.lt_def.mp splits.1
    have inside := BitVec.lt_def.mp splits.2
    have range := covers.nonempty
    obtain ⟨next, atNext⟩ := covers.endAligned
    -- The page behind the range was in the entry, and is lost.
    have outside : ¬ PageIn base size next := by
      rw [covers.pages]
      omega
    have kept := keeps next outside
    rw [cleared.pageTag covers, if_pos (by omega), pageTag_eq_valueAt] at kept
    have contains : entry.toSegment.Contains (next * 4096) :=
      ⟨by rw [toSegment_lower]; omega, by rw [toSegment_upper]; omega⟩
    have before := valueAt_of_mem ((wellFormed_iff _).mp wellFormed).1
      (mem_segments.mpr ⟨entry, member, rfl⟩) contains
    rw [before] at kept
    cases kept
  · intro room page outside
    rw [cleared.pageTag covers, cleared.exact room, if_neg]
    rwa [← covers.pages page]

end

end Pages

theorem splits_iff (covers : CoversPages base size rangeBegin rangeEnd)
    (nonzero : size ≠ 0) (entry : RangeEntry) :
    Splits rangeBegin rangeEnd entry ↔
      entry.rangeBegin.toNat < base.toNat / 4096 * 4096 ∧
        (base.toNat + size.toNat + 4095) / 4096 * 4096 ≤ entry.rangeEnd.toNat := by
  obtain ⟨atBegin, atEnd⟩ := covers.ends nonzero
  rw [Splits, BitVec.lt_def, BitVec.lt_def, atBegin, ← atEnd, Nat.succ_le_iff]

/-- Every call that fits keeps the list well formed, and it keeps the pages that
it has nothing to do with exactly if there is room. -/
theorem performBounded_spec (wellFormed : WellFormed ranges.entries)
    {operation : Operation} (fits : operation.Fits) :
    WellFormed (operation.performBounded ranges).entries ∧
      ((∀ page, operation.Outside ranges.entries page →
          pageTag (operation.performBounded ranges).entries page = pageTag ranges.entries page) ↔
        operation.HasRoom ranges.entries ranges.freeList) := by
  cases operation with
  | insert base size tag =>
    by_cases zero : size = 0
    · have same : memrangesInsert false ranges base size tag = ranges := by
        rw [memrangesInsert, doAction, if_pos zero]
      rw [Operation.performBounded, same]
      exact ⟨wellFormed, iff_of_true (fun _ _ => rfl) fun nonzero => absurd zero nonzero⟩
    · obtain ⟨rangeBegin, rangeEnd, covers, action⟩ := doAction_coversPages zero fits
      obtain ⟨upper, cleared⟩ := removeMemranges_bounded wellFormed covers.nonempty
      obtain ⟨wellFormed', outside⟩ := cleared.mergeAdd wellFormed covers tag
      rw [Operation.performBounded, memrangesInsert, action]
      refine ⟨wellFormed', ?_⟩
      have keeps := cleared.keeps_iff wellFormed covers
      simp only [splits_iff covers zero] at keeps
      rw [Operation.HasRoom, forall_prop_of_true zero, ← keeps]
      refine forall₂_congr fun page away => ?_
      rw [outside page away]
  | createHole base size =>
    by_cases zero : size = 0
    · have same : memrangesCreateHole false ranges base size = ranges := by
        rw [memrangesCreateHole, doAction, if_pos zero]
      rw [Operation.performBounded, same]
      exact ⟨wellFormed, iff_of_true (fun _ _ => rfl) fun nonzero => absurd zero nonzero⟩
    · obtain ⟨rangeBegin, rangeEnd, covers, action⟩ := doAction_coversPages zero fits
      obtain ⟨upper, cleared⟩ := removeMemranges_bounded wellFormed covers.nonempty
      rw [Operation.performBounded, memrangesCreateHole, action]
      refine ⟨cleared.wellFormed wellFormed covers, ?_⟩
      have keeps := cleared.keeps_iff wellFormed covers
      simp only [splits_iff covers zero] at keeps
      rw [Operation.HasRoom, forall_prop_of_true zero]
      exact keeps
  | updateTag oldTag newTag =>
    have ordered := ((wellFormed_iff _).mp wellFormed).1
    refine ⟨(updateTag_represents ⟨wellFormed, fun _ => rfl⟩ oldTag
      newTag).wellFormed, iff_of_true (fun page other => ?_) trivial⟩
    rw [Operation.performBounded, pageTag_memrangesUpdateTag ordered]
    cases stored : pageTag ranges.entries page with
    | none => rfl
    | some tag =>
      rw [Option.map_some, if_neg]
      rintro rfl
      exact other stored

end Calls

end Coreboot.Memrange
