import Coreboot.IntervalMap
import Coreboot.Memrange
import Mathlib.Tactic.Common

/-!
# The memory ranges denote a map from pages to tags

Read with exclusive ends, the entries of a `memranges` are the intervals of an `IntervalMap`.
-/

namespace Coreboot.Memrange

open WordAlignment IntervalMap

variable {address bound : Address}

theorem toNat_succ (below : address.toNat < bound.toNat) :
    (address + 1).toNat = address.toNat + 1 := by
  have limit := bound.isLt
  rw [BitVec.toNat_add, show (1 : Address).toNat = 1 from rfl]
  exact Nat.mod_eq_of_lt (by omega)

theorem toNat_pred (above : bound.toNat < address.toNat) :
    (address - 1).toNat + 1 = address.toNat := by
  have limit := address.isLt
  rw [BitVec.toNat_sub, show (1 : Address).toNat = 1 from rfl]
  omega

/-- An entry as a half-open interval of addresses. -/
def RangeEntry.toSegment (entry : RangeEntry) : Segment Tag :=
  ⟨entry.rangeBegin.toNat, entry.rangeEnd.toNat + 1, entry.tag⟩

def segments (entries : List RangeEntry) : List (Segment Tag) := entries.map RangeEntry.toSegment

@[simp]
theorem segments_nil : segments [] = [] := rfl

@[simp]
theorem segments_cons (entry : RangeEntry) (rest : List RangeEntry) :
    segments (entry :: rest) = entry.toSegment :: segments rest :=
  rfl

@[simp]
theorem toSegment_lower (entry : RangeEntry) : entry.toSegment.lower = entry.rangeBegin.toNat := rfl

@[simp]
theorem toSegment_upper (entry : RangeEntry) : entry.toSegment.upper = entry.rangeEnd.toNat + 1 :=
  rfl

variable {entries : List RangeEntry}

theorem mem_segments {segment : Segment Tag} :
    segment ∈ segments entries ↔ ∃ entry ∈ entries, entry.toSegment = segment :=
  List.mem_map

variable {rest : List RangeEntry}

theorem ordered_cons_entries {entry : RangeEntry} (ordered : Ordered (segments (entry :: rest))) :
    entry.rangeBegin.toNat ≤ entry.rangeEnd.toNat ∧
      (∀ other ∈ rest, entry.rangeEnd.toNat < other.rangeBegin.toNat) ∧
      Ordered (segments rest) := by
  obtain ⟨nonempty, after, restOrdered⟩ := Ordered.cons_iff.mp ordered
  refine ⟨Nat.lt_succ_iff.mp nonempty, ?_, restOrdered⟩
  intro other member
  exact Nat.lt_of_succ_le (after other.toSegment (List.mem_map_of_mem member))

theorem segments_mergeNeighborEntriesFrom {previous : RangeEntry}
    (free : Nat) (ordered : Ordered (segments (previous :: rest))) :
    segments (mergeNeighborEntriesFrom previous free rest).1 =
      coalesceFrom previous.toSegment (segments rest) := by
  induction rest generalizing previous free with
  | nil => rfl
  | cons current rest ih =>
    obtain ⟨-, after, restOrdered⟩ := ordered_cons_entries ordered
    have before := after current (by simp)
    -- A later entry exists, so the end of this one can be incremented.
    have touches : previous.rangeEnd + 1 ≥ current.rangeBegin ↔
        current.rangeBegin.toNat ≤ previous.rangeEnd.toNat + 1 := by
      rw [ge_iff_le, BitVec.le_def, toNat_succ before]
    unfold mergeNeighborEntriesFrom
    rw [segments_cons, coalesceFrom]
    by_cases joined : previous.rangeEnd + 1 ≥ current.rangeBegin ∧ previous.tag = current.tag
    · rw [if_pos joined, if_pos ⟨touches.mp joined.1, joined.2⟩]
      exact ih (free + 1) (Ordered.join ordered)
    · rw [if_neg joined, if_neg (by
        rintro ⟨touch, same⟩
        exact joined ⟨touches.mpr touch, same⟩)]
      exact congrArg (previous.toSegment :: ·) (ih free restOrdered)

theorem segments_mergeNeighborEntries {ranges : Memranges}
    (ordered : Ordered (segments ranges.entries)) :
    segments (mergeNeighborEntries ranges).entries = coalesce (segments ranges.entries) := by
  obtain ⟨entries, free⟩ := ranges
  cases entries with
  | nil => rfl
  | cons first rest => exact segments_mergeNeighborEntriesFrom free ordered

theorem rangeListAdd_ramstage (free : Nat) (rangeBegin rangeEnd : Address)
    (tag : Tag) (tail : List RangeEntry) :
    (rangeListAdd true free rangeBegin rangeEnd tag tail).1 =
      ⟨rangeBegin, rangeEnd, tag⟩ :: tail := by
  cases free <;> rfl

variable {rangeBegin rangeEnd : Address}

/-- The walk removes `[lower, rangeEnd]` where `rangeBegin` is the current
value of the moving lower end: on every entry still to be visited it has the
same effect as `lower`. -/
theorem segments_removeMemrangesFrom {lower : Nat} (free : Nat)
    (ordered : Ordered (segments entries))
    (range : lower ≤ rangeEnd.toNat + 1) (agrees : ∀ entry ∈ entries,
      max rangeBegin.toNat entry.rangeBegin.toNat = max lower entry.rangeBegin.toNat) :
    segments (removeMemrangesFrom true rangeBegin rangeEnd free entries).1 =
      erase (segments entries) lower (rangeEnd.toNat + 1) := by
  induction entries generalizing rangeBegin free with
  | nil => rfl
  | cons current next ih =>
    obtain ⟨nonempty, after, nextOrdered⟩ := ordered_cons_entries ordered
    have clipped := agrees current (by simp)
    have agreesNext : ∀ entry ∈ next,
        max rangeBegin.toNat entry.rangeBegin.toNat = max lower entry.rangeBegin.toNat :=
      fun entry member => agrees entry (by simp [member])
    have endBound := current.rangeEnd.isLt
    unfold removeMemrangesFrom
    simp only [BitVec.lt_def, BitVec.le_def, gt_iff_lt, ge_iff_le]
    by_cases unaffected : rangeEnd.toNat < current.rangeBegin.toNat
    · rw [if_pos unaffected]
      refine (erase_of_before ordered range ?_).symm
      intro segment member
      obtain ⟨entry, entryMem, rfl⟩ := mem_segments.mp member
      rcases List.mem_cons.mp entryMem with rfl | entryMem
      · exact unaffected
      · have := after entry entryMem
        simp only [toSegment_lower]
        omega
    have peeled : erase (segments (current :: next)) lower
        (rangeEnd.toNat + 1) =
          current.toSegment.minus lower (rangeEnd.toNat + 1) ++
            erase (segments next) lower (rangeEnd.toNat + 1) :=
      erase_cons _ _ _ _
    rw [if_neg unaffected, peeled]
    by_cases startsAfter : current.rangeEnd.toNat < rangeBegin.toNat
    · rw [if_pos startsAfter]
      have same : rangeBegin.toNat = lower := by omega
      rw [Segment.minus_of_disjoint (Nat.lt_succ_of_le nonempty) range
        (Or.inr (by simp only [toSegment_upper]; omega))]
      exact congrArg (current.toSegment :: ·) (ih free nextOrdered agreesNext)
    rw [if_neg startsAfter]
    by_cases full : rangeBegin.toNat ≤ current.rangeBegin.toNat ∧
        current.rangeEnd.toNat ≤ rangeEnd.toNat
    · rw [if_pos full, Segment.minus_of_covered
        (by simp only [toSegment_lower]; omega)
        (by simp only [toSegment_upper]; omega), List.nil_append]
      refine ih (free + 1) nextOrdered ?_
      -- The moving end is behind the freed entry, hence below the rest.
      intro entry member
      have behind := after entry member
      rw [toNat_succ behind]
      omega
    rw [if_neg full]
    by_cases atBegin : rangeBegin.toNat ≤ current.rangeBegin.toNat
    · -- Removal at beginning: only the end of the entry is left.
      have endsInside : rangeEnd.toNat < current.rangeEnd.toNat := by omega
      rw [Segment.minus_of_front
        (by simp only [toSegment_lower]; omega)
        (by simp only [toSegment_lower]; omega)
        (by simp only [toSegment_upper]; omega)]
      have notEnd : rangeEnd ≠ current.rangeEnd := by
        rintro rfl
        omega
      simp only [if_pos atBegin, if_neg (not_lt.mpr endsInside.le),
        lt_irrefl, false_and, if_false, if_true, if_neg notEnd]
      have front : (⟨rangeEnd + 1, current.rangeEnd, current.tag⟩ :
          RangeEntry).toSegment = ⟨rangeEnd.toNat + 1,
            current.rangeEnd.toNat + 1, current.tag⟩ := by
        rw [RangeEntry.toSegment, toNat_succ endsInside]
      refine congrArg₂ (· :: ·) front (ih free nextOrdered ?_)
      intro entry member
      have behind := after entry member
      omega
    have same : rangeBegin.toNat = lower := by omega
    have back : (⟨current.rangeBegin, rangeBegin - 1, current.tag⟩ :
        RangeEntry).toSegment = ⟨current.rangeBegin.toNat, lower, current.tag⟩ := by
      rw [RangeEntry.toSegment, toNat_pred (not_le.mp atBegin), same]
    by_cases endsInside : rangeEnd.toNat < current.rangeEnd.toNat
    · -- Hole punched in middle of entry.
      rw [Segment.minus_of_middle
        (by simp only [toSegment_lower]; omega) range
        (by simp only [toSegment_upper]; omega)]
      simp only [if_neg atBegin, if_neg (not_lt.mpr endsInside.le),
        if_pos (And.intro (not_le.mp atBegin) endsInside), rangeListAdd_ramstage, segments_cons]
      have rest : erase (segments next) lower (rangeEnd.toNat + 1) = segments next := by
        refine erase_of_before nextOrdered range ?_
        intro segment member
        obtain ⟨entry, entryMem, rfl⟩ := mem_segments.mp member
        have behind := after entry entryMem
        simp only [toSegment_lower]
        omega
      rw [back, rest, RangeEntry.toSegment, toNat_succ endsInside]
      rfl
    · -- Removal at end.
      rw [Segment.minus_of_back
        (by simp only [toSegment_lower]; omega)
        (by simp only [toSegment_upper]; omega)
        (by simp only [toSegment_upper]; omega)
        (Nat.lt_succ_of_le nonempty)]
      have tmpEnd : (if current.rangeEnd.toNat < rangeEnd.toNat then
          current.rangeEnd else rangeEnd) = current.rangeEnd := by
        split
        · rfl
        · exact BitVec.eq_of_toNat_eq (by omega)
      have notBegin : rangeBegin ≠ current.rangeBegin := by
        rintro rfl
        exact atBegin le_rfl
      simp only [if_neg atBegin, tmpEnd, lt_irrefl, and_false, if_false, if_neg notBegin, if_true]
      exact congrArg₂ (· :: ·) back (ih free nextOrdered agreesNext)

theorem segments_addBefore (rangeBegin rangeEnd : Address) (tag : Tag)
    (free : Nat) (entries : List RangeEntry) :
    segments (addBefore true rangeBegin rangeEnd tag free entries).1 =
      IntervalMap.insert ⟨rangeBegin.toNat, rangeEnd.toNat + 1, tag⟩ (segments entries) := by
  induction entries generalizing free with
  | nil =>
    rw [addBefore, rangeListAdd_ramstage]
    rfl
  | cons current next ih =>
    let added : Segment Tag := ⟨rangeBegin.toNat, rangeEnd.toNat + 1, tag⟩
    change _ = IntervalMap.insert added (current.toSegment :: segments next)
    unfold addBefore IntervalMap.insert
    by_cases before : added.upper ≤ current.toSegment.lower
    · rw [if_pos before, if_pos (BitVec.lt_def.mpr (Nat.lt_of_succ_le before)),
        rangeListAdd_ramstage]
      rfl
    · rw [if_neg before, if_neg fun reached =>
        before (Nat.succ_le_of_lt (BitVec.lt_def.mp reached))]
      exact congrArg (current.toSegment :: ·) (ih free)

/-- What a reader of the list may rely on. -/
structure WellFormed (entries : List RangeEntry) : Prop where
  sorted : entries.Pairwise fun first second =>
    first.rangeEnd < second.rangeBegin
  nonempty : ∀ entry ∈ entries, entry.rangeBegin ≤ entry.rangeEnd
  aligned : ∀ entry ∈ entries, 4096 ∣ entry.rangeBegin.toNat ∧ 4096 ∣ entry.rangeEnd.toNat + 1
  merged : entries.Pairwise fun first second =>
    first.rangeEnd.toNat + 1 = second.rangeBegin.toNat → first.tag ≠ second.tag

theorem wellFormed_iff (entries : List RangeEntry) :
    WellFormed entries ↔
      Ordered (segments entries) ∧ Canonical (segments entries) ∧
        Endpoints (4096 ∣ ·) (segments entries) := by
  have pairs (relation : Segment Tag → Segment Tag → Prop) :
      (segments entries).Pairwise relation ↔
        entries.Pairwise fun first second =>
          relation first.toSegment second.toSegment :=
    List.pairwise_map
  constructor
  · rintro ⟨sorted, nonempty, aligned, merged⟩
    refine ⟨⟨?_, (pairs _).mpr ?_⟩, (pairs _).mpr merged, ?_⟩
    · intro segment member
      obtain ⟨entry, entryMem, rfl⟩ := mem_segments.mp member
      exact Nat.lt_succ_of_le (BitVec.le_def.mp (nonempty entry entryMem))
    · exact sorted.imp fun before =>
        Nat.succ_le_of_lt (BitVec.lt_def.mp before)
    · intro segment member
      obtain ⟨entry, entryMem, rfl⟩ := mem_segments.mp member
      exact aligned entry entryMem
  · rintro ⟨ordered, canonical, endpoints⟩
    refine ⟨((pairs _).mp ordered.separated).imp ?_, ?_, ?_, (pairs _).mp canonical⟩
    · intro first second apart
      exact BitVec.lt_def.mpr (Nat.lt_of_succ_le apart)
    · intro entry member
      exact BitVec.le_def.mpr (Nat.le_of_lt_succ
        (ordered.nonempty _ (mem_segments.mpr ⟨entry, member, rfl⟩)))
    · intro entry member
      exact endpoints _ (mem_segments.mpr ⟨entry, member, rfl⟩)

/-- What the ranges stand for: a partial map from page numbers to tags. -/
abbrev PageMap := Nat → Option Tag

def pageTag (entries : List RangeEntry) (page : Nat) : Option Tag :=
  (entries.find? fun entry =>
    decide (entry.rangeBegin.toNat ≤ page * 4096 ∧
      page * 4096 ≤ entry.rangeEnd.toNat)).map RangeEntry.tag

theorem pageTag_eq_valueAt (entries : List RangeEntry) (page : Nat) :
    pageTag entries page = valueAt (segments entries) (page * 4096) := by
  induction entries with
  | nil => rfl
  | cons entry rest ih =>
    rw [segments_cons, valueAt_cons, ← ih, pageTag, List.find?_cons]
    by_cases inside : entry.toSegment.Contains (page * 4096)
    · have found : entry.rangeBegin.toNat ≤ page * 4096 ∧ page * 4096 ≤ entry.rangeEnd.toNat :=
        ⟨inside.1, Nat.le_of_lt_succ inside.2⟩
      rw [if_pos inside, decide_eq_true found]
      rfl
    · have missed : ¬ (entry.rangeBegin.toNat ≤ page * 4096 ∧
          page * 4096 ≤ entry.rangeEnd.toNat) := fun found =>
        inside ⟨found.1, Nat.lt_succ_of_le found.2⟩
      rw [if_neg inside, decide_eq_false missed]
      rfl

/-- The pages that intersect `[base, base + size)`. -/
def PageIn (base size : Address) (page : Nat) : Prop :=
  ∃ address, base.toNat ≤ address ∧ address < base.toNat + size.toNat ∧ address / 4096 = page

/-- A call that changes the ranges. -/
inductive Operation
  | insert (base size : Address) (tag : Tag)
  | createHole (base size : Address)
  | updateTag (oldTag newTag : Tag)

/-- The addressed bytes end inside the address space. -/
def Operation.Fits : Operation → Prop
  | .insert base size _ | .createHole base size =>
    base.toNat + size.toNat ≤ 2 ^ 64
  | .updateTag _ _ => True

/-- Perform the call, where allocating an entry always succeeds. -/
def Operation.perform (ranges : Memranges) : Operation → Memranges
  | .insert base size tag => memrangesInsert true ranges base size tag
  | .createHole base size => memrangesCreateHole true ranges base size
  | .updateTag oldTag newTag => memrangesUpdateTag ranges oldTag newTag

open Classical in
/-- The effect that a call is meant to have on the page map. -/
noncomputable def Operation.apply (pages : PageMap) : Operation → PageMap
  | .insert base size tag =>
    fun page => if PageIn base size page then some tag else pages page
  | .createHole base size =>
    fun page => if PageIn base size page then none else pages page
  | .updateTag oldTag newTag =>
    fun page => (pages page).map fun tag =>
      if tag = oldTag then newTag else tag

/-- The inclusive range covers exactly the pages that intersect
`[base, base + size)`. -/
structure CoversPages (base size rangeBegin rangeEnd : Address) : Prop where
  nonempty : rangeBegin.toNat < rangeEnd.toNat + 1
  beginAligned : 4096 ∣ rangeBegin.toNat
  endAligned : 4096 ∣ rangeEnd.toNat + 1
  pages : ∀ page, PageIn base size page ↔
    rangeBegin.toNat ≤ page * 4096 ∧ page * 4096 < rangeEnd.toNat + 1

variable {base size : Address}

theorem doAction_coversPages (nonzero : size ≠ 0) (fits : base.toNat + size.toNat ≤ 2 ^ 64) :
    ∃ rangeBegin rangeEnd : Address,
      CoversPages base size rangeBegin rangeEnd ∧
      ∀ ranges action, doAction ranges base size action = action ranges rangeBegin rangeEnd := by
  let rangeBegin := alignDown base 12
  let rangeEnd := alignUp (rangeBegin + size + (base - rangeBegin)) 12 - 1
  have positive : 0 < size.toNat :=
    Nat.pos_of_ne_zero fun zero => nonzero (BitVec.eq_of_toNat_eq zero)
  have sum : rangeBegin + size + (base - rangeBegin) = base + size := by
    apply BitVec.eq_of_toNat_eq
    simp only [BitVec.toNat_add, BitVec.toNat_sub]
    omega
  have atBegin : rangeBegin.toNat = base.toNat / 4096 * 4096 := toNat_alignDown base 12
  have atEnd : rangeEnd.toNat + 1 = (base.toNat + size.toNat + 4095) / 4096 * 4096 := by
    change (alignUp (rangeBegin + size + (base - rangeBegin)) 12 - 1).toNat + 1 = _
    rw [sum, BitVec.toNat_sub, toNat_alignUp, BitVec.toNat_add,
      show (1 : Address).toNat = 1 from rfl]
    omega
  refine ⟨rangeBegin, rangeEnd, ⟨by omega, by omega, by omega, ?_⟩, ?_⟩
  · intro page
    rw [atBegin, atEnd]
    constructor
    · rintro ⟨address, above, below, rfl⟩
      omega
    · rintro ⟨above, below⟩
      exact ⟨max base.toNat (page * 4096), by omega, by omega, by omega⟩
  · intro ranges action
    rw [doAction, if_neg nonzero]

theorem not_pageIn_zero (base : Address) (page : Nat) : ¬ PageIn base 0 page := by
  rintro ⟨address, above, below, -⟩
  exact absurd below (not_lt.mpr above)

structure Represents (ranges : Memranges) (pages : PageMap) : Prop where
  wellFormed : WellFormed ranges.entries
  pageTag_eq : ∀ page, pageTag ranges.entries page = pages page

variable {ranges : Memranges} {pages : PageMap}

theorem segments_removeMemranges (wellFormed : WellFormed ranges.entries)
    (range : rangeBegin.toNat < rangeEnd.toNat + 1) :
    segments (removeMemranges true ranges rangeBegin rangeEnd).entries =
      erase (segments ranges.entries) rangeBegin.toNat (rangeEnd.toNat + 1) :=
  segments_removeMemrangesFrom ranges.freeList
    ((wellFormed_iff _).mp wellFormed).1 range.le fun _ _ => rfl

theorem createHole_represents (represents : Represents ranges pages)
    (fits : base.toNat + size.toNat ≤ 2 ^ 64) :
    Represents (memrangesCreateHole true ranges base size)
      ((Operation.createHole base size).apply pages) := by
  obtain ⟨wellFormed, denotes⟩ := represents
  by_cases zero : size = 0
  · subst zero
    exact ⟨wellFormed, fun page => by
      simp only [Operation.apply, if_neg (not_pageIn_zero base page)]
      exact denotes page⟩
  obtain ⟨rangeBegin, rangeEnd, covers, action⟩ := doAction_coversPages zero fits
  obtain ⟨ordered, canonical, endpoints⟩ := (wellFormed_iff _).mp wellFormed
  have removed := segments_removeMemranges wellFormed covers.nonempty
  rw [memrangesCreateHole, action]
  constructor
  · rw [wellFormed_iff, removed]
    exact ⟨ordered.erase covers.nonempty.le, canonical.erase ordered covers.nonempty,
      endpoints.erase covers.beginAligned covers.endAligned⟩
  · intro page
    rw [pageTag_eq_valueAt, removed, valueAt_erase _ covers.nonempty.le,
      ← pageTag_eq_valueAt, denotes]
    simp only [Operation.apply, covers.pages page]

theorem insert_represents {ranges : Memranges} {pages : PageMap}
    (represents : Represents ranges pages) {tag : Tag}
    (fits : base.toNat + size.toNat ≤ 2 ^ 64) :
    Represents (memrangesInsert true ranges base size tag)
      ((Operation.insert base size tag).apply pages) := by
  obtain ⟨wellFormed, denotes⟩ := represents
  by_cases zero : size = 0
  · subst zero
    exact ⟨wellFormed, fun page => by
      simp only [Operation.apply, if_neg (not_pageIn_zero base page)]
      exact denotes page⟩
  obtain ⟨rangeBegin, rangeEnd, covers, action⟩ := doAction_coversPages zero fits
  obtain ⟨ordered, -, endpoints⟩ := (wellFormed_iff _).mp wellFormed
  let added : Segment Tag := ⟨rangeBegin.toNat, rangeEnd.toNat + 1, tag⟩
  let left := erase (segments ranges.entries) added.lower added.upper
  have leftOrdered : Ordered left := ordered.erase covers.nonempty.le
  have addedOrdered : Ordered (IntervalMap.insert added left) :=
    leftOrdered.insert covers.nonempty fun _ member => erase_avoids member
  have inserted : segments (mergeAddMemranges true ranges rangeBegin rangeEnd
      tag).entries = coalesce (IntervalMap.insert added left) := by
    have placed := segments_addBefore rangeBegin rangeEnd tag
      (removeMemranges true ranges rangeBegin rangeEnd).freeList
      (removeMemranges true ranges rangeBegin rangeEnd).entries
    rw [segments_removeMemranges wellFormed covers.nonempty] at placed
    rw [← show _ = IntervalMap.insert added left from placed]
    apply segments_mergeNeighborEntries
    change Ordered (segments (addBefore _ _ _ _ _ _).1)
    rw [placed]
    exact addedOrdered
  rw [memrangesInsert, action]
  constructor
  · rw [wellFormed_iff, inserted]
    exact ⟨addedOrdered.coalesce, coalesce_canonical addedOrdered,
      ((endpoints.erase covers.beginAligned covers.endAligned).insert
        covers.beginAligned covers.endAligned).coalesce⟩
  · intro page
    rw [pageTag_eq_valueAt, inserted, valueAt_coalesce addedOrdered,
      valueAt_insert fun _ member => erase_avoids member,
      valueAt_erase _ covers.nonempty.le, ← pageTag_eq_valueAt, denotes]
    have contains : added.Contains (page * 4096) ↔ PageIn base size page := (covers.pages page).symm
    by_cases inside : PageIn base size page
    · rw [if_pos (contains.mpr inside)]
      exact (if_pos inside).symm
    · have outside := fun contained => inside (contains.mp contained)
      rw [if_neg outside, if_neg outside]
      exact (if_neg inside).symm

theorem segments_memrangesUpdateTag
    (ordered : Ordered (segments ranges.entries)) (oldTag newTag : Tag) :
    segments (memrangesUpdateTag ranges oldTag newTag).entries =
      coalesce (mapValues (fun tag => if tag = oldTag then newTag else tag)
        (segments ranges.entries)) := by
  have renamed : segments (ranges.entries.map fun entry =>
      if entry.tag = oldTag then { entry with tag := newTag } else entry) =
        mapValues (fun tag => if tag = oldTag then newTag else tag) (segments ranges.entries) := by
    rw [segments, segments, mapValues, List.map_map, List.map_map]
    apply List.map_congr_left
    intro entry _
    by_cases same : entry.tag = oldTag <;> simp [same, RangeEntry.toSegment]
  rw [← renamed]
  apply segments_mergeNeighborEntries
  change Ordered (segments (ranges.entries.map _))
  rw [renamed]
  exact ordered.mapValues _

theorem pageTag_memrangesUpdateTag (ordered : Ordered (segments ranges.entries))
    (oldTag newTag : Tag) (page : Nat) :
    pageTag (memrangesUpdateTag ranges oldTag newTag).entries page =
      (pageTag ranges.entries page).map fun tag =>
        if tag = oldTag then newTag else tag := by
  rw [pageTag_eq_valueAt, segments_memrangesUpdateTag ordered,
    valueAt_coalesce (ordered.mapValues _), valueAt_mapValues, ← pageTag_eq_valueAt]

theorem updateTag_represents (represents : Represents ranges pages) (oldTag newTag : Tag) :
    Represents (memrangesUpdateTag ranges oldTag newTag)
      ((Operation.updateTag oldTag newTag).apply pages) := by
  obtain ⟨wellFormed, denotes⟩ := represents
  obtain ⟨ordered, -, endpoints⟩ := (wellFormed_iff _).mp wellFormed
  constructor
  · rw [wellFormed_iff, segments_memrangesUpdateTag ordered]
    exact ⟨(ordered.mapValues _).coalesce, coalesce_canonical (ordered.mapValues _),
      (endpoints.mapValues _).coalesce⟩
  · intro page
    rw [pageTag_memrangesUpdateTag ordered, denotes]
    rfl

theorem perform_represents (represents : Represents ranges pages) {operation : Operation}
    (fits : operation.Fits) : Represents (operation.perform ranges) (operation.apply pages) := by
  cases operation with
  | insert base size tag => exact insert_represents represents fits
  | createHole base size => exact createHole_represents represents fits
  | updateTag oldTag newTag => exact updateTag_represents represents _ _

theorem represents_empty (numFree : Nat) : Represents (memrangesInitEmpty numFree) fun _ => none :=
  ⟨(wellFormed_iff _).mpr ⟨Ordered.nil, List.Pairwise.nil, by
    intro segment member
    simp [memrangesInitEmpty] at member⟩, fun _ => rfl⟩

/-- From an empty `memranges`, any sequence of calls leaves a well-formed list
that denotes the page map obtained by the same sequence of abstract effects. -/
theorem memranges_run_refines_pageMap (numFree : Nat) (operations : List Operation)
    (fits : ∀ operation ∈ operations, operation.Fits) :
    WellFormed (operations.foldl Operation.perform (memrangesInitEmpty numFree)).entries ∧
      ∀ page, pageTag (operations.foldl Operation.perform
          (memrangesInitEmpty numFree)).entries page =
        operations.foldl Operation.apply (fun _ => none) page := by
  have represents : Represents
      (operations.foldl Operation.perform (memrangesInitEmpty numFree))
      (operations.foldl Operation.apply fun _ => none) :=
    List.foldl_rel (represents_empty numFree)
      fun operation member _ _ before =>
        perform_represents before (fits operation member)
  exact ⟨represents.wellFormed, represents.pageTag_eq⟩

/-- A run that splits an entry and covers the last page of the address
space. -/
theorem memranges_run_refines_pageMap_topOfMemory :
    let operations : List Operation :=
      [.insert 0x1000 0x4000 6, .createHole 0x2800 1,
        .insert 0xfffffffffffff000 0x1000 0, .updateTag 0 6]
    WellFormed (operations.foldl Operation.perform (memrangesInitEmpty 0)).entries ∧
      ∀ page, pageTag (operations.foldl Operation.perform (memrangesInitEmpty 0)).entries page =
        operations.foldl Operation.apply (fun _ => none) page :=
  memranges_run_refines_pageMap 0 _ (by simp [Operation.Fits])

end Coreboot.Memrange
