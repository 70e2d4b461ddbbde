import Coreboot.MtrrAgreement
import Coreboot.MtrrMatching

/-!
# Soundness of the MTRR solution

The registers of one entry give its pages the type of the entry.
-/

namespace Coreboot.Mtrr

open Memrange WordAlignment

def basePage (r : RangeEntry) : Nat := (rangeEntryBaseMtrrAddr r).toNat

def endPage (r : RangeEntry) : Nat := (rangeEntryEndMtrrAddr r).toNat

/-- A nonempty entry in a space of `2 ^ space` pages that can be rounded up to
64 MiB. -/
structure EntryFits (space : Nat) (r : RangeEntry) : Prop where
  nonempty : basePage r < endPage r
  below : endPage r ≤ 2 ^ 32 - 2 ^ 14
  inSpace : endPage r ≤ 2 ^ space

theorem rangeEntryMtrrType_lt (r : RangeEntry) : (rangeEntryMtrrType r).toNat < 2 ^ 8 := by
  rw [rangeEntryMtrrType, BitVec.toNat_and]
  exact lt_of_le_of_lt Nat.and_le_right (by decide)

/-- The pages that the solver looks at: those of the fixed MTRRs are left out,
and without the large address space those above 4 GiB. -/
def Served (above4gb : Bool) (page : Nat) : Prop := 0x100 ≤ page ∧ (above4gb = true ∨ page < 2 ^ 20)

variable {space page : Nat} {a1 a2 : RangeAddr} {r : RangeEntry}
  {above4gb : Bool} {entries : List RangeEntry}

/-- The calls for the parts of a range before, between and after the 64 MiB
boundaries cover the range. -/
theorem assigns_splitCalls {c2 : RangeAddr} (ordered : a1 ≤ c2) (below : c2.toNat ≤ 2 ^ 32 - 2 ^ 14)
    (inSpace : c2.toNat ≤ 2 ^ space) {mtrrType : Tag} (isType : mtrrType.toNat < 2 ^ 8) :
    let calls : List RangeCall :=
      if c2 - a1 < mtrrMinAlign then [⟨a1, c2 - a1, mtrrType⟩]
      else
        [⟨a1, alignUp a1 mtrrMinAlignShift - a1, mtrrType⟩,
          ⟨alignUp a1 mtrrMinAlignShift,
            alignDown c2 mtrrMinAlignShift - alignUp a1 mtrrMinAlignShift,
            mtrrType⟩,
          ⟨alignDown c2 mtrrMinAlignShift, c2 - alignDown c2 mtrrMinAlignShift, mtrrType⟩]
    (∀ call ∈ calls, call.Fits space) ∧ ∀ page other,
      Assigns calls page other ↔ (a1.toNat ≤ page ∧ page < c2.toNat) ∧ mtrrType = other := by
  intro calls
  have order := BitVec.le_def.mp ordered
  have size : (c2 - a1).toNat = c2.toNat - a1.toNat := BitVec.toNat_sub_of_le ordered
  have align : mtrrMinAlign.toNat = 16384 := by decide
  have atUp : (alignUp a1 mtrrMinAlignShift).toNat =
      (a1.toNat + 16383) % 2 ^ 32 / 16384 * 16384 := toNat_alignUp a1 14
  have atDown : (alignDown c2 mtrrMinAlignShift).toNat =
      c2.toNat / 16384 * 16384 := toNat_alignDown c2 14
  by_cases small : c2 - a1 < mtrrMinAlign
  · have one : calls = [⟨a1, c2 - a1, mtrrType⟩] := if_pos small
    rw [one]
    constructor
    · simp only [List.forall_mem_cons, List.not_mem_nil, false_implies, implies_true, and_true]
      refine ⟨?_, ?_, isType⟩ <;> simp only [size] <;> omega
    · intro page other
      simp only [assigns_cons, assigns_nil, or_false, RangeCall.Covers, size]
      rw [show a1.toNat + (c2.toNat - a1.toNat) = c2.toNat by omega]
  · have three : calls = _ := if_neg small
    have large := BitVec.not_lt.mp small
    rw [BitVec.le_def, align, size] at large
    have first : (alignUp a1 mtrrMinAlignShift - a1).toNat =
        (alignUp a1 mtrrMinAlignShift).toNat - a1.toNat :=
      BitVec.toNat_sub_of_le (BitVec.le_def.mpr (by omega))
    have middle : (alignDown c2 mtrrMinAlignShift -
        alignUp a1 mtrrMinAlignShift).toNat =
          (alignDown c2 mtrrMinAlignShift).toNat - (alignUp a1 mtrrMinAlignShift).toNat :=
      BitVec.toNat_sub_of_le (BitVec.le_def.mpr (by omega))
    have last : (c2 - alignDown c2 mtrrMinAlignShift).toNat =
        c2.toNat - (alignDown c2 mtrrMinAlignShift).toNat :=
      BitVec.toNat_sub_of_le (BitVec.le_def.mpr (by omega))
    rw [three]
    constructor
    · simp only [List.forall_mem_cons, List.not_mem_nil, false_implies, implies_true, and_true]
      refine ⟨⟨?_, ?_, isType⟩, ⟨?_, ?_, isType⟩, ⟨?_, ?_, isType⟩⟩ <;>
        simp only [first, middle, last] <;> omega
    · intro page other
      simp only [assigns_cons, assigns_nil, or_false, RangeCall.Covers, first,
        middle, last, ← or_and_right]
      apply and_congr_left
      intro
      omega

/-- The base that the solver works with: a range that begins below 1 MiB is
extended to address zero. -/
theorem toNat_extendedBase (r : RangeEntry) :
    (if rangeEntryBaseMtrrAddr r ≤ range1MB then 0
      else rangeEntryBaseMtrrAddr r).toNat =
      if basePage r ≤ 0x100 then 0 else basePage r := by
  have low : rangeEntryBaseMtrrAddr r ≤ range1MB ↔ basePage r ≤ 0x100 := BitVec.le_def
  by_cases extended : basePage r ≤ 0x100
  · rw [if_pos extended, if_pos (low.mpr extended)]
    rfl
  · rw [if_neg extended, if_neg fun below => extended (low.mp below)]
    rfl

theorem toNat_clampedEnd (above4gb : Bool) (r : RangeEntry) :
    (if !above4gb ∧ rangeEntryEndMtrrAddr r > range4GB then range4GB
      else rangeEntryEndMtrrAddr r).toNat =
      if above4gb then endPage r else min (endPage r) (2 ^ 20) := by
  have high : rangeEntryEndMtrrAddr r > range4GB ↔ 2 ^ 20 < endPage r := BitVec.lt_def
  have limit : range4GB.toNat = 2 ^ 20 := by decide
  cases above4gb with
  | true => rfl
  | false =>
    by_cases clamped : 2 ^ 20 < endPage r
    · rw [if_pos ⟨rfl, high.mpr clamped⟩, limit]
      exact (min_eq_right clamped.le).symm
    · rw [if_neg fun above => clamped (high.mp above.2)]
      exact (min_eq_left (not_lt.mp clamped)).symm

/-- The range `[a1, a2)` agrees with the entry on the served pages. -/
structure AgreesOnServed (space : Nat) (above4gb : Bool) (r : RangeEntry)
    (a1 a2 : RangeAddr) : Prop where
  ordered : a1.toNat < a2.toNat
  below : a2.toNat ≤ 2 ^ 32 - 2 ^ 14
  inSpace : a2.toNat ≤ 2 ^ space
  base : ∀ page, Served above4gb page → (a1.toNat ≤ page ↔ basePage r ≤ page)
  inside : ∀ page, Served above4gb page → (page < a2.toNat ↔ page < endPage r)

theorem agreesOnServed (fits : EntryFits space r) (above4gb : Bool)
    (base : a1.toNat = if basePage r ≤ 0x100 then 0 else basePage r)
    (clamped : a2.toNat = if above4gb then endPage r else min (endPage r) (2 ^ 20))
    (reached : ¬ rangeEntryEndMtrrAddr r ≤ range1MB) (served : ¬ (!above4gb ∧ a1 ≥ range4GB)) :
    AgreesOnServed space above4gb r a1 a2 := by
  obtain ⟨nonempty, below, inSpace⟩ := fits
  have high : 0x100 < endPage r := BitVec.lt_def.mp (BitVec.not_le.mp reached)
  have a1Low (page : Nat) (atLeast : 0x100 ≤ page) : a1.toNat ≤ page ↔ basePage r ≤ page := by
    split_ifs at base <;> omega
  have a1Le : a1.toNat ≤ basePage r := by
    split_ifs at base <;> omega
  cases above4gb with
  | true =>
    simp only [if_true] at clamped
    exact ⟨by omega, by omega, by omega,
      fun page inReach => a1Low page inReach.1,
      fun page _ => by rw [clamped]⟩
  | false =>
    have near : a1.toNat < 2 ^ 20 := by
      by_contra far
      exact served ⟨rfl, BitVec.le_def.mpr (not_lt.mp far)⟩
    simp only [Bool.false_eq_true, if_false] at clamped
    refine ⟨by omega, by omega, by omega,
      fun page inReach => a1Low page inReach.1, fun page inReach => ?_⟩
    have low : page < 2 ^ 20 := inReach.2.resolve_left (by decide)
    omega

theorem not_served (base : a1.toNat = if basePage r ≤ 0x100 then 0 else basePage r)
    (skipped : rangeEntryEndMtrrAddr r ≤ range1MB ∨ (!above4gb ∧ a1 ≥ range4GB))
    (served : Served above4gb page) : ¬ (basePage r ≤ page ∧ page < endPage r) := by
  obtain ⟨reached, near⟩ := served
  rcases skipped with fixed | ⟨notAbove, far⟩
  · have low : endPage r ≤ 0x100 := BitVec.le_def.mp fixed
    omega
  · have far : 2 ^ 20 ≤ a1.toNat := BitVec.le_def.mp far
    rcases near with above | near
    · simp [above] at notAbove
    · split_ifs at base <;> omega

theorem assigns_withoutHoleCalls (fits : EntryFits space r) (above4gb : Bool) :
    (∀ call ∈ withoutHoleCalls above4gb r, call.Fits space) ∧
      ∀ page, Served above4gb page → ∀ mtrrType,
        Assigns (withoutHoleCalls above4gb r) page mtrrType ↔
          (basePage r ≤ page ∧ page < endPage r) ∧ rangeEntryMtrrType r = mtrrType := by
  have base := toNat_extendedBase r
  have clamped := toNat_clampedEnd above4gb r
  unfold withoutHoleCalls
  simp only
  generalize (if rangeEntryBaseMtrrAddr r ≤ range1MB then 0
    else rangeEntryBaseMtrrAddr r) = a1 at base ⊢
  generalize (if !above4gb ∧ rangeEntryEndMtrrAddr r > range4GB then range4GB
    else rangeEntryEndMtrrAddr r) = c2 at clamped ⊢
  split
  · rename_i fixed
    refine ⟨List.forall_mem_nil _, ?_⟩
    exact fun page served mtrrType => iff_of_false (assigns_nil _ _)
      fun contained => not_served base (Or.inl fixed) served contained.1
  rename_i reached
  split
  · rename_i ignored
    refine ⟨List.forall_mem_nil _, ?_⟩
    exact fun page served mtrrType => iff_of_false (assigns_nil _ _)
      fun contained => not_served base (Or.inr ignored) served contained.1
  rename_i inReach
  have agrees := agreesOnServed fits above4gb base clamped reached inReach
  obtain ⟨fit, assigns⟩ := assigns_splitCalls
    (BitVec.le_def.mpr agrees.ordered.le) agrees.below agrees.inSpace
    (rangeEntryMtrrType_lt r)
  refine ⟨fit, fun page served mtrrType => ?_⟩
  rw [assigns, agrees.base page served, agrees.inside page served]

/-- What the calls for an entry may do: its pages get its type, and the pages
after it are touched only inside an uncacheable following range, with a hole on
top, or behind the last range. -/
structure Footprint (r : RangeEntry) (next : Option RangeEntry)
    (page : Nat) (calls : List RangeCall) : Prop where
  covers : basePage r ≤ page → page < endPage r → Assigns calls page (rangeEntryMtrrType r)
  confined : ∀ mtrrType, Assigns calls page mtrrType → basePage r ≤ page ∧
    (page < endPage r ∧ mtrrType = rangeEntryMtrrType r ∨
      endPage r ≤ page ∧ ∀ following ∈ next,
        rangeEntryMtrrType following = mtrrTypeUncacheable ∧
          page < endPage following ∧ Assigns calls page mtrrTypeUncacheable)

theorem footprint_of_exact {calls : List RangeCall}
    (exactly : ∀ mtrrType, Assigns calls page mtrrType ↔
      (basePage r ≤ page ∧ page < endPage r) ∧
        rangeEntryMtrrType r = mtrrType) (next : Option RangeEntry) :
    Footprint r next page calls where
  covers reached before := (exactly _).mpr ⟨⟨reached, before⟩, rfl⟩
  confined mtrrType assigned := by
    obtain ⟨⟨reached, before⟩, same⟩ := (exactly _).mp assigned
    exact ⟨reached, Or.inl ⟨before, same.symm⟩⟩

theorem footprint_hole {next : Option RangeEntry} {b2 : RangeAddr} (ordered : a1.toNat ≤ a2.toNat)
    (rounded : a2.toNat ≤ b2.toNat) (base : a1.toNat ≤ page ↔ basePage r ≤ page)
    (inside : page < a2.toNat ↔ page < endPage r) (hides : ∀ following ∈ next, page < b2.toNat →
      rangeEntryMtrrType following = mtrrTypeUncacheable ∧ page < endPage following) :
    Footprint r next page
      [⟨a1, b2 - a1, rangeEntryMtrrType r⟩, ⟨a2, b2 - a2, mtrrTypeUncacheable⟩] := by
  have whole : (b2 - a1).toNat = b2.toNat - a1.toNat :=
    BitVec.toNat_sub_of_le (BitVec.le_def.mpr (ordered.trans rounded))
  have excess : (b2 - a2).toNat = b2.toNat - a2.toNat :=
    BitVec.toNat_sub_of_le (BitVec.le_def.mpr rounded)
  constructor
  · intro reached before
    simp only [assigns_cons, RangeCall.Covers, whole]
    left
    have first := base.mpr reached
    have last := inside.mpr before
    exact ⟨⟨first, by omega⟩, trivial⟩
  · intro mtrrType assigned
    simp only [assigns_cons, assigns_nil, or_false, RangeCall.Covers, whole, excess] at assigned
    have inWhole : a1.toNat ≤ page ∧ page < b2.toNat := by omega
    refine ⟨base.mp inWhole.1, ?_⟩
    by_cases before : page < a2.toNat
    · rcases assigned with ⟨-, same⟩ | ⟨overlaid, -⟩
      · exact Or.inl ⟨inside.mp before, same.symm⟩
      · omega
    · refine Or.inr ⟨not_lt.mp fun early => before (inside.mpr early), ?_⟩
      intro following isNext
      obtain ⟨hidden, within⟩ := hides following isNext inWhole.2
      refine ⟨hidden, within, ?_⟩
      simp only [assigns_cons, RangeCall.Covers, excess]
      right
      left
      exact ⟨⟨not_lt.mp before, by omega⟩, trivial⟩

theorem toNat_extended_le (positive : 0 < a1.toNat) (inSpace : a1.toNat < 2 ^ space) :
    ((1#32 <<< fls a1) + a1).toNat ≤ 2 ^ space := by
  have aligned : 2 ^ fls a1 ∣ a1.toNat := (two_pow_dvd_iff_le_fls a1 (fls_le a1)).mpr le_rfl
  have smaller : 2 ^ fls a1 < 2 ^ space := (Nat.le_of_dvd positive aligned).trans_lt inSpace
  have divides : 2 ^ fls a1 ∣ 2 ^ space :=
    pow_dvd_pow 2 ((Nat.pow_lt_pow_iff_right (by decide)).mp smaller).le
  have next : a1.toNat + 2 ^ fls a1 ≤ 2 ^ space := by
    obtain ⟨low, lowEq⟩ := aligned
    obtain ⟨high, highEq⟩ := divides
    rw [lowEq, highEq] at inSpace ⊢
    rw [← Nat.mul_succ]
    exact Nat.mul_le_mul_left _ (lt_of_mul_lt_mul_left' inSpace)
  have power : (1#32 <<< fls a1).toNat ≤ 2 ^ fls a1 := by
    rw [BitVec.toNat_shiftLeft, Nat.shiftLeft_eq]
    exact (Nat.mod_le _ _).trans (by simp)
  rw [BitVec.toNat_add]
  exact (Nat.mod_le _ _).trans (by omega)

theorem footprint_last {b2 : RangeAddr} (ordered : a1.toNat ≤ a2.toNat)
    (extended : a2.toNat ≤ b2.toNat) (base : a1.toNat ≤ page ↔ basePage r ≤ page)
    (inside : page < a2.toNat ↔ page < endPage r) :
    Footprint r none page [⟨a1, b2 - a1, rangeEntryMtrrType r⟩] := by
  have whole : (b2 - a1).toNat = b2.toNat - a1.toNat :=
    BitVec.toNat_sub_of_le (BitVec.le_def.mpr (ordered.trans extended))
  constructor
  · intro reached before
    simp only [assigns_cons, assigns_nil, or_false, RangeCall.Covers, whole]
    have first := base.mpr reached
    have last := inside.mpr before
    exact ⟨⟨first, by omega⟩, trivial⟩
  · intro mtrrType assigned
    simp only [assigns_cons, assigns_nil, or_false, RangeCall.Covers] at assigned
    obtain ⟨⟨reached, -⟩, same⟩ := assigned
    refine ⟨base.mp reached, ?_⟩
    by_cases before : page < endPage r
    · exact Or.inl ⟨before, same.symm⟩
    · exact Or.inr ⟨not_lt.mp before, by simp⟩

section

variable (large : 14 ≤ space)
include large

theorem footprint_withHoleCalls (fits : EntryFits space r) (above4gb : Bool)
    (next : Option RangeEntry) :
    (∀ call ∈ withHoleCalls above4gb mtrrTypeUncacheable r next, call.Fits space) ∧
      ∀ page, Served above4gb page →
        Footprint r next page (withHoleCalls above4gb mtrrTypeUncacheable r next) := by
  have base := toNat_extendedBase r
  have clamped := toNat_clampedEnd above4gb r
  unfold withHoleCalls
  simp only
  generalize (if rangeEntryBaseMtrrAddr r ≤ range1MB then 0
    else rangeEntryBaseMtrrAddr r) = a1 at base ⊢
  generalize (if !above4gb ∧ rangeEntryEndMtrrAddr r > range4GB then range4GB
    else rangeEntryEndMtrrAddr r) = a2 at clamped ⊢
  split
  · rename_i fixed
    refine ⟨List.forall_mem_nil _, ?_⟩
    exact fun page served => footprint_of_exact (fun mtrrType =>
      iff_of_false (assigns_nil _ _) fun contained =>
        not_served base (Or.inl fixed) served contained.1) next
  rename_i reached
  split
  · rename_i ignored
    refine ⟨List.forall_mem_nil _, ?_⟩
    exact fun page served => footprint_of_exact (fun mtrrType =>
      iff_of_false (assigns_nil _ _) fun contained =>
        not_served base (Or.inr ignored) served contained.1) next
  rename_i inReach
  have agrees := agreesOnServed fits above4gb base clamped reached inReach
  have below := agrees.below
  have inSpace := agrees.inSpace
  have ordered := agrees.ordered.le
  have rounded : (alignUp a2 mtrrMinAlignShift).toNat =
      (a2.toNat + 16383) % 2 ^ 32 / 16384 * 16384 := toNat_alignUp a2 14
  have roundedInSpace : (alignUp a2 mtrrMinAlignShift).toNat ≤ 2 ^ space := by
    obtain ⟨quotient, multiple⟩ := pow_dvd_pow 2 large
    omega
  have single (b2 : RangeAddr) (above : a1.toNat ≤ b2.toNat)
      (b2InSpace : b2.toNat ≤ 2 ^ space) :
      RangeCall.Fits space ⟨a1, b2 - a1, rangeEntryMtrrType r⟩ := by
    have size : (b2 - a1).toNat = b2.toNat - a1.toNat :=
      BitVec.toNat_sub_of_le (BitVec.le_def.mpr above)
    have bound := b2.isLt
    refine ⟨?_, ?_, rangeEntryMtrrType_lt r⟩ <;> simp only [size] <;> omega
  split
  · rename_i last
    have larger := BitVec.le_def.mp last.2.2
    have extendedInSpace : ((1#32 <<< fls a1) + a1).toNat ≤ 2 ^ space :=
      toNat_extended_le ((show 0 < range4GB.toNat by decide).trans_le
        (BitVec.le_def.mp last.1)) (agrees.ordered.trans_le inSpace)
    refine ⟨List.forall_mem_singleton.mpr (single _ (ordered.trans larger)
      extendedInSpace), fun page served => ?_⟩
    rw [last.2.1]
    exact footprint_last ordered larger (agrees.base page served) (agrees.inside page served)
  have pair : ∀ call ∈
      [⟨a1, alignUp a2 mtrrMinAlignShift - a1, rangeEntryMtrrType r⟩,
        ⟨a2, alignUp a2 mtrrMinAlignShift - a2, mtrrTypeUncacheable⟩],
      RangeCall.Fits space call := by
    have excess : (alignUp a2 mtrrMinAlignShift - a2).toNat =
        (alignUp a2 mtrrMinAlignShift).toNat - a2.toNat :=
      BitVec.toNat_sub_of_le (BitVec.le_def.mpr (by omega))
    have uncacheableIsType : mtrrTypeUncacheable.toNat < 2 ^ 8 := by decide
    refine List.forall_mem_cons.mpr ⟨single _ (by omega) roundedInSpace,
      List.forall_mem_singleton.mpr ⟨?_, ?_, uncacheableIsType⟩⟩ <;> simp only [excess] <;> omega
  cases next with
  | none =>
    refine ⟨pair, fun page served => footprint_hole ordered (by omega)
      (agrees.base page served) (agrees.inside page served) ?_⟩
    simp
  | some following =>
    simp only
    split
    · refine ⟨List.forall_mem_singleton.mpr (single _ ordered inSpace), fun page served => ?_⟩
      refine footprint_of_exact (fun mtrrType => ?_) _
      have size : (a2 - a1).toNat = a2.toNat - a1.toNat :=
        BitVec.toNat_sub_of_le (BitVec.le_def.mpr ordered)
      simp only [assigns_cons, assigns_nil, or_false, RangeCall.Covers, size]
      rw [← agrees.base page served, ← agrees.inside page served]
      apply and_congr_left
      intro
      omega
    · rename_i overlaid
      obtain ⟨sameType, reaches⟩ := not_or.mp overlaid
      have reaches : (alignUp a2 mtrrMinAlignShift).toNat ≤
          endPage following := BitVec.le_def.mp (BitVec.not_lt.mp reaches)
      refine ⟨pair, fun page served => footprint_hole ordered (by omega)
        (agrees.base page served) (agrees.inside page served) ?_⟩
      intro other isNext within
      cases isNext
      exact ⟨not_not.mp sameType, by omega⟩

/-- The blocks of an entry fit the registers and have its footprint; an entry
of default type has none. -/
theorem footprint_entryBlocks (fits : EntryFits space r) (above4gb : Bool) (defType : Tag)
    (next : Option RangeEntry) :
    (∀ block ∈ entryBlocks above4gb defType r next, block.FitsRegs space) ∧
      ∀ page, Served above4gb page → rangeEntryMtrrType r ≠ defType →
        Footprint r next page (entryBlocks above4gb defType r next) := by
  have transfer {calls : List RangeCall}
      (fit : ∀ call ∈ calls, call.Fits space) {page : Nat}
      (footprint : Footprint r next page calls) :
      Footprint r next page (callBlocks calls) := by
    constructor
    · intro reached before
      exact (assigns_callBlocks fit _ _).mpr (footprint.covers reached before)
    · intro mtrrType assigned
      simp only [assigns_callBlocks fit] at assigned ⊢
      exact footprint.confined mtrrType assigned
  unfold entryBlocks
  split
  · rename_i isDefault
    exact ⟨by simp, fun page _ different => absurd isDefault different⟩
  split
  · rename_i request
    obtain ⟨fit, footprint⟩ := footprint_withHoleCalls large fits above4gb next
    rw [request.1]
    exact ⟨fun block => fitsRegs_callBlocks fit,
      fun page served _ => transfer fit (footprint page served)⟩
  · obtain ⟨fit, assigns⟩ := assigns_withoutHoleCalls fits above4gb
    exact ⟨fun block => fitsRegs_callBlocks fit, fun page served _ =>
      transfer fit (footprint_of_exact (assigns page served) next)⟩

structure EntriesFit (space : Nat) (entries : List RangeEntry) : Prop where
  fits : ∀ r ∈ entries, EntryFits space r
  sorted : entries.Pairwise fun first second =>
    endPage first ≤ basePage second

omit large in
theorem EntriesFit.cons {space : Nat} {r : RangeEntry}
    {rest : List RangeEntry} (entriesFit : EntriesFit space (r :: rest)) :
    EntryFits space r ∧ (∀ later ∈ rest, endPage r ≤ basePage later) ∧ EntriesFit space rest := by
  obtain ⟨fits, sorted⟩ := entriesFit
  obtain ⟨after, restSorted⟩ := List.pairwise_cons.mp sorted
  exact ⟨fits r (List.mem_cons_self ..), after,
    ⟨(List.forall_mem_cons.mp fits).2, restSorted⟩⟩

section

variable (entriesFit : EntriesFit space entries)
include entriesFit

theorem fitsRegs_solutionBlocks (above4gb : Bool)
    (defType : Tag) : ∀ block ∈ solutionBlocks above4gb defType entries, block.FitsRegs space := by
  induction entries with
  | nil => exact List.forall_mem_nil _
  | cons r rest ih =>
    obtain ⟨fits, -, restFit⟩ := entriesFit.cons
    intro block inside
    rcases List.mem_append.mp inside with here | later
    · exact (footprint_entryBlocks large fits above4gb defType _).1 block here
    · exact ih restFit block later

theorem exists_base_le_of_assigns {defType : Tag} (served : Served above4gb page) {mtrrType : Tag}
    (assigned : Assigns (solutionBlocks above4gb defType entries) page mtrrType) :
    ∃ r ∈ entries, basePage r ≤ page := by
  induction entries with
  | nil => exact absurd assigned (assigns_nil _ _)
  | cons r rest ih =>
    obtain ⟨fits, -, restFit⟩ := entriesFit.cons
    rw [solutionBlocks, assigns_append] at assigned
    rcases assigned with here | later
    · by_cases isDefault : rangeEntryMtrrType r = defType
      · rw [entryBlocks, if_pos isDefault] at here
        exact absurd here (assigns_nil _ _)
      · have footprint := (footprint_entryBlocks large fits above4gb defType
          rest.head?).2 page served isDefault
        exact ⟨r, (.head _) .., (footprint.confined _ here).1⟩
    · obtain ⟨other, inRest, reached⟩ := ih restFit later
      exact ⟨other, List.mem_cons_of_mem _ inRest, reached⟩

/-- Every page of an entry gets the type of the entry unless it is the default,
and another type only under a hole, where uncacheable wins. -/
theorem assigns_solutionBlocks {defType : Tag}
    (served : Served above4gb page) {entry : RangeEntry} (inEntries : entry ∈ entries)
    (reached : basePage entry ≤ page) (before : page < endPage entry) :
    (rangeEntryMtrrType entry ≠ defType →
        Assigns (solutionBlocks above4gb defType entries) page (rangeEntryMtrrType entry)) ∧
      ∀ mtrrType, Assigns (solutionBlocks above4gb defType entries) page mtrrType →
        mtrrType = rangeEntryMtrrType entry ∨
          (rangeEntryMtrrType entry = mtrrTypeUncacheable ∧
            Assigns (solutionBlocks above4gb defType entries) page mtrrTypeUncacheable) := by
  induction entries with
  | nil => cases inEntries
  | cons r rest ih =>
    obtain ⟨fits, after, restFit⟩ := entriesFit.cons
    have footprint := (footprint_entryBlocks large fits above4gb defType rest.head?).2 page served
    have noBlocks (isDefault : rangeEntryMtrrType r = defType)
        (mtrrType : Tag) : ¬ Assigns (entryBlocks above4gb defType r rest.head?) page mtrrType := by
      rw [entryBlocks, if_pos isDefault]
      exact assigns_nil _ _
    simp only [solutionBlocks, assigns_append]
    rcases List.mem_cons.mp inEntries with rfl | later
    · refine ⟨fun different =>
        Or.inl ((footprint different).covers reached before), ?_⟩
      rintro mtrrType (here | beyond)
      · by_cases isDefault : rangeEntryMtrrType entry = defType
        · exact absurd here (noBlocks isDefault _)
        · obtain ⟨-, ⟨-, same⟩ | ⟨past, -⟩⟩ := (footprint isDefault).confined _ here
          · exact Or.inl same
          · omega
      · obtain ⟨other, inRest, otherReached⟩ :=
          exists_base_le_of_assigns large restFit served beyond
        have := after other inRest
        omega
    · obtain ⟨restCovers, restOnly⟩ := ih restFit later
      have past := after entry later
      refine ⟨fun different => Or.inr (restCovers different), ?_⟩
      rintro mtrrType (here | beyond)
      · by_cases isDefault : rangeEntryMtrrType r = defType
        · exact absurd here (noBlocks isDefault _)
        · obtain ⟨-, ⟨inside, -⟩ | ⟨-, overlaid⟩⟩ := (footprint isDefault).confined _ here
          · omega
          · -- The entry is the one that the hole lies over.
            obtain ⟨following, others, rfl⟩ : ∃ following others, rest = following :: others :=
              List.exists_cons_of_ne_nil (List.ne_nil_of_mem later)
            obtain ⟨sameType, within, wins⟩ := overlaid following rfl
            have isFollowing : entry = following := by
              rcases List.mem_cons.mp later with same | further
              · exact same
              · have := restFit.cons.2.1 entry further
                omega
            rw [isFollowing]
            exact Or.inr ⟨sameType, Or.inl wins⟩
      · rcases restOnly mtrrType beyond with same | ⟨sameType, wins⟩
        · exact Or.inl same
        · exact Or.inr ⟨sameType, Or.inr wins⟩

end

end

end Coreboot.Mtrr
