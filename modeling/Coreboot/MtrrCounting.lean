import Coreboot.MtrrBlocks
import Coreboot.MemrangeRefinement

/-!
# Counted and emitted variable MTRRs

The counting pass predicts how many registers the emitting pass will fill.
-/

namespace Coreboot.Mtrr

open Memrange

/-- The blocks that the emitting pass fills in for one entry. -/
def entryBlocks (above4gb : Bool) (defType : Tag) (r : RangeEntry)
    (next : Option RangeEntry) : List RangeCall :=
  if rangeEntryMtrrType r = defType then []
  else if defType = mtrrTypeUncacheable ∧ r.tag &&& mtrrRangeUcUseHole ≠ 0 then
    callBlocks (withHoleCalls above4gb defType r next)
  else callBlocks (withoutHoleCalls above4gb r)

/-- The blocks of the whole solution, in the order of the registers. -/
def solutionBlocks (above4gb : Bool) (defType : Tag) : List RangeEntry → List RangeCall
  | [] => []
  | r :: rest =>
    entryBlocks above4gb defType r rest.head? ++ solutionBlocks above4gb defType rest

theorem prepareVarMtrrsFrom_eq (totalMtrrs : Nat) {defType : Tag} {state : VarMtrrState}
    (sameType : state.defMtrrType = defType) (entries : List RangeEntry) :
    prepareVarMtrrsFrom totalMtrrs defType state entries =
      (solutionBlocks state.above4gb defType entries).foldl (fillBlock totalMtrrs) state := by
  induction entries generalizing state with
  | nil => rfl
  | cons r rest ih =>
    have step : (if rangeEntryMtrrType r = defType then state
        else if defType = mtrrTypeUncacheable ∧ r.tag &&& mtrrRangeUcUseHole ≠ 0 then
          calcVarMtrrsWithHole totalMtrrs state r rest.head?
        else calcVarMtrrsWithoutHole totalMtrrs state r) =
          (entryBlocks state.above4gb defType r rest.head?).foldl (fillBlock totalMtrrs) state := by
      unfold entryBlocks
      split
      · rfl
      · split
        · rw [calcVarMtrrsWithHole, performCalls_eq, sameType]
        · rw [calcVarMtrrsWithoutHole, performCalls_eq]
    obtain ⟨regs, filled⟩ := foldl_fillBlock totalMtrrs state
      (entryBlocks state.above4gb defType r rest.head?)
    rw [prepareVarMtrrsFrom, step, solutionBlocks, List.foldl_append, filled]
    exact ih sameType

theorem numUsed_eq_length (totalMtrrs : Nat) (entries : List RangeEntry) (defType : Tag)
    (above4gb : Bool) (addressBits : Nat) (regs : Nat → VarMtrrRegs) :
    (prepareVarMtrrs totalMtrrs entries defType above4gb addressBits
      regs).numUsed = (solutionBlocks above4gb defType entries).length := by
  let start : VarMtrrState :=
    { above4gb, addressBits, prepareMsrs := true, mtrrIndex := 0, defMtrrType := defType, regs }
  obtain ⟨filledRegs, filled⟩ := foldl_fillBlock totalMtrrs start
    (solutionBlocks above4gb defType entries)
  have emitted := prepareVarMtrrsFrom_eq totalMtrrs (rfl : start.defMtrrType = defType) entries
  change (prepareVarMtrrsFrom totalMtrrs defType start entries).mtrrIndex = _
  rw [emitted, filled]
  exact Nat.zero_add _

def noHoleCount (above4gb : Bool) (r : RangeEntry) : Nat := callsCount (withoutHoleCalls above4gb r)

def holeCount (above4gb : Bool) (r : RangeEntry) (next : Option RangeEntry) : Nat :=
  if rangeEntryMtrrType r = mtrrTypeWrback then
    callsCount (withHoleCalls above4gb mtrrTypeUncacheable r next)
  else 64

def HoleTagged (r : RangeEntry) : Prop := r.tag &&& mtrrRangeUcUseHole ≠ 0

instance (r : RangeEntry) : Decidable (HoleTagged r) := inferInstanceAs (Decidable (_ ≠ _))

def Marked (above4gb : Bool) (r : RangeEntry) (next : Option RangeEntry) : Prop :=
  rangeEntryMtrrType r ≠ mtrrTypeUncacheable ∧ ¬ noHoleCount above4gb r < holeCount above4gb r next

instance (above4gb : Bool) (r : RangeEntry) (next : Option RangeEntry) :
    Decidable (Marked above4gb r next) :=
  inferInstanceAs (Decidable (_ ∧ _))

/-- The tag asks for a hole although the range takes fewer registers without
one. -/
def Stale (above4gb : Bool) (r : RangeEntry) (next : Option RangeEntry) : Prop :=
  HoleTagged r ∧ rangeEntryMtrrType r ≠ mtrrTypeUncacheable ∧
    noHoleCount above4gb r < holeCount above4gb r next

instance (above4gb : Bool) (r : RangeEntry) (next : Option RangeEntry) :
    Decidable (Stale above4gb r next) :=
  inferInstanceAs (Decidable (_ ∧ _))

def SomeStale (above4gb : Bool) : List RangeEntry → Prop
  | [] => False
  | r :: rest => Stale above4gb r rest.head? ∨ SomeStale above4gb rest

theorem Marked.wrback {above4gb : Bool} {r : RangeEntry} {next : Option RangeEntry}
    (marked : Marked above4gb r next) : rangeEntryMtrrType r = mtrrTypeWrback := by
  by_contra other
  have bound := callsCount_withoutHoleCalls_lt above4gb r
  have few := marked.2
  rw [holeCount, if_neg other] at few
  exact few bound

def mark (above4gb : Bool) (r : RangeEntry) (next : Option RangeEntry) : RangeEntry :=
  if Marked above4gb r next then
    { r with tag := rangeEntryMtrrType r ||| mtrrRangeUcUseHole }
  else r

/-- The contribution of an entry to the count for an uncacheable default. -/
def ucEntryCount (above4gb : Bool) (r : RangeEntry) (next : Option RangeEntry) : Nat :=
  if rangeEntryMtrrType r ≠ mtrrTypeUncacheable then
    (if noHoleCount above4gb r < holeCount above4gb r next then
      noHoleCount above4gb r
    else holeCount above4gb r next)
  else 0

/-- The contribution of an entry to the count for a write-back default. -/
def wbEntryCount (above4gb : Bool) (r : RangeEntry) : Nat :=
  if rangeEntryMtrrType r ≠ mtrrTypeWrback then noHoleCount above4gb r else 0

theorem ucHoleCount_eq (totalMtrrs : Nat) (above4gb : Bool)
    (addressBits : Nat) (r : RangeEntry) (next : Option RangeEntry) :
    ucHoleCount totalMtrrs above4gb addressBits r next = holeCount above4gb r next := by
  by_cases wrback : rangeEntryMtrrType r = mtrrTypeWrback
  · rw [ucHoleCount_of_wrback _ _ _ _ wrback, holeCount, if_pos wrback]
  · rw [ucHoleCount, if_neg wrback, holeCount, if_neg wrback]

theorem calcVarMtrrsPass_cons (totalMtrrs : Nat) (above4gb : Bool)
    (addressBits : Nat) (r : RangeEntry) (rest : List RangeEntry) :
    calcVarMtrrsPass totalMtrrs above4gb addressBits (r :: rest) =
      let later := calcVarMtrrsPass totalMtrrs above4gb addressBits rest
      { entries := mark above4gb r rest.head? :: later.entries
        wbDeftypeCount := wbEntryCount above4gb r + later.wbDeftypeCount
        ucDeftypeCount := ucEntryCount above4gb r rest.head? + later.ucDeftypeCount } := by
  rw [calcVarMtrrsPass, ucHoleCount_eq, ucNoHoleCount_eq, wbCount_eq]
  rfl

theorem rangeEntryMtrrType_mark (above4gb : Bool) (r : RangeEntry) (next : Option RangeEntry) :
    rangeEntryMtrrType (mark above4gb r next) = rangeEntryMtrrType r := by
  unfold mark
  split
  · have apart : mtrrRangeUcUseHole &&& mtrrTagMask = 0#64 := by decide
    change (r.tag &&& mtrrTagMask ||| mtrrRangeUcUseHole) &&& mtrrTagMask = r.tag &&& mtrrTagMask
    rw [BitVec.and_or_distrib_right, apart, BitVec.and_assoc, BitVec.and_self, BitVec.or_zero]
  · rfl

theorem mark_rangeBegin (above4gb : Bool) (r : RangeEntry) (next : Option RangeEntry) :
    (mark above4gb r next).rangeBegin = r.rangeBegin := by
  unfold mark
  split <;> rfl

theorem mark_rangeEnd (above4gb : Bool) (r : RangeEntry) (next : Option RangeEntry) :
    (mark above4gb r next).rangeEnd = r.rangeEnd := by
  unfold mark
  split <;> rfl

theorem holeTagged_mark (above4gb : Bool) (r : RangeEntry) (next : Option RangeEntry) :
    HoleTagged (mark above4gb r next) ↔ Marked above4gb r next ∨ HoleTagged r := by
  unfold mark
  split
  · rename_i marked
    refine iff_of_true ?_ (Or.inl marked)
    intro clear
    have bit := congrArg (BitVec.getLsbD · 8) clear
    simp [mtrrRangeUcUseHole] at bit
  · rename_i unmarked
    simp [unmarked]

structure SameRange (first second : RangeEntry) : Prop where
  rangeBegin : first.rangeBegin = second.rangeBegin
  rangeEnd : first.rangeEnd = second.rangeEnd
  mtrrType : rangeEntryMtrrType first = rangeEntryMtrrType second

variable {first second : RangeEntry}

section

variable (same : SameRange first second)
include same

theorem SameRange.baseMtrrAddr : rangeEntryBaseMtrrAddr first = rangeEntryBaseMtrrAddr second := by
  rw [rangeEntryBaseMtrrAddr, rangeEntryBaseMtrrAddr, rangeEntryBase,
    rangeEntryBase, same.rangeBegin]

theorem SameRange.endMtrrAddr : rangeEntryEndMtrrAddr first = rangeEntryEndMtrrAddr second := by
  rw [rangeEntryEndMtrrAddr, rangeEntryEndMtrrAddr, rangeEntryEnd, rangeEntryEnd, same.rangeEnd]

omit same in
theorem sameRange_mark (above4gb : Bool) (r : RangeEntry)
    (next : Option RangeEntry) : SameRange (mark above4gb r next) r :=
  ⟨mark_rangeBegin above4gb r next, mark_rangeEnd above4gb r next,
    rangeEntryMtrrType_mark above4gb r next⟩

theorem withoutHoleCalls_congr (above4gb : Bool) :
    withoutHoleCalls above4gb first = withoutHoleCalls above4gb second := by
  unfold withoutHoleCalls
  rw [same.baseMtrrAddr, same.endMtrrAddr, same.mtrrType]

theorem withHoleCalls_congr {firstNext secondNext : Option RangeEntry}
    (sameNext : Option.Rel SameRange firstNext secondNext) (above4gb : Bool) (defType : Tag) :
    withHoleCalls above4gb defType first firstNext =
      withHoleCalls above4gb defType second secondNext := by
  unfold withHoleCalls
  rw [same.baseMtrrAddr, same.endMtrrAddr, same.mtrrType]
  cases sameNext with
  | none => rfl
  | @some firstNext secondNext sameNext =>
    have someNext (next : RangeEntry) : some next ≠ none := by simp
    simp only [someNext, sameNext.endMtrrAddr, sameNext.mtrrType]

end

end Coreboot.Mtrr
