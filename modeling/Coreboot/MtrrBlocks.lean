import Coreboot.Mtrr
import Mathlib.Tactic.Ring
import Mathlib.Data.Nat.Bitwise
import Mathlib.Tactic.Linarith

/-!
# The decomposition of a range into aligned blocks

`calc_var_mtrr_range` takes the largest block that its base alignment and the remaining size
allow.
-/

namespace Coreboot.Mtrr

open Memrange WordAlignment

variable {power : Nat} {size base : RangeAddr} {granularity : Nat} {value : RangeAddr}

theorem testBit_eq_false_iff_dvd {number : Nat} :
    (∀ index < power, number.testBit index = false) ↔ 2 ^ power ∣ number := by
  rw [Nat.dvd_iff_mod_eq_zero]
  constructor
  · intro clear
    apply Nat.eq_of_testBit_eq
    intro index
    rw [Nat.testBit_mod_two_pow, Nat.zero_testBit]
    by_cases low : index < power
    · simp [clear index low]
    · simp [low]
  · intro multiple index low
    have bit := Nat.testBit_mod_two_pow number power index
    rw [multiple, Nat.zero_testBit] at bit
    simpa [low] using bit.symm

/-- `fls` is the largest exponent, up to the word size, whose power divides
the word. -/
theorem two_pow_dvd_iff_le_fls (value : RangeAddr) (small : power ≤ 32) :
    2 ^ power ∣ value.toNat ↔ power ≤ fls value := by
  rw [← testBit_eq_false_iff_dvd, fls]
  cases found : (List.range 32).find? value.getLsbD with
  | none =>
    have clear := List.find?_range_eq_none.mp found
    simp only [Option.getD_none]
    refine ⟨fun _ => small, fun _ index low => ?_⟩
    have bit := clear index (by omega)
    simpa [BitVec.getLsbD] using bit
  | some first =>
    obtain ⟨set, -, clear⟩ := List.find?_range_eq_some.mp found
    simp only [Option.getD_some]
    constructor
    · intro low
      by_contra above
      have bit := low first (by omega)
      rw [BitVec.getLsbD] at set
      rw [bit] at set
      cases set
    · intro below index low
      have bit := clear index (by omega)
      simpa [BitVec.getLsbD] using bit

theorem fls_le (value : RangeAddr) : fls value ≤ 32 := by
  rw [fls]
  cases found : (List.range 32).find? value.getLsbD with
  | none => simp
  | some first =>
    have member := List.mem_of_find?_eq_some found
    simp only [Option.getD_some]
    exact (List.mem_range.mp member).le

theorem lt_two_pow_fms_succ (value : RangeAddr) : value.toNat < 2 ^ (fms value + 1) :=
  Nat.lt_log2_self

theorem fms_lt_of_lt (nonzero : value ≠ 0) (bound : value.toNat < 2 ^ power) : fms value < power :=
  (Nat.pow_lt_pow_iff_right (by decide)).mp (lt_of_le_of_lt (fms_le nonzero) bound)

theorem le_fms_of_dvd (nonzero : value ≠ 0)
    (multiple : 2 ^ power ∣ value.toNat) : power ≤ fms value := by
  have positive : 0 < value.toNat :=
    Nat.pos_of_ne_zero fun zero => nonzero (BitVec.eq_of_toNat_eq zero)
  have below : 2 ^ power < 2 ^ (fms value + 1) :=
    lt_of_le_of_lt (Nat.le_of_dvd positive multiple) (lt_two_pow_fms_succ value)
  exact Nat.le_of_lt_succ ((Nat.pow_lt_pow_iff_right (by decide)).mp below)

def rangeCount (base size : RangeAddr) : Nat :=
  if size = 0 then 0
  else
    rangeCount (base + mtrrSize base size) (size - mtrrSize base size) + 1
termination_by size.toNat
decreasing_by
  rename_i nonzero
  rw [toNat_sub_mtrrSize base nonzero]
  have positive := mtrrSize_pos base size
  have bound := mtrrSize_le base nonzero
  omega

theorem rangeCount_zero (base : RangeAddr) : rangeCount base 0 = 0 := by
  rw [rangeCount, if_pos rfl]

theorem rangeCount_of_ne_zero (base : RangeAddr) (nonzero : size ≠ 0) :
    rangeCount base size =
      rangeCount (base + mtrrSize base size) (size - mtrrSize base size) + 1 := by
  rw [rangeCount, if_neg nonzero]

theorem dvd_toNat_add {block : RangeAddr} (small : power ≤ 32)
    (multiple : 2 ^ power ∣ base.toNat + block.toNat) : 2 ^ power ∣ (base + block).toNat := by
  rw [BitVec.toNat_add]
  exact (Nat.dvd_mod_iff (pow_dvd_pow 2 small)).mpr multiple

theorem block_induction {motive : RangeAddr → RangeAddr → Prop} (done : ∀ base, motive base 0)
    (block : ∀ base size, size ≠ 0 →
      motive (base + mtrrSize base size) (size - mtrrSize base size) →
      motive base size) (base size : RangeAddr) : motive base size := by
  induction base, size using rangeCount.induct with
  | case1 base => exact done base
  | case2 base size nonzero ih => exact block base size nonzero ih

theorem rangeCount_le_of_fms_lt {base size : RangeAddr}
    (shrinking : fms size < fls base) (multiple : 2 ^ granularity ∣ size.toNat) :
    rangeCount base size ≤ fms size + 1 - granularity := by
  induction base, size using block_induction with
  | done base =>
    rw [rangeCount_zero]
    exact Nat.zero_le _
  | block base size nonzero ih =>
    have bit : (mtrrSize base size).toNat = 2 ^ fms size := by
      rw [toNat_mtrrSize, min_eq_right shrinking.le]
    have coarse := le_fms_of_dvd nonzero multiple
    have remaining := toNat_sub_mtrrSize base nonzero
    rw [rangeCount_of_ne_zero base nonzero]
    by_cases last : size - mtrrSize base size = 0
    · rw [last, rangeCount_zero]
      omega
    · have below : (size - mtrrSize base size).toNat < 2 ^ fms size := by
        have bound := lt_two_pow_fms_succ size
        rw [pow_succ] at bound
        omega
      have smaller := fms_lt_of_lt last below
      have aligned : fms size ≤ fls (base + mtrrSize base size) := by
        have small : fms size ≤ 32 := (fms_lt size).le
        rw [← two_pow_dvd_iff_le_fls _ small]
        apply dvd_toNat_add small
        rw [bit]
        exact Nat.dvd_add
          ((two_pow_dvd_iff_le_fls base small).mpr shrinking.le)
          (dvd_refl _)
      have stillMultiple : 2 ^ granularity ∣ (size - mtrrSize base size).toNat := by
        rw [remaining, bit]
        exact Nat.dvd_sub multiple (pow_dvd_pow 2 coarse)
      have := ih (by omega) stillMultiple
      omega

theorem fls_lt_fls_add (growing : fls base ≤ fms size) :
    fls base < fls (base + mtrrSize base size) := by
  have small : fls base < 32 := lt_of_le_of_lt growing (fms_lt size)
  have bit : (mtrrSize base size).toNat = 2 ^ fls base := by
    rw [toNat_mtrrSize, min_eq_left growing]
  have next : fls base + 1 ≤ 32 := small
  apply (two_pow_dvd_iff_le_fls _ next).mp
  apply dvd_toNat_add next
  obtain ⟨quotient, quotientEq⟩ := (two_pow_dvd_iff_le_fls base small.le).mpr le_rfl
  have odd : ¬ 2 ∣ quotient := by
    rintro ⟨half, rfl⟩
    have better : 2 ^ (fls base + 1) ∣ base.toNat := ⟨half, by rw [quotientEq, pow_succ]; ring⟩
    have := (two_pow_dvd_iff_le_fls base next).mp better
    omega
  obtain ⟨half, halfEq⟩ : ∃ half, quotient + 1 = 2 * half := ⟨(quotient + 1) / 2, by omega⟩
  refine ⟨half, ?_⟩
  calc
    base.toNat + (mtrrSize base size).toNat =
        2 ^ fls base * (quotient + 1) := by rw [bit, quotientEq]; ring
    _ = 2 ^ (fls base + 1) * half := by rw [halfEq, pow_succ]; ring

theorem rangeCount_le_of_fls_le (growing : fls base ≤ fms size)
    (baseMultiple : 2 ^ granularity ∣ base.toNat) (multiple : 2 ^ granularity ∣ size.toNat)
    (nonzero : size ≠ 0) :
    rangeCount base size ≤ (fms size - fls base) + (fms size + 1 - granularity) := by
  induction base, size using block_induction with
  | done base => exact absurd rfl nonzero
  | block base size _ ih =>
    have coarse := le_fms_of_dvd nonzero multiple
    have small : granularity ≤ 32 := le_trans coarse (fms_lt size).le
    have baseCoarse := (two_pow_dvd_iff_le_fls base small).mp baseMultiple
    have bit : (mtrrSize base size).toNat = 2 ^ fls base := by
      rw [toNat_mtrrSize, min_eq_left growing]
    have remaining := toNat_sub_mtrrSize base nonzero
    have aligned := fls_lt_fls_add growing
    rw [rangeCount_of_ne_zero base nonzero]
    by_cases last : size - mtrrSize base size = 0
    · rw [last, rangeCount_zero]
      omega
    have smaller : fms (size - mtrrSize base size) ≤ fms size ∧
        (fls base = fms size → fms (size - mtrrSize base size) < fms size) := by
      have bound := lt_two_pow_fms_succ size
      constructor
      · exact Nat.le_of_lt_succ (fms_lt_of_lt last (by omega))
      · intro same
        rw [pow_succ] at bound
        exact fms_lt_of_lt last (by rw [remaining, bit, same]; omega)
    have stillMultiple : 2 ^ granularity ∣ (size - mtrrSize base size).toNat := by
      rw [remaining, bit]
      exact Nat.dvd_sub multiple (pow_dvd_pow 2 baseCoarse)
    by_cases stillGrowing : fls (base + mtrrSize base size) ≤ fms (size - mtrrSize base size)
    · have nextMultiple : 2 ^ granularity ∣ (base + mtrrSize base size).toNat := by
        apply dvd_toNat_add small
        rw [bit]
        exact Nat.dvd_add baseMultiple (pow_dvd_pow 2 baseCoarse)
      have := ih stillGrowing nextMultiple stillMultiple last
      omega
    · have := rangeCount_le_of_fms_lt (not_le.mp stillGrowing) stillMultiple
      omega

theorem rangeCount_le {base size : RangeAddr}
    (baseMultiple : 2 ^ granularity ∣ base.toNat) (multiple : 2 ^ granularity ∣ size.toNat)
    (coarse : granularity < 32) : rangeCount base size ≤ 63 - 2 * granularity := by
  by_cases zero : size = 0
  · rw [zero, rangeCount_zero]
    omega
  have highest := fms_lt size
  have sizeCoarse := le_fms_of_dvd zero multiple
  have baseCoarse := (two_pow_dvd_iff_le_fls base coarse.le).mp baseMultiple
  by_cases growing : fls base ≤ fms size
  · have := rangeCount_le_of_fls_le growing baseMultiple multiple zero
    omega
  · have := rangeCount_le_of_fms_lt (not_le.mp growing) multiple
    omega

/-- A range that ends at the next multiple of a power only has blocks that
grow up to it. -/
theorem rangeCount_le_of_dvd_add (small : power ≤ 32)
    (reaches : 2 ^ power ∣ base.toNat + size.toNat) (below : size.toNat < 2 ^ power) :
    rangeCount base size ≤ power - fls base := by
  induction base, size using block_induction with
  | done base =>
    rw [rangeCount_zero]
    exact Nat.zero_le _
  | block base size nonzero ih =>
    have positive : 0 < size.toNat :=
      Nat.pos_of_ne_zero fun zero => nonzero (BitVec.eq_of_toNat_eq zero)
    have limited : fls base < power := by
      by_contra aligned
      have baseMultiple := (two_pow_dvd_iff_le_fls base small).mpr (not_lt.mp aligned)
      have sizeMultiple := (Nat.dvd_add_right baseMultiple).mp reaches
      have := Nat.le_of_dvd positive sizeMultiple
      omega
    have sizeMultiple : 2 ^ fls base ∣ size.toNat :=
      (Nat.dvd_add_right
        ((two_pow_dvd_iff_le_fls base (by omega)).mpr le_rfl)).mp
        (dvd_trans (pow_dvd_pow 2 limited.le) reaches)
    have growing := le_fms_of_dvd nonzero sizeMultiple
    have aligned := fls_lt_fls_add growing
    have remaining := toNat_sub_mtrrSize base nonzero
    have bound := mtrrSize_le base nonzero
    rw [rangeCount_of_ne_zero base nonzero]
    by_cases last : size - mtrrSize base size = 0
    · rw [last, rangeCount_zero]
      omega
    have stillReaches : 2 ^ power ∣ (base + mtrrSize base size).toNat +
        (size - mtrrSize base size).toNat := by
      rw [remaining, BitVec.toNat_add]
      have total : base.toNat + (mtrrSize base size).toNat +
          (size.toNat - (mtrrSize base size).toNat) = base.toNat + size.toNat := by omega
      rw [← total] at reaches
      have wide : 2 ^ power ∣ 2 ^ 32 := pow_dvd_pow 2 small
      rw [Nat.dvd_iff_mod_eq_zero] at reaches ⊢
      rw [Nat.add_mod, Nat.mod_mod_of_dvd _ wide, ← Nat.add_mod]
      exact reaches
    have := ih stillReaches (by omega)
    omega

def rangeBlocks (base size : RangeAddr) (mtrrType : Tag) : List RangeCall :=
  if size = 0 then []
  else
    ⟨base, mtrrSize base size, mtrrType⟩ ::
      rangeBlocks (base + mtrrSize base size) (size - mtrrSize base size) mtrrType
termination_by size.toNat
decreasing_by
  rename_i nonzero
  rw [toNat_sub_mtrrSize base nonzero]
  have positive := mtrrSize_pos base size
  have bound := mtrrSize_le base nonzero
  omega

theorem rangeBlocks_zero (base : RangeAddr) (mtrrType : Tag) :
    rangeBlocks base 0 mtrrType = [] := by
  rw [rangeBlocks, if_pos rfl]

theorem rangeBlocks_of_ne_zero (base : RangeAddr) (nonzero : size ≠ 0) (mtrrType : Tag) :
    rangeBlocks base size mtrrType =
      ⟨base, mtrrSize base size, mtrrType⟩ ::
        rangeBlocks (base + mtrrSize base size) (size - mtrrSize base size) mtrrType := by
  rw [rangeBlocks, if_neg nonzero]

theorem length_rangeBlocks (base size : RangeAddr) (mtrrType : Tag) :
    (rangeBlocks base size mtrrType).length = rangeCount base size := by
  induction base, size using block_induction with
  | done base => rw [rangeBlocks_zero, rangeCount_zero, List.length_nil]
  | block base size nonzero ih =>
    rw [rangeBlocks_of_ne_zero base nonzero, List.length_cons, ih,
      rangeCount_of_ne_zero base nonzero]

def callBlocks (calls : List RangeCall) : List RangeCall :=
  calls.flatMap fun call => rangeBlocks call.base call.size call.mtrrType

def callsCount (calls : List RangeCall) : Nat :=
  (calls.map fun call => rangeCount call.base call.size).sum

theorem length_callBlocks (calls : List RangeCall) :
    (callBlocks calls).length = callsCount calls := by
  simp [callBlocks, callsCount, List.length_flatMap, length_rangeBlocks]

/-- One turn of the loop of `calc_var_mtrr_range`. -/
def fillBlock (totalMtrrs : Nat) (state : VarMtrrState) (block : RangeCall) : VarMtrrState :=
  let state :=
    if state.prepareMsrs then
      prepVarMtrr totalMtrrs state block.base block.size block.mtrrType
    else state
  { state with mtrrIndex := state.mtrrIndex + 1 }

section

variable (totalMtrrs : Nat)
include totalMtrrs

theorem calcVarMtrrRange_eq (state : VarMtrrState) (base size : RangeAddr) (mtrrType : Tag) :
    calcVarMtrrRange totalMtrrs state base size mtrrType =
      (rangeBlocks base size mtrrType).foldl (fillBlock totalMtrrs) state := by
  induction base, size using block_induction generalizing state with
  | done base =>
    rw [calcVarMtrrRange, if_pos rfl, rangeBlocks_zero, List.foldl_nil]
  | block base size nonzero ih =>
    rw [calcVarMtrrRange, if_neg nonzero, rangeBlocks_of_ne_zero base nonzero, List.foldl_cons]
    exact ih _

theorem performCalls_eq (state : VarMtrrState) (calls : List RangeCall) :
    performCalls totalMtrrs state calls =
      (callBlocks calls).foldl (fillBlock totalMtrrs) state := by
  induction calls generalizing state with
  | nil => rfl
  | cons call rest ih =>
    have first : performCalls totalMtrrs state (call :: rest) =
        performCalls totalMtrrs (calcVarMtrrRange totalMtrrs state call.base
          call.size call.mtrrType) rest := rfl
    have blocks : callBlocks (call :: rest) =
        rangeBlocks call.base call.size call.mtrrType ++ callBlocks rest :=
      List.flatMap_cons
    rw [first, ih, calcVarMtrrRange_eq, blocks, List.foldl_append]

theorem foldl_fillBlock (state : VarMtrrState) (blocks : List RangeCall) :
    ∃ regs, blocks.foldl (fillBlock totalMtrrs) state =
      { state with mtrrIndex := state.mtrrIndex + blocks.length, regs } := by
  induction blocks generalizing state with
  | nil => exact ⟨state.regs, rfl⟩
  | cons block rest ih =>
    obtain ⟨regs, later⟩ := ih (fillBlock totalMtrrs state block)
    refine ⟨regs, ?_⟩
    rw [List.foldl_cons, later]
    simp only [fillBlock, prepVarMtrr, List.length_cons]
    split_ifs <;> simp <;> omega

theorem performCalls_mtrrIndex (state : VarMtrrState) (calls : List RangeCall) :
    (performCalls totalMtrrs state calls).mtrrIndex = state.mtrrIndex + callsCount calls := by
  obtain ⟨regs, filled⟩ := foldl_fillBlock totalMtrrs state (callBlocks calls)
  rw [performCalls_eq, filled, length_callBlocks]

@[simp]
theorem ucNoHoleCount_eq (above4gb : Bool) (addressBits : Nat) (r : RangeEntry) :
    ucNoHoleCount totalMtrrs above4gb addressBits r = callsCount (withoutHoleCalls above4gb r) := by
  rw [ucNoHoleCount, calcVarMtrrsWithoutHole, performCalls_mtrrIndex]
  exact Nat.zero_add _

@[simp]
theorem wbCount_eq (above4gb : Bool) (addressBits : Nat) (r : RangeEntry) :
    wbCount totalMtrrs above4gb addressBits r = callsCount (withoutHoleCalls above4gb r) := by
  rw [wbCount, calcVarMtrrsWithoutHole, performCalls_mtrrIndex]
  exact Nat.zero_add _

theorem ucHoleCount_of_wrback (above4gb : Bool) (addressBits : Nat) {r : RangeEntry}
    (next : Option RangeEntry) (wrback : rangeEntryMtrrType r = mtrrTypeWrback) :
    ucHoleCount totalMtrrs above4gb addressBits r next =
      callsCount (withHoleCalls above4gb mtrrTypeUncacheable r next) := by
  rw [ucHoleCount, if_pos wrback, calcVarMtrrsWithHole, performCalls_mtrrIndex]
  exact Nat.zero_add _

end

private theorem callsCount_guarded_le (guard : Prop) [Decidable guard] (calls : List RangeCall) :
    callsCount (if guard then [] else calls) ≤ callsCount calls := by
  split
  · exact Nat.zero_le _
  · exact le_rfl

private theorem callsCount_parts_lt (a1 c2 : RangeAddr) (mtrrType : Tag) :
    callsCount
      (if c2 - a1 < mtrrMinAlign then [⟨a1, c2 - a1, mtrrType⟩]
      else
        [⟨a1, alignUp a1 mtrrMinAlignShift - a1, mtrrType⟩,
          ⟨alignUp a1 mtrrMinAlignShift,
            alignDown c2 mtrrMinAlignShift - alignUp a1 mtrrMinAlignShift,
            mtrrType⟩,
          ⟨alignDown c2 mtrrMinAlignShift,
            c2 - alignDown c2 mtrrMinAlignShift, mtrrType⟩]) < 64 := by
  split
  · have count : rangeCount a1 (c2 - a1) ≤ 63 :=
      @rangeCount_le 0 _ _ (one_dvd _) (one_dvd _) (by decide)
    simpa [callsCount] using Nat.lt_succ_of_le count
  · have atUp : (alignUp a1 mtrrMinAlignShift).toNat =
        (a1.toNat + 16383) % 2 ^ 32 / 16384 * 16384 := toNat_alignUp a1 14
    have atDown : (alignDown c2 mtrrMinAlignShift).toNat =
        c2.toNat / 16384 * 16384 := toNat_alignDown c2 14
    have head : rangeCount a1 (alignUp a1 mtrrMinAlignShift - a1) ≤ 14 := by
      have bound := a1.isLt
      have below : (alignUp a1 mtrrMinAlignShift - a1).toNat < 2 ^ 14 := by
        rw [BitVec.toNat_sub, atUp]
        omega
      have reaches : 2 ^ 14 ∣ a1.toNat + (alignUp a1 mtrrMinAlignShift - a1).toNat := by
        rw [BitVec.toNat_sub, atUp]
        omega
      have := rangeCount_le_of_dvd_add (by decide) reaches below
      omega
    have middle : rangeCount (alignUp a1 mtrrMinAlignShift)
        (alignDown c2 mtrrMinAlignShift - alignUp a1 mtrrMinAlignShift) ≤ 35 := by
      refine @rangeCount_le 14 _ _ ?_ ?_ (by decide)
      · rw [atUp]
        exact Dvd.intro_left _ rfl
      · rw [BitVec.toNat_sub, atUp, atDown]
        omega
    have tail : rangeCount (alignDown c2 mtrrMinAlignShift)
        (c2 - alignDown c2 mtrrMinAlignShift) ≤ 14 := by
      by_cases zero : c2 - alignDown c2 mtrrMinAlignShift = 0
      · rw [zero, rangeCount_zero]
        omega
      have below : (c2 - alignDown c2 mtrrMinAlignShift).toNat < 2 ^ 14 := by
        rw [BitVec.toNat_sub, atDown]
        omega
      have lowest := fms_lt_of_lt zero below
      have aligned : 14 ≤ fls (alignDown c2 mtrrMinAlignShift) := by
        rw [← two_pow_dvd_iff_le_fls _ (by decide), atDown]
        exact Dvd.intro_left _ rfl
      have := @rangeCount_le_of_fms_lt 0 _ _ (lt_of_lt_of_le lowest aligned) (one_dvd _)
      omega
    simp only [callsCount, List.map_cons, List.map_nil, List.sum_cons, List.sum_nil]
    omega

theorem callsCount_withoutHoleCalls_lt (above4gb : Bool) (r : RangeEntry) :
    callsCount (withoutHoleCalls above4gb r) < 64 :=
  lt_of_le_of_lt (callsCount_guarded_le _ _)
    (lt_of_le_of_lt (callsCount_guarded_le _ _) (callsCount_parts_lt _ _ _))

end Coreboot.Mtrr
