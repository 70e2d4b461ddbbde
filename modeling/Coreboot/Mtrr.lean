import Coreboot.Memrange
import Mathlib.Logic.Function.Basic
import Mathlib.Tactic.Common

/-!
# Variable memory type range registers

Each range becomes a few aligned power-of-two blocks; a write-back range may also be rounded up
and overlaid with an uncacheable hole. A counting pass chooses between the two, leaves its choice
in the tag of the range and decides the default type; an emitting pass fills the registers.
-/

namespace Coreboot.Mtrr

open Memrange WordAlignment

/-- `uint32_t`: an address in units of 4 KiB. -/
abbrev RangeAddr := BitVec 32

def mtrrTypeUncacheable : Tag := 0
def mtrrTypeWrcomb : Tag := 1
def mtrrTypeWrback : Tag := 6

/-- `MTRR_TAG_MASK`: the part of a tag that is a memory type. -/
def mtrrTagMask : Tag := (1#64 <<< 8) - 1

/-- `MTRR_RANGE_UC_USE_HOLE`: use the hole carving algorithm for the range if
the default type is uncacheable. -/
def mtrrRangeUcUseHole : Tag := 1#64 <<< 8

/-- `MTRR_MIN_ALIGN`, 64 MiB, as a power of two of pages. -/
def mtrrMinAlignShift : Nat := 14

def mtrrMinAlign : RangeAddr := 1#32 <<< mtrrMinAlignShift

def range1MB : RangeAddr := 0x100

def range4GB : RangeAddr := 0x100000

def physToRangeAddr (address : Address) : RangeAddr := (address >>> 12).setWidth 32

def rangeToPhysAddr (address : RangeAddr) : Address := address.setWidth 64 <<< 12

def rangeEntryBaseMtrrAddr (r : RangeEntry) : RangeAddr := physToRangeAddr (rangeEntryBase r)

def rangeEntryEndMtrrAddr (r : RangeEntry) : RangeAddr := physToRangeAddr (rangeEntryEnd r)

def rangeEntryMtrrType (r : RangeEntry) : Tag := r.tag &&& mtrrTagMask

/-- Find the most significant bit set; 0 if there is none. -/
def fms (value : RangeAddr) : Nat := value.toNat.log2

/-- Find the least significant bit set; 32 if there is none. -/
def fls (value : RangeAddr) : Nat := ((List.range 32).find? value.getLsbD).getD 32

structure Msr where
  lo : BitVec 32
  hi : BitVec 32
deriving DecidableEq, Repr

structure VarMtrrRegs where
  base : Msr
  mask : Msr
deriving DecidableEq, Repr

/-- `struct var_mtrr_state`; the address space is passed separately. -/
structure VarMtrrState where
  above4gb : Bool
  addressBits : Nat
  prepareMsrs : Bool
  mtrrIndex : Nat
  defMtrrType : Tag
  regs : Nat → VarMtrrRegs

def mtrrPhysMaskValid : BitVec 32 := 1#32 <<< 11

/-- The register pair for an aligned block of `size` pages. -/
def varMtrrRegs (addressBits : Nat) (base size : RangeAddr) (mtrrType : Tag) : VarMtrrRegs :=
  let rbase := rangeToPhysAddr base
  let rsize := -(rangeToPhysAddr size) &&& lowMask 64 addressBits
  { base :=
      { lo := rbase.setWidth 32 ||| mtrrType.setWidth 32
        hi := (rbase >>> 32).setWidth 32 }
    mask :=
      { lo := rsize.setWidth 32 ||| mtrrPhysMaskValid
        hi := (rsize >>> 32).setWidth 32 } }

/-- Fill the register at the current index, if the processor has it. -/
def prepVarMtrr (totalMtrrs : Nat) (state : VarMtrrState)
    (base size : RangeAddr) (mtrrType : Tag) : VarMtrrState :=
  if state.mtrrIndex ≥ totalMtrrs then state
  else
    { state with
      regs := Function.update state.regs state.mtrrIndex
        (varMtrrRegs state.addressBits base size mtrrType) }

/-- The largest block that may start at `base` and does not exceed `size`. -/
def mtrrSize (base size : RangeAddr) : RangeAddr :=
  if fls base > fms size then 1#32 <<< fms size else 1#32 <<< fls base

theorem fms_le {value : RangeAddr} (nonzero : value ≠ 0) : 2 ^ fms value ≤ value.toNat :=
  Nat.log2_self_le fun zero => nonzero (BitVec.eq_of_toNat_eq zero)

theorem fms_lt (value : RangeAddr) : fms value < 32 := by
  unfold fms
  rcases Nat.eq_zero_or_pos value.toNat with zero | positive
  · rw [zero]
    decide
  · exact (Nat.log2_lt (by omega)).mpr value.isLt

theorem toNat_mtrrSize (base size : RangeAddr) :
    (mtrrSize base size).toNat = 2 ^ min (fls base) (fms size) := by
  have power (exponent : Nat) (small : exponent < 32) :
      (1#32 <<< exponent).toNat = 2 ^ exponent := by
    rw [BitVec.toNat_shiftLeft, show (1#32).toNat = 1 from rfl, Nat.shiftLeft_eq, one_mul]
    exact Nat.mod_eq_of_lt (Nat.pow_lt_pow_right (by decide) small)
  have bound := fms_lt size
  unfold mtrrSize
  split
  · rename_i wide
    rw [power _ bound, min_eq_right (le_of_lt wide)]
  · rename_i narrow
    rw [power _ (by omega), min_eq_left (by omega)]

theorem mtrrSize_pos (base size : RangeAddr) : 0 < (mtrrSize base size).toNat := by
  rw [toNat_mtrrSize]
  exact Nat.two_pow_pos _

variable {size : RangeAddr}

theorem mtrrSize_le (base : RangeAddr)
    (nonzero : size ≠ 0) : (mtrrSize base size).toNat ≤ size.toNat := by
  rw [toNat_mtrrSize]
  exact le_trans (Nat.pow_le_pow_right (by decide) (min_le_right _ _)) (fms_le nonzero)

theorem toNat_sub_mtrrSize (base : RangeAddr) (nonzero : size ≠ 0) :
    (size - mtrrSize base size).toNat = size.toNat - (mtrrSize base size).toNat :=
  BitVec.toNat_sub_of_le (BitVec.le_def.mpr (mtrrSize_le base nonzero))

/-- Cut `[base, base + size)` into blocks and count them, filling registers
when the state asks for it. -/
def calcVarMtrrRange (totalMtrrs : Nat) (state : VarMtrrState)
    (base size : RangeAddr) (mtrrType : Tag) : VarMtrrState :=
  if size = 0 then state
  else
    let mtrrSize := mtrrSize base size
    let state :=
      if state.prepareMsrs then
        prepVarMtrr totalMtrrs state base mtrrSize mtrrType
      else state
    calcVarMtrrRange totalMtrrs { state with mtrrIndex := state.mtrrIndex + 1 }
      (base + mtrrSize) (size - mtrrSize) mtrrType
termination_by size.toNat
decreasing_by
  rename_i nonzero
  rw [toNat_sub_mtrrSize base nonzero]
  have positive := mtrrSize_pos base size
  have bound := mtrrSize_le base nonzero
  omega

/-- The arguments of one call of `calc_var_mtrr_range`. -/
structure RangeCall where
  base : RangeAddr
  size : RangeAddr
  mtrrType : Tag
deriving DecidableEq, Repr

def performCalls (totalMtrrs : Nat) (state : VarMtrrState)
    (calls : List RangeCall) : VarMtrrState :=
  calls.foldl (fun state call =>
    calcVarMtrrRange totalMtrrs state call.base call.size call.mtrrType) state

/-- The calls that `calc_var_mtrrs_with_hole` makes, in order, for the entry
`r` followed by `next`. -/
def withHoleCalls (above4gb : Bool) (defMtrrType : Tag) (r : RangeEntry)
    (next : Option RangeEntry) : List RangeCall :=
  let mtrrType := rangeEntryMtrrType r
  let a1 := rangeEntryBaseMtrrAddr r
  let a2 := rangeEntryEndMtrrAddr r
  -- The fixed MTRRs take precedence below 1 MiB.
  if a2 ≤ range1MB then []
  else
    let a1 := if a1 ≤ range1MB then 0 else a1
    if !above4gb ∧ a1 ≥ range4GB then []
    else
      let a2 := if !above4gb ∧ a2 > range4GB then range4GB else a2
      let b1 := a2
      -- The last entry above 4 GiB can grow to the alignment of its base.
      let b2 := (1#32 <<< fls a1) + a1
      if a1 ≥ range4GB ∧ next = none ∧ b2 ≥ a2 then
        [⟨a1, b2 - a1, mtrrType⟩]
      else
        let b2 := alignUp a2 mtrrMinAlignShift
        match next with
        | some next =>
          if rangeEntryMtrrType next ≠ defMtrrType ∨ rangeEntryEndMtrrAddr next < b2 then
            [⟨a1, a2 - a1, mtrrType⟩]
          else [⟨a1, b2 - a1, mtrrType⟩, ⟨b1, b2 - b1, defMtrrType⟩]
        | none => [⟨a1, b2 - a1, mtrrType⟩, ⟨b1, b2 - b1, defMtrrType⟩]

def calcVarMtrrsWithHole (totalMtrrs : Nat) (state : VarMtrrState)
    (r : RangeEntry) (next : Option RangeEntry) : VarMtrrState :=
  performCalls totalMtrrs state (withHoleCalls state.above4gb state.defMtrrType r next)

/-- The calls that `calc_var_mtrrs_without_hole` makes, in order. -/
def withoutHoleCalls (above4gb : Bool) (r : RangeEntry) : List RangeCall :=
  let mtrrType := rangeEntryMtrrType r
  let a1 := rangeEntryBaseMtrrAddr r
  let c2 := rangeEntryEndMtrrAddr r
  if c2 ≤ range1MB then []
  else
    let a1 := if a1 ≤ range1MB then 0 else a1
    if !above4gb ∧ a1 ≥ range4GB then []
    else
      let c2 := if !above4gb ∧ c2 > range4GB then range4GB else c2
      -- Don't align a range that is smaller than the minimum granularity.
      if c2 - a1 < mtrrMinAlign then [⟨a1, c2 - a1, mtrrType⟩]
      else
        let a2 := alignUp a1 mtrrMinAlignShift
        let b1 := a2
        let b2 := alignDown c2 mtrrMinAlignShift
        let c1 := b2
        [⟨a1, a2 - a1, mtrrType⟩, ⟨b1, b2 - b1, mtrrType⟩, ⟨c1, c2 - c1, mtrrType⟩]

def calcVarMtrrsWithoutHole (totalMtrrs : Nat) (state : VarMtrrState)
    (r : RangeEntry) : VarMtrrState :=
  performCalls totalMtrrs state (withoutHoleCalls state.above4gb r)

/-- The state of the counting pass, with the index reset for a new range. -/
def countingState (above4gb : Bool) (addressBits : Nat) (defMtrrType : Tag) : VarMtrrState where
  above4gb := above4gb
  addressBits := addressBits
  prepareMsrs := false
  mtrrIndex := 0
  defMtrrType := defMtrrType
  regs := fun _ => ⟨⟨0, 0⟩, ⟨0, 0⟩⟩

/-- What one counting pass leaves: the entries with their algorithm marked,
and the number of registers for either default type. -/
structure PassResult where
  entries : List RangeEntry
  wbDeftypeCount : Nat
  ucDeftypeCount : Nat
deriving DecidableEq, Repr

def ucNoHoleCount (totalMtrrs : Nat) (above4gb : Bool) (addressBits : Nat) (r : RangeEntry) : Nat :=
  (calcVarMtrrsWithoutHole totalMtrrs
    (countingState above4gb addressBits mtrrTypeUncacheable) r).mtrrIndex

/-- The hole calculation is done only for write-back; 64 is a count that is
unachievable. -/
def ucHoleCount (totalMtrrs : Nat) (above4gb : Bool) (addressBits : Nat)
    (r : RangeEntry) (next : Option RangeEntry) : Nat :=
  if rangeEntryMtrrType r = mtrrTypeWrback then
    (calcVarMtrrsWithHole totalMtrrs
      (countingState above4gb addressBits mtrrTypeUncacheable) r
      next).mtrrIndex
  else 64

def wbCount (totalMtrrs : Nat) (above4gb : Bool) (addressBits : Nat) (r : RangeEntry) : Nat :=
  (calcVarMtrrsWithoutHole totalMtrrs
    (countingState above4gb addressBits mtrrTypeWrback) r).mtrrIndex

def calcVarMtrrsPass (totalMtrrs : Nat) (above4gb : Bool) (addressBits : Nat) :
    List RangeEntry → PassResult
  | [] => ⟨[], 0, 0⟩
  | r :: rest =>
    let later := calcVarMtrrsPass totalMtrrs above4gb addressBits rest
    let mtrrType := rangeEntryMtrrType r
    let noHole := ucNoHoleCount totalMtrrs above4gb addressBits r
    let hole := ucHoleCount totalMtrrs above4gb addressBits r rest.head?
    -- Mark the entry with the optimal algorithm.
    let marked : RangeEntry :=
      if mtrrType ≠ mtrrTypeUncacheable ∧ ¬ noHole < hole then
        { r with tag := mtrrType ||| mtrrRangeUcUseHole }
      else r
    { entries := marked :: later.entries
      wbDeftypeCount :=
        (if mtrrType ≠ mtrrTypeWrback then
          wbCount totalMtrrs above4gb addressBits r else 0) +
        later.wbDeftypeCount
      ucDeftypeCount :=
        (if mtrrType ≠ mtrrTypeUncacheable then
          (if noHole < hole then noHole else hole) else 0) +
        later.ucDeftypeCount }

/-- What `calc_var_mtrrs` leaves behind: the address space, the counts of the
last pass and the returned default type. -/
structure CalcResult where
  addrSpace : Memranges
  wbDeftypeCount : Nat
  ucDeftypeCount : Nat
  defType : Tag

def calcVarMtrrs (totalMtrrs : Nat) (biosMtrrs : Int) (addrSpace : Memranges)
    (above4gb : Bool) (addressBits : Nat) : CalcResult :=
  let pass := calcVarMtrrsPass totalMtrrs above4gb addressBits addrSpace.entries
  let addrSpace := { addrSpace with entries := pass.entries }
  let (pass, addrSpace) :=
    if (pass.wbDeftypeCount : Int) > biosMtrrs ∧ (pass.ucDeftypeCount : Int) > biosMtrrs then
      let addrSpace := memrangesUpdateTag addrSpace mtrrTypeWrcomb mtrrTypeUncacheable
      let pass := calcVarMtrrsPass totalMtrrs above4gb addressBits addrSpace.entries
      (pass, { addrSpace with entries := pass.entries })
    else (pass, addrSpace)
  { addrSpace
    wbDeftypeCount := pass.wbDeftypeCount
    ucDeftypeCount := pass.ucDeftypeCount
    defType :=
      if pass.wbDeftypeCount < pass.ucDeftypeCount then mtrrTypeWrback
      else mtrrTypeUncacheable }

/-- The loop of `prepare_var_mtrrs` over the entries not yet visited. -/
def prepareVarMtrrsFrom (totalMtrrs : Nat) (defType : Tag)
    (state : VarMtrrState) : List RangeEntry → VarMtrrState
  | [] => state
  | r :: rest =>
    let state :=
      if rangeEntryMtrrType r = defType then state
      else if defType = mtrrTypeUncacheable ∧ r.tag &&& mtrrRangeUcUseHole ≠ 0 then
        calcVarMtrrsWithHole totalMtrrs state r rest.head?
      else calcVarMtrrsWithoutHole totalMtrrs state r
    prepareVarMtrrsFrom totalMtrrs defType state rest

/-- The part of `struct var_mtrr_solution` that `prepare_var_mtrrs` fills. -/
structure VarMtrrSolution where
  numUsed : Nat
  regs : Nat → VarMtrrRegs

def prepareVarMtrrs (totalMtrrs : Nat) (entries : List RangeEntry)
    (defType : Tag) (above4gb : Bool) (addressBits : Nat)
    (regs : Nat → VarMtrrRegs) : VarMtrrSolution :=
  let state := prepareVarMtrrsFrom totalMtrrs defType
    { above4gb, addressBits, prepareMsrs := true, mtrrIndex := 0,
      defMtrrType := defType, regs } entries
  { numUsed := state.mtrrIndex, regs := state.regs }

end Coreboot.Mtrr
