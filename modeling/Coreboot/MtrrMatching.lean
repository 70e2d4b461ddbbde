import Coreboot.MtrrCounting

/-!
# What a register matches

A processor compares an address with the base of every variable MTRR under its mask.
-/

namespace Coreboot.Mtrr

open Memrange WordAlignment

def Msr.value (msr : Msr) : BitVec 64 := msr.hi ++ msr.lo

def VarMtrrRegs.Matches (regs : VarMtrrRegs) (address : Address) : Prop :=
  address &&& regs.mask.value = regs.base.value &&& regs.mask.value

instance (regs : VarMtrrRegs) (address : Address) : Decidable (regs.Matches address) :=
  inferInstanceAs (Decidable (_ = _))

def VarMtrrRegs.mtrrType (regs : VarMtrrRegs) : Tag := regs.base.value &&& mtrrTagMask

def VarMtrrSolution.matchingTypes (solution : VarMtrrSolution) (address : Address) : List Tag :=
  (((List.range solution.numUsed).map solution.regs).filter
    fun regs => regs.Matches address).map VarMtrrRegs.mtrrType

/-- The memory type of an address: uncacheable wins over every other match, and
the default type stands where nothing matches.  Other conflicting matches leave
the type undefined. -/
def VarMtrrSolution.effectiveType (solution : VarMtrrSolution) (defType : Tag)
    (address : Address) : Option Tag :=
  match solution.matchingTypes address with
  | [] => some defType
  | first :: rest =>
    if mtrrTypeUncacheable ∈ first :: rest then some mtrrTypeUncacheable
    else if ∀ other ∈ rest, other = first then some first
    else none

theorem effectiveType_eq_of_matchingTypes {solution : VarMtrrSolution} {defType expected : Tag}
    {address : Address} (present : expected ≠ defType → expected ∈ solution.matchingTypes address)
    (only : ∀ mtrrType ∈ solution.matchingTypes address,
      mtrrType = expected ∨ (expected = mtrrTypeUncacheable ∧
        mtrrTypeUncacheable ∈ solution.matchingTypes address)) :
    solution.effectiveType defType address = some expected := by
  unfold VarMtrrSolution.effectiveType
  generalize solution.matchingTypes address = types at present only
  cases types with
  | nil =>
    have same : expected = defType := by
      by_contra different
      exact absurd (present different) List.not_mem_nil
    rw [same]
  | cons first rest =>
    by_cases uncacheable : mtrrTypeUncacheable ∈ first :: rest
    · simp only [if_pos uncacheable]
      rcases only mtrrTypeUncacheable uncacheable with same | ⟨same, -⟩
      · rw [same]
      · rw [same]
    · have all (mtrrType : Tag) (inside : mtrrType ∈ first :: rest) : mtrrType = expected := by
        rcases only mtrrType inside with same | winner
        · exact same
        · exact absurd winner.2 uncacheable
      have rest_eq : ∀ other ∈ rest, other = first := fun other inRest => by
        rw [all other (.tail _ inRest), all first (List.mem_cons_self ..)]
      simp only [if_neg uncacheable, if_pos rest_eq]
      rw [all first (List.mem_cons_self ..)]

def RangeCall.Covers (call : RangeCall) (page : Nat) : Prop :=
  call.base.toNat ≤ page ∧ page < call.base.toNat + call.size.toNat

def RangeCall.IsBlock (block : RangeCall) : Prop :=
  ∃ power, block.size.toNat = 2 ^ power ∧ 2 ^ power ∣ block.base.toNat

def Assigns (calls : List RangeCall) (page : Nat) (mtrrType : Tag) : Prop :=
  ∃ call ∈ calls, call.Covers page ∧ call.mtrrType = mtrrType

@[simp]
theorem assigns_nil (page : Nat) (mtrrType : Tag) : ¬ Assigns [] page mtrrType := by
  simp [Assigns]

@[simp]
theorem assigns_cons (call : RangeCall) (calls : List RangeCall) (page : Nat) (mtrrType : Tag) :
    Assigns (call :: calls) page mtrrType ↔
      (call.Covers page ∧ call.mtrrType = mtrrType) ∨ Assigns calls page mtrrType := by
  simp [Assigns]

@[simp]
theorem assigns_append (first second : List RangeCall) (page : Nat) (mtrrType : Tag) :
    Assigns (first ++ second) page mtrrType ↔
      Assigns first page mtrrType ∨ Assigns second page mtrrType := by
  simp [Assigns, or_and_right, exists_or]

variable {size : RangeAddr} {block : RangeCall} {index power : Nat} {mtrrType : Tag}
  {totalMtrrs : Nat} {entries : List RangeEntry} {calls : List RangeCall} {base : RangeAddr}
  {page : RangeAddr}

theorem assigns_rangeBlocks (fits : base.toNat + size.toNat < 2 ^ 32)
    (mtrrType : Tag) (page : Nat) (other : Tag) :
    Assigns (rangeBlocks base size mtrrType) page other ↔
      RangeCall.Covers ⟨base, size, mtrrType⟩ page ∧ mtrrType = other := by
  induction base, size using block_induction with
  | done base =>
    rw [rangeBlocks_zero]
    simp [RangeCall.Covers]
  | block base size nonzero ih =>
    have bound := mtrrSize_le base nonzero
    have advanced : (base + mtrrSize base size).toNat =
        base.toNat + (mtrrSize base size).toNat := by
      rw [BitVec.toNat_add]
      exact Nat.mod_eq_of_lt (by omega)
    have shrunk := toNat_sub_mtrrSize base nonzero
    have later := ih (by rw [advanced, shrunk]; omega)
    rw [rangeBlocks_of_ne_zero base nonzero, assigns_cons, later]
    simp only [RangeCall.Covers, advanced, shrunk]
    by_cases same : mtrrType = other
    · simp only [same, and_true]
      omega
    · simp [same]

theorem isBlock_rangeBlocks (inside : block ∈ rangeBlocks base size mtrrType) : block.IsBlock := by
  induction base, size using block_induction with
  | done base =>
    rw [rangeBlocks_zero] at inside
    cases inside
  | block base size nonzero ih =>
    rw [rangeBlocks_of_ne_zero base nonzero] at inside
    rcases List.mem_cons.mp inside with rfl | later
    · refine ⟨min (fls base) (fms size), toNat_mtrrSize base size, ?_⟩
      have small : min (fls base) (fms size) ≤ 32 := (min_le_left _ _).trans (fls_le base)
      exact (two_pow_dvd_iff_le_fls base small).mpr (min_le_left _ _)
    · exact ih later

/-- The range does not wrap around, lies in a space of `2 ^ space` pages and
has a memory type. -/
structure RangeCall.Fits (space : Nat) (call : RangeCall) : Prop where
  noWrap : call.base.toNat + call.size.toNat < 2 ^ 32
  inSpace : call.base.toNat + call.size.toNat ≤ 2 ^ space
  isType : call.mtrrType.toNat < 2 ^ 8

theorem assigns_callBlocks {space : Nat}
    (fit : ∀ call ∈ calls, call.Fits space) (page : Nat) (mtrrType : Tag) :
    Assigns (callBlocks calls) page mtrrType ↔ Assigns calls page mtrrType := by
  induction calls with
  | nil => rfl
  | cons call rest ih =>
    have blocks : callBlocks (call :: rest) =
        rangeBlocks call.base call.size call.mtrrType ++ callBlocks rest :=
      List.flatMap_cons
    rw [blocks, assigns_append, assigns_cons,
      assigns_rangeBlocks (fit call (List.mem_cons_self ..)).noWrap,
      ih (List.forall_mem_cons.mp fit).2]

theorem RangeCall.IsBlock.covers_base (isBlock : block.IsBlock) :
    block.Covers block.base.toNat := by
  obtain ⟨power, isPower, -⟩ := isBlock
  have positive := Nat.two_pow_pos power
  exact ⟨le_rfl, by omega⟩

/-- A block the registers can hold. -/
structure RangeCall.FitsRegs (space : Nat) (block : RangeCall) : Prop where
  isBlock : block.IsBlock
  inSpace : block.base.toNat < 2 ^ space
  isType : block.mtrrType.toNat < 2 ^ 8

theorem fitsRegs_callBlocks {space : Nat}
    (fit : ∀ call ∈ calls, call.Fits space) (inside : block ∈ callBlocks calls) :
    block.FitsRegs space := by
  have isBlock : block.IsBlock := by
    obtain ⟨call, -, inBlocks⟩ := List.mem_flatMap.mp inside
    exact isBlock_rangeBlocks inBlocks
  obtain ⟨call, inCalls, covers, sameType⟩ :=
    (assigns_callBlocks fit _ _).mp ⟨block, inside, isBlock.covers_base, rfl⟩
  obtain ⟨-, inSpace, isType⟩ := fit call inCalls
  exact ⟨isBlock, covers.2.trans_le inSpace, sameType ▸ isType⟩

def blockRegs (addressBits : Nat) (block : RangeCall) : VarMtrrRegs :=
  varMtrrRegs addressBits block.base block.size block.mtrrType

theorem getLsbD_rangeToPhysAddr (page : RangeAddr) (inWidth : index < 64) :
    (rangeToPhysAddr page).getLsbD index = (decide (12 ≤ index) && page.getLsbD (index - 12)) := by
  rw [rangeToPhysAddr, BitVec.getLsbD_shiftLeft, BitVec.getLsbD_setWidth]
  by_cases low : index < 12
  · simp [low, show ¬ 12 ≤ index by omega]
  · simp [low, inWidth, show 12 ≤ index by omega, show index - 12 < 64 by omega]

theorem getLsbD_neg_shift (inWidth : index < 64) :
    (-(1#64 <<< power)).getLsbD index = decide (power ≤ index) := by
  have complement : -(1#64 <<< power) = ~~~(lowMask 64 power) := by
    rw [lowMask, ← BitVec.not_neg, BitVec.not_not]
  rw [complement, BitVec.getLsbD_not, getLsbD_lowMask]
  by_cases low : index < power
  · simp [low, inWidth]
  · simp [low, inWidth, show power ≤ index by omega]

theorem rangeToPhysAddr_eq_shift (isPower : size.toNat = 2 ^ power) :
    rangeToPhysAddr size = 1#64 <<< (12 + power) := by
  have small : power < 32 := by
    have bound := size.isLt
    rw [isPower] at bound
    exact (Nat.pow_lt_pow_iff_right (by decide)).mp bound
  apply BitVec.eq_of_toNat_eq
  rw [rangeToPhysAddr, BitVec.toNat_shiftLeft, BitVec.toNat_shiftLeft, BitVec.toNat_setWidth,
    isPower, Nat.shiftLeft_eq, Nat.shiftLeft_eq, pow_add]
  have fits : 2 ^ power < 2 ^ 64 := Nat.pow_lt_pow_right (by decide) (by omega)
  rw [Nat.mod_eq_of_lt fits]
  simp [Nat.mul_comm]

/-- A mask register compares the bits from the block size up to the width of
the physical address space, and the valid bit. -/
theorem getLsbD_varMtrrRegs_mask (isPower : size.toNat = 2 ^ power) (addressBits : Nat)
    (base : RangeAddr) (mtrrType : Tag) (inWidth : index < 64) :
    (varMtrrRegs addressBits base size mtrrType).mask.value.getLsbD index =
      (decide (index = 11) || (decide (12 + power ≤ index) && decide (index < addressBits))) := by
  have valid (low : index < 32) : mtrrPhysMaskValid.getLsbD index = decide (index = 11) := by
    rw [mtrrPhysMaskValid, BitVec.getLsbD_shiftLeft, BitVec.getLsbD_one]
    by_cases below : index < 11
    · simp [below, show index ≠ 11 by omega]
    · simp [below, low]
      omega
  have negated : (-(1#64 <<< (12 + power))).getLsbD index = _ := getLsbD_neg_shift inWidth
  rw [Msr.value, BitVec.getLsbD_append, varMtrrRegs]
  simp only [rangeToPhysAddr_eq_shift isPower]
  by_cases low : index < 32
  · simp only [low, decide_true, if_true, BitVec.getLsbD_or, BitVec.getLsbD_setWidth,
      BitVec.getLsbD_and, Bool.true_and, negated, getLsbD_lowMask, inWidth, valid low]
    rw [Bool.or_comm]
  · have shifted : 32 + (index - 32) = index := by omega
    simp only [low, decide_false, if_false, BitVec.getLsbD_setWidth,
      BitVec.getLsbD_ushiftRight, BitVec.getLsbD_and, shifted, negated,
      getLsbD_lowMask, inWidth, show index - 32 < 32 by omega,
      show index ≠ 11 by omega, decide_true, decide_false, Bool.true_and,
      Bool.false_or]

theorem getLsbD_of_type (isType : mtrrType.toNat < 2 ^ 8)
    (high : 8 ≤ index) : mtrrType.getLsbD index = false :=
  Nat.testBit_lt_two_pow (isType.trans_le (Nat.pow_le_pow_right (by decide) high))

theorem getLsbD_varMtrrRegs_base (isType : mtrrType.toNat < 2 ^ 8)
    (addressBits : Nat) (base size : RangeAddr) (inWidth : index < 64) :
    (varMtrrRegs addressBits base size mtrrType).base.value.getLsbD index =
      ((rangeToPhysAddr base).getLsbD index || mtrrType.getLsbD index) := by
  rw [Msr.value, BitVec.getLsbD_append, varMtrrRegs]
  by_cases low : index < 32
  · simp [low]
  · have noType : mtrrType.getLsbD index = false := getLsbD_of_type isType (by omega)
    have shifted : 32 + (index - 32) = index := by omega
    simp [low, shifted, noType]
    omega

theorem mtrrType_varMtrrRegs (isType : mtrrType.toNat < 2 ^ 8) (addressBits : Nat)
    (base size : RangeAddr) : (varMtrrRegs addressBits base size mtrrType).mtrrType = mtrrType := by
  apply BitVec.eq_of_getLsbD_eq
  intro index inWidth
  have tagMask : mtrrTagMask.getLsbD index = decide (index < 8) := by
    rw [show mtrrTagMask = lowMask 64 8 from rfl, getLsbD_lowMask]
    simp [inWidth]
  rw [VarMtrrRegs.mtrrType, BitVec.getLsbD_and, tagMask,
    getLsbD_varMtrrRegs_base isType _ _ _ inWidth, getLsbD_rangeToPhysAddr _ inWidth]
  by_cases low : index < 8
  · simp [low, show ¬ 12 ≤ index by omega]
  · simp [low, getLsbD_of_type isType (show 8 ≤ index by omega)]

theorem div_two_pow_eq_iff_testBit {first second : Nat} :
    first / 2 ^ power = second / 2 ^ power ↔
      ∀ index, power ≤ index → first.testBit index = second.testBit index := by
  constructor
  · intro same index high
    have bits := congrArg (Nat.testBit · (index - power)) same
    simpa [Nat.testBit_div_two_pow, Nat.sub_add_cancel high] using bits
  · intro same
    apply Nat.eq_of_testBit_eq
    intro index
    rw [Nat.testBit_div_two_pow, Nat.testBit_div_two_pow]
    exact same _ (by omega)

theorem matches_blockRegs {addressBits : Nat} (fits : block.FitsRegs (addressBits - 12))
    (wide : 12 ≤ addressBits) (pageBelow : page.toNat < 2 ^ (addressBits - 12)) :
    (blockRegs addressBits block).Matches (rangeToPhysAddr page) ↔ block.Covers page.toNat := by
  obtain ⟨⟨power, isPower, aligned⟩, baseBelow, isType⟩ := fits
  have sameBlock : block.Covers page.toNat ↔
      page.toNat / 2 ^ power = block.base.toNat / 2 ^ power := by
    obtain ⟨quotient, multiple⟩ := aligned
    have positive : 0 < 2 ^ power := Nat.two_pow_pos power
    rw [RangeCall.Covers, isPower, multiple, Nat.mul_div_cancel_left _ positive,
      Nat.div_eq_iff positive]
    rw [Nat.mul_comm]
    omega
  rw [sameBlock, div_two_pow_eq_iff_testBit, VarMtrrRegs.Matches, blockRegs]
  have highPage {index : Nat} (high : addressBits - 12 ≤ index) : page.getLsbD index = false :=
    Nat.testBit_lt_two_pow (pageBelow.trans_le (Nat.pow_le_pow_right (by decide) high))
  have highBase {index : Nat} (high : addressBits - 12 ≤ index) :
      block.base.getLsbD index = false :=
    Nat.testBit_lt_two_pow (baseBelow.trans_le (Nat.pow_le_pow_right (by decide) high))
  constructor
  · intro agree index high
    by_cases compared : index + 12 < addressBits ∧ index < 32
    · have inWidth : index + 12 < 64 := by omega
      have bit := congrArg (BitVec.getLsbD · (index + 12)) agree
      simp only [BitVec.getLsbD_and,
        getLsbD_varMtrrRegs_mask isPower _ _ _ inWidth,
        getLsbD_varMtrrRegs_base isType _ _ _ inWidth,
        getLsbD_rangeToPhysAddr _ inWidth,
        getLsbD_of_type isType (show 8 ≤ index + 12 by omega)] at bit
      have same : page.getLsbD index = block.base.getLsbD index := by
        simpa [compared.1, show 12 + power ≤ index + 12 by omega] using bit
      exact same
    · by_cases inWord : index < 32
      · exact (highPage (by omega)).trans (highBase (by omega)).symm
      · exact (BitVec.getLsbD_of_ge page index (by omega)).trans
          (BitVec.getLsbD_of_ge block.base index (by omega)).symm
  · intro agree
    apply BitVec.eq_of_getLsbD_eq
    intro index inWidth
    rw [BitVec.getLsbD_and, BitVec.getLsbD_and, getLsbD_varMtrrRegs_mask isPower _ _ _ inWidth,
      getLsbD_varMtrrRegs_base isType _ _ _ inWidth, getLsbD_rangeToPhysAddr _ inWidth,
      getLsbD_rangeToPhysAddr _ inWidth]
    by_cases compared : 12 + power ≤ index
    · have bit := agree (index - 12) (by omega)
      have bit : page.getLsbD (index - 12) = block.base.getLsbD (index - 12) := bit
      rw [bit, getLsbD_of_type isType (by omega), Bool.or_false]
    · by_cases valid : index = 11
      · rw [getLsbD_of_type isType (by omega)]
        simp [valid]
      · simp [valid, compared]

theorem regs_foldl_fillBlock_of_lt (totalMtrrs : Nat) (state : VarMtrrState)
    (blocks : List RangeCall) (before : index < state.mtrrIndex) :
    (blocks.foldl (fillBlock totalMtrrs) state).regs index = state.regs index := by
  induction blocks generalizing state with
  | nil => rfl
  | cons block rest ih =>
    rw [List.foldl_cons, ih]
    · unfold fillBlock prepVarMtrr
      split_ifs
      · rfl
      · exact Function.update_of_ne before.ne _ _
      · rfl
    · unfold fillBlock prepVarMtrr
      split_ifs <;> exact Nat.lt_succ_of_lt before

theorem regs_foldl_fillBlock {state : VarMtrrState}
    (prepares : state.prepareMsrs = true) {blocks : List RangeCall}
    (enough : state.mtrrIndex + blocks.length ≤ totalMtrrs) {index : Nat}
    (inside : index < blocks.length) :
    (blocks.foldl (fillBlock totalMtrrs) state).regs (state.mtrrIndex + index) =
      blockRegs state.addressBits blocks[index] := by
  induction blocks generalizing state index with
  | nil => exact absurd inside (Nat.not_lt_zero _)
  | cons block rest ih =>
    rw [List.length_cons] at enough inside
    have filled : fillBlock totalMtrrs state block =
        { state with
          mtrrIndex := state.mtrrIndex + 1
          regs := Function.update state.regs state.mtrrIndex
            (blockRegs state.addressBits block) } := by
      rw [fillBlock, if_pos prepares, prepVarMtrr, if_neg (by omega)]
      rfl
    rw [List.foldl_cons, filled]
    cases index with
    | zero =>
      rw [regs_foldl_fillBlock_of_lt _ _ _ (Nat.lt_succ_self _)]
      exact Function.update_self ..
    | succ index =>
      let next : VarMtrrState :=
        { state with
          mtrrIndex := state.mtrrIndex + 1
          regs := Function.update state.regs state.mtrrIndex (blockRegs state.addressBits block) }
      have nextIndex : next.mtrrIndex = state.mtrrIndex + 1 := rfl
      have later := @ih next prepares (by omega) index (by omega)
      rw [nextIndex] at later
      rw [← Nat.add_assoc, Nat.add_right_comm]
      exact later

theorem map_regs_prepareVarMtrrs {defType : Tag}
    {above4gb : Bool} {addressBits : Nat} {regs : Nat → VarMtrrRegs}
    (enough : (solutionBlocks above4gb defType entries).length ≤ totalMtrrs) :
    let solution := prepareVarMtrrs totalMtrrs entries defType above4gb addressBits regs
    (List.range solution.numUsed).map solution.regs =
      (solutionBlocks above4gb defType entries).map (blockRegs addressBits) := by
  intro solution
  let start : VarMtrrState :=
    { above4gb, addressBits, prepareMsrs := true, mtrrIndex := 0, defMtrrType := defType, regs }
  have used : solution.numUsed = _ := numUsed_eq_length totalMtrrs entries
    defType above4gb addressBits regs
  have emitted := prepareVarMtrrsFrom_eq totalMtrrs (rfl : start.defMtrrType = defType) entries
  have filled : solution.regs = ((solutionBlocks above4gb defType
      entries).foldl (fillBlock totalMtrrs) start).regs :=
    congrArg VarMtrrState.regs emitted
  rw [used, filled]
  apply List.ext_getElem (by simp)
  intro index inRange inBlocks
  rw [List.getElem_map, List.getElem_map, List.getElem_range]
  rw [List.length_map] at inBlocks
  have prepares : start.prepareMsrs = true := rfl
  have register := regs_foldl_fillBlock prepares (by simpa [start] using enough) inBlocks
  simpa [start] using register

theorem mem_matchingTypes {defType : Tag}
    {above4gb : Bool} {addressBits : Nat} (regs : Nat → VarMtrrRegs)
    (enough : (solutionBlocks above4gb defType entries).length ≤ totalMtrrs)
    (fit : ∀ block ∈ solutionBlocks above4gb defType entries, block.FitsRegs (addressBits - 12))
    (wide : 12 ≤ addressBits) (pageBelow : page.toNat < 2 ^ (addressBits - 12))
    (mtrrType : Tag) :
    mtrrType ∈ (prepareVarMtrrs totalMtrrs entries defType above4gb
        addressBits regs).matchingTypes (rangeToPhysAddr page) ↔
      Assigns (solutionBlocks above4gb defType entries) page.toNat mtrrType := by
  have registers := @map_regs_prepareVarMtrrs totalMtrrs entries defType
    above4gb addressBits regs enough
  simp only at registers
  rw [VarMtrrSolution.matchingTypes, registers]
  simp only [List.mem_map, List.mem_filter, decide_eq_true_eq]
  constructor
  · rintro ⟨-, ⟨⟨block, inside, rfl⟩, agrees⟩, rfl⟩
    have fits := fit block inside
    exact ⟨block, inside, (matches_blockRegs fits wide pageBelow).mp agrees,
      (mtrrType_varMtrrRegs fits.isType _ _ _).symm⟩
  · rintro ⟨block, inside, covers, rfl⟩
    have fits := fit block inside
    exact ⟨_, ⟨⟨block, inside, rfl⟩, (matches_blockRegs fits wide pageBelow).mpr covers⟩,
      mtrrType_varMtrrRegs fits.isType _ _ _⟩

end Coreboot.Mtrr
