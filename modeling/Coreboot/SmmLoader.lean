import Coreboot.Rmodule
import Mathlib.Tactic.Ring
import Mathlib.Tactic.Linarith

/-!
# Loading of the SMM handler

The loader places the handler, the stacks, the stub, the save states and the
staggered entry points of the processors.  Sizes are of type `int`, and their sums
wrap.
-/

namespace Coreboot.Smm

open Rmodule

/-- The value of an `int` after a calculation. -/
def int32 (value : Int) : Int := (value + 2147483648) % 4294967296 - 2147483648

def smmDefaultBase : Int := 0x30000
def smmDefaultSize : Int := 0x10000
def smmEntryOffset : Int := 0x8000
def smmMinimumStackSize : Int := 32

def sizeofEntryIns : Int := 3

/-- `struct smm_loader_params`, with null pointers as `none`. -/
structure LoaderParams where
  stackTop : Option Int
  perCpuStackSize : Int
  numConcurrentStacks : Int
  perCpuSaveStateSize : Int
  numConcurrentSaveStates : Int
  handler : Option Int
  handlerArg : Option Int

/-- A jump instruction: its address and its relative target. -/
structure Jump where
  address : Int
  rel16 : Int
deriving DecidableEq, Repr

def smmPlaceJmpInstructions (stride target : Int) : Nat → Int → List Jump
  | 0, _ => []
  | num + 1, cur =>
    ⟨cur, (target - (sizeofEntryIns + cur)) % 65536⟩ ::
      smmPlaceJmpInstructions stride target num (cur - stride)

def smmStubPlaceStacks (base size : Int) (params : LoaderParams) : Option Int :=
  match params.stackTop with
  | some stackTop => some stackTop
  | none =>
    let totalStackSize := int32 (params.perCpuStackSize * params.numConcurrentStacks)
    if params.numConcurrentStacks < 1 then none
    else if totalStackSize > size then none
    else some (base + totalStackSize)

def smmStubPlaceStaggeredEntryPoints (base : Int) (params : LoaderParams)
    (stub : Header) (stubLoc : Int) : List Jump :=
  if params.numConcurrentSaveStates > 1 ∨ stub.entryOffset ≠ 0 then
    if stub.entryOffset = 0 then
      smmPlaceJmpInstructions params.perCpuSaveStateSize (stub.entry stubLoc)
        (params.numConcurrentSaveStates - 1).toNat
        (base + smmEntryOffset - params.perCpuSaveStateSize)
    else
      smmPlaceJmpInstructions params.perCpuSaveStateSize (stub.entry stubLoc)
        params.numConcurrentSaveStates.toNat (base + smmEntryOffset)
  else []

/-- Where the stub, the top of the stacks and the jumps are placed. -/
structure StubLayout where
  stubLoc : Int
  stacksTop : Int
  jumps : List Jump

/-- The room for a jump before the stub, rounded up to 16 bytes. -/
def entrySequenceSize (stub : Header) : Int := if stub.entryOffset ≠ 0 then 16 else 0

def smmModuleSetupStub (maxCpus : Int) (smbase : Int) (stub : Header)
    (params : LoaderParams) : Option StubLayout :=
  let totalSaveStateSize := int32 (params.perCpuSaveStateSize * params.numConcurrentSaveStates)
  let size := int32 (smmDefaultSize - totalSaveStateSize)
  let stubSize := int32 (stub.memorySize + entrySequenceSize stub)
  let stubLoc := smbase + smmEntryOffset + entrySequenceSize stub
  if params.numConcurrentStacks > maxCpus then none
  else if ¬ stub.Parses then none
  else if size ≤ smmEntryOffset then none
  else if params.perCpuStackSize ≤ smmMinimumStackSize ∨ params.perCpuStackSize % 4 ≠ 0 then none
  else if stubSize > int32 (size - smmEntryOffset) then none
  else
    -- The stacks end below the staggered entry points.
    let size :=
      if params.numConcurrentSaveStates > 1 then
        int32 (int32 (smmEntryOffset - totalSaveStateSize) + params.perCpuSaveStateSize)
      else smmEntryOffset
    (smmStubPlaceStacks smbase size params).map fun stacksTop =>
      ⟨stubLoc, stacksTop, smmStubPlaceStaggeredEntryPoints smbase params stub stubLoc⟩

/-- `smm_setup_relocation_handler`: the parameters as they are used, and the
layout. -/
def smmSetupRelocationHandler (maxCpus : Int) (stub : Header)
    (params : LoaderParams) : Option (LoaderParams × StubLayout) :=
  if params.numConcurrentSaveStates > 1 then none
  else if params.handler = none then none
  else
    let params :=
      if params.numConcurrentStacks = 0 then
        { params with numConcurrentStacks := maxCpus }
      else params
    (smmModuleSetupStub maxCpus smmDefaultBase stub params).map (params, ·)

/-- The space before the handler that aligns it. -/
def alignmentSize (base : Int) : Int :=
  let alignmentSize := rmoduleLoadAlignment - base % rmoduleLoadAlignment
  if alignmentSize ≠ rmoduleLoadAlignment then alignmentSize else 0

/-- `smm_load_module`: the parameters as they are used, the address of the handler
and the layout of the stub. -/
def smmLoadModule (maxCpus : Int) (handler stub : Header) (smram size : Int)
    (params : LoaderParams) : Option (LoaderParams × Int × StubLayout) :=
  if size ≤ smmDefaultSize then none
  else if ¬ handler.Parses then none
  else
    let totalStackSize := int32 (params.perCpuStackSize * params.numConcurrentStacks)
    let stackTop := if smram + size = 4294967296 then none else some (smram + size)
    let alignment := alignmentSize (smram + smmDefaultSize)
    let base := smram + smmDefaultSize + alignment
    let handlerSize := int32 (handler.memorySize + alignment)
    if int32 (int32 (totalStackSize + handlerSize) + smmDefaultSize) > size then
      none
    else
      let params := { params with
        stackTop := stackTop
        handler := some (handler.entry base)
        handlerArg := handler.parameters base }
      (smmModuleSetupStub maxCpus smram stub params).map (params, base, ·)

structure Area where
  start : Int
  stop : Int

def Area.Disjoint (first second : Area) : Prop :=
  ∀ address, first.start ≤ address → address < first.stop →
    second.start ≤ address → ¬ address < second.stop

def Area.Inside (area : Area) (start stop : Int) : Prop :=
  ∀ address, area.start ≤ address → address < area.stop → start ≤ address ∧ address < stop

def moduleArea (header : Header) (location : Int) : Area :=
  ⟨location, location + header.moduleProgramSize.toNat⟩

def stacksArea (params : LoaderParams) (stacksTop : Int) : Area :=
  ⟨stacksTop - params.perCpuStackSize * params.numConcurrentStacks, stacksTop⟩

/-- The save state of a processor, down from the end of the first 64 KiB. -/
def saveStateArea (smbase : Int) (params : LoaderParams) (cpu : Nat) : Area :=
  ⟨smbase + smmDefaultSize - (cpu + 1) * params.perCpuSaveStateSize,
    smbase + smmDefaultSize - cpu * params.perCpuSaveStateSize⟩

def jumpArea (jump : Jump) : Area := ⟨jump.address, jump.address + 3⟩

def entryAreas (smbase : Int) (stub : Header) (params : LoaderParams)
    (layout : StubLayout) : List Area :=
  moduleArea stub layout.stubLoc ::
    ((List.range params.numConcurrentSaveStates.toNat).map (saveStateArea smbase params) ++
      layout.jumps.map jumpArea)

def stubAreas (smbase : Int) (stub : Header) (params : LoaderParams)
    (layout : StubLayout) : List Area :=
  stacksArea params layout.stacksTop :: entryAreas smbase stub params layout

/-- The base of the code segment of a processor in system management mode. -/
def cpuSmbase (smbase : Int) (params : LoaderParams) (cpu : Nat) : Int :=
  smbase - cpu * params.perCpuSaveStateSize

/-- The address that a processor reaches from its entry point: the instruction
pointer has 16 bits. -/
def landing (jumps : List Jump) (base : Int) : Int :=
  match jumps.find? (fun jump => jump.address = base + smmEntryOffset) with
  | none => base + smmEntryOffset
  | some jump => base + (smmEntryOffset + sizeofEntryIns + jump.rel16) % 65536

/-- Every processor reaches the stub in its code segment. -/
def Reaches (smbase : Int) (stub : Header) (params : LoaderParams) (layout : StubLayout) : Prop :=
  ∀ cpu < params.numConcurrentSaveStates.toNat,
    landing layout.jumps (cpuSmbase smbase params cpu) = stub.entry layout.stubLoc ∧
      cpuSmbase smbase params cpu ≤ stub.entry layout.stubLoc ∧
        stub.entry layout.stubLoc < cpuSmbase smbase params cpu + 65536

/-- All areas lie in a region and are disjoint, and the processors reach the
stub. -/
structure Safe (areas : List Area) (start stop smbase : Int) (stub : Header)
    (params : LoaderParams) (layout : StubLayout) : Prop where
  disjoint : areas.Pairwise Area.Disjoint
  inside : ∀ area ∈ areas, area.Inside start stop
  reaches : Reaches smbase stub params layout

/-- The parameters that are meant: numbers that are not negative and whose
products are numbers of type `int`, and save states of at least 16 bytes. -/
structure Sensible (params : LoaderParams) : Prop where
  stackSize : 0 ≤ params.perCpuStackSize
  stackCount : 0 ≤ params.numConcurrentStacks
  stackProduct : params.perCpuStackSize * params.numConcurrentStacks < 2147483648
  saveState : 16 ≤ params.perCpuSaveStateSize
  saveStateCount : 0 ≤ params.numConcurrentSaveStates
  saveProduct : params.perCpuSaveStateSize * params.numConcurrentSaveStates < 2147483648

/-- The size of the stub with the jump before it is a number of type `int`. -/
def StubFits (stub : Header) : Prop :=
  (stub.moduleProgramSize.toNat : Int) + entrySequenceSize stub < 2147483648

/-- The sum that is compared with the size of the region is a number of type
`int`.  If the region ends with the address space, then the top of the stacks is
a null pointer, the stacks are placed below the entry points, and it is enough
that the handler fits alone. -/
def HandlerFits (handler : Header) (smram size : Int) (params : LoaderParams) : Prop :=
  params.perCpuStackSize * params.numConcurrentStacks +
      handler.moduleProgramSize.toNat +
        alignmentSize (smram + smmDefaultSize) + smmDefaultSize < 2147483648 ∨
    smram + size = 4294967296 ∧
      handler.moduleProgramSize.toNat +
        alignmentSize (smram + smmDefaultSize) + smmDefaultSize ≤ size

section Jumps

variable {stride target cur : Int} {num first cpu : Nat}

theorem int32_of_bounds {value : Int} (lower : -2147483648 ≤ value)
    (upper : value < 2147483648) : int32 value = value := by
  rw [int32]
  omega

def jumpAt (stride target cur : Int) (cpu : Nat) : Jump :=
  ⟨cur - cpu * stride, (target - (sizeofEntryIns + (cur - cpu * stride))) % 65536⟩

theorem smmPlaceJmpInstructions_eq (num : Nat) :
    smmPlaceJmpInstructions stride target num cur =
      (List.range num).map (jumpAt stride target cur) := by
  induction num generalizing cur with
  | zero => rfl
  | succ num ih =>
    rw [smmPlaceJmpInstructions, ih, List.range_succ_eq_map, List.map_cons, List.map_map]
    congr 1
    · rw [jumpAt, Nat.cast_zero, zero_mul, sub_zero]
    · apply List.map_congr_left
      intro cpu _
      have next : cur - stride - cpu * stride = cur - ((cpu + 1 : Nat) : Int) * stride := by
        push_cast
        ring
      rw [Function.comp_apply, jumpAt, jumpAt, next]

theorem find?_jumpAt (positive : 0 < stride) (low : first ≤ cpu) (high : cpu < first + num) :
    ((List.range num).map fun i => jumpAt stride target cur (first + i)).find?
        (fun jump => jump.address = cur - cpu * stride) =
      some (jumpAt stride target cur cpu) := by
  cases found : ((List.range num).map fun i =>
      jumpAt stride target cur (first + i)).find?
        (fun jump => jump.address = cur - cpu * stride) with
  | none =>
    have never := List.find?_eq_none.mp found (jumpAt stride target cur cpu)
      (List.mem_map.mpr ⟨cpu - first, List.mem_range.mpr (by omega), by
        rw [Nat.add_sub_cancel' low]⟩)
    exact absurd (decide_eq_true rfl) never
  | some jump =>
    have hit := List.find?_some found
    have address : jump.address = cur - cpu * stride := of_decide_eq_true hit
    obtain ⟨i, -, rfl⟩ := List.mem_map.mp (List.mem_of_find?_eq_some found)
    have same : ((first + i : Nat) : Int) = cpu := by
      have products : ((first + i : Nat) : Int) * stride = cpu * stride :=
        sub_right_injective address
      exact Int.eq_of_mul_eq_mul_right positive.ne' products
    rw [Int.ofNat.inj same]

theorem find?_jumpAt_of_lt (positive : 0 < stride) (low : cpu < first) :
    ((List.range num).map fun i => jumpAt stride target cur (first + i)).find?
        (fun jump => jump.address = cur - cpu * stride) = none := by
  rw [List.find?_eq_none]
  intro jump member found
  obtain ⟨i, -, rfl⟩ := List.mem_map.mp member
  have address : (jumpAt stride target cur (first + i)).address =
      cur - cpu * stride := of_decide_eq_true found
  have products : ((first + i : Nat) : Int) * stride = cpu * stride := sub_right_injective address
  have same := Int.ofNat.inj (Int.eq_of_mul_eq_mul_right positive.ne' products)
  omega

end Jumps

section Stub

variable {maxCpus smbase : Int} {stub : Header} {params : LoaderParams} {layout : StubLayout}

theorem entrySequenceSize_cases (stub : Header) :
    stub.entryOffset = 0 ∧ entrySequenceSize stub = 0 ∨
      stub.entryOffset ≠ 0 ∧ entrySequenceSize stub = 16 := by
  by_cases zero : stub.entryOffset = 0
  · exact .inl ⟨zero, if_neg (not_not.mpr zero)⟩
  · exact .inr ⟨zero, if_pos zero⟩

/-- What is known of an accepted stub. -/
structure Placed (smbase : Int) (stub : Header) (params : LoaderParams)
    (layout : StubLayout) : Prop where
  room : entrySequenceSize stub + stub.moduleProgramSize.toNat +
    params.perCpuSaveStateSize * params.numConcurrentSaveStates ≤ 32768
  below : params.perCpuSaveStateSize * params.numConcurrentSaveStates < 32768
  loc : layout.stubLoc = smbase + 32768 + entrySequenceSize stub
  jumps : layout.jumps = smmStubPlaceStaggeredEntryPoints smbase params stub layout.stubLoc
  stackPlace : params.stackTop = some layout.stacksTop ∨
    params.stackTop = none ∧ layout.stacksTop = smbase +
        params.perCpuStackSize * params.numConcurrentStacks ∧
      params.perCpuStackSize * params.numConcurrentStacks ≤ 32768 ∧
      (1 < params.numConcurrentSaveStates →
        params.perCpuStackSize * params.numConcurrentStacks +
          params.perCpuSaveStateSize * params.numConcurrentSaveStates -
            params.perCpuSaveStateSize ≤ 32768)

theorem smmModuleSetupStub_loc
    (accepted : smmModuleSetupStub maxCpus smbase stub params = some layout) :
    layout.stubLoc = smbase + 32768 + entrySequenceSize stub := by
  rw [smmModuleSetupStub] at accepted
  split_ifs at accepted
  · obtain ⟨stacksTop, -, rfl⟩ := Option.map_eq_some_iff.mp accepted
    rfl
  · obtain ⟨stacksTop, -, rfl⟩ := Option.map_eq_some_iff.mp accepted
    rfl

theorem memorySize_of_lt (small : stub.moduleProgramSize.toNat < 2147483648) :
    stub.memorySize = stub.moduleProgramSize.toNat :=
  BitVec.toInt_eq_toNat_of_lt (by omega)

theorem smmModuleSetupStub_spec (sensible : Sensible params) (fits : StubFits stub)
    (accepted : smmModuleSetupStub maxCpus smbase stub params = some layout) :
    Placed smbase stub params layout := by
  have loc := smmModuleSetupStub_loc accepted
  have sequence := entrySequenceSize_cases stub
  rw [StubFits] at fits
  have memory := @memorySize_of_lt stub (by omega)
  have save : 0 ≤ params.perCpuSaveStateSize * params.numConcurrentSaveStates :=
    mul_nonneg (by have := sensible.saveState; omega) sensible.saveStateCount
  have stack : 0 ≤ params.perCpuStackSize * params.numConcurrentStacks :=
    mul_nonneg sensible.stackSize sensible.stackCount
  have saveProduct := sensible.saveProduct
  have stackProduct := sensible.stackProduct
  have total : int32 (params.perCpuSaveStateSize *
      params.numConcurrentSaveStates) =
      params.perCpuSaveStateSize * params.numConcurrentSaveStates :=
    int32_of_bounds (by omega) (by omega)
  have size : int32 (smmDefaultSize - params.perCpuSaveStateSize *
      params.numConcurrentSaveStates) =
      65536 - params.perCpuSaveStateSize * params.numConcurrentSaveStates :=
    int32_of_bounds (by rw [smmDefaultSize]; omega) (by rw [smmDefaultSize]; omega)
  have whole : int32 (stub.memorySize + entrySequenceSize stub) =
      stub.moduleProgramSize.toNat + entrySequenceSize stub := by
    rw [memory]
    exact int32_of_bounds (by omega) (by omega)
  have stackTotal : int32 (params.perCpuStackSize * params.numConcurrentStacks) =
      params.perCpuStackSize * params.numConcurrentStacks :=
    int32_of_bounds (by omega) (by omega)
  rw [smmModuleSetupStub] at accepted
  rw [total, size, whole] at accepted
  obtain ⟨-, accepted⟩ := Option.ite_none_left_eq_some.mp accepted
  obtain ⟨-, accepted⟩ := Option.ite_none_left_eq_some.mp accepted
  obtain ⟨encroach, accepted⟩ := Option.ite_none_left_eq_some.mp accepted
  obtain ⟨-, accepted⟩ := Option.ite_none_left_eq_some.mp accepted
  obtain ⟨big, accepted⟩ := Option.ite_none_left_eq_some.mp accepted
  rw [smmEntryOffset] at encroach
  have upper : int32 (65536 - params.perCpuSaveStateSize *
      params.numConcurrentSaveStates - smmEntryOffset) =
      32768 - params.perCpuSaveStateSize * params.numConcurrentSaveStates := by
    rw [int32_of_bounds (by rw [smmEntryOffset]; omega)
      (by rw [smmEntryOffset]; omega), smmEntryOffset]
    omega
  rw [upper] at big
  obtain ⟨stacksTop, place, rfl⟩ := Option.map_eq_some_iff.mp accepted
  refine ⟨by omega, by omega, loc, rfl, ?_⟩
  rw [smmStubPlaceStacks] at place
  cases given : params.stackTop with
  | some stackTop =>
    rw [given] at place
    exact .inl place
  | none =>
    rw [given, stackTotal] at place
    obtain ⟨few, place⟩ := Option.ite_none_left_eq_some.mp place
    obtain ⟨high, place⟩ := Option.ite_none_left_eq_some.mp place
    have first := sensible.saveState
    refine .inr ⟨rfl, (Option.some.inj place).symm, ?_, fun states => ?_⟩
    · by_cases states : params.numConcurrentSaveStates > 1
      · have more : params.perCpuSaveStateSize * 1 ≤
            params.perCpuSaveStateSize * params.numConcurrentSaveStates :=
          mul_le_mul_of_nonneg_left states.le (by omega)
        rw [if_pos states, smmEntryOffset, int32, int32] at high
        omega
      · rw [if_neg states, smmEntryOffset] at high
        omega
    · have more : params.perCpuSaveStateSize * 1 ≤
          params.perCpuSaveStateSize * params.numConcurrentSaveStates :=
        mul_le_mul_of_nonneg_left states.le (by omega)
      rw [if_pos states, smmEntryOffset, int32, int32] at high
      omega

theorem entryOffset_of_inside (entry : stub.EntryInside)
    (small : stub.moduleProgramSize.toNat < 2147483648) :
    stub.entryOffset = (stub.moduleEntryPoint - stub.moduleLinkStartAddress).toNat := by
  rw [Header.EntryInside] at entry
  exact BitVec.toInt_eq_toNat_of_lt (by omega)

def firstJump (stub : Header) : Nat := if stub.entryOffset = 0 then 1 else 0

def jumpCount (stub : Header) (params : LoaderParams) : Nat :=
  params.numConcurrentSaveStates.toNat - firstJump stub

section

variable (placed : Placed smbase stub params layout)
include placed

theorem Placed.jumps_eq :
    layout.jumps = (List.range (jumpCount stub params)).map fun i =>
      jumpAt params.perCpuSaveStateSize (stub.entry layout.stubLoc)
        (smbase + 32768) (firstJump stub + i) := by
  rw [placed.jumps, smmStubPlaceStaggeredEntryPoints, jumpCount, firstJump]
  by_cases zero : stub.entryOffset = 0
  · rw [if_pos zero, if_pos zero]
    by_cases many : params.numConcurrentSaveStates > 1
    · rw [if_pos (.inl many), smmPlaceJmpInstructions_eq, smmEntryOffset]
      have count : (params.numConcurrentSaveStates - 1).toNat =
          params.numConcurrentSaveStates.toNat - 1 := by omega
      rw [count]
      apply List.map_congr_left
      intro cpu _
      have next : smbase + 32768 - params.perCpuSaveStateSize -
          cpu * params.perCpuSaveStateSize =
          smbase + 32768 - ((1 + cpu : Nat) : Int) * params.perCpuSaveStateSize := by
        push_cast
        ring
      rw [jumpAt, jumpAt, next]
    · have count : params.numConcurrentSaveStates.toNat - 1 = 0 := by omega
      rw [if_neg (not_or.mpr ⟨many, not_not.mpr zero⟩), count]
      rfl
  · rw [if_pos (.inr zero), if_neg zero, if_neg zero, smmPlaceJmpInstructions_eq, smmEntryOffset]
    apply List.map_congr_left
    intro cpu _
    rw [Nat.zero_add]

omit placed in
theorem saveStates_le (sensible : Sensible params) {cpu : Nat}
    (few : cpu < params.numConcurrentSaveStates.toNat) :
    (cpu + 1) * params.perCpuSaveStateSize ≤
      params.perCpuSaveStateSize * params.numConcurrentSaveStates := by
  have first := sensible.saveState
  rw [mul_comm]
  exact mul_le_mul_of_nonneg_left (by omega) (by omega)

theorem Placed.reaches (sensible : Sensible params) (fits : StubFits stub)
    (entry : stub.EntryInside) : Reaches smbase stub params layout := by
  intro cpu few
  have sequence := entrySequenceSize_cases stub
  have room := placed.room
  have first := sensible.saveState
  have states := saveStates_le sensible few
  rw [add_mul, one_mul] at states
  have before : 0 ≤ (cpu : Int) * params.perCpuSaveStateSize :=
    mul_nonneg (Int.natCast_nonneg cpu) (by omega)
  rw [StubFits] at fits
  have offset := entryOffset_of_inside entry (by omega)
  rw [Header.EntryInside] at entry
  have target : stub.entry layout.stubLoc = smbase + 32768 +
      entrySequenceSize stub + stub.entryOffset := by
    rw [Header.entry, Header.loadAddr, placed.loc, offset]
  rw [cpuSmbase]
  refine ⟨?_, by omega, by omega⟩
  rw [landing, placed.jumps_eq, smmEntryOffset]
  have same : smbase - cpu * params.perCpuSaveStateSize + 32768 =
      smbase + 32768 - cpu * params.perCpuSaveStateSize := by omega
  rw [same]
  by_cases low : firstJump stub ≤ cpu
  · rw [find?_jumpAt (by omega) low (by rw [jumpCount]; omega), jumpAt, sizeofEntryIns]
    dsimp only
    omega
  · rw [find?_jumpAt_of_lt (by omega) (by omega)]
    have zero : stub.entryOffset = 0 ∧ cpu = 0 := by
      rw [firstJump] at low
      split_ifs at low with zero
      · exact ⟨zero, by omega⟩
      · omega
    rw [zero.2, Nat.cast_zero, zero_mul]
    dsimp only
    omega

omit placed in
theorem Area.disjoint_of_le {first second : Area}
    (apart : first.stop ≤ second.start ∨ second.stop ≤ first.start) : first.Disjoint second := by
  intro address _ _ _ _
  omega

omit placed in
theorem Area.inside_of_le {area : Area} {start stop : Int} (above : start ≤ area.start)
    (below : area.stop ≤ stop) : area.Inside start stop := by
  intro address _ _
  omega

theorem Placed.mem_jumps {area : Area} (member : area ∈ layout.jumps.map jumpArea) :
    ∃ cpu, firstJump stub ≤ cpu ∧
      cpu < params.numConcurrentSaveStates.toNat ∧
        area = ⟨smbase + 32768 - cpu * params.perCpuSaveStateSize,
          smbase + 32768 - cpu * params.perCpuSaveStateSize + 3⟩ := by
  rw [placed.jumps_eq, List.map_map] at member
  obtain ⟨i, few, rfl⟩ := List.mem_map.mp member
  have bound := List.mem_range.mp few
  rw [jumpCount] at bound
  exact ⟨firstJump stub + i, by omega, by omega, rfl⟩

theorem Placed.bounds (sensible : Sensible params) :
    ∀ area ∈ entryAreas smbase stub params layout,
      area.stop ≤ smbase + 65536 ∧ smbase ≤ area.start ∧
        (smbase + 32768 ≤ area.start ∨ 1 < params.numConcurrentSaveStates ∧
          smbase + 32768 + params.perCpuSaveStateSize ≤ area.start +
            params.perCpuSaveStateSize * params.numConcurrentSaveStates) := by
  have sequence := entrySequenceSize_cases stub
  have room := placed.room
  have below := placed.below
  have first := sensible.saveState
  have save : 0 ≤ params.perCpuSaveStateSize * params.numConcurrentSaveStates :=
    mul_nonneg (by omega) sensible.saveStateCount
  rw [entryAreas, List.forall_mem_cons, List.forall_mem_append]
  refine ⟨?_, fun area member => ?_, fun area member => ?_⟩
  · rw [moduleArea, placed.loc]
    dsimp only
    omega
  · obtain ⟨cpu, few, rfl⟩ := List.mem_map.mp member
    have states := saveStates_le sensible (List.mem_range.mp few)
    rw [add_mul, one_mul] at states
    have before : 0 ≤ (cpu : Int) * params.perCpuSaveStateSize :=
      mul_nonneg (Int.natCast_nonneg cpu) (by omega)
    rw [saveStateArea, smmDefaultSize, add_mul, one_mul]
    dsimp only
    omega
  · obtain ⟨cpu, low, few, rfl⟩ := placed.mem_jumps member
    have states := saveStates_le sensible few
    rw [add_mul, one_mul] at states
    have before : 0 ≤ (cpu : Int) * params.perCpuSaveStateSize :=
      mul_nonneg (Int.natCast_nonneg cpu) (by omega)
    rcases Nat.eq_zero_or_pos cpu with rfl | positive
    · rw [Nat.cast_zero, zero_mul]
      dsimp only
      omega
    · dsimp only
      omega

theorem Placed.pairwise_entryAreas (sensible : Sensible params) :
    (entryAreas smbase stub params layout).Pairwise Area.Disjoint := by
  have sequence := entrySequenceSize_cases stub
  have room := placed.room
  have below := placed.below
  have first := sensible.saveState
  rw [entryAreas, List.pairwise_cons, List.pairwise_append]
  refine ⟨fun area member => ?_, ?_, ?_, fun state saved area member => ?_⟩
  · apply Area.disjoint_of_le
    rw [moduleArea, placed.loc]
    rcases List.mem_append.mp member with saved | jump
    · obtain ⟨cpu, few, rfl⟩ := List.mem_map.mp saved
      have states := saveStates_le sensible (List.mem_range.mp few)
      rw [saveStateArea, smmDefaultSize]
      dsimp only
      omega
    · obtain ⟨cpu, low, few, rfl⟩ := placed.mem_jumps jump
      have before : 0 ≤ (cpu : Int) * params.perCpuSaveStateSize :=
        mul_nonneg (Int.natCast_nonneg cpu) (by omega)
      right
      dsimp only
      rcases sequence with ⟨zero, none⟩ | ⟨some, sixteen⟩
      · have least : 1 * params.perCpuSaveStateSize ≤ cpu * params.perCpuSaveStateSize := by
          rw [firstJump, if_pos zero] at low
          exact mul_le_mul_of_nonneg_right (by omega) (by omega)
        omega
      · omega
  · rw [List.pairwise_map]
    refine List.pairwise_lt_range.imp fun {earlier later} order => ?_
    apply Area.disjoint_of_le
    have step : (earlier + 1) * params.perCpuSaveStateSize ≤ later * params.perCpuSaveStateSize :=
      mul_le_mul_of_nonneg_right (by omega) (by omega)
    rw [saveStateArea, saveStateArea]
    dsimp only
    omega
  · rw [placed.jumps_eq, List.map_map, List.pairwise_map]
    refine List.pairwise_lt_range.imp fun {earlier later} order => ?_
    apply Area.disjoint_of_le
    have step : ((firstJump stub + earlier : Nat) + 1) *
        params.perCpuSaveStateSize ≤
        (firstJump stub + later : Nat) * params.perCpuSaveStateSize :=
      mul_le_mul_of_nonneg_right (by omega) (by omega)
    rw [add_mul, one_mul] at step
    rw [Function.comp_apply, Function.comp_apply, jumpArea, jumpArea, jumpAt, jumpAt]
    dsimp only
    omega
  · apply Area.disjoint_of_le
    obtain ⟨cpu, few, rfl⟩ := List.mem_map.mp saved
    have states := saveStates_le sensible (List.mem_range.mp few)
    obtain ⟨other, low, few', rfl⟩ := placed.mem_jumps member
    have before : 0 ≤ (other : Int) * params.perCpuSaveStateSize :=
      mul_nonneg (Int.natCast_nonneg other) (by omega)
    right
    rw [saveStateArea, smmDefaultSize]
    dsimp only
    rcases sequence with ⟨zero, none⟩ | ⟨some, sixteen⟩
    · have least : 1 * params.perCpuSaveStateSize ≤ other * params.perCpuSaveStateSize := by
        rw [firstJump, if_pos zero] at low
        exact mul_le_mul_of_nonneg_right (by omega) (by omega)
      omega
    · omega

end

end Stub

section Safety

variable {maxCpus smbase : Int} {stub : Header} {params : LoaderParams} {layout : StubLayout}

theorem Placed.safe_of_below (placed : Placed smbase stub params layout)
    (sensible : Sensible params) (fits : StubFits stub) (entry : stub.EntryInside)
    (below : params.stackTop = none) {stop : Int} (room : smbase + 65536 ≤ stop) :
    Safe (stubAreas smbase stub params layout) smbase stop smbase stub params layout := by
  obtain ⟨-, top, small, states⟩ := placed.stackPlace.resolve_left (by
    rw [below]
    exact nofun)
  have bounds := placed.bounds sensible
  refine ⟨List.pairwise_cons.mpr ⟨fun area member => ?_, placed.pairwise_entryAreas sensible⟩,
    List.forall_mem_cons.mpr ⟨?_, fun area member => ?_⟩, placed.reaches sensible fits entry⟩
  · apply Area.disjoint_of_le
    left
    rw [stacksArea, top]
    dsimp only
    rcases (bounds area member).2.2 with high | ⟨many, high⟩
    · omega
    · have rest := states many
      omega
  · apply Area.inside_of_le
    · rw [stacksArea, top]
      dsimp only
      omega
    · rw [stacksArea, top]
      dsimp only
      omega
  · obtain ⟨high, low, -⟩ := bounds area member
    exact Area.inside_of_le low (by omega)

theorem stubFits_of_inside (entry : stub.EntryInside)
    (loc : layout.stubLoc = smbase + 32768 + entrySequenceSize stub) {stop : Int}
    (inside : ∀ area ∈ entryAreas smbase stub params layout, area.Inside smbase stop)
    (small : stop - smbase < 2147483648) : StubFits stub := by
  rw [Header.EntryInside] at entry
  have last := inside _ (.head _)
    (layout.stubLoc + stub.moduleProgramSize.toNat - 1)
    (by rw [moduleArea]; dsimp only; omega)
    (by rw [moduleArea]; dsimp only; omega)
  rw [StubFits]
  omega

variable {used : LoaderParams} {smram size base : Int} {handler : Header}

theorem smmSetupRelocationHandler_safe_iff
    (accepted : smmSetupRelocationHandler maxCpus stub params = some (used, layout))
    (below : params.stackTop = none) (sensible : Sensible used) (entry : stub.EntryInside) :
    Safe (stubAreas smmDefaultBase stub used layout) smmDefaultBase
        (smmDefaultBase + smmDefaultSize) smmDefaultBase stub used layout ↔
      StubFits stub := by
  rw [smmSetupRelocationHandler] at accepted
  obtain ⟨-, accepted⟩ := Option.ite_none_left_eq_some.mp accepted
  obtain ⟨-, accepted⟩ := Option.ite_none_left_eq_some.mp accepted
  obtain ⟨layout', setup, same⟩ := Option.map_eq_some_iff.mp accepted
  cases same
  have below' : (if params.numConcurrentStacks = 0 then
      { params with numConcurrentStacks := maxCpus } else params).stackTop =
      none := by
    split_ifs
    · exact below
    · exact below
  constructor
  · intro safe
    exact stubFits_of_inside entry (smmModuleSetupStub_loc setup)
      (List.forall_mem_cons.mp safe.inside).2
      (by rw [smmDefaultSize]; omega)
  · intro fits
    exact (smmModuleSetupStub_spec sensible fits setup).safe_of_below sensible
      fits entry below' le_rfl

theorem alignmentSize_bounds (base : Int) : 0 ≤ alignmentSize base ∧ alignmentSize base < 4096 := by
  rw [alignmentSize, rmoduleLoadAlignment]
  split_ifs
  · omega
  · omega

theorem smmLoadModule_spec
    (accepted : smmLoadModule maxCpus handler stub smram size params = some (used, base, layout)) :
    65536 < size ∧
      base = smram + 65536 + alignmentSize (smram + smmDefaultSize) ∧
      used = { params with
        stackTop := if smram + size = 4294967296 then none else some (smram + size)
        handler := some (handler.entry base)
        handlerArg := handler.parameters base } ∧
      int32 (int32 (int32 (params.perCpuStackSize *
        params.numConcurrentStacks) + int32 (handler.memorySize +
          alignmentSize (smram + smmDefaultSize))) + smmDefaultSize) ≤ size ∧
      smmModuleSetupStub maxCpus smram stub used = some layout := by
  rw [smmLoadModule] at accepted
  obtain ⟨large, accepted⟩ := Option.ite_none_left_eq_some.mp accepted
  obtain ⟨-, accepted⟩ := Option.ite_none_left_eq_some.mp accepted
  obtain ⟨room, accepted⟩ := Option.ite_none_left_eq_some.mp accepted
  obtain ⟨layout', setup, same⟩ := Option.map_eq_some_iff.mp accepted
  simp only [Prod.mk.injEq] at same
  obtain ⟨rfl, rfl, rfl⟩ := same
  rw [smmDefaultSize] at large
  exact ⟨by omega, rfl, rfl, not_lt.mp room, setup⟩

theorem smmLoadModule_safe_iff
    (accepted : smmLoadModule maxCpus handler stub smram size params = some (used, base, layout))
    (int : size < 2147483648) (sensible : Sensible params) (entry : stub.EntryInside)
    (handlerEntry : handler.EntryInside) :
    Safe (moduleArea handler base :: stubAreas smram stub used layout) smram
        (smram + size) smram stub used layout ↔
      StubFits stub ∧ HandlerFits handler smram size params := by
  obtain ⟨large, base', used', room, setup⟩ := smmLoadModule_spec accepted
  have align := alignmentSize_bounds (smram + smmDefaultSize)
  have stack : 0 ≤ params.perCpuStackSize * params.numConcurrentStacks :=
    mul_nonneg sensible.stackSize sensible.stackCount
  have product := sensible.stackProduct
  have sensible' : Sensible used := by
    rw [used']
    exact ⟨sensible.stackSize, sensible.stackCount, sensible.stackProduct,
      sensible.saveState, sensible.saveStateCount, sensible.saveProduct⟩
  rw [Header.EntryInside] at handlerEntry
  have top : smram + size ≠ 4294967296 → used.stackTop = some (smram + size) := by
    intro address
    rw [used']
    exact if_neg address
  have total : used.perCpuStackSize * used.numConcurrentStacks =
      params.perCpuStackSize * params.numConcurrentStacks := by
    rw [used']
  rw [HandlerFits]
  generalize alignmentSize (smram + smmDefaultSize) = gap at align base' room ⊢
  rw [smmDefaultSize] at room ⊢
  constructor
  · intro safe
    obtain ⟨own, rest⟩ := List.forall_mem_cons.mp safe.inside
    have fits : StubFits stub := stubFits_of_inside entry
      (smmModuleSetupStub_loc setup) (List.forall_mem_cons.mp rest).2 (by omega)
    have last := own (base + handler.moduleProgramSize.toNat - 1)
      (by rw [moduleArea]; dsimp only; omega)
      (by rw [moduleArea]; dsimp only; omega)
    refine ⟨fits, ?_⟩
    by_cases null : smram + size = 4294967296
    · right
      exact ⟨null, by omega⟩
    · left
      have place := (smmModuleSetupStub_spec sensible' fits setup).stackPlace
      rw [top null] at place
      have stacksTop : layout.stacksTop = smram + size :=
        place.elim (fun same => (Option.some.inj same).symm) (fun same =>
          absurd same.1 (Option.some_ne_none _))
      -- The last byte of the handler is not in the stacks.
      have apart := (List.pairwise_cons.mp safe.disjoint).1 _
        (.head _) (base + handler.moduleProgramSize.toNat - 1)
        (by rw [moduleArea]; dsimp only; omega)
        (by rw [moduleArea]; dsimp only; omega)
      rw [stacksArea, stacksTop, total] at apart
      dsimp only at apart
      by_contra wraps
      exact apart (by omega) (by omega)
  · rintro ⟨fits, handlerFits⟩
    have placed := smmModuleSetupStub_spec sensible' fits setup
    have bounds := placed.bounds sensible'
    have sum (small : params.perCpuStackSize * params.numConcurrentStacks +
        handler.moduleProgramSize.toNat + gap + 65536 < 2147483648) :
        params.perCpuStackSize * params.numConcurrentStacks +
          handler.moduleProgramSize.toNat + gap + 65536 ≤ size := by
      rw [@memorySize_of_lt handler (by omega), int32, int32, int32, int32] at room
      omega
    by_cases null : smram + size = 4294967296
    · have none : used.stackTop = none := by
        rw [used']
        exact if_pos null
      obtain ⟨disjoint, inside, reaches⟩ := placed.safe_of_below sensible' fits
        entry none (show smram + 65536 ≤ smram + size by omega)
      obtain ⟨-, stacksTop, small, -⟩ := placed.stackPlace.resolve_left (by
        rw [none]
        exact nofun)
      refine ⟨List.pairwise_cons.mpr ⟨?_, disjoint⟩, List.forall_mem_cons.mpr ⟨?_, inside⟩, reaches⟩
      · refine List.forall_mem_cons.mpr ⟨Area.disjoint_of_le (.inr ?_),
          fun area member => Area.disjoint_of_le (.inr ?_)⟩
        · rw [stacksArea, moduleArea, stacksTop]
          dsimp only
          omega
        · have below := (bounds area member).1
          rw [moduleArea]
          dsimp only
          omega
      · apply Area.inside_of_le
        · rw [moduleArea]
          dsimp only
          omega
        · rw [moduleArea]
          dsimp only
          omega
    · have room' := sum (handlerFits.resolve_right fun same => null same.1)
      have place := placed.stackPlace
      rw [top null] at place
      have stacksTop : layout.stacksTop = smram + size :=
        place.elim (fun same => (Option.some.inj same).symm) (fun same =>
          absurd same.1 (Option.some_ne_none _))
      have stackArea : stacksArea used layout.stacksTop = ⟨smram + size -
          params.perCpuStackSize * params.numConcurrentStacks, smram + size⟩ := by
        rw [stacksArea, stacksTop, total]
      refine ⟨List.pairwise_cons.mpr ⟨?_, List.pairwise_cons.mpr
        ⟨fun area member => ?_, placed.pairwise_entryAreas sensible'⟩⟩,
        List.forall_mem_cons.mpr ⟨?_, List.forall_mem_cons.mpr
        ⟨?_, fun area member => ?_⟩⟩, placed.reaches sensible' fits entry⟩
      · refine List.forall_mem_cons.mpr ⟨Area.disjoint_of_le (.inl ?_),
          fun area member => Area.disjoint_of_le (.inr ?_)⟩
        · rw [stackArea, moduleArea]
          dsimp only
          omega
        · have below := (bounds area member).1
          rw [moduleArea]
          dsimp only
          omega
      · apply Area.disjoint_of_le
        have below := (bounds area member).1
        rw [stackArea]
        dsimp only
        omega
      · apply Area.inside_of_le
        · rw [moduleArea]
          dsimp only
          omega
        · rw [moduleArea]
          dsimp only
          omega
      · apply Area.inside_of_le
        · rw [stackArea]
          dsimp only
          omega
        · rw [stackArea]
      · obtain ⟨below, above, -⟩ := bounds area member
        exact Area.inside_of_le above (by omega)

end Safety

/-- The areas of both loaders are safe exactly if the sums of sizes that they
compare are numbers of type `int`. -/
theorem smmLoaders_safe_iff (maxCpus : Int) (stub : Header) (params used : LoaderParams)
    (layout : StubLayout) (entry : stub.EntryInside) :
    (∀ handler smram size base,
      smmLoadModule maxCpus handler stub smram size params = some (used, base, layout) →
      size < 2147483648 → Sensible params → handler.EntryInside →
      (Safe (moduleArea handler base :: stubAreas smram stub used layout) smram
          (smram + size) smram stub used layout ↔
        StubFits stub ∧ HandlerFits handler smram size params)) ∧
    (smmSetupRelocationHandler maxCpus stub params = some (used, layout) →
      params.stackTop = none → Sensible used →
      (Safe (stubAreas smmDefaultBase stub used layout) smmDefaultBase
          (smmDefaultBase + smmDefaultSize) smmDefaultBase stub used layout ↔
        StubFits stub)) :=
  ⟨fun _ _ _ _ accepted int sensible handlerEntry =>
    smmLoadModule_safe_iff accepted int sensible entry handlerEntry,
    fun accepted below sensible =>
      smmSetupRelocationHandler_safe_iff accepted below sensible entry⟩

def plainModule (size : BitVec 32) : Header :=
  ⟨rmoduleMagic, rmoduleVersion1, 0, 0, 0, 0, 0, 0, size, 0, 0, 0, 0, 0⟩

def twoProcessors (perCpuStackSize : Int) : LoaderParams :=
  ⟨none, perCpuStackSize, 1, 1024, 2, none, none⟩

theorem sensible_twoProcessors {perCpuStackSize : Int} (positive : 0 ≤ perCpuStackSize)
    (small : perCpuStackSize < 2147483648) : Sensible (twoProcessors perCpuStackSize) := by
  refine ⟨positive, Int.one_nonneg, ?_, ?_, ?_, ?_⟩
  · show perCpuStackSize * 1 < 2147483648
    omega
  · show (16 : Int) ≤ 1024
    decide
  · show (0 : Int) ≤ 2
    decide
  · show (1024 : Int) * 2 < 2147483648
    decide

theorem smmLoaders_safe_twoProcessors :
    ∃ used base layout,
      smmLoadModule 4 (plainModule 4096) (plainModule 256) 2147483648 1048576
          (twoProcessors 1024) = some (used, base, layout) ∧
        (Safe (moduleArea (plainModule 4096) base ::
            stubAreas 2147483648 (plainModule 256) used layout) 2147483648
            (2147483648 + 1048576) 2147483648 (plainModule 256) used layout ↔
          StubFits (plainModule 256) ∧
            HandlerFits (plainModule 4096) 2147483648 1048576 (twoProcessors 1024)) :=
  ⟨_, _, _, rfl, (smmLoaders_safe_iff 4 (plainModule 256) (twoProcessors 1024)
    _ _ (by decide)).1 (plainModule 4096) 2147483648 1048576 _ rfl (by decide)
    (sensible_twoProcessors (by decide) (by decide)) (by decide)⟩

/-- A stack of nearly 2 GiB is accepted in a region of 1 MiB, since the sum of the
sizes is negative. -/
theorem not_safe_hugeStack : ¬ ∀ maxCpus handler stub smram size params used
    base layout,
    smmLoadModule maxCpus handler stub smram size params = some (used, base, layout) →
    size < 2147483648 → Sensible params → stub.EntryInside →
    handler.EntryInside →
    Safe (moduleArea handler base :: stubAreas smram stub used layout) smram
      (smram + size) smram stub used layout := by
  intro safe
  have inside := (safe 4 (plainModule 4096) (plainModule 256) 2147483648 1048576
    (twoProcessors 2147483644) _ _ _ rfl (by decide)
    (sensible_twoProcessors (by decide) (by decide)) (by decide)
    (by decide)).inside _ (List.mem_cons_of_mem _ List.mem_cons_self)
  exact absurd (inside 2000000 (by decide) (by decide)).1 (by decide)

end Coreboot.Smm
