import Coreboot.Realloc

/-!
# The sizes of requests

A request for some bytes passes through an `int`.
-/

namespace Coreboot.Malloc

open ByteMemory Cbfs SteppedRun

/-- `struct align_region_t` and where it is.  The record is kept apart from the memory. -/
structure Region where
  node : Nat
  alignment : Int
  start : Nat
  size : Int
  startData : Nat
  free : Int

structure Heap where
  memory : Memory
  regions : List Region

/-- The machine: the bits of a `size_t`, and `sizeof(struct align_region_t)`. -/
structure Machine where
  width : Nat
  nodeSize : Nat

def Machine.Valid (machine : Machine) : Prop := machine = ⟨32, 24⟩ ∨ machine = ⟨64, 48⟩

/-- An `int` that is compared with a `size_t`. -/
def Machine.cast (machine : Machine) (value : Int) : Nat := (value % 2 ^ machine.width).toNat

def wrapInt (value : Int) : Int := Int.bmod value (2 ^ 32)

def Calloc (type : MemoryType) (machine : Machine) (nmemb size : Nat) (memory : Memory)
    (result : Option (Memory × Option Nat)) : Prop :=
  let total := nmemb * size % 2 ^ machine.width
  ∃ allocated, Alloc type (toInt32 total) memory allocated ∧
    result = allocated.map fun (memory, ptr) =>
      match ptr with
      | none => (memory, none)
      | some ptr => (fill memory ptr total 0, some ptr)

def Region.Contains (region : Region) (address : Nat) : Prop :=
  region.startData ≤ address ∧ (address : Int) < region.startData + region.size

/-- `free` of an address that is in no aligned region. -/
def FreeApart (type : MemoryType) (heap : Heap) (ptr : Nat) (result : Heap) : Prop :=
  (∀ region ∈ heap.regions, ¬ region.Contains ptr) ∧
    ∃ memory, Free type heap.memory ptr memory ∧ result = ⟨memory, heap.regions⟩

/-- `ALIGN_UP` of an address. -/
def alignAddress (machine : Machine) (address : Nat) (alignment : Int) : Nat :=
  let mask := machine.cast (alignment - 1)
  let sum := (address + mask) % 2 ^ machine.width
  -- `sum & ~mask`
  sum - (sum &&& mask)

def regionSize (alignment numElements : Int) (size : Nat) : Int :=
  if numElements ≠ 0 then wrapInt (numElements * alignment) else toInt32 size

/-- The region of `allocate_region`, with the places of the record and of the block. -/
def newRegion (machine : Machine) (alignment numElements : Int) (size node start : Nat) :
    Region where
  node := node
  alignment := if numElements ≠ 0 then alignment else 0
  start := start
  size := regionSize alignment numElements size
  startData := alignAddress machine (start + numElements.toNat) alignment
  free := numElements

def AllocateRegion (type : MemoryType) (machine : Machine) (alignment numElements : Int)
    (size : Nat) (heap : Heap) (result : Option (Heap × Option Region)) : Prop :=
  ∃ first, Alloc type machine.nodeSize heap.memory first ∧
    match first with
    | none => result = none
    | some (memory, none) => result = some (⟨memory, heap.regions⟩, none)
    | some (memory, some node) =>
      ∃ second, Alloc type
          (wrapInt (regionSize alignment numElements size + alignment + numElements))
          (fill memory node machine.nodeSize 0) second ∧
        match second with
        | none => result = none
        | some (memory, none) =>
          ∃ freed, FreeApart type ⟨memory, heap.regions⟩ node freed ∧ result = some (freed, none)
        | some (memory, some start) =>
          let region := newRegion machine alignment numElements size node start
          result = some (⟨fill memory start numElements.toNat 0,
            region :: heap.regions⟩, some region)

/-- The loop that looks for free parts of a region that follow one another, with the
index of the next part and the number of free parts before it. -/
def findParts (memory : Memory) (start target : Nat) : Nat → Nat → Nat → Option Nat
  | 0, _, _ => none
  | rest + 1, i, count =>
    if memory (start + i) = 0 then
      if count + 1 = target then some (i + 1 - (count + 1))
      else findParts memory start target rest (i + 1) (count + 1)
    else findParts memory start target rest (i + 1) 0

/-- The first parts of a block are marked with 2, and the last one with 1. -/
def markParts (memory : Memory) (first target : Nat) : Memory :=
  writeLE 1 (fill memory first (target - 1) 2) (first + (target - 1)) 1

def takeParts (machine : Machine) (memory : Memory) (align target : Nat)
    (region : Region) : Option (Memory × Nat) :=
  (findParts memory region.start target (machine.cast region.size / align) 0 0).map
    fun count =>
      (markParts memory (region.start + count) target, region.startData + align * count)

def Region.usable (machine : Machine) (align target : Nat) (region : Region) : Bool :=
  machine.cast region.alignment = align ∧ target ≤ machine.cast region.free

def Region.take (region : Region) (target : Nat) : Region :=
  { region with free := region.free - target }

/-- The first block in one of the regions. -/
def lookFurther (machine : Machine) (memory : Memory) (align target : Nat) :
    List Region → Option (Memory × List Region × Nat)
  | [] => none
  | region :: rest =>
    match (if region.usable machine align target then
        takeParts machine memory align target region else none) with
    | some (memory, ptr) => some (memory, region.take target :: rest, ptr)
    | none =>
      (lookFurther machine memory align target rest).map fun (memory, rest, ptr) =>
        (memory, region :: rest, ptr)

/-- An address, which is `NULL` if it is zero. -/
def pointer (address : Nat) : Option Nat := if address = 0 then none else some address

def largeRequest : Nat := 1024

def Large (align size : Nat) : Prop := size ≥ largeRequest ∨ align ≥ largeRequest

instance (align size : Nat) : Decidable (Large align size) := inferInstanceAs (Decidable (_ ∨ _))

/-- The end of `alloc_aligned` from `look_further` on, with the parts of a new region. -/
def AllocParts (type : MemoryType) (machine : Machine) (align : Nat) (numElements : Int)
    (size : Nat) (heap : Heap) (result : Option (Heap × Option Nat)) : Prop :=
  let target := (size + align - 1) / align
  match lookFurther machine heap.memory align target heap.regions with
  | some (memory, regions, ptr) => result = some (⟨memory, regions⟩, pointer ptr)
  | none =>
    ∃ allocated, AllocateRegion type machine (toInt32 align) numElements size heap allocated ∧
      match allocated with
      | none => result = none
      | some (heap, none) => result = some (heap, none)
      | some (heap, some region) =>
        match takeParts machine heap.memory align target region with
        | some (memory, ptr) =>
          result = some (⟨memory, region.take target :: heap.regions.tail⟩, pointer ptr)
        -- A new region has a block, and this is not reached.
        | none => result = none

/-- The end of `alloc_aligned`, when there is a region in the list. -/
def AllocFrom (type : MemoryType) (machine : Machine) (align size : Nat) (heap : Heap)
    (result : Option (Heap × Option Nat)) : Prop :=
  if Large align size then
    ∃ allocated, AllocateRegion type machine (toInt32 align) 0 size heap allocated ∧
      result = allocated.map fun (heap, region) =>
        (heap, region.bind fun region => pointer region.startData)
  else
    AllocParts type machine align (toInt32 (largeRequest / align)) size heap result

def Memalign (type : MemoryType) (machine : Machine) (align size : Nat) (heap : Heap)
    (result : Option (Heap × Option Nat)) : Prop :=
  if size = 0 then result = some (heap, none)
  else if heap.regions = [] then
    ∃ first, Alloc type machine.nodeSize heap.memory first ∧
      match first with
      | none => result = none
      | some (memory, none) => result = some (⟨memory, []⟩, none)
      | some (memory, some node) =>
        AllocFrom type machine align size
          ⟨fill memory node machine.nodeSize 0, [⟨node, 0, 0, 0, 0, 0⟩]⟩ result
  else AllocFrom type machine align size heap result

def requested (request : Int) (blocks : List Block) : Option (List Block) :=
  if alignLen request ≤ 0 then none
  else (firstFit (alignLen request).toNat blocks).map fun (before, room, after) =>
    before ++ (carve (alignLen request).toNat room ++ after)

def SameData (type : MemoryType) (blocks : List Block) (first second : Memory) : Prop :=
  ∀ address n, Live type blocks address n → load second address n = load first address n

/-- A request is met with a block, and its release gives the heap back. -/
structure Given (type : MemoryType) (request : Int) (blocks : List Block)
    (memory memory' : Memory) (blocks' : List Block) (ptr capacity : Nat) : Prop where
  heap : Holds type memory' blocks'
  live : Live type blocks' ptr capacity
  room : alignLen request ≤ capacity
  others : ∀ address n, Live type blocks address n →
    Live type blocks' address n ∧ (address + n ≤ ptr ∨ ptr + capacity < address)
  data : SameData type blocks memory memory'
  back : ∀ other, Holds type other blocks' →
    ∃ freed, Free type other ptr freed ∧ Holds type freed blocks ∧ SameData type blocks other freed

section Request

variable {type : MemoryType} {memory : Memory} {request : Int} {blocks blocks' : List Block}

theorem SameData.trans {first second third : Memory} (before : SameData type blocks first second)
    (after : SameData type blocks second third) : SameData type blocks first third :=
  fun address n live => (after address n live).trans (before address n live)

theorem sameData_setUp : SameData type blocks memory (setUp type memory) := by
  intro address n live
  have bounds := live.bounds
  unfold setUp
  split_ifs
  · rfl
  · apply load_congr
    intro target above below
    exact writeHeader_of_outside (by omega)

theorem alignLen_lt (request : Int) : alignLen request < 2147483648 := by
  unfold alignLen
  exact Int.bmod_lt (by decide)

variable {before after : List Block} {room : Nat}

section

variable (merged : Merged (before ++ ⟨room, true⟩ :: after))
include merged

theorem trailing_of_merged : trailing before = (before, 0) := by
  unfold Merged at merged
  induction before with
  | nil => rfl
  | cons block rest ih =>
    cases rest with
    | nil =>
      have apart := (List.isChain_cons_cons.mp merged).1
      apply if_neg
      intro free
      exact apart ⟨free, rfl⟩
    | cons next rest =>
      rw [trailing, ih merged.tail]

theorem leading_of_merged : leading after = (0, after) := by
  unfold Merged at merged
  rw [List.isChain_append] at merged
  obtain ⟨-, back, -⟩ := merged
  cases after with
  | nil => rfl
  | cons block rest =>
    apply if_neg
    intro free
    exact (List.isChain_cons_cons.mp back).1 ⟨rfl, free⟩

theorem carve_back {len : Nat} (large : len ≤ room) :
    ∃ capacity rest, carve len room ++ after = ⟨capacity, false⟩ :: rest ∧
      len ≤ capacity ∧ capacity ≤ room ∧
      (trailing before).1 ++
        ⟨(trailing before).2 + capacity + (leading rest).1, true⟩ :: (leading rest).2 =
          before ++ ⟨room, true⟩ :: after := by
  rw [trailing_of_merged merged]
  unfold carve
  split_ifs with space
  · refine ⟨len, ⟨room - (hdrSize + len), true⟩ :: after, rfl, le_rfl, large, ?_⟩
    rw [leading, if_pos rfl]
    rw [show 0 + len + (hdrSize + (room - (hdrSize + len))) = room by omega]
  · refine ⟨room, after, rfl, large, le_rfl, ?_⟩
    rw [leading_of_merged merged, Nat.zero_add, Nat.add_zero]

end

theorem alloc_of_refused (held : Holds type (setUp type memory) blocks)
    (refused : requested request blocks = none) :
    ∃ memory', (∀ result, Alloc type request memory result ↔ result = some (memory', none)) ∧
      Holds type (setUp type memory') blocks ∧ SameData type blocks memory memory' ∧
      (setUp type memory = memory → memory' = memory) := by
  unfold requested at refused
  split_ifs at refused with nonpos
  · exact ⟨memory, alloc_of_nonpos nonpos, held, fun _ _ _ => rfl, fun _ => rfl⟩
  · have below := alignLen_lt request
    have spec := @alloc_spec type _ _ held request (alignLen request).toNat (by omega)
      (by omega) (by omega)
    rw [Option.map_eq_none_iff.mp refused] at spec
    refine ⟨setUp type memory, ?_, ?_, sameData_setUp, id⟩
    · intro result
      rw [← spec, alloc_setUp (by omega)]
    · rwa [setUp_of_holds held]

theorem alloc_of_requested (held : Holds type (setUp type memory) blocks)
    (met : requested request blocks = some blocks') :
    ∃ memory' ptr capacity, (∀ result, Alloc type request memory result ↔
        result = some (memory', some ptr)) ∧
      Given type request blocks memory memory' blocks' ptr capacity := by
  unfold requested at met
  split_ifs at met with nonpos
  obtain ⟨⟨before, room, after⟩, found, rfl⟩ := Option.map_eq_some_iff.mp met
  have below := alignLen_lt request
  have spec := @alloc_spec type _ _ held request (alignLen request).toNat (by omega)
    (by omega) (by omega)
  rw [found] at spec
  obtain ⟨rfl, large, -⟩ := firstFit_some found
  dsimp only
  obtain ⟨capacity, rest, carvedEq, fits, small, back⟩ := carve_back held.merged large
  have live : Live type (before ++ (carve (alignLen request).toNat room ++ after))
      (type.start + spanOf before + hdrSize) capacity := by
    rw [carvedEq]
    unfold Live
    rw [liveAt_append]
    exact .inr (.inl ⟨rfl, rfl⟩)
  refine ⟨_, _, capacity, fun result => (alloc_setUp (by omega)).symm.trans (spec result), ?_⟩
  have others (address n : Nat) (live : Live type (before ++ ⟨room, true⟩ :: after) address n) :=
    @live_of_carve type before after room (alignLen request).toNat address n live
  refine ⟨held.carved (by omega) large, live, by omega, ?_, ?_, ?_⟩
  · intro address n live
    obtain ⟨live', apart⟩ := others address n live
    refine ⟨live', ?_⟩
    unfold hdrSize at *
    omega
  · intro address n live
    obtain ⟨-, apart⟩ := others address n live
    have same := @sameData_setUp type memory _ address n live
    rw [← same]
    apply load_congr
    intro target above below
    exact carved_of_outside large (by omega)
  · intro other held'
    rw [carvedEq] at held' live
    obtain ⟨freed, free, held'', -, others'⟩ := released held'
    rw [back] at held''
    refine ⟨freed, free, held'', ?_⟩
    intro address n live
    obtain ⟨live', apart⟩ := others address n live
    rw [carvedEq] at live'
    apply load_congr
    exact (others' address n live' (by unfold hdrSize at *; omega)).2

end Request

structure Region.Within (type : MemoryType) (blocks : List Block) (region : Region) :
    Prop where
  alignment : 0 ≤ region.alignment ∧ region.alignment < 2147483648
  size : 0 ≤ region.size ∧ region.size < 2147483648
  place : region.size = 0 ∨ ∃ capacity, Live type blocks region.start capacity ∧
    region.start + (region.size / region.alignment).toNat ≤ region.startData ∧
    region.startData + region.size ≤ region.start + capacity

/-- A heap with its blocks and regions.  The heap that has not been set up is included. -/
structure HeapState (type : MemoryType) (heap : Heap) (blocks : List Block) : Prop where
  held : Holds type (setUp type heap.memory) blocks
  regions : ∀ region ∈ heap.regions, region.Within type blocks

section Regions

variable {type : MemoryType} {machine : Machine} {memory memory' : Memory} {heap : Heap}
  {blocks blocks' : List Block} {request : Int} {ptr capacity : Nat} {region : Region}
  {alignment numElements : Int} {size : Nat}

theorem Region.Within.mono (within : region.Within type blocks)
    (kept : ∀ address n, Live type blocks address n → Live type blocks' address n) :
    region.Within type blocks' where
  alignment := within.alignment
  size := within.size
  place := by
    rcases within.place with empty | ⟨capacity, live, place⟩
    · exact .inl empty
    · exact .inr ⟨capacity, kept _ _ live, place⟩

theorem Region.Within.apart (within : region.Within type blocks)
    (given : Given type request blocks memory memory' blocks' ptr capacity) :
    ¬ region.Contains ptr := by
  rintro ⟨above, below⟩
  rcases within.place with empty | ⟨room, live, front, back⟩
  · omega
  · obtain ⟨-, apart⟩ := given.others _ _ live
    omega

section

variable (valid : machine.Valid)
include valid

theorem Machine.Valid.alignLen_nodeSize : alignLen machine.nodeSize = machine.nodeSize := by
  rcases valid with rfl | rfl <;> decide

theorem Given.clear (given : Given type machine.nodeSize blocks memory memory' blocks' ptr capacity) :
    Holds type (fill memory' ptr machine.nodeSize 0) blocks' ∧
      SameData type blocks memory (fill memory' ptr machine.nodeSize 0) := by
  have room := given.room
  rw [valid.alignLen_nodeSize] at room
  refine ⟨given.heap.congr given.live fun target outside => if_neg (by omega), ?_⟩
  refine given.data.trans ?_
  intro address n live
  obtain ⟨-, apart⟩ := given.others address n live
  apply load_congr
  intro target above below
  exact if_neg (by omega)

/-- What `allocate_region` requests for the parts. -/
def regionRequest (alignment numElements : Int) (size : Nat) : Int :=
  wrapInt (regionSize alignment numElements size + alignment + numElements)

theorem allocateRegion_of_refused (state : HeapState type heap blocks)
    (refused : (requested machine.nodeSize blocks).bind
      (requested (regionRequest alignment numElements size)) = none) :
    ∃ memory', (∀ result, AllocateRegion type machine alignment numElements size heap
        result ↔ result = some (⟨memory', heap.regions⟩, none)) ∧
      Holds type (setUp type memory') blocks ∧ SameData type blocks heap.memory memory' := by
  cases first : requested machine.nodeSize blocks with
  | none =>
    obtain ⟨memory', spec, held, data, -⟩ := alloc_of_refused state.held first
    refine ⟨memory', ?_, held, data⟩
    intro result
    simp only [AllocateRegion, spec, exists_eq_left]
  | some blocks₁ =>
    obtain ⟨memory₁, node, capacity, spec, given⟩ := alloc_of_requested state.held first
    obtain ⟨held, data⟩ := given.clear valid
    rw [first, Option.bind_some] at refused
    have set := setUp_of_holds held
    obtain ⟨memory₂, spec₂, -, -, same⟩ :=
      @alloc_of_refused type (fill memory₁ node machine.nodeSize 0) _ _ (by rwa [set]) refused
    obtain rfl := same set
    obtain ⟨freed, free, held', data'⟩ := given.back _ held
    refine ⟨freed, ?_, by rwa [setUp_of_holds held'], data.trans data'⟩
    have apart (region) (member : region ∈ heap.regions) : ¬ region.Contains node :=
      (state.regions region member).apart given
    intro result
    unfold regionRequest at spec₂
    simp only [AllocateRegion, spec, spec₂, exists_eq_left, FreeApart]
    constructor
    · rintro ⟨_, ⟨-, other, free', rfl⟩, rfl⟩
      rw [free.unique free']
    · rintro rfl
      exact ⟨_, ⟨apart, freed, free, rfl⟩, rfl⟩

theorem allocateRegion_of_met {blocks₁ : List Block} (state : HeapState type heap blocks)
    (first : requested machine.nodeSize blocks = some blocks₁)
    (second : requested (regionRequest alignment numElements size) blocks₁ = some blocks')
    (parts : numElements ≤ alignLen (regionRequest alignment numElements size)) :
    ∃ memory' node start capacity,
      (∀ result, AllocateRegion type machine alignment numElements size heap result ↔
        result = some (⟨memory',
            newRegion machine alignment numElements size node start :: heap.regions⟩,
          some (newRegion machine alignment numElements size node start))) ∧
      Holds type memory' blocks' ∧ Live type blocks' start capacity ∧
      alignLen (regionRequest alignment numElements size) ≤ capacity ∧
      (∀ address n, Live type blocks address n → Live type blocks' address n) ∧
      SameData type blocks heap.memory memory' ∧
      ∀ index < numElements.toNat, memory' (start + index) = 0 := by
  obtain ⟨memory₁, node, capacity₁, spec, given⟩ := alloc_of_requested state.held first
  obtain ⟨held, data⟩ := given.clear valid
  have set := setUp_of_holds held
  obtain ⟨memory₂, start, capacity, spec₂, given₂⟩ :=
    @alloc_of_requested type (fill memory₁ node machine.nodeSize 0) _ _ _ (by rwa [set]) second
  have room := given₂.room
  refine ⟨fill memory₂ start numElements.toNat 0, node, start, capacity, ?_, ?_,
    given₂.live, room, ?_, ?_, ?_⟩
  · intro result
    unfold regionRequest at spec₂
    simp only [AllocateRegion, spec, spec₂, exists_eq_left]
  · exact given₂.heap.congr given₂.live fun target outside => if_neg (by omega)
  · intro address n live
    exact (given₂.others _ _ (given.others _ _ live).1).1
  · intro address n live
    obtain ⟨live', -⟩ := given.others address n live
    obtain ⟨-, apart⟩ := given₂.others address n live'
    rw [← data address n live, ← given₂.data address n live']
    apply load_congr
    intro target above below
    exact if_neg (by omega)
  · intro index below
    exact if_pos (by omega)

end

theorem Machine.cast_of_lt (machine : Machine) {value : Int} {number : Nat} (same : value = number)
    (small : number < 2 ^ machine.width) : machine.cast value = number := by
  have limit : ((2 ^ machine.width : Nat) : Int) = 2 ^ machine.width := by
    push_cast
    rfl
  unfold Machine.cast
  rw [same, ← limit, ← Int.natCast_mod, Nat.mod_eq_of_lt small, Int.toNat_natCast]

theorem alignAddress_bounds {address align : Nat} (power : ∃ k, align = 2 ^ k)
    (fits : address + align ≤ 2 ^ machine.width) :
    address ≤ alignAddress machine address align ∧
      alignAddress machine address align < address + align := by
  obtain ⟨k, rfl⟩ := power
  have positive : 0 < 2 ^ k := Nat.two_pow_pos k
  have mask : machine.cast (((2 ^ k : Nat) : Int) - 1) = 2 ^ k - 1 :=
    machine.cast_of_lt (by omega) (by omega)
  have rest := Nat.mod_lt (address + (2 ^ k - 1)) positive
  unfold alignAddress
  dsimp only
  rw [mask, Nat.mod_eq_of_lt (by omega), Nat.and_two_pow_sub_one_eq_mod]
  omega

variable {address target : Nat}

theorem alignAddress_zero (positive : 0 < address)
    (fits : address ≤ 2 ^ machine.width) : alignAddress machine address 0 = 0 := by
  have mask : machine.cast (0 - 1) = 2 ^ machine.width - 1 := by
    have one : (0 - 1 : Int) % 2 ^ machine.width = 2 ^ machine.width - 1 := by
      have large : (1 : Int) ≤ 2 ^ machine.width := by
        exact_mod_cast Nat.one_le_two_pow
      rw [← Int.add_emod_right, Int.emod_eq_of_lt (by omega) (by omega)]
      omega
    unfold Machine.cast
    rw [one]
    have cast : ((2 ^ machine.width : Nat) : Int) = 2 ^ machine.width := by
      push_cast
      rfl
    omega
  have sum : (address + (2 ^ machine.width - 1)) % 2 ^ machine.width = address - 1 := by
    rw [show address + (2 ^ machine.width - 1) = address - 1 + 2 ^ machine.width by omega,
      Nat.add_mod_right, Nat.mod_eq_of_lt (by omega)]
  unfold alignAddress
  dsimp only
  rw [mask, sum, Nat.and_two_pow_sub_one_eq_mod, Nat.mod_eq_of_lt (by omega), Nat.sub_self]

theorem findParts_le {start count rest index found : Nat} (before : count ≤ index)
    (parts : findParts memory start target rest index count = some found) :
    found + target ≤ index + rest := by
  induction rest generalizing index count with
  | zero => cases parts
  | succ rest ih =>
    rw [findParts] at parts
    split_ifs at parts with free last
    · cases parts
      omega
    · have later := ih (by omega) parts
      omega
    · have later := ih (Nat.zero_le _) parts
      omega

theorem findParts_of_free {start target count rest index : Nat} (before : count ≤ index)
    (open' : count < target) (room : target ≤ count + rest)
    (free : ∀ other, index ≤ other → other < index + rest → memory (start + other) = 0) :
    findParts memory start target rest index count = some (index - count) := by
  induction rest generalizing index count with
  | zero => omega
  | succ rest ih =>
    rw [findParts, if_pos (free index le_rfl (by omega))]
    split_ifs with last
    · congr 1
      omega
    · rw [ih (by omega) (by omega) (by omega) fun other above below =>
        free other (by omega) (by omega)]
      congr 1
      omega

theorem markParts_of_outside {first : Nat} (positive : 0 < target)
    (outside : address < first ∨ first + target ≤ address) :
    markParts memory first target address = memory address := by
  unfold markParts writeLE
  rw [store_of_outside (by rw [length_encodeLE]; omega)]
  exact if_neg (by omega)

theorem Holds.congr_setUp (held : Holds type (setUp type memory) blocks)
    (live : Live type blocks address capacity)
    (same : ∀ target, target < address ∨ address + capacity ≤ target →
      memory' target = memory target) : Holds type (setUp type memory') blocks := by
  apply held.congr live
  intro target outside
  have bounds := live.bounds
  have header : readHeader memory' type.start = readHeader memory type.start :=
    readHeader_congr fun target _ below => same target (by omega)
  unfold setUp
  rw [header]
  split_ifs
  · exact same target outside
  · exact store_apply_congr (same target outside) _ _

structure Room (type : MemoryType) (blocks : List Block) (heap : Heap)
    (blocks' : List Block) (ret bytes : Nat) : Prop where
  state : HeapState type heap blocks'
  others : ∀ address n, Live type blocks address n → Live type blocks' address n
  room : ∃ start capacity, Live type blocks' start capacity ∧ start ≤ ret ∧
    ret + bytes ≤ start + capacity

theorem takeParts_some {align ptr : Nat} (valid : machine.Valid) (positive : 0 < align)
    (parts : 0 < target) (within : region.Within type blocks)
    (kind : machine.cast region.alignment = align) (held : Holds type (setUp type memory) blocks)
    (taken : takeParts machine memory align target region = some (memory', ptr)) :
    Holds type (setUp type memory') blocks ∧ ∃ capacity,
      Live type blocks region.start capacity ∧ region.start ≤ ptr ∧
      ptr + align * target ≤ region.start + capacity := by
  have wide : 2147483648 ≤ 2 ^ machine.width := by
    rcases valid with rfl | rfl <;> decide
  have alignmentLt := within.alignment.2
  have sizeLt := within.size.2
  obtain ⟨alignment, alignmentEq⟩ := Int.eq_ofNat_of_zero_le within.alignment.1
  obtain ⟨size, sizeEq⟩ := Int.eq_ofNat_of_zero_le within.size.1
  rw [machine.cast_of_lt alignmentEq (by omega)] at kind
  subst kind
  unfold takeParts at taken
  rw [machine.cast_of_lt sizeEq (by omega)] at taken
  obtain ⟨count, found, same⟩ := Option.map_eq_some_iff.mp taken
  cases same
  have fits := findParts_le le_rfl found
  rw [Nat.zero_add] at fits
  have whole : alignment * (size / alignment) ≤ size := Nat.mul_div_le _ _
  have used : alignment * (count + target) ≤ alignment * (size / alignment) :=
    Nat.mul_le_mul_left _ fits
  rw [Nat.mul_add] at used
  have nonempty : 0 < alignment * target := Nat.mul_pos positive parts
  rcases within.place with empty | ⟨capacity, live, front, back⟩
  · omega
  · rw [sizeEq, alignmentEq] at front
    have quotient : ((size : Int) / alignment).toNat = size / alignment := by
      rw [← Int.natCast_div, Int.toNat_natCast]
    rw [quotient] at front
    refine ⟨held.congr_setUp live ?_, capacity, live, by omega, by omega⟩
    intro address outside
    exact markParts_of_outside parts (by omega)

theorem Region.Within.take (within : region.Within type blocks) :
    (region.take target).Within type blocks :=
  ⟨within.alignment, within.size, within.place⟩

theorem lookFurther_some {align ptr : Nat} {regions regions' : List Region}
    (valid : machine.Valid) (positive : 0 < align) (parts : 0 < target)
    (within : ∀ region ∈ regions, region.Within type blocks)
    (held : Holds type (setUp type memory) blocks)
    (found : lookFurther machine memory align target regions = some (memory', regions', ptr)) :
    Holds type (setUp type memory') blocks ∧
      (∀ region ∈ regions', region.Within type blocks) ∧ ∃ start capacity,
      Live type blocks start capacity ∧ start ≤ ptr ∧
      ptr + align * target ≤ start + capacity := by
  induction regions generalizing regions' with
  | nil => cases found
  | cons region rest ih =>
    rw [List.forall_mem_cons] at within
    obtain ⟨here, later⟩ := within
    rw [lookFurther] at found
    split at found
    · next memory₁ ptr₁ taken =>
        split_ifs at taken with usable
        cases found
        unfold Region.usable at usable
        rw [decide_eq_true_eq] at usable
        obtain ⟨held', room⟩ := takeParts_some valid positive parts here usable.1 held taken
        refine ⟨held', ?_, region.start, room⟩
        rw [List.forall_mem_cons]
        exact ⟨here.take, later⟩
    · obtain ⟨⟨memory₁, regions₁, ptr₁⟩, found', same⟩ := Option.map_eq_some_iff.mp found
      cases same
      obtain ⟨held', within', room⟩ := ih later found'
      refine ⟨held', ?_, room⟩
      rw [List.forall_mem_cons]
      exact ⟨here, within'⟩

end Regions

/-- The requests of the library. -/
inductive Request where
  | malloc (size : Nat)
  | calloc (nmemb size : Nat)
  | memalign (align size : Nat)

def Request.bytes : Request → Nat
  | .malloc size => size
  | .calloc nmemb size => nmemb * size
  | .memalign _ size => size

/-- The arguments are of type `size_t`, and an alignment is a power of two. -/
def Request.Valid (machine : Machine) : Request → Prop
  | .malloc size => size < 2 ^ machine.width
  | .calloc nmemb size => nmemb < 2 ^ machine.width ∧ size < 2 ^ machine.width
  | .memalign align size =>
    align < 2 ^ machine.width ∧ (∃ k, align = 2 ^ k) ∧ size < 2 ^ machine.width

/-- A function that leaves the aligned regions alone. -/
def Heap.with (heap : Heap) : Memory × Option Nat → Heap × Option Nat
  | (memory, ptr) => (⟨memory, heap.regions⟩, ptr)

def Request.Run (type : MemoryType) (machine : Machine) (heap : Heap)
    (result : Option (Heap × Option Nat)) : Request → Prop
  | .malloc size => ∃ allocated, Alloc type (toInt32 size) heap.memory allocated ∧
      result = allocated.map heap.with
  | .calloc nmemb size => ∃ allocated, Calloc type machine nmemb size heap.memory allocated ∧
      result = allocated.map heap.with
  | .memalign align size => Memalign type machine align size heap result

/-- What a request should give: a block with room, or `NULL` and the same heap. -/
def Served (type : MemoryType) (blocks : List Block) (heap : Heap) (bytes : Nat)
    (heap' : Heap) : Option Nat → Prop
  | none => HeapState type heap' blocks ∧ heap'.regions = heap.regions ∧
      SameData type blocks heap.memory heap'.memory
  | some ret => ∃ blocks', Room type blocks heap' blocks' ret bytes

def Serves (type : MemoryType) (machine : Machine) (heap : Heap) (blocks : List Block)
    (request : Request) : Prop :=
  ∃ heap' ret, request.Run type machine heap (some (heap', ret)) ∧
    Served type blocks heap request.bytes heap' ret

/-- The number of bytes is not changed by the conversions, or there is nothing for what
it becomes. -/
def Honest (bytes : Nat) (blocks : List Block) : Prop :=
  bytes ≤ 2147483640 ∨ requested (toInt32 bytes) blocks = none

def regionBytes (align size : Nat) : Nat :=
  if Large align size then size + align
  else largeRequest + align + largeRequest / align

/-- The blocks after the record and the bytes of a region have been requested. -/
def regionBlocks (machine : Machine) (align size : Nat) (blocks : List Block) :
    Option (List Block) :=
  (requested machine.nodeSize blocks).bind (requested (toInt32 (regionBytes align size)))

def HonestRegion (machine : Machine) (align size : Nat) (blocks : List Block) : Prop :=
  regionBytes align size ≤ 2147483640 ∨ regionBlocks machine align size blocks = none

/-- When a request does what it should do.  The first aligned request leaves an empty
region behind, so what follows has to succeed. -/
def Request.Met (machine : Machine) (heap : Heap) (blocks : List Block) : Request → Prop
  | .malloc size => Honest size blocks
  | .calloc nmemb size => Honest (nmemb * size) blocks
  | .memalign align size => size = 0 ∨
      (heap.regions ≠ [] ∧ HonestRegion machine align size blocks) ∨
      (heap.regions = [] ∧ ∀ blocks', requested machine.nodeSize blocks = some blocks' →
        HonestRegion machine align size blocks' ∧ regionBlocks machine align size blocks' ≠ none)

section Requests

variable {type : MemoryType} {machine : Machine} {heap heap' : Heap} {blocks blocks' : List Block}

theorem toInt32_mod {machine : Machine} (valid : machine.Valid) (value : Nat) :
    toInt32 (value % 2 ^ machine.width) = toInt32 value := by
  unfold toInt32
  rw [← Int.emod_bmod, ← Int.emod_bmod (value : Int)]
  congr 1
  rcases valid with rfl | rfl
  · dsimp only
    omega
  · dsimp only
    omega

theorem wrapInt_add (first second : Nat) :
    wrapInt (toInt32 first + toInt32 second + 0) = toInt32 (first + second) := by
  unfold wrapInt toInt32
  rw [Int.add_zero, Int.bmod_add_bmod, Int.add_bmod_bmod]
  push_cast
  rfl

theorem regionRequest_large (align size : Nat) :
    regionRequest (toInt32 align) 0 size = toInt32 (size + align) := by
  unfold regionRequest regionSize
  rw [if_neg (not_not.mpr rfl)]
  exact wrapInt_add size align

variable {size : Nat}

theorem regionRequest_small {align : Nat} (power : ∃ k, align = 2 ^ k)
    (small : ¬ Large align size) :
    ∃ parts, parts = largeRequest / align ∧ toInt32 align = align ∧
      toInt32 parts = parts ∧ align * parts = 1024 ∧ align + parts ≤ 1536 ∧
      regionSize align parts size = 1024 ∧
      regionRequest align parts size = toInt32 (largeRequest + align + parts) := by
  obtain ⟨k, rfl⟩ := power
  have below : 2 ^ k < 1024 := by
    unfold Large largeRequest at small
    omega
  have divides : 2 ^ k ∣ largeRequest := by
    have exponent : k ≤ 10 := by
      by_contra above
      have larger : 2 ^ 10 ≤ 2 ^ k := Nat.pow_le_pow_right (by decide) (by omega)
      omega
    exact pow_dvd_pow 2 exponent
  have whole : 2 ^ k * (largeRequest / 2 ^ k) = 1024 := Nat.mul_div_cancel' divides
  obtain ⟨align, alignEq⟩ : ∃ align, align = 2 ^ k := ⟨_, rfl⟩
  rw [← alignEq] at below whole ⊢
  refine ⟨largeRequest / align, rfl, ?_⟩
  obtain ⟨parts, partsEq⟩ : ∃ parts, parts = largeRequest / align := ⟨_, rfl⟩
  rw [← partsEq] at whole ⊢
  have partsLe : parts ≤ 1024 := by
    rw [partsEq]
    exact Nat.div_le_self _ _
  have sizeEq : regionSize align parts size = 1024 := by
    have some' : (parts : Int) ≠ 0 := by
      rintro none'
      obtain rfl := Int.ofNat_eq_zero.mp none'
      omega
    have product : (parts : Int) * align = 1024 := by
      rw [Int.mul_comm]
      exact_mod_cast whole
    unfold regionSize
    rw [if_pos some', product]
    decide
  have sum : align + parts ≤ 1536 := by
    rcases Nat.lt_or_ge align 2 with one | two
    · omega
    · have half : 2 * parts ≤ align * parts := Nat.mul_le_mul_right _ two
      omega
  refine ⟨toInt32_of_lt (by omega), toInt32_of_lt (by omega), whole, sum, sizeEq, ?_⟩
  rw [show largeRequest = 1024 from rfl, toInt32_of_lt (by omega)]
  unfold regionRequest wrapInt
  rw [sizeEq]
  exact Int.bmod_eq_of_le (by omega) (by omega)

theorem regionRequest_parts {align : Nat} (power : ∃ k, align = 2 ^ k)
    (small : ¬ Large align size) :
    regionRequest (toInt32 align) (toInt32 (largeRequest / align)) size =
      toInt32 (largeRequest + align + largeRequest / align) := by
  obtain ⟨parts, partsEq, alignEq, partsEq', -, -, -, request⟩ := regionRequest_small power small
  rw [← partsEq, alignEq, partsEq', request]

theorem alignLen_of_honest {bytes : Nat} (small : bytes ≤ 2147483640) :
    (bytes : Int) ≤ alignLen (toInt32 bytes) := by
  have up := le_roundUp bytes
  rw [alignLen_of_small small]
  omega

theorem Room.bytes_lt {ret bytes : Nat} (room : Room type blocks heap blocks' ret bytes) :
    bytes < 2147483640 := by
  obtain ⟨start, capacity, live, above, fits⟩ := room.room
  have bounds := live.bounds
  have small := room.state.held.small
  unfold hdrSize at bounds
  omega

theorem Given.room_of {memory memory' : Memory} {request : Int} {ptr capacity bytes : Nat}
    (given : Given type request blocks heap.memory memory blocks' ptr capacity)
    (within : ∀ region ∈ heap.regions, region.Within type blocks) (fits : bytes ≤ capacity)
    (same : ∀ target, target < ptr ∨ ptr + capacity ≤ target → memory' target = memory target) :
    Room type blocks ⟨memory', heap.regions⟩ blocks' ptr bytes where
  state := by
    have held := given.heap.congr given.live same
    refine ⟨by rwa [setUp_of_holds held], ?_⟩
    intro region member
    exact (within region member).mono fun address n live => (given.others address n live).1
  others := fun address n live => (given.others address n live).1
  room := ⟨ptr, capacity, given.live, le_rfl, by omega⟩

theorem serves_malloc_iff (state : HeapState type heap blocks) :
    Serves type machine heap blocks (.malloc size) ↔ Honest size blocks := by
  unfold Serves Request.Run Request.bytes Honest
  cases found : requested (toInt32 size) blocks with
  | none =>
    obtain ⟨memory, spec, held, data, -⟩ := alloc_of_refused state.held found
    refine iff_of_true ⟨_, none, ⟨_, (spec _).mpr rfl, rfl⟩, ?_⟩ (.inr rfl)
    exact ⟨⟨held, state.regions⟩, rfl, data⟩
  | some blocks' =>
    obtain ⟨memory, ptr, capacity, spec, given⟩ := alloc_of_requested state.held found
    simp only [spec, exists_eq_left]
    constructor
    · rintro ⟨heap', ret, same, served⟩
      cases same
      obtain ⟨blocks₁, room⟩ := served
      exact .inl room.bytes_lt.le
    · intro honest
      have small := honest.resolve_right (Option.some_ne_none _)
      have room := given.room
      have fits := alignLen_of_honest small
      exact ⟨_, _, rfl, blocks', given.room_of state.regions (by omega) fun _ _ => rfl⟩

theorem serves_calloc_iff {nmemb : Nat} (valid : machine.Valid)
    (state : HeapState type heap blocks) :
    Serves type machine heap blocks (.calloc nmemb size) ↔ Honest (nmemb * size) blocks := by
  unfold Serves Request.Run Request.bytes Honest Calloc
  rw [← toInt32_mod valid (nmemb * size)]
  cases found : requested (toInt32 (nmemb * size % 2 ^ machine.width)) blocks with
  | none =>
    obtain ⟨memory, spec, held, data, -⟩ := alloc_of_refused state.held found
    refine iff_of_true ⟨_, none, ⟨_, ⟨_, (spec _).mpr rfl, rfl⟩, rfl⟩, ?_⟩ (.inr rfl)
    exact ⟨⟨held, state.regions⟩, rfl, data⟩
  | some blocks' =>
    obtain ⟨memory, ptr, capacity, spec, given⟩ := alloc_of_requested state.held found
    simp only [spec, exists_eq_left]
    constructor
    · rintro ⟨heap', ret, same, served⟩
      cases same
      obtain ⟨blocks₁, room⟩ := served
      exact .inl room.bytes_lt.le
    · intro honest
      have small := honest.resolve_right (Option.some_ne_none _)
      have room := given.room
      have fits := alignLen_of_honest small
      have wide : nmemb * size < 2 ^ machine.width := by
        rcases valid with rfl | rfl <;> (dsimp only; omega)
      rw [Nat.mod_eq_of_lt wide] at room ⊢
      refine ⟨_, _, rfl, blocks', given.room_of state.regions (by omega) ?_⟩
      intro target outside
      exact if_neg (by omega)

section Aligned

variable {align size : Nat}

variable {memory memory' : Memory} {capacity ptr : Nat}

theorem Holds.live_le {start : Nat} (held : Holds type memory blocks)
    (space : type.finish ≤ 2 ^ machine.width) (live : Live type blocks start capacity) :
    0 < start ∧ start + capacity ≤ 2 ^ machine.width := by
  have bounds := live.bounds
  have whole := held.whole
  unfold hdrSize at bounds
  omega

theorem newRegion_large {node start capacity : Nat} (power : ∃ k, align = 2 ^ k)
    (small : size + align ≤ 2147483640) (live : Live type blocks start capacity)
    (room : size + align ≤ capacity) (fits : start + capacity ≤ 2 ^ machine.width) :
    (newRegion machine (toInt32 align) 0 size node start).Within type blocks ∧
      start ≤ (newRegion machine (toInt32 align) 0 size node start).startData ∧
      (newRegion machine (toInt32 align) 0 size node start).startData + size ≤
        start + capacity := by
  have bounds := @alignAddress_bounds machine start align power (by omega)
  unfold newRegion regionSize
  rw [if_neg (not_not.mpr rfl), if_neg (not_not.mpr rfl), toInt32_of_lt (by omega),
    toInt32_of_lt (by omega)]
  have sizeLt : (0 : Int) ≤ size ∧ (size : Int) < 2147483648 := by omega
  refine ⟨⟨by simp, sizeLt, .inr ⟨capacity, live, ?_, ?_⟩⟩, ?_, ?_⟩
  · simpa using bounds.1
  · dsimp only
    change ((alignAddress machine start align : Nat) : Int) + size ≤ _
    omega
  · exact bounds.1
  · change alignAddress machine start align + size ≤ _
    omega

theorem newRegion_parts {node start capacity parts : Nat} (power : ∃ k, align = 2 ^ k)
    (whole : align * parts = 1024) (sizeEq : regionSize align parts size = 1024)
    (live : Live type blocks start capacity) (room : 1024 + align + parts ≤ capacity)
    (fits : start + capacity ≤ 2 ^ machine.width) :
    (newRegion machine align parts size node start).Within type blocks := by
  have bounds := @alignAddress_bounds machine (start + parts) align power (by omega)
  have alignLe : align ≤ 1024 := Nat.le_of_dvd (by decide) ⟨parts, whole.symm⟩
  have partsPos : parts ≠ 0 := by
    rintro rfl
    cases whole
  have alignPos : 0 < align := by
    obtain ⟨k, rfl⟩ := power
    exact Nat.two_pow_pos k
  have quotient : ((1024 : Int) / align).toNat = parts := by
    have divided := Nat.mul_div_cancel_left parts alignPos
    rw [whole] at divided
    rw [← divided]
    rfl
  unfold newRegion
  rw [sizeEq, if_pos (by omega), Int.toNat_natCast]
  have alignLt : (0 : Int) ≤ align ∧ (align : Int) < 2147483648 := by omega
  have sizeLt : (0 : Int) ≤ 1024 ∧ (1024 : Int) < 2147483648 := by decide
  refine ⟨alignLt, sizeLt, .inr ⟨capacity, live, ?_, ?_⟩⟩
  · dsimp only
    rw [quotient]
    exact bounds.1
  · dsimp only
    omega

theorem regionBlocks_of_large (large : Large align size) :
    regionBlocks machine align size blocks =
      (requested machine.nodeSize blocks).bind
        (requested (regionRequest (toInt32 align) 0 size)) := by
  unfold regionBlocks regionBytes
  rw [if_pos large, regionRequest_large]

theorem regionBlocks_of_small (power : ∃ k, align = 2 ^ k) (small : ¬ Large align size) :
    regionBlocks machine align size blocks =
      (requested machine.nodeSize blocks).bind (requested
        (regionRequest (toInt32 align) (toInt32 (largeRequest / align)) size)) := by
  unfold regionBlocks regionBytes
  rw [if_neg small, regionRequest_parts power small]

theorem allocFrom_iff_of_large {region : Option Region} (large : Large align size)
    (spec : ∀ result, AllocateRegion type machine (toInt32 align) 0 size heap result ↔
      result = some (heap', region)) (result : Option (Heap × Option Nat)) :
    AllocFrom type machine align size heap result ↔
      result = some (heap', region.bind fun region => pointer region.startData) := by
  unfold AllocFrom
  rw [if_pos large]
  constructor
  · rintro ⟨allocated, run, rfl⟩
    rw [(spec _).mp run]
    rfl
  · rintro rfl
    exact ⟨_, (spec _).mpr rfl, rfl⟩

def Refuses (type : MemoryType) (machine : Machine) (align size : Nat) (heap : Heap)
    (blocks : List Block) : Prop :=
  ∃ memory', (∀ result, AllocFrom type machine align size heap result ↔
      result = some (⟨memory', heap.regions⟩, none)) ∧
    HeapState type ⟨memory', heap.regions⟩ blocks ∧
    SameData type blocks heap.memory memory'

section

variable (valid : machine.Valid) {ret : Option Nat} {region : Region}
include valid

theorem refuses_of_large (state : HeapState type heap blocks) (large : Large align size)
    (refused : regionBlocks machine align size blocks = none) :
    Refuses type machine align size heap blocks := by
  rw [regionBlocks_of_large large] at refused
  obtain ⟨memory', spec, held, data⟩ := allocateRegion_of_refused valid state refused
  exact ⟨memory', allocFrom_iff_of_large large spec, ⟨held, state.regions⟩, data⟩

theorem refuses_of_small (power : ∃ k, align = 2 ^ k) (state : HeapState type heap blocks)
    (small : ¬ Large align size) (refused : regionBlocks machine align size blocks = none)
    (none' : lookFurther machine heap.memory align ((size + align - 1) / align)
      heap.regions = none) : Refuses type machine align size heap blocks := by
  rw [regionBlocks_of_small power small] at refused
  generalize partsEq : toInt32 (largeRequest / align) = numElements at refused
  obtain ⟨memory', spec, held, data⟩ := allocateRegion_of_refused valid state refused
  refine ⟨memory', ?_, ⟨held, state.regions⟩, data⟩
  intro result
  unfold AllocFrom
  rw [if_neg small, partsEq]
  unfold AllocParts
  dsimp only
  rw [none']
  simp only [spec, exists_eq_left]

theorem allocFrom_of_large (state : HeapState type heap blocks) (large : Large align size)
    (met : regionBlocks machine align size blocks = some blocks') :
    ∃ memory' region node start capacity,
      region = newRegion machine (toInt32 align) 0 size node start ∧
      (∀ result, AllocFrom type machine align size heap result ↔
        result = some (⟨memory', region :: heap.regions⟩, pointer region.startData)) ∧
      Holds type memory' blocks' ∧ Live type blocks' start capacity ∧
      0 < alignLen (toInt32 (size + align)) ∧
      alignLen (toInt32 (size + align)) ≤ capacity ∧
      ∀ address n, Live type blocks address n → Live type blocks' address n := by
  rw [regionBlocks_of_large large] at met
  obtain ⟨blocks₁, first, second⟩ := Option.bind_eq_some_iff.mp met
  have positive : 0 < alignLen (regionRequest (toInt32 align) 0 size) := by
    by_contra nonpos
    rw [requested, if_pos (by omega)] at second
    cases second
  obtain ⟨memory', node, start, capacity, spec, held, live, room, others, -, -⟩ :=
    allocateRegion_of_met valid state first second positive.le
  rw [regionRequest_large] at room positive
  obtain ⟨region, regionEq⟩ :
      ∃ region, region = newRegion machine (toInt32 align) 0 size node start := ⟨_, rfl⟩
  rw [← regionEq] at spec
  exact ⟨memory', region, node, start, capacity, regionEq,
    allocFrom_iff_of_large large spec, held, live, positive, room, others⟩

theorem allocFrom_of_large_small (space : type.finish ≤ 2 ^ machine.width)
    (power : ∃ k, align = 2 ^ k) (state : HeapState type heap blocks) (large : Large align size)
    (small : size + align ≤ 2147483640)
    (met : regionBlocks machine align size blocks = some blocks') :
    ∃ heap' ret, AllocFrom type machine align size heap (some (heap', some ret)) ∧
      Room type blocks heap' blocks' ret size := by
  obtain ⟨memory', region, node, start, capacity, regionEq, spec, held, live, -, room,
    others⟩ := allocFrom_of_large valid state large met
  have bytes := alignLen_of_honest small
  obtain ⟨positive, fits⟩ := held.live_le space live
  have placed := @newRegion_large type machine _ _ size node _ _ power small live (by omega) fits
  rw [← regionEq] at placed
  obtain ⟨within, above, below⟩ := placed
  have data : pointer region.startData = some region.startData := if_neg (by omega)
  rw [data] at spec
  refine ⟨_, _, (spec _).mpr rfl, ⟨by rwa [setUp_of_holds held], ?_⟩, others,
    start, capacity, live, above, below⟩
  rw [List.forall_mem_cons]
  exact ⟨within, fun region member => (state.regions region member).mono others⟩

omit valid in
theorem target_bounds (positive : 0 < size) (alignPos : 0 < align) :
    0 < (size + align - 1) / align ∧ size ≤ align * ((size + align - 1) / align) := by
  have split := Nat.div_add_mod (size + align - 1) align
  have rest := Nat.mod_lt (size + align - 1) alignPos
  refine ⟨Nat.div_pos (by omega) alignPos, by omega⟩

omit valid in
theorem pos_of_power (power : ∃ k, align = 2 ^ k) : 0 < align := by
  obtain ⟨k, rfl⟩ := power
  exact Nat.two_pow_pos k

theorem allocFrom_of_found {regions' : List Region} (power : ∃ k, align = 2 ^ k)
    (positive : 0 < size) (state : HeapState type heap blocks) (small : ¬ Large align size)
    (found : lookFurther machine heap.memory align ((size + align - 1) / align)
      heap.regions = some (memory', regions', ptr)) :
    ∃ heap' ret, AllocFrom type machine align size heap (some (heap', some ret)) ∧
      Room type blocks heap' blocks ret size := by
  have alignPos := pos_of_power power
  obtain ⟨parts, enough⟩ := target_bounds positive alignPos
  obtain ⟨held, within, start, capacity, live, above, below⟩ :=
    lookFurther_some valid alignPos parts state.regions state.held found
  have place := live.bounds
  have data : pointer ptr = some ptr := if_neg (by unfold hdrSize at place; omega)
  refine ⟨⟨memory', regions'⟩, ptr, ?_, ⟨held, within⟩, fun _ _ live => live,
    start, capacity, live, above, by omega⟩
  unfold AllocFrom
  rw [if_neg small]
  unfold AllocParts
  dsimp only
  rw [found, ← data]

omit valid in
theorem allocFrom_iff_of_parts {memory'' : Memory}
    {regions : List Region} (small : ¬ Large align size)
    (none' : lookFurther machine heap.memory align ((size + align - 1) / align) heap.regions = none)
    (spec : ∀ result, AllocateRegion type machine (toInt32 align)
      (toInt32 (largeRequest / align)) size heap result ↔
        result = some (⟨memory', region :: regions⟩, some region))
    (taken : takeParts machine memory' align ((size + align - 1) / align) region =
      some (memory'', ptr)) (data : pointer ptr = some ptr) :
    AllocFrom type machine align size heap
      (some (⟨memory'', region.take ((size + align - 1) / align) :: regions⟩, some ptr)) := by
  unfold AllocFrom
  rw [if_neg small]
  unfold AllocParts
  dsimp only
  rw [none']
  refine ⟨_, (spec _).mpr rfl, ?_⟩
  dsimp only
  rw [taken, ← data]
  rfl

theorem takeParts_of_free {parts : Nat} (alignPos : 0 < align)
    (positive : 0 < size) (small : ¬ Large align size) (whole : align * parts = 1024)
    (sizeEq : region.size = 1024) (free : ∀ index < parts, memory' (region.start + index) = 0) :
    ∃ memory'', takeParts machine memory' align ((size + align - 1) / align) region =
      some (memory'', region.startData) := by
  have wide : 1024 < 2 ^ machine.width := by
    rcases valid with rfl | rfl <;> decide
  have quotient := Nat.mul_div_cancel_left parts alignPos
  rw [whole] at quotient
  have sizeLt : size < 1024 := by
    unfold Large largeRequest at small
    omega
  have fits : (size + align - 1) / align < parts + 1 := by
    rw [Nat.div_lt_iff_lt_mul alignPos, Nat.mul_comm, Nat.mul_succ]
    omega
  have found := @findParts_of_free memory' region.start ((size + align - 1) / align) 0
    parts 0 le_rfl (target_bounds positive alignPos).1 (by omega)
    fun other _ below => free other (by omega)
  unfold takeParts
  rw [@Machine.cast_of_lt machine region.size 1024 sizeEq wide, quotient, found]
  exact ⟨_, rfl⟩

omit valid in
theorem alignLen_of_parts {parts : Nat}
    (request : regionRequest align parts size = toInt32 (largeRequest + align + parts))
    (sum : align + parts ≤ 1536) :
    ((1024 + align + parts : Nat) : Int) ≤ alignLen (regionRequest align parts size) := by
  rw [request]
  exact alignLen_of_honest (by omega)

theorem allocFrom_of_parts (space : type.finish ≤ 2 ^ machine.width) (power : ∃ k, align = 2 ^ k)
    (positive : 0 < size) (state : HeapState type heap blocks) (small : ¬ Large align size)
    (met : regionBlocks machine align size blocks = some blocks')
    (none' : lookFurther machine heap.memory align ((size + align - 1) / align)
      heap.regions = none) :
    ∃ heap' ret, AllocFrom type machine align size heap (some (heap', some ret)) ∧
      Room type blocks heap' blocks' ret size := by
  have alignPos := pos_of_power power
  obtain ⟨target, enough⟩ := target_bounds positive alignPos
  obtain ⟨parts, partsEq, alignEq, partsEq', whole, sum, sizeEq, request⟩ :=
    regionRequest_small power small
  rw [regionBlocks_of_small power small, ← partsEq, partsEq', alignEq] at met
  obtain ⟨blocks₁, first, second⟩ := Option.bind_eq_some_iff.mp met
  have bytes := alignLen_of_parts request sum
  obtain ⟨memory', node, start, capacity, spec, held, live, room, others, -, free⟩ :=
    allocateRegion_of_met valid state first second
      ((Int.ofNat_le.mpr (Nat.le_add_left parts (1024 + align))).trans bytes)
  obtain ⟨livePos, fits⟩ := held.live_le space live
  have within := @newRegion_parts type machine _ _ size node _ _ parts power whole sizeEq
    live (Int.ofNat_le.mp (bytes.trans room)) fits
  obtain ⟨region, regionEq⟩ :
      ∃ region, region = newRegion machine align parts size node start := ⟨_, rfl⟩
  have startEq : region.start = start := by
    rw [regionEq]
    rfl
  have sizeEq' : region.size = 1024 := by
    rw [regionEq]
    exact sizeEq
  have kind : region.alignment = align := by
    rw [regionEq]
    apply if_pos
    rintro none'
    obtain rfl := Int.ofNat_eq_zero.mp none'
    cases whole
  rw [← regionEq] at spec within
  rw [← alignEq, ← partsEq', partsEq] at spec
  rw [Int.toNat_natCast, ← startEq] at free
  obtain ⟨memory'', taken⟩ := takeParts_of_free valid alignPos positive small whole sizeEq' free
  have wide : align < 2 ^ machine.width := by
    have alignLe : align ≤ 1536 := (Nat.le_add_right _ _).trans sum
    rcases valid with rfl | rfl <;> exact alignLe.trans_lt (by decide)
  have set := setUp_of_holds held
  obtain ⟨held', capacity', live', above, below⟩ := takeParts_some valid alignPos target
    within (machine.cast_of_lt kind wide) (by rwa [set]) taken
  have data : pointer region.startData = some region.startData := if_neg (by omega)
  refine ⟨_, _, allocFrom_iff_of_parts small none' spec taken data, ⟨held', ?_⟩, others,
    region.start, capacity', live', above, (Nat.add_le_add_left enough _).trans below⟩
  rw [List.forall_mem_cons]
  exact ⟨within.take, fun region member => (state.regions region member).mono others⟩

omit valid in
theorem regionBytes_of_small (power : ∃ k, align = 2 ^ k) (small : ¬ Large align size) :
    regionBytes align size ≤ 2147483640 := by
  obtain ⟨parts, partsEq, -, -, -, sum, -, -⟩ := regionRequest_small power small
  unfold regionBytes
  rw [if_neg small, ← partsEq]
  unfold largeRequest
  omega

theorem allocFrom_of_honest (space : type.finish ≤ 2 ^ machine.width) (power : ∃ k, align = 2 ^ k)
    (positive : 0 < size) (state : HeapState type heap blocks)
    (honest : HonestRegion machine align size blocks) :
    ∃ heap' ret, AllocFrom type machine align size heap (some (heap', ret)) ∧
      Served type blocks heap size heap' ret ∧
      (regionBlocks machine align size blocks ≠ none → ret ≠ none) := by
  by_cases large : Large align size
  · cases met : regionBlocks machine align size blocks with
    | none =>
      obtain ⟨memory', spec, state', data⟩ := refuses_of_large valid state large met
      exact ⟨_, _, (spec _).mpr rfl, ⟨state', rfl, data⟩, fun some' => absurd rfl some'⟩
    | some blocks' =>
      have small : size + align ≤ 2147483640 := by
        have bytes := honest.resolve_right (by rw [met]; exact Option.some_ne_none _)
        rwa [regionBytes, if_pos large] at bytes
      obtain ⟨heap', ret, run, room⟩ :=
        allocFrom_of_large_small valid space power state large small met
      exact ⟨heap', some ret, run, ⟨blocks', room⟩, fun _ => Option.some_ne_none _⟩
  · cases found : lookFurther machine heap.memory align ((size + align - 1) / align)
        heap.regions with
    | some parts =>
      obtain ⟨memory', regions', ptr⟩ := parts
      obtain ⟨heap', ret, run, room⟩ := allocFrom_of_found valid power positive state large found
      exact ⟨heap', some ret, run, ⟨blocks, room⟩, fun _ => Option.some_ne_none _⟩
    | none =>
      cases met : regionBlocks machine align size blocks with
      | none =>
        obtain ⟨memory', spec, state', data⟩ := refuses_of_small valid power state large met found
        exact ⟨_, _, (spec _).mpr rfl, ⟨state', rfl, data⟩, fun some' => absurd rfl some'⟩
      | some blocks' =>
        obtain ⟨heap', ret, run, room⟩ :=
          allocFrom_of_parts valid space power positive state large met found
        exact ⟨heap', some ret, run, ⟨blocks', room⟩, fun _ => Option.some_ne_none _⟩

omit valid in
/-- If the sum is changed by the conversions and something is left, then the alignment is
lost or the size does not fit. -/
theorem toInt32_of_wrapped (power : ∃ k, align = 2 ^ k) (sizeLt : size < 2147483640)
    (large : 2147483640 < size + align) (left : 0 < alignLen (toInt32 (size + align))) :
    toInt32 align = 0 := by
  obtain ⟨k, rfl⟩ := power
  rcases Nat.lt_or_ge k 32 with below | above
  · exfalso
    have alignLe : 2 ^ k ≤ 2 ^ 31 := Nat.pow_le_pow_right (by decide) (by omega)
    obtain ⟨sum, sumEq⟩ : ∃ sum, sum = size + 2 ^ k := ⟨_, rfl⟩
    have sumLt : sum < 4294967296 := by omega
    rw [← sumEq] at large left
    unfold alignLen toInt32 at left
    rcases Nat.lt_or_ge sum 2147483648 with near | far
    · have same : Int.bmod (sum : Int) (2 ^ 32) = sum := Int.bmod_eq_of_le (by omega) (by omega)
      have rounded : ((sum : Int) + 7) / 8 * 8 = -2147483648 + (2 ^ 32 : Nat) := by omega
      rw [same, rounded, Int.add_bmod_right, Int.bmod_eq_of_le (by decide) (by decide)] at left
      cases left
    · have negative : Int.bmod (sum : Int) (2 ^ 32) = sum - 4294967296 := by
        rw [← Int.sub_bmod_right]
        exact Int.bmod_eq_of_le (by omega) (by omega)
      rw [negative, Int.bmod_eq_of_le (by omega) (by omega)] at left
      omega
  · obtain ⟨more, rfl⟩ := Nat.exists_eq_add_of_le above
    unfold toInt32
    rw [pow_add]
    push_cast
    exact Int.mul_bmod_right _ _

/-- An aligned request whose number of bytes is not honest adds a region, and has no room. -/
theorem regions_of_not_honest (space : type.finish ≤ 2 ^ machine.width)
    (power : ∃ k, align = 2 ^ k) (state : HeapState type heap blocks)
    (dishonest : ¬ HonestRegion machine align size blocks)
    (run : AllocFrom type machine align size heap (some (heap', ret))) :
    (∃ region, heap'.regions = region :: heap.regions) ∧ (size < 2147483640 → ret = none) := by
  unfold HonestRegion at dishonest
  obtain ⟨wrapped, some'⟩ := not_or.mp dishonest
  obtain ⟨blocks', met⟩ := Option.ne_none_iff_exists'.mp some'
  have large : Large align size := by
    by_contra small
    exact wrapped (regionBytes_of_small power small)
  rw [regionBytes, if_pos large] at wrapped
  obtain ⟨memory', region, node, start, capacity, regionEq, spec, held, live, positive, -,
    -⟩ := allocFrom_of_large valid state large met
  cases (spec _).mp run
  refine ⟨⟨region, rfl⟩, ?_⟩
  intro sizeLt
  have lost := toInt32_of_wrapped power sizeLt (by omega) positive
  obtain ⟨startPos, fits⟩ := held.live_le space live
  apply if_pos
  rw [regionEq, lost]
  exact alignAddress_zero startPos (by omega)

theorem Given.heapState
    (given : Given type machine.nodeSize blocks heap.memory memory blocks' ptr capacity) :
    HeapState type ⟨fill memory ptr machine.nodeSize 0, [⟨ptr, 0, 0, 0, 0, 0⟩]⟩ blocks' where
  held := by
    obtain ⟨held, -⟩ := given.clear valid
    rwa [setUp_of_holds held]
  regions := by
    rw [List.forall_mem_singleton]
    have bounds : (0 : Int) ≤ 0 ∧ (0 : Int) < 2147483648 := by decide
    exact ⟨bounds, bounds, .inl rfl⟩

omit valid in
theorem lookFurther_empty {node target : Nat} (alignPos : 0 < align) :
    lookFurther machine memory align target [⟨node, 0, 0, 0, 0, 0⟩] = none := by
  have other : ¬ machine.cast 0 = align := by
    unfold Machine.cast
    rw [Int.zero_emod]
    exact alignPos.ne
  simp [lookFurther, Region.usable, other]

section

variable (space : type.finish ≤ 2 ^ machine.width)
include space

theorem regions_of_first {node : Nat}
    (power : ∃ k, align = 2 ^ k) (state : HeapState type heap blocks)
    (empty : heap.regions = [⟨node, 0, 0, 0, 0, 0⟩])
    (bad : ¬ (HonestRegion machine align size blocks ∧
      regionBlocks machine align size blocks ≠ none))
    (run : AllocFrom type machine align size heap (some (heap', ret))) :
    heap'.regions ≠ [] ∧ (size < 2147483640 → ret = none) := by
  cases met : regionBlocks machine align size blocks with
  | none =>
    have none' : lookFurther machine heap.memory align ((size + align - 1) / align)
        heap.regions = none := by
      rw [empty]
      exact lookFurther_empty (pos_of_power power)
    have refuses : Refuses type machine align size heap blocks := by
      by_cases large : Large align size
      · exact refuses_of_large valid state large met
      · exact refuses_of_small valid power state large met none'
    obtain ⟨memory', spec, -⟩ := refuses
    cases (spec _).mp run
    refine ⟨?_, fun _ => rfl⟩
    rw [empty]
    exact List.cons_ne_nil _ _
  | some blocks' =>
    have dishonest : ¬ HonestRegion machine align size blocks := by
      intro honest
      exact bad ⟨honest, by rw [met]; exact Option.some_ne_none _⟩
    obtain ⟨⟨region, regions⟩, lost⟩ := regions_of_not_honest valid space power state dishonest run
    refine ⟨?_, lost⟩
    rw [regions]
    exact List.cons_ne_nil _ _

theorem serves_first_iff (power : ∃ k, align = 2 ^ k)
    (positive : 0 < size) (first : heap.regions = [])
    (given : Given type machine.nodeSize blocks heap.memory memory blocks' ptr capacity) :
    (∃ heap' ret, AllocFrom type machine align size
        ⟨fill memory ptr machine.nodeSize 0, [⟨ptr, 0, 0, 0, 0, 0⟩]⟩ (some (heap', ret)) ∧
      Served type blocks heap size heap' ret) ↔
      HonestRegion machine align size blocks' ∧ regionBlocks machine align size blocks' ≠ none := by
  have state := given.heapState valid
  constructor
  · rintro ⟨heap', ret, run, served⟩
    by_contra bad
    obtain ⟨regions, lost⟩ := regions_of_first valid space power state rfl bad run
    cases ret with
    | none =>
      obtain ⟨-, same, -⟩ := served
      exact regions (same.trans first)
    | some ret =>
      obtain ⟨blocks₁, room⟩ := served
      cases lost room.bytes_lt
  · rintro ⟨honest, some'⟩
    obtain ⟨heap', ret, run, served, given'⟩ :=
      allocFrom_of_honest valid space power positive state honest
    obtain ⟨ret, rfl⟩ := Option.ne_none_iff_exists'.mp (given' some')
    obtain ⟨blocks'', room⟩ := served
    refine ⟨heap', some ret, run, blocks'', room.state, ?_, room.room⟩
    intro address n live
    exact room.others address n (given.others address n live).1

theorem serves_memalign_iff (power : ∃ k, align = 2 ^ k) (state : HeapState type heap blocks) :
    Serves type machine heap blocks (.memalign align size) ↔
      Request.Met machine heap blocks (.memalign align size) := by
  unfold Serves Request.Run Request.bytes Request.Met Memalign
  rcases Nat.eq_zero_or_pos size with rfl | positive
  · simp only [if_true, true_or, iff_true]
    exact ⟨heap, none, rfl, state, rfl, fun _ _ _ => rfl⟩
  · simp only [positive.ne', if_false, false_or]
    by_cases first : heap.regions = []
    · simp only [first, if_true, ne_eq, not_true, false_and, false_or, true_and]
      cases found : requested machine.nodeSize blocks with
      | none =>
        obtain ⟨memory, spec, held, data, -⟩ := alloc_of_refused state.held found
        simp only [spec, exists_eq_left]
        refine iff_of_true ⟨_, none, rfl, ⟨held, ?_⟩, first.symm, data⟩ (by simp)
        exact List.forall_mem_nil _
      | some blocks' =>
        obtain ⟨memory, ptr, capacity, spec, given⟩ := alloc_of_requested state.held found
        simp only [spec, exists_eq_left]
        rw [serves_first_iff valid space power positive first given]
        simp
    · simp only [first, if_false, ne_eq, not_false_iff, false_and, or_false, true_and]
      constructor
      · rintro ⟨heap', ret, run, served⟩
        by_contra dishonest
        obtain ⟨⟨region, regions⟩, lost⟩ :=
          regions_of_not_honest valid space power state dishonest run
        cases ret with
        | none =>
          obtain ⟨-, same, -⟩ := served
          rw [regions] at same
          exact List.cons_ne_self _ _ same
        | some ret =>
          obtain ⟨blocks₁, room⟩ := served
          cases lost room.bytes_lt
      · intro honest
        obtain ⟨heap', ret, run, served, -⟩ :=
          allocFrom_of_honest valid space power positive state honest
        exact ⟨heap', ret, run, served⟩

end

end

end Aligned

/-- A request does what it should do if and only if its number of bytes is honest, and the
first aligned request only if there is room. -/
theorem serves_iff {request : Request} (machineValid : machine.Valid)
    (space : type.finish ≤ 2 ^ machine.width) (arguments : request.Valid machine)
    (state : HeapState type heap blocks) :
    Serves type machine heap blocks request ↔ request.Met machine heap blocks := by
  cases request with
  | malloc size => exact serves_malloc_iff state
  | calloc nmemb size => exact serves_calloc_iff machineValid state
  | memalign align size =>
    obtain ⟨-, power, -⟩ := arguments
    exact serves_memalign_iff machineValid space power state

theorem heapState_fresh : HeapState ⟨0, 64⟩ ⟨fun _ => 0, []⟩ [⟨56, true⟩] where
  held := holds_setUp ⟨by decide, by decide⟩ (by decide)
  regions := List.forall_mem_nil _

/-- There are 8 bytes for a request of 8 bytes. -/
theorem serves_eight : Serves ⟨0, 64⟩ ⟨64, 48⟩ ⟨fun _ => 0, []⟩ [⟨56, true⟩] (.malloc 8) :=
  (serves_iff (.inr rfl) (by decide) (by unfold Request.Valid; decide)
    heapState_fresh).mpr (.inl (by decide))

/-- A request for 4 GiB and 8 bytes gets a block of 8 bytes. -/
theorem not_serves_wrapped :
    ¬ ∀ (type : MemoryType) (machine : Machine) (heap : Heap) (blocks : List Block)
      (request : Request), machine.Valid → type.finish ≤ 2 ^ machine.width →
      request.Valid machine → HeapState type heap blocks →
      Serves type machine heap blocks request := by
  intro claim
  have serves := claim ⟨0, 64⟩ ⟨64, 48⟩ ⟨fun _ => 0, []⟩ [⟨56, true⟩] (.malloc 4294967304)
    (.inr rfl) (by decide) (by unfold Request.Valid; decide) heapState_fresh
  rcases (serves_malloc_iff heapState_fresh).mp serves with small | refused
  · exact absurd small (by decide)
  · exact absurd refused (by decide)

end Requests

end Coreboot.Malloc
