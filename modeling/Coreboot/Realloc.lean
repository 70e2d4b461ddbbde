import Coreboot.MallocHeap

/-!
# Resizing a block

To resize a block it is freed first, and merged with the free space around it.
-/

namespace Coreboot.Malloc

open ByteMemory Cbfs SteppedRun

def copyUnits (unit : Nat) (memory : Memory) (dst src : Nat) : Nat → Memory
  | 0 => memory
  | count + 1 =>
    let memory := copyUnits unit memory dst src count
    store memory (dst + unit * count) (load memory (src + unit * count) unit)

/-- `default_memcpy`, with the size of `unsigned long`. -/
def memcpy (word : Nat) (memory : Memory) (dst src n : Nat) : Memory :=
  let memory := copyUnits word memory dst src (n / word)
  copyUnits 1 memory (dst + n / word * word) (src + n / word * word) (n % word)

theorem copyUnits_apply {unit dst src count : Nat} {memory : Memory}
    (apart : dst + unit ≤ src ∨ src + unit * count ≤ dst) (address : Nat) :
    copyUnits unit memory dst src count address =
      if dst ≤ address ∧ address < dst + unit * count then
        memory (src + (address - dst))
      else memory address := by
  induction count generalizing address with
  | zero =>
    rw [if_neg (by omega)]
    rfl
  | succ count ih =>
    rw [Nat.mul_succ] at apart ⊢
    have before := ih (by omega)
    rw [copyUnits]
    by_cases here : dst + unit * count ≤ address ∧ address < dst + unit * count + unit
    · obtain ⟨index, rfl⟩ := Nat.exists_eq_add_of_le here.1
      rw [store_load_apply_add (by omega), before, if_neg (by omega), if_pos (by omega)]
      congr 1
      omega
    · rw [store_of_outside (by rw [length_load]; omega), before]
      by_cases earlier : dst ≤ address ∧ address < dst + unit * count
      · rw [if_pos earlier, if_pos (by omega)]
      · rw [if_neg earlier, if_neg (by omega)]

theorem memcpy_apply {word dst src n : Nat} {memory : Memory} (positive : 0 < word)
    (apart : dst + word ≤ src ∨ src + n ≤ dst) (address : Nat) :
    memcpy word memory dst src n address =
      if dst ≤ address ∧ address < dst + n then memory (src + (address - dst))
      else memory address := by
  have split := Nat.div_add_mod n word
  have whole : n / word * word = word * (n / word) := Nat.mul_comm _ _
  unfold memcpy
  rw [copyUnits_apply (by omega), Nat.one_mul, whole, copyUnits_apply (by omega),
    copyUnits_apply (by omega)]
  split_ifs <;> first | rfl | omega | (congr 1; omega)

/-- The end of `realloc`, with the memory and the block that `alloc` gives. -/
def copyOver (word ptr n : Nat) : Memory × Option Nat → Memory × Option Nat
  | (memory, none) => (memory, none)
  | (memory, some ret) =>
    if ret = ptr then (memory, some ret) else (memcpy word memory ret ptr n, some ret)

def Realloc (type : MemoryType) (word : Nat) (memory : Memory) (ptr size : Nat)
    (result : Option (Memory × Option Nat)) : Prop :=
  if ptr = 0 then Alloc type (toInt32 size) memory result
  else
    let pptr := ptr - hdrSize
    if ¬ hasMagic (readHeader memory pptr) then result = some (memory, none)
    else
      let osize := sizeOf (readHeader memory pptr) % 2 ^ 32
      ∃ freed allocated, Free type memory ptr freed ∧
        Alloc type (toInt32 size) freed allocated ∧
        result = allocated.map (copyOver word ptr (if osize > size then size else osize))

/-- The new block has the data of the old one, and the others are as they were. -/
structure Resized (type : MemoryType) (blocks : List Block) (ptr capacity size : Nat)
    (memory memory' : Memory) (ret : Nat) (blocks' : List Block) : Prop where
  heap : Holds type memory' blocks'
  room : ∃ room, Live type blocks' ret room ∧ size ≤ room
  data : load memory' ret (min capacity size) = load memory ptr (min capacity size)
  others : ∀ address n, Live type blocks address n → address ≠ ptr →
    Live type blocks' address n ∧ address ≠ ret ∧ load memory' address n = load memory address n

structure Kept (type : MemoryType) (ptr capacity : Nat) (memory memory' : Memory)
    (blocks' : List Block) : Prop where
  heap : Holds type memory' blocks'
  live : Live type blocks' ptr capacity
  data : load memory' ptr capacity = load memory ptr capacity

def Reallocates (type : MemoryType) (word : Nat) (memory : Memory) (blocks : List Block)
    (ptr capacity size : Nat) : Prop :=
  ∃ memory' ret blocks', Realloc type word memory ptr size (some (memory', ret)) ∧
    match ret with
    | none => Kept type ptr capacity memory memory' blocks'
    | some ret => Resized type blocks ptr capacity size memory memory' ret blocks'

/-- The size in the header of a block for a request. -/
def roundUp (size : Nat) : Nat := (size + 7) / 8 * 8

/-- There is room once the block is free, and if the room starts in front of the block
then no new header gets into the data that is copied. -/
structure Reusable (before after : List Block) (capacity size : Nat) : Prop where
  small : size ≤ 2147483640
  room : ∃ block ∈ (trailing before).1 ++
      ⟨(trailing before).2 + capacity + (leading after).1, true⟩ :: (leading after).2,
    block.free = true ∧ roundUp size ≤ block.size
  apart : (∀ block ∈ (trailing before).1, block.free = true → block.size < roundUp size) →
    hdrSize + roundUp size < (trailing before).2 + capacity + (leading after).1 →
    (trailing before).2 < roundUp size + hdrSize →
    (trailing before).2 + min capacity size ≤ roundUp size

section Resize

variable {type : MemoryType} {word : Nat} {memory : Memory} {before after : List Block}
  {capacity size : Nat}

variable {ptr : Nat} {blocks : List Block} {freed : Memory}
  {allocated : Option (Memory × Option Nat)}

theorem Free.unique {first second : Memory} (one : Free type memory ptr first)
    (other : Free type memory ptr second) : first = second := by
  unfold Free at one other
  dsimp only at one other
  split_ifs at one other
  · rw [one, other]
  · rw [one, other]
  · exact EndsWith.unique one other
  · rw [one, other]

theorem released (held : Holds type memory (before ++ ⟨capacity, false⟩ :: after)) :
    ∃ freed, Free type memory (type.start + spanOf before + hdrSize) freed ∧
      Holds type freed ((trailing before).1 ++
        ⟨(trailing before).2 + capacity + (leading after).1, true⟩ :: (leading after).2) ∧
      (∀ target, type.start + spanOf before + hdrSize ≤ target →
        target < type.start + spanOf before + (hdrSize + capacity) →
        freed target = memory target) ∧
      ∀ address n, Live type (before ++ ⟨capacity, false⟩ :: after) address n →
        address ≠ type.start + spanOf before + hdrSize →
        Live type ((trailing before).1 ++
          ⟨(trailing before).2 + capacity + (leading after).1, true⟩ :: (leading after).2)
          address n ∧
        ∀ target, address ≤ target → target < address + n → freed target = memory target := by
  have merged := held.merged
  unfold Merged at merged
  rw [List.isChain_append, List.isChain_cons] at merged
  obtain ⟨front, ⟨-, back⟩, -⟩ := merged
  obtain ⟨freed, free, held', kept⟩ := free_spec held
  rw [merge_around front back] at held'
  refine ⟨freed, free, held', ?_, ?_⟩
  · intro target above below
    exact kept target (not_inFreeHeader_of_data above below)
  · intro address n live other
    have live' : LiveAt address n type.start (before ++ ⟨capacity, true⟩ :: after) := by
      unfold Live at live
      rw [liveAt_append, liveAt_cons] at live ⊢
      rcases live with inFront | ⟨-, here⟩ | behind
      · exact .inl inFront
      · exact absurd here other
      · exact .inr (.inr behind)
    refine ⟨?_, ?_⟩
    · have moved := @LiveAt.merge _ _ _ _ none live'
      rw [merge_around front back] at moved
      exact moved
    · intro target above below
      obtain ⟨before', after', split, rfl⟩ := live'.exists_split
      apply kept target
      rw [split]
      exact not_inFreeHeader_of_data above (by dsimp only; omega)

theorem spanOf_front (before : List Block) :
    type.start + spanOf before + hdrSize =
      type.start + spanOf (trailing before).1 + hdrSize + (trailing before).2 := by
  have span := spanOf_trailing before
  omega

theorem trailing_cases (blocks : List Block) :
    (trailing blocks).2 = 0 ∨ hdrSize ≤ (trailing blocks).2 := by
  induction blocks with
  | nil => exact .inl rfl
  | cons block rest ih =>
    cases rest with
    | nil =>
      rw [trailing]
      split_ifs
      · exact .inr (Nat.le_add_right _ _)
      · exact .inl rfl
    | cons next rest => exact ih

theorem not_live_of_released (held : Holds type freed ((trailing before).1 ++
      ⟨(trailing before).2 + capacity + (leading after).1, true⟩ :: (leading after).2))
    (other : Holds type freed blocks) (n : Nat) :
    ¬ Live type blocks (type.start + spanOf before + hdrSize) n := by
  have place := @spanOf_front type before
  rw [other.unique held]
  unfold Live
  rw [liveAt_append, liveAt_cons]
  rintro (inFront | ⟨here, -⟩ | behind)
  · have bounds := inFront.bounds
    unfold hdrSize at *
    omega
  · cases here
  · have bounds := behind.bounds
    dsimp only at bounds
    unfold hdrSize at *
    omega

theorem alignLen_of_small (small : size ≤ 2147483640) : alignLen (toInt32 size) = roundUp size := by
  have value : ((size : Int) + 7) / 8 * 8 = (roundUp size : Nat) := by
    unfold roundUp
    omega
  have bound : roundUp size ≤ 2147483640 := by
    unfold roundUp
    omega
  rw [toInt32_of_lt (by omega), alignLen, value]
  exact Int.bmod_eq_of_le (by omega) (by omega)

theorem le_roundUp (size : Nat) : size ≤ roundUp size := by
  unfold roundUp
  omega

theorem roundUp_lt (small : size ≤ 2147483640) : roundUp size < 2147483648 := by
  unfold roundUp
  omega

section Fit

variable {front back : List Block} {room len : Nat}

theorem live_carve (large : len ≤ room) :
    ∃ given, Live type (front ++ (carve len room ++ back))
      (type.start + spanOf front + hdrSize) given ∧ len ≤ given := by
  unfold carve Live
  split_ifs
  · refine ⟨len, ?_, le_rfl⟩
    rw [liveAt_append]
    exact .inr (.inl ⟨rfl, rfl⟩)
  · refine ⟨room, ?_, large⟩
    rw [liveAt_append]
    exact .inr (.inl ⟨rfl, rfl⟩)

theorem live_of_carve {address n : Nat}
    (live : Live type (front ++ ⟨room, true⟩ :: back) address n) :
    Live type (front ++ (carve len room ++ back)) address n ∧
      (address + n ≤ type.start + spanOf front ∨
        type.start + spanOf front + (hdrSize + room) + hdrSize ≤ address) := by
  unfold Live at *
  rw [liveAt_append, liveAt_cons] at live
  rw [liveAt_append, liveAt_append, spanOf_carve]
  rcases live with inFront | ⟨here, -⟩ | behind
  · exact ⟨.inl inFront, .inl inFront.bounds.2⟩
  · cases here
  · exact ⟨.inr (.inr behind), .inr behind.bounds.1⟩

theorem Resized.of_fit {freed final : Memory} {ptr : Nat}
    (held : Holds type freed (front ++ ⟨room, true⟩ :: back)) (positive : 0 < size)
    (large : roundUp size ≤ room) (kept : ∀ address n, Live type blocks address n → address ≠ ptr →
      Live type (front ++ ⟨room, true⟩ :: back) address n ∧
        ∀ target, address ≤ target → target < address + n → freed target = memory target)
    (same : ∀ target, target < type.start + spanOf front + hdrSize ∨
      type.start + spanOf front + hdrSize + min capacity size ≤ target →
        final target = carved freed (type.start + spanOf front) (roundUp size) room target)
    (data : load final (type.start + spanOf front + hdrSize) (min capacity size) =
      load memory ptr (min capacity size)) :
    Resized type blocks ptr capacity size memory final
      (type.start + spanOf front + hdrSize) (front ++ (carve (roundUp size) room ++ back))
      where
  heap := by
    have up := le_roundUp size
    obtain ⟨given, live, fits⟩ := @live_carve type front back room (roundUp size) large
    apply (held.carved (by omega) large).congr live
    intro target outside
    apply same
    omega
  room := by
    obtain ⟨given, live, fits⟩ := @live_carve type front back room (roundUp size) large
    exact ⟨given, live, (le_roundUp size).trans fits⟩
  data := data
  others := by
    intro address n live other
    have up := le_roundUp size
    obtain ⟨live', data'⟩ := kept address n live other
    obtain ⟨live'', apart⟩ := @live_of_carve type front back room (roundUp size) _ _ live'
    refine ⟨live'', ?_, ?_⟩
    · have bounds := live'.bounds
      unfold hdrSize at *
      omega
    · apply load_congr
      intro target above below
      rw [same target (by omega), ← data' target above below]
      apply carved_of_outside large
      omega

end Fit

theorem position_cases {front back front' back' : List Block} {room room' : Nat}
    (same : front ++ ⟨room, true⟩ :: back = front' ++ ⟨room', true⟩ :: back') :
    (front' = front ∧ room' = room ∧ back' = back) ∨
      (∃ rest, front = front' ++ ⟨room', true⟩ :: rest) ∨
      ∃ rest, front' = front ++ ⟨room, true⟩ :: rest := by
  rcases List.append_eq_append_iff.mp same with ⟨rest, split, split'⟩ | ⟨rest, split, split'⟩
  · cases rest with
    | nil =>
      cases split'
      exact .inl ⟨split.trans (List.append_nil _), rfl, rfl⟩
    | cons block rest =>
      rw [List.cons_append] at split'
      cases split'
      exact .inr (.inr ⟨rest, split⟩)
  · cases rest with
    | nil =>
      cases split'
      exact .inl ⟨(split.trans (List.append_nil _)).symm, rfl, rfl⟩
    | cons block rest =>
      rw [List.cons_append] at split'
      cases split'
      exact .inr (.inl ⟨rest, split⟩)

/-- The request leaves the data that is to be copied alone, and the copy goes to the
same place, to a lower one or to one behind the data. -/
theorem data_of_fit {front' back' : List Block} {room : Nat} (same : (trailing before).1 ++
      ⟨(trailing before).2 + capacity + (leading after).1, true⟩ :: (leading after).2 =
        front' ++ ⟨room, true⟩ :: back') (large : roundUp size ≤ room)
    (first : ∀ block ∈ front', block.free = true → block.size < roundUp size)
    (reusable : Reusable before after capacity size) :
    (∀ target, type.start + spanOf before + hdrSize ≤ target →
      target < type.start + spanOf before + hdrSize + min capacity size →
      carved freed (type.start + spanOf front') (roundUp size) room target = freed target) ∧
    (type.start + spanOf front' + hdrSize = type.start + spanOf before + hdrSize ∨
      type.start + spanOf front' + hdrSize + 8 ≤ type.start + spanOf before + hdrSize ∨
      type.start + spanOf before + hdrSize + min capacity size ≤
        type.start + spanOf front' + hdrSize) := by
  have place := @spanOf_front type before
  have cases' := trailing_cases before
  have up := le_roundUp size
  have header : hdrSize = 8 := rfl
  rcases position_cases same with ⟨rfl, rfl, rfl⟩ | ⟨rest, split⟩ | ⟨rest, split⟩
  · refine ⟨?_, by omega⟩
    intro target above below
    unfold carved
    split_ifs with space
    · have clear : (trailing before).2 < roundUp size + hdrSize →
          (trailing before).2 + min capacity size ≤ roundUp size :=
        reusable.apart first space
      rw [writeHeader_of_outside (by omega), writeHeader_of_outside (by omega)]
    · exact writeHeader_of_outside (by omega)
  · have span := congrArg spanOf split
    rw [spanOf_append, spanOf_cons] at span
    dsimp only at span
    refine ⟨?_, by omega⟩
    intro target above below
    exact carved_of_outside large (by omega)
  · have span := congrArg spanOf split
    rw [spanOf_append, spanOf_cons] at span
    dsimp only at span
    refine ⟨?_, by omega⟩
    intro target above below
    exact carved_of_outside large (by omega)

theorem copyOver_same {n ret : Nat} (same : ret = ptr) :
    copyOver word ptr n (memory, some ret) = (memory, some ret) :=
  if_pos same

theorem copyOver_other {n ret : Nat} (other : ret ≠ ptr) :
    copyOver word ptr n (memory, some ret) = (memcpy word memory ret ptr n, some ret) :=
  if_neg other

theorem realloc_of_live (held : Holds type memory (before ++ ⟨capacity, false⟩ :: after))
    (result : Option (Memory × Option Nat)) :
    Realloc type word memory (type.start + spanOf before + hdrSize) size result ↔
      ∃ freed allocated, Free type memory (type.start + spanOf before + hdrSize) freed ∧
        Alloc type (toInt32 size) freed allocated ∧
        result = allocated.map (copyOver word (type.start + spanOf before + hdrSize)
          (min capacity size)) := by
  obtain ⟨-, header, -, -⟩ := held.parts
  have small := held.small
  rw [spanOf_append, spanOf_cons] at small
  dsimp only at small
  have size_eq := @sizeOf_header ⟨capacity, false⟩ (by dsimp only; omega)
  have magic_eq := @hasMagic_header ⟨capacity, false⟩
  change sizeOf (usedBlock capacity) = capacity at size_eq
  change hasMagic (usedBlock capacity) = true at magic_eq
  have smaller : (if capacity > size then size else capacity) = min capacity size := by
    split_ifs <;> omega
  unfold Realloc
  dsimp only
  rw [if_neg (by unfold hdrSize; omega), Nat.add_sub_cancel, header, magic_eq,
    if_neg (by simp), size_eq, Nat.mod_eq_of_lt (by omega), smaller]

theorem realloc_of_alloc (held : Holds type memory (before ++ ⟨capacity, false⟩ :: after))
    (free : Free type memory (type.start + spanOf before + hdrSize) freed)
    (alloc : Alloc type (toInt32 size) freed allocated) :
    Realloc type word memory (type.start + spanOf before + hdrSize) size
      (allocated.map (copyOver word (type.start + spanOf before + hdrSize)
        (min capacity size))) := by
  rw [realloc_of_live held]
  exact ⟨freed, allocated, free, alloc, rfl⟩

theorem reallocates_of_reusable (words : 0 < word ∧ word ≤ 8) (positive : 0 < size)
    (held : Holds type memory (before ++ ⟨capacity, false⟩ :: after))
    (reusable : Reusable before after capacity size) :
    Reallocates type word memory (before ++ ⟨capacity, false⟩ :: after)
      (type.start + spanOf before + hdrSize) capacity size := by
  obtain ⟨freed, free, held', data, others⟩ := released held
  have up := le_roundUp size
  have request := @alloc_spec type freed _ held' _ (roundUp size) (by omega)
    (roundUp_lt reusable.small) (alignLen_of_small reusable.small)
  cases found : firstFit (roundUp size) ((trailing before).1 ++
      ⟨(trailing before).2 + capacity + (leading after).1, true⟩ :: (leading after).2) with
  | none =>
    obtain ⟨block, member, isFree, large⟩ := reusable.room
    have small := firstFit_none.mp found block member isFree
    omega
  | some parts =>
    obtain ⟨front, room, back⟩ := parts
    rw [found] at request
    obtain ⟨same, large, first⟩ := firstFit_some found
    obtain ⟨kept, place⟩ := @data_of_fit type before after capacity size freed _ _ _ same
      large first reusable
    rw [same] at held' others
    have smallest : min capacity size ≤ capacity := Nat.min_le_left _ _
    have loaded (target : Nat)
        (above : type.start + spanOf before + hdrSize ≤ target)
        (below : target < type.start + spanOf before + hdrSize + min capacity size) :
        carved freed (type.start + spanOf front) (roundUp size) room target = memory target := by
      rw [kept target above below, data target above (by omega)]
    have allocated : Alloc type (toInt32 size) freed
        (some (carved freed (type.start + spanOf front) (roundUp size) room,
          some (type.start + spanOf front + hdrSize))) := by
      rw [request]
    by_cases stays : type.start + spanOf front + hdrSize = type.start + spanOf before + hdrSize
    · have returned := @realloc_of_alloc type word memory before after
        capacity size freed _ held free allocated
      rw [Option.map_some, copyOver_same stays] at returned
      refine ⟨_, some _, _, returned, Resized.of_fit held' positive large others
        (fun _ _ => rfl) ?_⟩
      rw [stays]
      exact load_congr loaded
    · have copied := @memcpy_apply word (type.start + spanOf front + hdrSize)
        (type.start + spanOf before + hdrSize) (min capacity size)
        (carved freed (type.start + spanOf front) (roundUp size) room) words.1 (by omega)
      have returned := @realloc_of_alloc type word memory before after
        capacity size freed _ held free allocated
      rw [Option.map_some, copyOver_other stays] at returned
      refine ⟨_, some _, _, returned, Resized.of_fit held' positive large others ?_ ?_⟩
      · intro target outside
        rw [copied, if_neg (by omega)]
      · apply load_translate
        intro index below
        rw [copied, if_pos (by omega), Nat.add_sub_cancel_left]
        exact loaded _ (by omega) (by omega)

theorem alloc_cases {request : Int}
    (held : Holds type memory blocks) (alloc : Alloc type request memory allocated) :
    allocated = some (memory, none) ∨ ∃ memory' ret, allocated = some (memory', some ret) := by
  by_cases nonpos : alignLen request ≤ 0
  · exact .inl ((alloc_of_nonpos nonpos _).mp alloc)
  · have below : alignLen request < 2147483648 := by
      unfold alignLen
      exact Int.bmod_lt (by decide)
    have len : alignLen request = ((alignLen request).toNat : Nat) := by omega
    have result := (alloc_spec held (by omega) (by omega) len allocated).mp alloc
    rw [result]
    split
    · exact .inl rfl
    · exact .inr ⟨_, _, rfl⟩

theorem firstFit_append {front back : List Block} {room len : Nat} (large : len ≤ room)
    (first : ∀ block ∈ front, block.free = true → block.size < len) :
    firstFit len (front ++ ⟨room, true⟩ :: back) = some (front, room, back) := by
  induction front with
  | nil => exact if_pos ⟨rfl, large⟩
  | cons block rest ih =>
    have later := ih fun other member => first other (.tail _ member)
    rw [List.cons_append, firstFit, later, if_neg]
    · rfl
    · rintro ⟨free, large'⟩
      exact absurd (first block (.head _) free) (Nat.not_lt.mpr large')

theorem writeHeader_inside {place header index : Nat} (inside : index < hdrSize) :
    writeHeader memory place header (place + index) = (encodeLE 8 header).getD index 0 := by
  have loaded := load_store_self memory place (encodeLE 8 header)
  have byte := congrArg (fun bytes => bytes[index]?) loaded
  have inside' : index < (encodeLE 8 header).length := by
    rwa [length_encodeLE]
  rw [getElem?_load inside'] at byte
  rw [List.getD_eq_getElem?_getD, ← byte]
  rfl

theorem ret_of_reallocates (held : Holds type memory (before ++ ⟨capacity, false⟩ :: after))
    (good : Reallocates type word memory (before ++ ⟨capacity, false⟩ :: after)
      (type.start + spanOf before + hdrSize) capacity size) :
    ∃ freed memory₁ ret memory' blocks',
      Holds type freed ((trailing before).1 ++
        ⟨(trailing before).2 + capacity + (leading after).1, true⟩ :: (leading after).2) ∧
      Alloc type (toInt32 size) freed (some (memory₁, some ret)) ∧
      (memory', some ret) = copyOver word (type.start + spanOf before + hdrSize)
        (min capacity size) (memory₁, some ret) ∧
      Resized type (before ++ ⟨capacity, false⟩ :: after)
        (type.start + spanOf before + hdrSize) capacity size memory memory' ret
        blocks' := by
  obtain ⟨memory', ret, blocks', returned, good⟩ := good
  rw [realloc_of_live held] at returned
  obtain ⟨freed, allocated, free, alloc, same⟩ := returned
  obtain ⟨freed', free', held', -, -⟩ := released held
  rw [free'.unique free] at held'
  rcases alloc_cases held' alloc with rfl | ⟨memory₁, ret', rfl⟩
  · rw [Option.map_some, copyOver] at same
    cases same
    exact absurd good.live (not_live_of_released held' good.heap capacity)
  · rw [Option.map_some] at same
    have same' := Option.some.inj same
    have ret_eq : ret = some ret' := by
      rw [copyOver] at same'
      split_ifs at same'
      · exact congrArg Prod.snd same'
      · exact congrArg Prod.snd same'
    subst ret_eq
    exact ⟨freed, memory₁, ret', memory', blocks', held', alloc, same', good⟩

/-- If a block is resized for any data in it then there is room, and no new header gets
into the data. -/
theorem reusable_of_reallocates (words : 0 < word ∧ word ≤ 8) (positive : 0 < size)
    (held : Holds type memory (before ++ ⟨capacity, false⟩ :: after))
    (good : ∀ contents, contents.length = capacity →
      Reallocates type word
        (store memory (type.start + spanOf before + hdrSize) contents)
        (before ++ ⟨capacity, false⟩ :: after)
        (type.start + spanOf before + hdrSize) capacity size) :
    Reusable before after capacity size := by
  have live : Live type (before ++ ⟨capacity, false⟩ :: after)
      (type.start + spanOf before + hdrSize) capacity := by
    unfold Live
    rw [liveAt_append]
    exact .inr (.inl ⟨rfl, rfl⟩)
  have stored (contents : List Byte) (length : contents.length = capacity) :
      Holds type (store memory (type.start + spanOf before + hdrSize) contents)
        (before ++ ⟨capacity, false⟩ :: after) :=
    held.congr live fun target outside => store_of_outside (by rwa [length])
  have small : size ≤ 2147483640 := by
    have length : (List.replicate capacity (0 : Byte)).length = capacity := List.length_replicate
    obtain ⟨freed, memory₁, ret, memory', blocks', -, -, -, resized⟩ :=
      ret_of_reallocates (stored _ length) (good _ length)
    obtain ⟨given, live', large⟩ := resized.room
    have bounds := live'.bounds
    have span := resized.heap.small
    unfold hdrSize at bounds
    omega
  have up := le_roundUp size
  have request (freed : Memory) {blocks : List Block} (held' : Holds type freed blocks) :=
    @alloc_spec type freed blocks held' _ (roundUp size) (by omega) (roundUp_lt small)
      (alignLen_of_small small)
  refine ⟨small, ?_, ?_⟩
  · have length : (List.replicate capacity (0 : Byte)).length = capacity := List.length_replicate
    obtain ⟨freed, memory₁, ret, memory', blocks', held', alloc, -, -⟩ :=
      ret_of_reallocates (stored _ length) (good _ length)
    rw [request freed held'] at alloc
    cases found : firstFit (roundUp size) ((trailing before).1 ++
        ⟨(trailing before).2 + capacity + (leading after).1, true⟩ :: (leading after).2) with
    | none =>
      rw [found] at alloc
      cases alloc
    | some parts =>
      obtain ⟨front, room, back⟩ := parts
      obtain ⟨same, large, -⟩ := firstFit_some found
      refine ⟨⟨room, true⟩, ?_, rfl, large⟩
      rw [same]
      simp
  · intro first space near
    by_contra tooLarge
    have span := @spanOf_front type before
    have room : 0 < capacity := held.sized ⟨capacity, false⟩ (by simp)
    have header : hdrSize = 8 := rfl
    have cases' := trailing_cases before
    -- A byte that is copied is in the header behind the block, and it is another one.
    obtain ⟨offset, offsetEq⟩ : ∃ offset, offset = roundUp size - (trailing before).2 := ⟨_, rfl⟩
    obtain ⟨index, indexEq⟩ : ∃ index,
        index = (trailing before).2 + offset - roundUp size := ⟨_, rfl⟩
    obtain ⟨byte, byteEq⟩ : ∃ byte, byte = (encodeLE 8 (freeBlock ((trailing before).2 +
        capacity + (leading after).1 - (hdrSize + roundUp size)))).getD index 0 := ⟨_, rfl⟩
    have length : (List.replicate capacity (byte + 1)).length = capacity := List.length_replicate
    obtain ⟨freed, memory₁, ret, memory', blocks', held', alloc, copied, resized⟩ :=
      ret_of_reallocates (stored _ length) (good _ length)
    rw [request freed held', firstFit_append (by omega) first] at alloc
    obtain ⟨rfl, retEq⟩ := Prod.mk.inj (Option.some.inj alloc)
    cases retEq
    have moved : type.start + spanOf (trailing before).1 + hdrSize ≠
        type.start + spanOf before + hdrSize := by
      omega
    rw [copyOver_other moved] at copied
    obtain rfl := congrArg Prod.fst copied
    have bytes := load_eq_load_iff.mp resized.data offset (by omega)
    dsimp only at bytes
    rw [memcpy_apply words.1 (by omega), if_pos (by omega), Nat.add_sub_cancel_left] at bytes
    have place : type.start + spanOf before + hdrSize + offset =
        type.start + spanOf (trailing before).1 + (hdrSize + roundUp size) + index := by
      omega
    have written := @store_load_apply memory (fun _ => byte + 1)
      (type.start + spanOf before + hdrSize) capacity offset (by omega)
    have contents : load (fun _ => byte + 1) 0 capacity = List.replicate capacity (byte + 1) :=
      load_eq_replicate fun _ _ _ => rfl
    rw [contents] at written
    rw [written, place, carved, if_pos space, writeHeader_inside (by omega), ← byteEq] at bytes
    have shifted := congrArg BitVec.toNat bytes
    rw [BitVec.toNat_add] at shifted
    have one : (1 : Byte).toNat = 1 := rfl
    have bound := byte.isLt
    rw [one] at shifted
    omega

end Resize

section Runs

variable {type : MemoryType} {word : Nat} {memory : Memory} {live : List Nat}

/-- The heap has room for a block, and less than 2 GiB. -/
structure MemoryType.Valid (type : MemoryType) : Prop where
  room : type.start + hdrSize < type.finish
  small : type.finish - type.start < 2147483648

/-- What the memory can be after requests, releases and writes to the blocks that have
been handed out.  A block that could not be resized is given up. -/
inductive Reachable (type : MemoryType) (word : Nat) : Memory → List Nat → Prop
  | boot {memory : Memory} (fresh : hasMagic (readHeader memory type.start) = false) :
      Reachable type word memory []
  | request {memory memory' : Memory} {live : List Nat} {size : Nat} {ret : Option Nat}
      (before : Reachable type word memory live)
      (alloc : Alloc type (toInt32 size) memory (some (memory', ret))) :
      Reachable type word memory' (ret.toList ++ live)
  | release {memory memory' : Memory} {live : List Nat} {ptr : Nat}
      (before : Reachable type word memory live) (member : ptr ∈ live)
      (free : Free type memory ptr memory') :
      Reachable type word memory' (live.filter (· ≠ ptr))
  | resize {memory memory' : Memory} {live : List Nat} {ptr size : Nat}
      {ret : Option Nat} (before : Reachable type word memory live) (member : ptr ∈ live)
      (small : size ≤ 2147483640) (positive : 0 < size)
      (realloc : Realloc type word memory ptr size (some (memory', ret))) :
      Reachable type word memory' (ret.toList ++ live.filter (· ≠ ptr))
  | write {memory : Memory} {live : List Nat} {ptr offset : Nat} {bytes : List Byte}
      (before : Reachable type word memory live) (member : ptr ∈ live)
      (inside : offset + bytes.length ≤ sizeOf (readHeader memory (ptr - hdrSize))) :
      Reachable type word (store memory (ptr + offset) bytes) live

/-- The heap of a program: it has not been set up, or has its blocks in use. -/
def Sound (type : MemoryType) (memory : Memory) (live : List Nat) : Prop :=
  (hasMagic (readHeader memory type.start) = false ∧ live = []) ∨
    ∃ blocks, Holds type memory blocks ∧ ∀ ptr ∈ live, ∃ capacity, Live type blocks ptr capacity

theorem copyUnits_of_outside {unit dst src count address : Nat}
    (outside : address < dst ∨ dst + unit * count ≤ address) :
    copyUnits unit memory dst src count address = memory address := by
  induction count with
  | zero => rfl
  | succ count ih =>
    rw [Nat.mul_succ] at outside
    rw [copyUnits, store_of_outside (by rw [length_load]; omega)]
    exact ih (by omega)

theorem memcpy_of_outside {dst src n address : Nat} (outside : address < dst ∨ dst + n ≤ address) :
    memcpy word memory dst src n address = memory address := by
  have split := Nat.div_add_mod n word
  have whole : n / word * word = word * (n / word) := Nat.mul_comm _ _
  unfold memcpy
  rw [copyUnits_of_outside (by omega), copyUnits_of_outside (by omega)]

theorem holds_setUp (valid : type.Valid) (fresh : hasMagic (readHeader memory type.start) = false) :
    Holds type (setUp type memory) [⟨type.finish - type.start - hdrSize, true⟩] := by
  have room := valid.room
  have small := valid.small
  have written : setUp type memory = writeHeader memory type.start
      (freeBlock (type.finish - type.start - hdrSize)) := by
    apply if_neg
    rw [fresh]
    simp
  rw [written]
  refine ⟨⟨?_, trivial⟩, ?_, List.cons_ne_nil _ _, ?_, .singleton _, ?_⟩
  · exact readHeader_writeHeader memory _ ⟨_, true⟩
  · rw [spanOf_cons, spanOf_nil]
    dsimp only
    omega
  · rw [List.forall_mem_singleton]
    dsimp only
    omega
  · rw [spanOf_cons, spanOf_nil]
    dsimp only
    omega

variable {request : Int} {blocks : List Block} {memory' : Memory} {ret : Option Nat} {ptr : Nat}

theorem alloc_setUp {result : Option (Memory × Option Nat)} (positive : 0 < alignLen request) :
    Alloc type request (setUp type memory) result ↔ Alloc type request memory result := by
  have again : setUp type (setUp type memory) = setUp type memory := by
    rw [setUp]
    apply if_pos
    by_cases set : hasMagic (readHeader memory type.start) = true
    · rwa [setUp, if_pos set]
    · rw [setUp, if_neg set]
      have header := readHeader_writeHeader memory type.start
        ⟨type.finish - type.start - hdrSize, true⟩
      change readHeader (writeHeader memory type.start (freeBlock _)) _ = _ at header
      rw [header]
      exact hasMagic_header
  have taken : ¬ Refused (alignLen request) := by
    have below : alignLen request < 2147483648 := by
      unfold alignLen
      exact Int.bmod_lt (by decide)
    unfold Refused maxSize
    omega
  unfold Alloc
  rw [again, or_iff_right fun refused => taken refused.1,
    or_iff_right fun refused => taken refused.1]

theorem Holds.alloc (held : Holds type memory blocks)
    (alloc : Alloc type request memory (some (memory', ret))) :
    ∃ blocks', Holds type memory' blocks' ∧
      (∀ ptr capacity, Live type blocks ptr capacity → Live type blocks' ptr capacity) ∧
      ∀ new ∈ ret, ∃ room, Live type blocks' new room ∧ alignLen request ≤ room := by
  by_cases nonpos : alignLen request ≤ 0
  · cases (alloc_of_nonpos nonpos _).mp alloc
    exact ⟨blocks, held, fun _ _ live => live, by simp⟩
  · have below : alignLen request < 2147483648 := by
      unfold alignLen
      exact Int.bmod_lt (by decide)
    have len : alignLen request = ((alignLen request).toNat : Nat) := by omega
    have positive : 0 < (alignLen request).toNat := by omega
    have result := (alloc_spec held positive (by omega) len _).mp alloc
    cases found : firstFit (alignLen request).toNat blocks with
    | none =>
      rw [found] at result
      cases result
      exact ⟨blocks, held, fun _ _ live => live, by simp⟩
    | some parts =>
      obtain ⟨front, room, back⟩ := parts
      rw [found] at result
      cases result
      obtain ⟨rfl, large, -⟩ := firstFit_some found
      refine ⟨_, held.carved positive large, ?_, ?_⟩
      · intro ptr capacity live
        exact (live_of_carve live).1
      · rintro _ ⟨⟩
        obtain ⟨given, live, fits⟩ :=
          @live_carve type front back room (alignLen request).toNat large
        exact ⟨given, live, by omega⟩

theorem sound_of_alloc (held : Holds type memory blocks)
    (lives : ∀ ptr ∈ live, ∃ capacity, Live type blocks ptr capacity)
    (alloc : Alloc type request memory (some (memory', ret))) :
    Sound type memory' (ret.toList ++ live) := by
  obtain ⟨blocks', held', kept, new⟩ := held.alloc alloc
  refine .inr ⟨blocks', held', ?_⟩
  intro ptr member
  rcases List.mem_append.mp member with handedOut | before
  · obtain ⟨room, live', -⟩ := new ptr (Option.mem_toList.mp handedOut)
    exact ⟨room, live'⟩
  · obtain ⟨capacity, live'⟩ := lives ptr before
    exact ⟨capacity, kept ptr capacity live'⟩

theorem released_of_member {capacity : Nat} (held : Holds type memory blocks)
    (lives : ∀ ptr ∈ live, ∃ capacity, Live type blocks ptr capacity)
    (block : Live type blocks ptr capacity) :
    ∃ freed blocks', Free type memory ptr freed ∧ Holds type freed blocks' ∧
      ∀ other ∈ live.filter (· ≠ ptr), ∃ capacity, Live type blocks' other capacity := by
  obtain ⟨before, after, rfl, rfl⟩ := block.exists_split
  obtain ⟨freed, free, held', -, others⟩ := released held
  refine ⟨freed, _, free, held', ?_⟩
  intro other member
  rw [List.mem_filter, decide_eq_true_eq] at member
  obtain ⟨capacity', live'⟩ := lives other member.1
  exact ⟨capacity', (others other capacity' live' member.2).1⟩

theorem Sound.exists_live (sound : Sound type memory live) (member : ptr ∈ live) :
    ∃ blocks capacity, Holds type memory blocks ∧ Live type blocks ptr capacity ∧
      ∀ ptr ∈ live, ∃ capacity, Live type blocks ptr capacity := by
  rcases sound with ⟨-, rfl⟩ | ⟨blocks, held, lives⟩
  · cases member
  · obtain ⟨capacity, live'⟩ := lives ptr member
    exact ⟨blocks, capacity, held, live', lives⟩

theorem sound_of_realloc {size : Nat} (sound : Sound type memory live)
    (member : ptr ∈ live) (small : size ≤ 2147483640)
    (realloc : Realloc type word memory ptr size (some (memory', ret))) :
    Sound type memory' (ret.toList ++ live.filter (· ≠ ptr)) := by
  obtain ⟨blocks, capacity, held, block, lives⟩ := sound.exists_live member
  obtain ⟨freed', blocks', free', held', others⟩ := released_of_member held lives block
  obtain ⟨before, after, rfl, rfl⟩ := block.exists_split
  rw [realloc_of_live held] at realloc
  obtain ⟨freed, allocated, free, alloc, same⟩ := realloc
  obtain rfl := free'.unique free
  obtain ⟨memory₁, ret₁, rfl⟩ : ∃ memory₁ ret₁, allocated = some (memory₁, ret₁) := by
    cases allocated with
    | none => cases same
    | some pair => exact ⟨pair.1, pair.2, rfl⟩
  have sound' := sound_of_alloc held' others alloc
  rw [Option.map_some] at same
  have same' := Option.some.inj same
  cases ret₁ with
  | none =>
    rw [copyOver] at same'
    cases same'
    exact sound'
  | some ret₁ =>
    by_cases stays : ret₁ = type.start + spanOf before + hdrSize
    · rw [copyOver_same stays] at same'
      cases same'
      exact sound'
    · rw [copyOver_other stays] at same'
      cases same'
      obtain ⟨blocks₁, held₁, kept, new⟩ := held'.alloc alloc
      obtain ⟨room, live', fits⟩ := new ret₁ rfl
      have up := le_roundUp size
      rw [alignLen_of_small small] at fits
      have held₂ : Holds type (memcpy word memory₁ ret₁
          (type.start + spanOf before + hdrSize) (min capacity size)) blocks₁ := by
        apply held₁.congr live'
        intro target outside
        exact memcpy_of_outside (by omega)
      refine .inr ⟨blocks₁, held₂, ?_⟩
      intro other member'
      rcases List.mem_append.mp member' with handedOut | earlier
      · obtain rfl := List.mem_singleton.mp handedOut
        exact ⟨room, live'⟩
      · obtain ⟨capacity', live''⟩ := others other earlier
        exact ⟨capacity', kept other capacity' live''⟩

theorem Reachable.sound (valid : type.Valid) (reachable : Reachable type word memory live) :
    Sound type memory live := by
  induction reachable with
  | boot fresh => exact .inl ⟨fresh, rfl⟩
  | @request memory memory' live size ret before alloc ih =>
    rcases ih with ⟨fresh, rfl⟩ | ⟨blocks, held, lives⟩
    · by_cases nonpos : alignLen (toInt32 size) ≤ 0
      · cases (alloc_of_nonpos nonpos _).mp alloc
        exact .inl ⟨fresh, rfl⟩
      · apply sound_of_alloc (holds_setUp valid fresh) (by simp)
          ((alloc_setUp (by omega)).mpr alloc)
    · exact sound_of_alloc held lives alloc
  | release before member free ih =>
    obtain ⟨blocks, capacity, held, block, lives⟩ := ih.exists_live member
    obtain ⟨freed, blocks', free', held', others⟩ := released_of_member held lives block
    obtain rfl := free'.unique free
    exact .inr ⟨blocks', held', others⟩
  | resize before member small positive realloc ih =>
    exact sound_of_realloc ih member small realloc
  | @write memory live ptr offset bytes before member inside ih =>
    obtain ⟨blocks, capacity, held, block, lives⟩ := ih.exists_live member
    refine .inr ⟨blocks, ?_, lives⟩
    apply held.congr block
    intro target outside
    apply store_of_outside
    obtain ⟨front, back, rfl, rfl⟩ := block.exists_split
    obtain ⟨-, header, -, -⟩ := held.parts
    have small := held.small
    rw [spanOf_append, spanOf_cons] at small
    dsimp only at small
    have size_eq := @sizeOf_header ⟨capacity, false⟩ (by dsimp only; omega)
    change sizeOf (usedBlock capacity) = capacity at size_eq
    rw [Nat.add_sub_cancel, header, size_eq] at inside
    omega

/-- In every run a block that has been handed out is resized, whatever data it has, if
and only if there is room and no header gets into the data. -/
theorem reallocates_iff {ptr size : Nat} (valid : type.Valid) (words : 0 < word ∧ word ≤ 8)
    (reachable : Reachable type word memory live) (member : ptr ∈ live) (positive : 0 < size) :
    ∃ before after capacity, Holds type memory (before ++ ⟨capacity, false⟩ :: after) ∧
      ptr = type.start + spanOf before + hdrSize ∧
      ((∀ contents, contents.length = capacity →
        Reallocates type word (store memory ptr contents)
          (before ++ ⟨capacity, false⟩ :: after) ptr capacity size) ↔
        Reusable before after capacity size) := by
  obtain ⟨blocks, capacity, held, block, -⟩ := (reachable.sound valid).exists_live member
  obtain ⟨before, after, rfl, rfl⟩ := LiveAt.exists_split block
  refine ⟨before, after, capacity, held, rfl, reusable_of_reallocates words positive held, ?_⟩
  intro reusable contents length
  apply reallocates_of_reusable words positive _ reusable
  apply held.congr block
  intro target outside
  exact store_of_outside (by rwa [length])

end Runs

section Example

variable {type : MemoryType} {memory : Memory} {live : List Nat}

theorem Reachable.fit {front back blocks : List Block} {room size : Nat}
    (reachable : Reachable type 8 memory live) (positive : 0 < size)
    (small : size ≤ 2147483640) (held : Holds type (setUp type memory) blocks)
    (found : firstFit (roundUp size) blocks = some (front, room, back)) :
    ∃ memory', Reachable type 8 memory' ((type.start + spanOf front + hdrSize) :: live) ∧
      Holds type memory' (front ++ (carve (roundUp size) room ++ back)) := by
  have up := le_roundUp size
  have len := alignLen_of_small small
  have alloc := (@alloc_spec type _ _ held _ (roundUp size) (by omega) (roundUp_lt small)
    len _).mpr rfl
  rw [found, alloc_setUp (by omega)] at alloc
  obtain ⟨rfl, large, -⟩ := firstFit_some found
  exact ⟨_, reachable.request alloc, held.carved (by omega) large⟩

theorem exists_between : ∃ memory, Reachable ⟨0, 64⟩ 8 memory [24] ∧
    Holds ⟨0, 64⟩ memory [⟨8, true⟩, ⟨24, false⟩, ⟨8, true⟩] := by
  have valid : MemoryType.Valid ⟨0, 64⟩ := ⟨by decide, by decide⟩
  have fresh : hasMagic (readHeader (fun _ => 0) (⟨0, 64⟩ : MemoryType).start) = false := by
    decide
  obtain ⟨memory₁, reachable₁, held₁⟩ := @Reachable.fit ⟨0, 64⟩ _ _ [] [] _ 56 8
    (.boot fresh) (by decide) (by decide) (holds_setUp valid fresh) rfl
  obtain ⟨memory₂, reachable₂, held₂⟩ := @Reachable.fit ⟨0, 64⟩ _ _ [⟨8, false⟩] [] _ 40 24
    reachable₁ (by decide) (by decide) (by rw [setUp_of_holds held₁]; exact held₁) rfl
  obtain ⟨memory₃, free, held₃, -⟩ := @free_spec ⟨0, 64⟩ memory₂ [] _ 8 held₂
  refine ⟨memory₃, ?_, held₃⟩
  have reachable₃ := reachable₂.release (.tail _ (.head _)) free
  exact reachable₃

/-- The block in the small heap is resized to 8 bytes. -/
theorem reallocates_between : ∃ memory, Reachable ⟨0, 64⟩ 8 memory [24] ∧
    ∃ before after capacity,
      Holds ⟨0, 64⟩ memory (before ++ ⟨capacity, false⟩ :: after) ∧
      24 = (⟨0, 64⟩ : MemoryType).start + spanOf before + hdrSize ∧
      ((∀ contents, contents.length = capacity →
        Reallocates ⟨0, 64⟩ 8 (store memory 24 contents)
          (before ++ ⟨capacity, false⟩ :: after) 24 capacity 8) ↔
        Reusable before after capacity 8) := by
  obtain ⟨memory, reachable, -⟩ := exists_between
  exact ⟨memory, reachable, reallocates_iff ⟨by decide, by decide⟩ ⟨by decide, by decide⟩
    reachable (.head _) (by decide)⟩

/-- With 32 bytes, the header behind the new block gets into the old data. -/
theorem not_reallocates_between :
    ¬ ∀ (type : MemoryType) (word : Nat) (memory : Memory) (live : List Nat)
      (ptr size : Nat), type.Valid → 0 < word ∧ word ≤ 8 →
      Reachable type word memory live → ptr ∈ live → 0 < size →
      ∀ before after capacity, Holds type memory (before ++ ⟨capacity, false⟩ :: after) →
        ptr = type.start + spanOf before + hdrSize →
        ∀ contents, contents.length = capacity →
          Reallocates type word (store memory ptr contents)
            (before ++ ⟨capacity, false⟩ :: after) ptr capacity size := by
  intro claim
  obtain ⟨memory, reachable, held⟩ := exists_between
  have words : 0 < 8 ∧ 8 ≤ 8 := ⟨by decide, le_rfl⟩
  have positive : 0 < 32 := by decide
  have good := claim ⟨0, 64⟩ 8 memory [24] 24 32 ⟨by decide, by decide⟩ words reachable
    (.head _) positive [⟨8, true⟩] [⟨8, true⟩] 24 held rfl
  have reusable := @reusable_of_reallocates ⟨0, 64⟩ 8 memory [⟨8, true⟩] [⟨8, true⟩] 24 32
    words positive held good
  have apart := reusable.apart (by simp [trailing]) (by decide) (by decide)
  exact absurd apart (by decide)

end Example

end Coreboot.Malloc
