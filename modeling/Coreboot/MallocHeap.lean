import Coreboot.CbfsLocated
import Coreboot.SteppedRun

/-!
# The heap of the payload library

The heap is a chain of blocks, each behind a header of 64 bits with its size and whether it is
free. A request takes the first free block that is large enough.
-/

namespace Coreboot.Malloc

open ByteMemory Cbfs SteppedRun

def hdrSize : Nat := 8

def magic : Nat := 0x2a * 2 ^ 58

def flagFree : Nat := 2 ^ 57

def maxSize : Nat := 2 ^ 57 - 1

def sizeOf (header : Nat) : Nat := header &&& maxSize

def freeBlock (size : Nat) : Nat := magic ||| flagFree ||| (size &&& maxSize)

def usedBlock (size : Nat) : Nat := magic ||| 0 ||| (size &&& maxSize)

def isFree (header : Nat) : Bool := header &&& (magic ||| flagFree) = magic ||| flagFree

def hasMagic (header : Nat) : Bool := header &&& magic = magic

def readHeader (memory : Memory) (place : Nat) : Nat := readLE 8 memory place

def writeHeader (memory : Memory) (place header : Nat) : Memory := writeLE 8 memory place header

/-- `struct memory_type`, without its list of aligned regions. -/
structure MemoryType where
  start : Nat
  finish : Nat

/-- `ALIGN_UP(len, HDRSIZE)` of an `int`, in an `int`. -/
def alignLen (len : Int) : Int := Int.bmod ((len + 7) / 8 * 8) (2 ^ 32)

/-- The heap that a request sees: at first it is one free block. -/
def setUp (type : MemoryType) (memory : Memory) : Memory :=
  if hasMagic (readHeader memory type.start) then memory
  else writeHeader memory type.start (freeBlock (type.finish - type.start - hdrSize))

/-- A place as far from another as an `int`. -/
def advance (place : Nat) (distance : Int) : Nat := (place + distance).toNat

/-- A turn of the loop of `alloc`.  It halts without a result, or ends with the memory
and what is returned. -/
def allocStep (type : MemoryType) (len : Int) (memory : Memory) (ptr : Nat) :
    Nat ⊕ Option (Memory × Option Nat) :=
  let header := readHeader memory ptr
  let size := toInt32 (sizeOf header)
  if ¬ hasMagic header ∨ size = 0 then .inr none
  else if header &&& flagFree ≠ 0 ∧ len ≤ size then
    let nptr := advance ptr (hdrSize + len)
    let nsize := size - (hdrSize + len)
    if nsize > 0 then
      .inr (some (writeHeader (writeHeader memory ptr (usedBlock len.toNat)) nptr
        (freeBlock nsize.toNat), some (ptr + hdrSize)))
    else
      .inr (some (writeHeader memory ptr (usedBlock size.toNat), some (ptr + hdrSize)))
  else
    let next := advance ptr (hdrSize + size)
    if next < type.finish then .inl next
    else .inr (some (memory, none))

/-- `!len || len > MAX_SIZE`, where `MAX_SIZE` has 64 bits. -/
def Refused (len : Int) : Prop := len = 0 ∨ (len % 2 ^ 64).toNat > maxSize

/-- `alloc`, with the `int` that it gets. -/
def Alloc (type : MemoryType) (request : Int) (memory : Memory)
    (result : Option (Memory × Option Nat)) : Prop :=
  let len := alignLen request
  (Refused len ∧ result = some (memory, none)) ∨
    (¬ Refused len ∧ EndsWith (allocStep type len (setUp type memory)) type.start result)

/-- The variables of `_consolidate`, those of the inner loop inside of it. -/
structure Consolidation where
  memory : Memory
  ptr : Nat
  inner : Option (Nat × Nat)

/-- A turn of one of the two loops of `_consolidate`. -/
def consolidateStep (type : MemoryType) (state : Consolidation) : Consolidation ⊕ Memory :=
  match state.inner with
  | none =>
    if state.ptr < type.finish then
      let hdr := readHeader state.memory state.ptr
      let next := state.ptr + (hdrSize + sizeOf hdr)
      if ¬ isFree hdr then .inl { state with ptr := next }
      else .inl { state with inner := some (next, sizeOf hdr % 2 ^ 32) }
    else .inr state.memory
  | some (nptr, size) =>
    let nhdr := readHeader state.memory nptr
    if nptr < type.finish ∧ isFree nhdr then
      .inl ⟨writeHeader state.memory nptr 0, state.ptr,
        some (nptr + (hdrSize + sizeOf nhdr), (size + (sizeOf nhdr + hdrSize)) % 2 ^ 32)⟩
    else .inl ⟨writeHeader state.memory state.ptr (freeBlock size), nptr, none⟩

def Consolidate (type : MemoryType) (memory result : Memory) : Prop :=
  EndsWith (consolidateStep type) ⟨memory, type.start, none⟩ result

/-- `free` of an address that is in no aligned region. -/
def Free (type : MemoryType) (memory : Memory) (ptr : Nat) (result : Memory) : Prop :=
  let hdr := readHeader memory (ptr - hdrSize)
  if ptr < type.start ∨ ptr ≥ type.finish then result = memory
  else if ¬ hasMagic hdr then result = memory
  -- "Double free."
  else if hdr &&& flagFree ≠ 0 then result = memory
  else Consolidate type (writeHeader memory (ptr - hdrSize) (freeBlock (sizeOf hdr))) result

structure Block where
  size : Nat
  free : Bool
deriving DecidableEq

def Block.header (block : Block) : Nat :=
  if block.free then freeBlock block.size else usedBlock block.size

def spanOf : List Block → Nat
  | [] => 0
  | block :: rest => hdrSize + block.size + spanOf rest

def BlocksAt (memory : Memory) : Nat → List Block → Prop
  | _, [] => True
  | place, block :: rest =>
    readHeader memory place = block.header ∧ BlocksAt memory (place + (hdrSize + block.size)) rest

/-- One of two neighbours is in use. -/
def Merged (blocks : List Block) : Prop :=
  blocks.IsChain fun first second => ¬ (first.free = true ∧ second.free = true)

structure Holds (type : MemoryType) (memory : Memory) (blocks : List Block) : Prop where
  layout : BlocksAt memory type.start blocks
  whole : type.start + spanOf blocks = type.finish
  some' : blocks ≠ []
  sized : ∀ block ∈ blocks, 0 < block.size
  merged : Merged blocks
  small : spanOf blocks < 2147483648

def LiveAt (address size : Nat) : Nat → List Block → Prop
  | _, [] => False
  | place, block :: rest =>
    (block = ⟨size, false⟩ ∧ address = place + hdrSize) ∨
      LiveAt address size (place + (hdrSize + block.size)) rest

def Live (type : MemoryType) (blocks : List Block) (address size : Nat) : Prop :=
  LiveAt address size type.start blocks

theorem sizeOf_lor {flags size : Nat} (apart : flags &&& maxSize = 0) (small : size < 2147483648) :
    sizeOf (flags ||| (size &&& maxSize)) = size := by
  unfold sizeOf
  rw [Nat.and_or_distrib_right, apart, Nat.zero_or, Nat.and_assoc, Nat.and_self]
  unfold maxSize
  rw [Nat.and_two_pow_sub_one_eq_mod]
  exact Nat.mod_eq_of_lt (by omega)

theorem lor_land {flags mask size : Nat} (apart : maxSize &&& mask = 0) :
    (flags ||| (size &&& maxSize)) &&& mask = flags &&& mask := by
  rw [Nat.and_or_distrib_right, Nat.and_assoc, apart, Nat.and_zero, Nat.or_zero]

section Header

variable {block : Block}

@[simp]
theorem sizeOf_header (small : block.size < 2147483648) : sizeOf block.header = block.size := by
  unfold Block.header
  split_ifs
  · exact sizeOf_lor (by decide) small
  · exact sizeOf_lor (by decide) small

@[simp]
theorem hasMagic_header : hasMagic block.header = true := by
  unfold Block.header hasMagic
  split_ifs
  · rw [freeBlock, lor_land (by decide)]
    decide
  · rw [usedBlock, lor_land (by decide)]
    decide

@[simp]
theorem isFree_header : isFree block.header = block.free := by
  unfold Block.header isFree
  split_ifs with free
  · rw [freeBlock, lor_land (by decide), free]
    decide
  · rw [usedBlock, lor_land (by decide), Bool.eq_false_iff.mpr free]
    decide

theorem header_land_flagFree : block.header &&& flagFree ≠ 0 ↔ block.free = true := by
  unfold Block.header
  split_ifs with free
  · rw [freeBlock, lor_land (by decide)]
    exact iff_of_true (by decide) free
  · rw [usedBlock, lor_land (by decide)]
    exact iff_of_false (by decide) free

theorem header_lt (block : Block) : block.header < 256 ^ 8 := by
  have word : block.size &&& maxSize < 2 ^ 64 := Nat.and_lt_two_pow _ (by decide)
  unfold Block.header freeBlock usedBlock
  split_ifs
  · exact Nat.or_lt_two_pow (by decide) word
  · exact Nat.or_lt_two_pow (by decide) word

end Header

section Chains

variable {memory memory' : Memory} {place : Nat} {first second : List Block}

@[simp]
theorem spanOf_append (first second : List Block) :
    spanOf (first ++ second) = spanOf first + spanOf second := by
  induction first with
  | nil => simp [spanOf]
  | cons block rest ih =>
    rw [List.cons_append, spanOf, spanOf, ih]
    omega

@[simp]
theorem spanOf_cons (block : Block) (rest : List Block) :
    spanOf (block :: rest) = hdrSize + block.size + spanOf rest :=
  rfl

@[simp]
theorem spanOf_nil : spanOf [] = 0 := rfl

theorem blocksAt_append :
    BlocksAt memory place (first ++ second) ↔
      BlocksAt memory place first ∧ BlocksAt memory (place + spanOf first) second := by
  induction first generalizing place with
  | nil => simp [BlocksAt]
  | cons block rest ih =>
    rw [List.cons_append, BlocksAt, BlocksAt, ih, spanOf_cons, and_assoc, Nat.add_assoc]

theorem readHeader_congr (same : ∀ address, place ≤ address → address < place + hdrSize →
    memory' address = memory address) : readHeader memory' place = readHeader memory place :=
  congrArg decodeLE (load_congr same)

theorem BlocksAt.congr {blocks : List Block} (chain : BlocksAt memory place blocks)
    (same : ∀ address, place ≤ address → address < place + spanOf blocks →
      memory' address = memory address) : BlocksAt memory' place blocks := by
  induction blocks generalizing place with
  | nil => trivial
  | cons block rest ih =>
    obtain ⟨header, chain⟩ := chain
    rw [spanOf_cons] at same
    refine ⟨?_, ih chain ?_⟩
    · rw [readHeader_congr fun address above below => same address above (by omega)]
      exact header
    · intro address above below
      exact same address (by omega) (by omega)

@[simp]
theorem readHeader_writeHeader (memory : Memory) (place : Nat) (block : Block) :
    readHeader (writeHeader memory place block.header) place = block.header :=
  readLE_writeLE_self memory place (header_lt block)

theorem writeHeader_of_outside {header address : Nat}
    (outside : address < place ∨ place + hdrSize ≤ address) :
    writeHeader memory place header address = memory address :=
  store_of_outside (by rwa [length_encodeLE])

end Chains

section FirstFit

variable {type : MemoryType} {memory : Memory}

/-- The first free block that is large enough, and the blocks around it. -/
def firstFit (len : Nat) : List Block → Option (List Block × Nat × List Block)
  | [] => none
  | block :: rest =>
    if block.free = true ∧ len ≤ block.size then some ([], block.size, rest)
    else (firstFit len rest).map fun (before, size, after) =>
      (block :: before, size, after)

def carve (len size : Nat) : List Block :=
  if hdrSize + len < size then [⟨len, false⟩, ⟨size - (hdrSize + len), true⟩]
  else [⟨size, false⟩]

def carved (memory : Memory) (place len size : Nat) : Memory :=
  if hdrSize + len < size then
    writeHeader (writeHeader memory place (usedBlock len)) (place + (hdrSize + len))
      (freeBlock (size - (hdrSize + len)))
  else writeHeader memory place (usedBlock size)

variable {len size : Nat} {before after : List Block}

theorem spanOf_carve : spanOf (carve len size) = hdrSize + size := by
  unfold carve
  split_ifs with room
  · simp only [spanOf_cons, spanOf_nil]
    omega
  · simp

theorem firstFit_some {blocks : List Block}
    (found : firstFit len blocks = some (before, size, after)) :
    blocks = before ++ ⟨size, true⟩ :: after ∧ len ≤ size ∧
      ∀ block ∈ before, block.free = true → block.size < len := by
  induction blocks generalizing before with
  | nil => cases found
  | cons block rest ih =>
    rw [firstFit] at found
    split_ifs at found with fits
    · obtain ⟨room, kind⟩ := block
      obtain ⟨free, large⟩ := fits
      subst free
      cases found
      exact ⟨rfl, large, List.forall_mem_nil _⟩
    · obtain ⟨⟨before', size', after'⟩, later, same⟩ := Option.map_eq_some_iff.mp found
      cases same
      obtain ⟨split, large, small⟩ := ih later
      refine ⟨congrArg (block :: ·) split, large, ?_⟩
      intro other member free
      rcases List.mem_cons.mp member with rfl | member
      · by_contra large'
        exact fits ⟨free, Nat.le_of_not_lt large'⟩
      · exact small other member free

theorem firstFit_none {blocks : List Block} :
    firstFit len blocks = none ↔ ∀ block ∈ blocks, block.free = true → block.size < len := by
  induction blocks with
  | nil => simp [firstFit]
  | cons block rest ih =>
    rw [firstFit, List.forall_mem_cons]
    split_ifs with fits
    · simp only [false_iff, not_and]
      intro small
      exact absurd (small fits.1) (Nat.not_lt.mpr fits.2)
    · rw [Option.map_eq_none_iff, ih]
      apply (and_iff_right _).symm
      intro free
      by_contra large
      exact fits ⟨free, Nat.le_of_not_lt large⟩

theorem allocStep_of_pass {len place : Nat} {block : Block}
    (header : readHeader memory place = block.header) (sized : 0 < block.size)
    (small : block.size < 2147483648) (pass : ¬ (block.free = true ∧ len ≤ block.size)) :
    allocStep type len memory place =
      if place + (hdrSize + block.size) < type.finish then
        .inl (place + (hdrSize + block.size))
      else .inr (some (memory, none)) := by
  have size : toInt32 (sizeOf block.header) = block.size := by
    rw [sizeOf_header small, toInt32_of_lt small]
  have next : advance place (hdrSize + block.size) = place + (hdrSize + block.size) := by
    unfold advance
    omega
  unfold allocStep
  dsimp only
  rw [header, size, if_neg, if_neg, next]
  · rw [header_land_flagFree]
    intro fits
    exact pass ⟨fits.1, by omega⟩
  · rintro (poisoned | empty)
    · exact poisoned hasMagic_header
    · omega

theorem allocStep_of_fit {place : Nat}
    (header : readHeader memory place = (⟨size, true⟩ : Block).header)
    (positive : 0 < len) (small : size < 2147483648) (large : len ≤ size) :
    allocStep type len memory place =
      .inr (some (carved memory place len size, some (place + hdrSize))) := by
  have size' : toInt32 (sizeOf (⟨size, true⟩ : Block).header) = size := by
    rw [sizeOf_header small, toInt32_of_lt small]
  have next : advance place (hdrSize + len) = place + (hdrSize + len) := by
    unfold advance
    omega
  have flag := (@header_land_flagFree ⟨size, true⟩).mpr rfl
  unfold allocStep carved
  dsimp only
  rw [header, size', if_neg, if_pos ⟨flag, by omega⟩, next]
  · by_cases room : hdrSize + len < size
    · have rest : ((size : Int) - (hdrSize + len)).toNat = size - (hdrSize + len) := by
        omega
      rw [if_pos room, if_pos (by omega), rest, Int.toNat_natCast]
    · rw [if_neg room, if_neg (by omega), Int.toNat_natCast]
  · rintro (poisoned | empty)
    · exact poisoned hasMagic_header
    · omega

theorem endsWith_allocStep {len place : Nat} {blocks : List Block}
    (positive : 0 < len) (chain : BlocksAt memory place blocks)
    (whole : place + spanOf blocks = type.finish) (some' : blocks ≠ [])
    (sized : ∀ block ∈ blocks, 0 < block.size) (small : spanOf blocks < 2147483648) :
    EndsWith (allocStep type len memory) place
      (match firstFit len blocks with
        | none => some (memory, none)
        | some (before, size, _) =>
          some (carved memory (place + spanOf before) len size,
            some (place + spanOf before + hdrSize))) := by
  induction blocks generalizing place with
  | nil => exact absurd rfl some'
  | cons block rest ih =>
    obtain ⟨header, chain⟩ := chain
    rw [spanOf_cons] at whole small
    have here := sized block (.head _)
    by_cases fits : block.free = true ∧ len ≤ block.size
    · obtain ⟨size, kind⟩ := block
      obtain ⟨free, large⟩ := fits
      dsimp only at free large small here
      subst free
      have found : firstFit len (⟨size, true⟩ :: rest) = some ([], size, rest) :=
        if_pos ⟨rfl, large⟩
      rw [found]
      refine ⟨place, .refl, ?_⟩
      exact allocStep_of_fit header positive (by omega) large
    · have pass := @allocStep_of_pass type memory len place block header here (by omega) fits
      have found : firstFit len (block :: rest) =
          (firstFit len rest).map fun (before, size, after) =>
            (block :: before, size, after) :=
        if_neg fits
      rw [found]
      cases rest with
      | nil =>
        rw [spanOf_nil] at whole
        rw [if_neg (by omega)] at pass
        exact ⟨place, .refl, pass⟩
      | cons next rest =>
        rw [spanOf_cons] at whole
        rw [if_pos (by unfold hdrSize at *; omega)] at pass
        have later := ih chain (by rw [spanOf_cons]; omega) (List.cons_ne_nil _ _)
          (fun other member => sized other (.tail _ member)) (by omega)
        apply EndsWith.of_moves pass
        cases fit : firstFit len (next :: rest) with
        | none =>
          rw [fit] at later
          exact later
        | some parts =>
          obtain ⟨before, size, after⟩ := parts
          have shift : place + (hdrSize + block.size) + spanOf before =
              place + spanOf (block :: before) := by
            rw [spanOf_cons]
            omega
          rw [fit] at later
          dsimp only at later
          rw [shift] at later
          exact later

theorem Merged.carve (merged : Merged (before ++ ⟨size, true⟩ :: after)) :
    Merged (before ++ (Malloc.carve len size ++ after)) := by
  unfold Merged at *
  rw [List.isChain_append, List.isChain_cons] at merged
  obtain ⟨front, ⟨next, back⟩, joint⟩ := merged
  rw [List.isChain_append]
  unfold Malloc.carve
  split_ifs with room
  · refine ⟨front, ?_, ?_⟩
    · rw [List.cons_append, List.singleton_append, List.isChain_cons_cons, List.isChain_cons]
      exact ⟨by simp, next, back⟩
    · simp
  · refine ⟨front, ?_, ?_⟩
    · rw [List.singleton_append, List.isChain_cons]
      exact ⟨by simp, back⟩
    · simp

theorem carved_of_outside {place address : Nat} (large : len ≤ size)
    (outside : address < place ∨ place + (hdrSize + size) ≤ address) :
    carved memory place len size address = memory address := by
  unfold carved
  split_ifs with room
  · rw [writeHeader_of_outside (by omega), writeHeader_of_outside (by omega)]
  · exact writeHeader_of_outside (by omega)

theorem Holds.carved (held : Holds type memory (before ++ ⟨size, true⟩ :: after))
    (positive : 0 < len) (large : len ≤ size) :
    Holds type (Malloc.carved memory (type.start + spanOf before) len size)
      (before ++ (carve len size ++ after)) where
  layout := by
    have layout := held.layout
    rw [blocksAt_append] at layout
    obtain ⟨front, -, back⟩ := layout
    rw [blocksAt_append, blocksAt_append, spanOf_carve]
    refine ⟨?_, ?_, ?_⟩
    · apply front.congr
      intro address _ below
      exact carved_of_outside large (.inl below)
    · unfold Malloc.carved carve
      split_ifs with room
      · refine ⟨?_, ?_, trivial⟩
        · rw [readHeader_congr fun address _ below => writeHeader_of_outside (.inl ?_)]
          · exact readHeader_writeHeader _ _ ⟨len, false⟩
          · unfold hdrSize at *
            omega
        · exact readHeader_writeHeader _ _ ⟨size - (hdrSize + len), true⟩
      · exact ⟨readHeader_writeHeader _ _ ⟨size, false⟩, trivial⟩
    · apply back.congr
      intro address above _
      exact carved_of_outside large (.inr above)
  whole := by
    have whole := held.whole
    simp only [spanOf_append, spanOf_cons, spanOf_carve] at whole ⊢
    omega
  some' := by
    unfold carve
    split_ifs <;> simp
  sized := by
    intro block member
    have sized := held.sized
    simp only [List.mem_append, List.mem_cons] at member sized
    rcases member with front | here | back
    · exact sized block (.inl front)
    · unfold carve at here
      split_ifs at here with room
      · simp only [List.mem_cons, List.not_mem_nil, or_false] at here
        rcases here with rfl | rfl
        · exact positive
        · exact Nat.sub_pos_of_lt room
      · rw [List.mem_singleton] at here
        subst here
        exact positive.trans_le large
    · exact sized block (.inr (.inr back))
  merged := held.merged.carve
  small := by
    have small := held.small
    simp only [spanOf_append, spanOf_cons, spanOf_carve] at small ⊢
    omega

end FirstFit

section Merging

variable {type : MemoryType}

/-- Free blocks that follow one another are merged.  The first argument is the size of
a free block in front. -/
def merge : Option Nat → List Block → List Block
  | none, [] => []
  | some size, [] => [⟨size, true⟩]
  | none, block :: rest =>
    if block.free then merge (some block.size) rest else block :: merge none rest
  | some size, block :: rest =>
    if block.free then merge (some (size + (block.size + hdrSize))) rest
    else ⟨size, true⟩ :: block :: merge none rest

@[simp]
theorem merge_nil : merge none [] = [] := rfl

@[simp]
theorem merge_nil_some (size : Nat) : merge (some size) [] = [⟨size, true⟩] := rfl

theorem merge_cons (block : Block) (rest : List Block) :
    merge none (block :: rest) =
      if block.free then merge (some block.size) rest else block :: merge none rest :=
  rfl

theorem merge_cons_some (size : Nat) (block : Block) (rest : List Block) :
    merge (some size) (block :: rest) =
      if block.free then merge (some (size + (block.size + hdrSize))) rest
      else ⟨size, true⟩ :: block :: merge none rest :=
  rfl

def InFreeHeader (address : Nat) : Nat → List Block → Prop
  | _, [] => False
  | place, block :: rest =>
    (block.free = true ∧ place ≤ address ∧ address < place + hdrSize) ∨
      InFreeHeader address (place + (hdrSize + block.size)) rest

variable {place : Nat} {blocks : List Block} {memory : Memory}

theorem InFreeHeader.le {address : Nat}
    (inside : InFreeHeader address place blocks) : place ≤ address := by
  induction blocks generalizing place with
  | nil => cases inside
  | cons block rest ih =>
    rcases inside with ⟨-, above, -⟩ | later
    · exact above
    · exact (Nat.le_add_right _ _).trans (ih later)

theorem inFreeHeader_append {address : Nat} {first second : List Block} :
    InFreeHeader address place (first ++ second) ↔
      InFreeHeader address place first ∨ InFreeHeader address (place + spanOf first) second := by
  induction first generalizing place with
  | nil => simp [InFreeHeader]
  | cons block rest ih =>
    rw [List.cons_append, InFreeHeader, InFreeHeader, ih, spanOf_cons, or_assoc,
      Nat.add_assoc place]

theorem consolidateStep_of_used {place : Nat} {block : Block}
    (header : readHeader memory place = block.header) (small : block.size < 2147483648)
    (used : block.free = false) (inside : place < type.finish) :
    consolidateStep type ⟨memory, place, none⟩ =
      .inl ⟨memory, place + (hdrSize + block.size), none⟩ := by
  unfold consolidateStep
  dsimp only
  rw [if_pos inside, header, isFree_header, used, if_pos (by simp), sizeOf_header small]

theorem consolidateStep_of_free {block : Block}
    (header : readHeader memory place = block.header) (small : block.size < 2147483648)
    (free : block.free = true) (inside : place < type.finish) :
    consolidateStep type ⟨memory, place, none⟩ =
      .inl ⟨memory, place, some (place + (hdrSize + block.size), block.size)⟩ := by
  unfold consolidateStep
  dsimp only
  rw [if_pos inside, header, isFree_header, free, if_neg (by simp), sizeOf_header small,
    Nat.mod_eq_of_lt (by omega)]

theorem consolidateStep_of_more {ptr place size : Nat} {block : Block}
    (header : readHeader memory place = block.header)
    (small : size + (block.size + hdrSize) < 2147483648) (free : block.free = true)
    (inside : place < type.finish) :
    consolidateStep type ⟨memory, ptr, some (place, size)⟩ =
      .inl ⟨writeHeader memory place 0, ptr,
        some (place + (hdrSize + block.size), size + (block.size + hdrSize))⟩ := by
  unfold consolidateStep
  dsimp only
  rw [header, isFree_header, if_pos ⟨inside, free⟩, sizeOf_header (by omega),
    Nat.mod_eq_of_lt (by omega)]

theorem consolidateStep_of_last {ptr place size : Nat}
    (last : ¬ (place < type.finish ∧ isFree (readHeader memory place) = true)) :
    consolidateStep type ⟨memory, ptr, some (place, size)⟩ =
      .inl ⟨writeHeader memory ptr (freeBlock size), place, none⟩ :=
  if_neg last

/-- The loops merge the blocks from a place on, and change nothing but the headers of free
blocks. -/
def Consolidates (type : MemoryType) (state : Consolidation) (place : Nat)
    (blocks merged : List Block) : Prop :=
  ∃ result, EndsWith (consolidateStep type) state result ∧ BlocksAt result place merged ∧
    ∀ address, ¬ InFreeHeader address place blocks → result address = state.memory address

theorem consolidates_last {ptr size : Nat} {merged : List Block}
    (front : ∀ memory, BlocksAt memory (ptr + (hdrSize + size)) blocks →
      Consolidates type ⟨memory, ptr + (hdrSize + size), none⟩ (ptr + (hdrSize + size)) blocks merged)
    (last : ¬ (ptr + (hdrSize + size) < type.finish ∧
      isFree (readHeader memory (ptr + (hdrSize + size))) = true))
    (chain : BlocksAt memory (ptr + (hdrSize + size)) blocks) :
    Consolidates type ⟨memory, ptr, some (ptr + (hdrSize + size), size)⟩ ptr
      (⟨size, true⟩ :: blocks) (⟨size, true⟩ :: merged) := by
  obtain ⟨result, ends, merged, kept⟩ := front (writeHeader memory ptr (freeBlock size))
    (chain.congr fun address above _ => writeHeader_of_outside (.inr (by omega)))
  refine ⟨result, .of_moves (consolidateStep_of_last last) ends, ⟨?_, merged⟩, ?_⟩
  · rw [readHeader_congr fun address _ below => kept address fun later => ?_]
    · exact readHeader_writeHeader memory ptr ⟨size, true⟩
    · have le := later.le
      omega
  · intro address outside
    rw [kept address fun later => outside (.inr later)]
    apply writeHeader_of_outside
    by_contra within
    exact outside (.inl ⟨rfl, by omega, by omega⟩)

theorem consolidate_blocks (blocks : List Block) :
    (∀ memory place, BlocksAt memory place blocks → place + spanOf blocks = type.finish →
      spanOf blocks < 2147483648 →
      Consolidates type ⟨memory, place, none⟩ place blocks (merge none blocks)) ∧
    (∀ memory ptr size, BlocksAt memory (ptr + (hdrSize + size)) blocks →
      ptr + (hdrSize + size) + spanOf blocks = type.finish →
      size + hdrSize + spanOf blocks < 2147483648 →
      Consolidates type ⟨memory, ptr, some (ptr + (hdrSize + size), size)⟩ ptr
        (⟨size, true⟩ :: blocks) (merge (some size) blocks)) := by
  induction blocks with
  | nil =>
    have front (memory place) (whole : place + spanOf [] = type.finish) :
        Consolidates type ⟨memory, place, none⟩ place [] [] := by
      rw [spanOf_nil, Nat.add_zero] at whole
      have ended : consolidateStep type ⟨memory, place, none⟩ = .inr memory :=
        if_neg (show ¬ place < type.finish by omega)
      exact ⟨memory, ⟨_, .refl, ended⟩, trivial, fun _ _ => rfl⟩
    refine ⟨fun memory place _ whole _ => front memory place whole, ?_⟩
    intro memory ptr size chain whole _
    refine consolidates_last (fun memory _ => front memory _ whole) ?_ chain
    exact fun more => absurd more.1 (whole.symm.trans (Nat.add_zero _) ▸ Nat.lt_irrefl _)
  | cons block rest ih =>
    obtain ⟨front, behind⟩ := ih
    have first (memory place) (chain : BlocksAt memory place (block :: rest))
        (whole : place + spanOf (block :: rest) = type.finish)
        (small : spanOf (block :: rest) < 2147483648) :
        Consolidates type ⟨memory, place, none⟩ place (block :: rest)
          (merge none (block :: rest)) := by
      obtain ⟨header, chain⟩ := chain
      rw [spanOf_cons] at whole small
      have inside : place < type.finish := by
        unfold hdrSize at whole
        omega
      rw [← Nat.add_assoc] at whole
      cases free : block.free with
      | false =>
        have step := consolidateStep_of_used header (by omega) free inside
        obtain ⟨result, ends, merged, kept⟩ := front memory _ chain whole (by omega)
        refine ⟨result, .of_moves step ends, ?_, ?_⟩
        · rw [merge_cons, if_neg (by simp [free])]
          refine ⟨?_, merged⟩
          rw [readHeader_congr fun address _ below => kept address fun later => ?_]
          · exact header
          · have le := later.le
            omega
        · intro address outside
          exact kept address fun later => outside (.inr later)
      | true =>
        have step := consolidateStep_of_free header (by omega) free inside
        obtain ⟨result, ends, merged, kept⟩ := behind memory place block.size chain whole (by omega)
        refine ⟨result, .of_moves step ends, ?_, ?_⟩
        · rwa [merge_cons, if_pos free]
        · intro address outside
          apply kept address
          rintro (here | later)
          · exact outside (.inl ⟨free, here.2⟩)
          · exact outside (.inr later)
    refine ⟨first, ?_⟩
    intro memory ptr size chain whole small
    have header := chain.1
    cases free : block.free with
    | false =>
      have waits : merge (some size) (block :: rest) = ⟨size, true⟩ :: merge none (block :: rest) := by
        rw [merge_cons_some, merge_cons, if_neg (by simp [free]), if_neg (by simp [free])]
      rw [waits]
      refine consolidates_last (fun memory chain => first memory _ chain whole (by omega)) ?_ chain
      rw [header, isFree_header, free]
      simp
    | true =>
      rw [spanOf_cons] at whole small
      have inside : ptr + (hdrSize + size) < type.finish := by
        unfold hdrSize at *
        omega
      have step := @consolidateStep_of_more type memory ptr (ptr + (hdrSize + size))
        size block header (by omega) free inside
      have next : ptr + (hdrSize + size) + (hdrSize + block.size) =
          ptr + (hdrSize + (size + (block.size + hdrSize))) := by
        omega
      have chain' : BlocksAt (writeHeader memory (ptr + (hdrSize + size)) 0)
          (ptr + (hdrSize + (size + (block.size + hdrSize)))) rest := by
        rw [← next]
        exact chain.2.congr fun address above _ =>
          writeHeader_of_outside (.inr (by omega))
      obtain ⟨result, ends, merged, kept⟩ := behind _ ptr _ chain' (by omega) (by omega)
      rw [next] at step
      refine ⟨result, .of_moves step ends, ?_, ?_⟩
      · rwa [merge_cons_some, if_pos free]
      · intro address outside
        rw [kept address]
        · apply writeHeader_of_outside
          by_contra within
          refine outside (.inr (.inl ⟨free, ?_, ?_⟩))
          · dsimp only
            omega
          · dsimp only
            omega
        · rintro (here | later)
          · exact outside (.inl here)
          · rw [← next] at later
            exact outside (.inr (.inr later))

theorem spanOf_merge (pending : Option Nat) (blocks : List Block) :
    spanOf (merge pending blocks) =
      (match pending with | none => 0 | some size => hdrSize + size) + spanOf blocks := by
  induction blocks generalizing pending with
  | nil => cases pending <;> simp
  | cons block rest ih =>
    cases pending with
    | none =>
      rw [merge_cons]
      split_ifs
      · rw [ih]
        simp
      · rw [spanOf_cons, ih]
        simp
    | some size =>
      rw [merge_cons_some]
      split_ifs
      · rw [ih, spanOf_cons]
        dsimp only
        omega
      · rw [spanOf_cons, spanOf_cons, ih]
        simp

theorem merged_merge (pending : Option Nat) (blocks : List Block) :
    Merged (merge pending blocks) := by
  unfold Merged
  induction blocks generalizing pending with
  | nil => cases pending <;> simp
  | cons block rest ih =>
    cases pending with
    | none =>
      rw [merge_cons]
      split_ifs with free
      · exact ih _
      · rw [List.isChain_cons]
        exact ⟨fun _ _ both => free both.1, ih _⟩
    | some size =>
      rw [merge_cons_some]
      split_ifs with free
      · exact ih _
      · rw [List.isChain_cons_cons, List.isChain_cons]
        exact ⟨fun both => free both.2, fun _ _ both => free both.1, ih _⟩

theorem sized_merge {pending : Option Nat} (front : ∀ size, pending = some size → 0 < size)
    (sized : ∀ block ∈ blocks, 0 < block.size) :
    ∀ block ∈ merge pending blocks, 0 < block.size := by
  induction blocks generalizing pending with
  | nil =>
    cases pending with
    | none => simp
    | some size => simpa using front size rfl
  | cons block rest ih =>
    have here := sized block (.head _)
    have later : ∀ other ∈ rest, 0 < other.size := fun other member => sized other (.tail _ member)
    cases pending with
    | none =>
      rw [merge_cons]
      split_ifs
      · apply ih _ later
        rintro _ ⟨⟩
        exact here
      · rw [List.forall_mem_cons]
        exact ⟨here, ih (by simp) later⟩
    | some size =>
      rw [merge_cons_some]
      split_ifs
      · apply ih _ later
        rintro _ ⟨⟩
        omega
      · rw [List.forall_mem_cons, List.forall_mem_cons]
        exact ⟨front size rfl, here, ih (by simp) later⟩

theorem merge_ne_nil {pending : Option Nat}
    (some' : pending ≠ none ∨ blocks ≠ []) : merge pending blocks ≠ [] := by
  induction blocks generalizing pending with
  | nil =>
    cases pending with
    | none => simp at some'
    | some size => simp
  | cons block rest ih =>
    cases pending with
    | none =>
      rw [merge_cons]
      split_ifs
      · exact ih (.inl (by simp))
      · exact List.cons_ne_nil _ _
    | some size =>
      rw [merge_cons_some]
      split_ifs
      · exact ih (.inl (by simp))
      · exact List.cons_ne_nil _ _

/-- The free space behind a block, with its header, and the blocks behind that. -/
def leading : List Block → Nat × List Block
  | [] => (0, [])
  | block :: rest =>
    if block.free then (hdrSize + block.size, rest) else (0, block :: rest)

/-- The blocks in front of the free space before a block, and that space. -/
def trailing : List Block → List Block × Nat
  | [] => ([], 0)
  | [block] => if block.free then ([], hdrSize + block.size) else ([block], 0)
  | block :: next :: rest =>
    (block :: (trailing (next :: rest)).1, (trailing (next :: rest)).2)

theorem merge_of_merged {pending : Option Nat} {blocks : List Block} (merged : Merged blocks) :
    merge pending blocks =
      match pending with
      | none => blocks
      | some size => ⟨size + (leading blocks).1, true⟩ :: (leading blocks).2 := by
  unfold Merged at merged
  induction blocks generalizing pending with
  | nil => cases pending <;> simp [leading]
  | cons block rest ih =>
    have later := @ih none merged.tail
    have alone : block.free = true → leading rest = (0, rest) := by
      intro free
      cases rest with
      | nil => rfl
      | cons next rest =>
        apply if_neg
        intro both
        exact (List.isChain_cons_cons.mp merged).1 ⟨free, both⟩
    cases pending with
    | none =>
      rw [merge_cons]
      split_ifs with free
      · rw [@ih (some block.size) merged.tail]
        dsimp only
        rw [alone free, Nat.add_zero, ← free]
      · rw [later]
    | some size =>
      rw [merge_cons_some, leading]
      split_ifs with free
      · rw [@ih (some _) merged.tail]
        dsimp only
        rw [alone free, Nat.add_zero, Nat.add_comm block.size]
      · rw [later]
        rfl

theorem merge_around {before after : List Block} {size : Nat} (front : Merged before)
    (back : Merged after) :
    merge none (before ++ ⟨size, true⟩ :: after) =
      (trailing before).1 ++
        ⟨(trailing before).2 + size + (leading after).1, true⟩ :: (leading after).2 := by
  unfold Merged at front
  induction before with
  | nil =>
    rw [List.nil_append, merge_cons, if_pos rfl, merge_of_merged back]
    simp [trailing]
  | cons block rest ih =>
    have later := ih front.tail
    cases rest with
    | nil =>
      rw [List.singleton_append, merge_cons, trailing]
      split_ifs with free
      · rw [merge_cons_some, if_pos rfl, merge_of_merged back]
        rw [List.nil_append, Nat.add_comm size, ← Nat.add_assoc, Nat.add_comm block.size]
      · rw [List.nil_append] at later
        rw [later]
        simp [trailing]
    | cons next rest =>
      have apart := (List.isChain_cons_cons.mp front).1
      rw [List.cons_append, merge_cons, trailing]
      split_ifs with free
      · have used : next.free = false := by
          by_contra both
          exact apart ⟨free, Bool.not_eq_false _ ▸ both⟩
        rw [List.cons_append, merge_cons, if_neg (by simp [used])] at later
        rw [List.cons_append, merge_cons_some, if_neg (by simp [used]), later, ← free]
        rfl
      · rw [later]
        rfl

theorem spanOf_trailing (blocks : List Block) :
    spanOf (trailing blocks).1 + (trailing blocks).2 = spanOf blocks := by
  induction blocks with
  | nil => rfl
  | cons block rest ih =>
    cases rest with
    | nil =>
      rw [trailing]
      split_ifs <;> simp
    | cons next rest =>
      rw [trailing, spanOf_cons, spanOf_cons, ← ih]
      omega

end Merging

section Live

variable {type : MemoryType} {memory : Memory} {address size place : Nat}
  {first second blocks : List Block}

theorem liveAt_append :
    LiveAt address size place (first ++ second) ↔
      LiveAt address size place first ∨ LiveAt address size (place + spanOf first) second := by
  induction first generalizing place with
  | nil => simp [LiveAt]
  | cons block rest ih =>
    rw [List.cons_append, LiveAt, LiveAt, ih, spanOf_cons, or_assoc, Nat.add_assoc place]

variable {block : Block}

theorem liveAt_cons :
    LiveAt address size place (block :: second) ↔
      (block = ⟨size, false⟩ ∧ address = place + hdrSize) ∨
        LiveAt address size (place + (hdrSize + block.size)) second :=
  Iff.rfl

theorem LiveAt.bounds (live : LiveAt address size place blocks) :
    place + hdrSize ≤ address ∧ address + size ≤ place + spanOf blocks := by
  induction blocks generalizing place with
  | nil => cases live
  | cons block rest ih =>
    rw [spanOf_cons]
    rcases live with ⟨rfl, rfl⟩ | later
    · dsimp only
      omega
    · have bounds := ih later
      omega

theorem LiveAt.exists_split (live : LiveAt address size place blocks) :
    ∃ before after, blocks = before ++ ⟨size, false⟩ :: after ∧
      address = place + spanOf before + hdrSize := by
  induction blocks generalizing place with
  | nil => cases live
  | cons block rest ih =>
    rcases live with ⟨rfl, rfl⟩ | later
    · exact ⟨[], rest, rfl, by simp⟩
    · obtain ⟨before, after, rfl, rfl⟩ := ih later
      refine ⟨block :: before, after, rfl, ?_⟩
      rw [spanOf_cons]
      omega

theorem LiveAt.merge {pending : Option Nat} (live : LiveAt address size place blocks) :
    match pending with
    | none => LiveAt address size place (merge none blocks)
    | some front => ∀ base, place = base + (hdrSize + front) →
        LiveAt address size base (Malloc.merge (some front) blocks) := by
  induction blocks generalizing place pending with
  | nil => cases live
  | cons block rest ih =>
    cases pending with
    | none =>
      rw [merge_cons]
      split_ifs with free
      · rcases live with ⟨rfl, -⟩ | later
        · cases free
        · exact @ih _ (some block.size) later place rfl
      · rcases live with here | later
        · exact .inl here
        · exact .inr (@ih _ none later)
    | some front =>
      rintro base rfl
      rw [merge_cons_some]
      split_ifs with free
      · rcases live with ⟨rfl, -⟩ | later
        · cases free
        · apply @ih _ (some _) later
          omega
      · rw [liveAt_cons]
        right
        rcases live with here | later
        · exact .inl here
        · exact .inr (@ih _ none later)

theorem not_inFreeHeader_of_data {before after : List Block} {target : Nat}
    (above : place + spanOf before + hdrSize ≤ target)
    (below : target < place + spanOf before + (hdrSize + block.size)) :
    ¬ InFreeHeader target place (before ++ block :: after) := by
  have front (blocks : List Block) (place : Nat) (inside : InFreeHeader target place blocks) :
      target < place + spanOf blocks := by
    induction blocks generalizing place with
    | nil => cases inside
    | cons other rest ih =>
      rw [spanOf_cons]
      rcases inside with ⟨-, -, below⟩ | later
      · omega
      · have bound := ih _ later
        omega
  rw [inFreeHeader_append]
  rintro (inside | here | later)
  · have bound := front before place inside
    omega
  · omega
  · have bound := later.le
    omega

theorem header_injective {other : Block} (small : block.size < 2147483648)
    (small' : other.size < 2147483648) (same : block.header = other.header) : block = other := by
  have size := congrArg sizeOf same
  have free := congrArg isFree same
  rw [sizeOf_header small, sizeOf_header small'] at size
  rw [isFree_header, isFree_header] at free
  obtain ⟨size₁, free₁⟩ := block
  obtain ⟨size₂, free₂⟩ := other
  dsimp only at size free
  rw [size, free]

theorem blocks_unique (one : BlocksAt memory place first) (other : BlocksAt memory place second)
    (small : spanOf first < 2147483648) (same : spanOf first = spanOf second) : first = second := by
  induction first generalizing place second with
  | nil =>
    cases second with
    | nil => rfl
    | cons block rest =>
      rw [spanOf_nil, spanOf_cons] at same
      unfold hdrSize at same
      omega
  | cons block rest ih =>
    cases second with
    | nil =>
      rw [spanOf_nil, spanOf_cons] at same
      unfold hdrSize at same
      omega
    | cons block' rest' =>
      rw [spanOf_cons] at same small
      rw [spanOf_cons] at same
      have equal : block = block' := header_injective (by omega) (by omega)
        (one.1.symm.trans other.1)
      subst equal
      rw [ih one.2 other.2 (by omega) (by omega)]

theorem Holds.unique (one : Holds type memory first) (other : Holds type memory second) :
    first = second := by
  apply blocks_unique one.layout other.layout one.small
  have whole := one.whole
  have whole' := other.whole
  omega

theorem Holds.congr {memory' : Memory} (held : Holds type memory blocks)
    (live : Live type blocks address size)
    (same : ∀ target, target < address ∨ address + size ≤ target → memory' target = memory target) :
    Holds type memory' blocks := by
  refine { held with layout := ?_ }
  have layout := held.layout
  obtain ⟨before, after, rfl, rfl⟩ := live.exists_split
  rw [blocksAt_append] at layout ⊢
  obtain ⟨front, header, back⟩ := layout
  dsimp only at back
  refine ⟨?_, ?_, ?_⟩
  · exact front.congr fun target _ below => same target (.inl (by omega))
  · rw [readHeader_congr fun target _ below => same target (.inl (by omega))]
    exact header
  · exact back.congr fun target above _ => same target (.inr (by omega))

end Live

section Release

variable {type : MemoryType} {memory : Memory} {before after : List Block} {size : Nat}

theorem Holds.parts (held : Holds type memory (before ++ ⟨size, false⟩ :: after)) :
    BlocksAt memory type.start before ∧
      readHeader memory (type.start + spanOf before) = usedBlock size ∧
      BlocksAt memory (type.start + spanOf before + (hdrSize + size)) after ∧
      type.start + spanOf before + (hdrSize + size) + spanOf after = type.finish := by
  have layout := held.layout
  have whole := held.whole
  rw [blocksAt_append] at layout
  rw [spanOf_append, spanOf_cons] at whole
  obtain ⟨front, header, back⟩ := layout
  refine ⟨front, header, back, ?_⟩
  dsimp only at whole
  omega

theorem free_spec (held : Holds type memory (before ++ ⟨size, false⟩ :: after)) :
    ∃ result, Free type memory (type.start + spanOf before + hdrSize) result ∧
      Holds type result (merge none (before ++ ⟨size, true⟩ :: after)) ∧
      ∀ address, ¬ InFreeHeader address type.start (before ++ ⟨size, true⟩ :: after) →
        result address = memory address := by
  obtain ⟨front, header, back, whole⟩ := held.parts
  have small := held.small
  rw [spanOf_append, spanOf_cons] at small
  have small' : size < 2147483648 := by
    dsimp only at small
    omega
  have positive : 0 < size := held.sized ⟨size, false⟩ (by simp)
  have same : spanOf (before ++ ⟨size, true⟩ :: after) =
      spanOf (before ++ ⟨size, false⟩ :: after) := by
    simp
  have chain : BlocksAt (writeHeader memory (type.start + spanOf before) (freeBlock size))
      type.start (before ++ ⟨size, true⟩ :: after) := by
    rw [blocksAt_append]
    refine ⟨?_, ?_, ?_⟩
    · exact front.congr fun address _ below => writeHeader_of_outside (.inl below)
    · exact readHeader_writeHeader memory _ ⟨size, true⟩
    · apply back.congr
      intro address above _
      exact writeHeader_of_outside (.inr (by omega))
  obtain ⟨result, ends, merged, kept⟩ := (@consolidate_blocks type _).1 _ _ chain
    (by rw [same]; exact held.whole) (by rw [same]; exact held.small)
  have size_eq := @sizeOf_header ⟨size, false⟩ small'
  have magic_eq := @hasMagic_header ⟨size, false⟩
  have flag := (not_congr (@header_land_flagFree ⟨size, false⟩)).mpr (by simp)
  change sizeOf (usedBlock size) = size at size_eq
  change hasMagic (usedBlock size) = true at magic_eq
  change ¬ usedBlock size &&& flagFree ≠ 0 at flag
  refine ⟨result, ?_, ⟨merged, ?_, ?_, ?_, merged_merge _ _, ?_⟩, ?_⟩
  · unfold Free
    rw [Nat.add_sub_cancel, header, if_neg, if_neg, if_neg flag, size_eq]
    · exact ends
    · rw [magic_eq]
      simp
    · unfold hdrSize at *
      omega
  · rw [spanOf_merge, same]
    simpa using held.whole
  · exact merge_ne_nil (.inr (by simp))
  · apply sized_merge (by simp)
    intro block member
    have sized := held.sized
    simp only [List.mem_append, List.mem_cons] at member sized
    rcases member with front | rfl | back
    · exact sized block (.inl front)
    · exact positive
    · exact sized block (.inr (.inr back))
  · rw [spanOf_merge, same]
    simpa using held.small
  · intro address outside
    rw [kept address outside]
    apply writeHeader_of_outside
    by_contra inside
    apply outside
    rw [inFreeHeader_append]
    exact .inr (.inl ⟨rfl, by omega, by omega⟩)

end Release

section Request

variable {type : MemoryType} {memory : Memory} {blocks : List Block}

theorem setUp_of_holds (held : Holds type memory blocks) : setUp type memory = memory := by
  have layout := held.layout
  obtain ⟨block, rest, rfl⟩ := List.exists_cons_of_ne_nil held.some'
  obtain ⟨header, -⟩ := layout
  apply if_pos
  rw [header, hasMagic_header]

theorem alloc_spec (held : Holds type memory blocks) {request : Int} {len : Nat}
    (positive : 0 < len) (small : len < 2147483648) (aligned : alignLen request = len)
    (result : Option (Memory × Option Nat)) :
    Alloc type request memory result ↔
      result = match firstFit len blocks with
        | none => some (memory, none)
        | some (before, size, _) =>
          some (carved memory (type.start + spanOf before) len size,
            some (type.start + spanOf before + hdrSize)) := by
  have setUp' := setUp_of_holds held
  have ends := @endsWith_allocStep type memory len type.start blocks positive held.layout
    held.whole held.some' held.sized held.small
  have taken : ¬ Refused len := by
    unfold Refused maxSize
    omega
  unfold Alloc
  rw [aligned, setUp', or_iff_right fun refused => taken refused.1, and_iff_right taken]
  constructor
  · intro other
    exact other.unique ends
  · rintro rfl
    exact ends

theorem alloc_of_nonpos {request : Int} (nonpos : alignLen request ≤ 0)
    (result : Option (Memory × Option Nat)) :
    Alloc type request memory result ↔ result = some (memory, none) := by
  have above : -2147483648 ≤ alignLen request := by
    unfold alignLen
    exact Int.le_bmod (by decide)
  have refused : Refused (alignLen request) := by
    unfold Refused maxSize
    omega
  unfold Alloc
  rw [or_iff_left fun taken => taken.1 refused, and_iff_right refused]

end Request

end Coreboot.Malloc
