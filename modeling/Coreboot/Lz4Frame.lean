import Coreboot.ByteMemory
import Coreboot.SteppedRun

/-!
# LZ4 frames

A frame is a header and blocks up to an end mark. Each block says how long it is and whether it is
compressed.
-/

namespace Coreboot.Lz4Frame

open ByteMemory SteppedRun

/-- A range of addresses that is read or written. -/
inductive Access where
  | read (base size : Nat)
  | write (base size : Nat)
deriving DecidableEq, Repr

/-- `LZ4_decompress_generic`: the memory after it and what it returns, for a
source, a destination and their sizes. -/
abbrev DecompressGeneric := Memory → Nat → Nat → Nat → Int → Memory × Int

def lz4fMagicnumber : Nat := 0x184D2204

def frameHeaderSize : Nat := 6

def blockHeaderSize : Nat := 4

structure FrameHeader where
  magic : Nat
  flags : Byte
  blockDescriptor : Byte

namespace FrameHeader

variable (h : FrameHeader)

def reserved0 : BitVec 2 := h.flags.extractLsb' 0 2
def hasContentSize : Bool := h.flags.getLsbD 3
def hasBlockChecksum : Bool := h.flags.getLsbD 4
def independentBlocks : Bool := h.flags.getLsbD 5
def version : BitVec 2 := h.flags.extractLsb' 6 2
def reserved1 : BitVec 4 := h.blockDescriptor.extractLsb' 0 4
def reserved2 : Bool := h.blockDescriptor.getLsbD 7

/-- The checks of `ulz4fn` on the header. -/
def accepted : Bool :=
  h.magic == lz4fMagicnumber && h.version == 1 && h.reserved0 == 0 &&
    h.reserved1 == 0 && !h.reserved2 && h.independentBlocks

/-- The length of the header with the content size and the header checksum. -/
def length : Nat := frameHeaderSize + (if h.hasContentSize then 8 else 0) + 1

end FrameHeader

structure BlockHeader where
  raw : BitVec 32

def BlockHeader.size (b : BlockHeader) : Nat := (b.raw.setWidth 31).toNat

def BlockHeader.notCompressed (b : BlockHeader) : Bool := b.raw.getLsbD 31

/-- The arguments of `ulz4fn`. -/
structure Buffers where
  source : Nat
  sourceSize : Nat
  dest : Nat
  destSize : Nat

/-- The variables of the loop of `ulz4fn`, as offsets into the buffers, and what
was accessed. -/
structure LoopState where
  input : Nat
  output : Nat
  memory : Memory
  accesses : List Access

structure Result where
  outSize : Nat
  memory : Memory
  accesses : List Access

section Wrapper

variable (width : Nat) (decompress : DecompressGeneric) (buffers : Buffers)

def readFrameHeader (memory : Memory) : FrameHeader where
  magic := readLE 4 memory buffers.source
  flags := memory (buffers.source + 4)
  blockDescriptor := memory (buffers.source + 5)

def readBlockHeader (memory : Memory) (input : Nat) : BlockHeader :=
  ⟨BitVec.ofNat 32 (readLE 4 memory (buffers.source + input))⟩

/-- `memcpy` of a part of the input to the output. -/
def copyBlock (memory : Memory) (input output size : Nat) : Memory :=
  store memory (buffers.dest + output) (load memory (buffers.source + input) size)

def outputRoom (output : Nat) : Int := (BitVec.ofNat 32 (buffers.destSize - output)).toInt

/-- A turn of the loop of `ulz4fn`. -/
def blockStep (hasBlockChecksum : Bool) (state : LoopState) : LoopState ⊕ Result :=
  let b := readBlockHeader buffers state.memory state.input
  let input := state.input + blockHeaderSize
  let accesses := state.accesses ++ [.read (buffers.source + state.input) blockHeaderSize]
  -- Input overrun.
  if buffers.sourceSize < (input + b.size) % 2 ^ width then
    .inr ⟨0, state.memory, accesses⟩
  -- Decompression successful.
  else if b.size = 0 then .inr ⟨state.output, state.memory, accesses⟩
  else
    let behind := input + b.size + if hasBlockChecksum then 4 else 0
    if b.notCompressed then
      let size := min b.size (buffers.destSize - state.output)
      let memory := copyBlock buffers state.memory input state.output size
      let accesses := accesses ++ [.read (buffers.source + input) size,
        .write (buffers.dest + state.output) size]
      -- Output overrun.
      if size < b.size then .inr ⟨0, memory, accesses⟩
      else .inl ⟨behind, state.output + size, memory, accesses⟩
    else
      let room := outputRoom buffers state.output
      let (memory, ret) := decompress state.memory (buffers.source + input)
        (buffers.dest + state.output) b.size room
      let accesses := accesses ++ [.read (buffers.source + input) b.size,
        .write (buffers.dest + state.output) room.toNat]
      -- Decompression error.
      if ret < 0 then .inr ⟨0, memory, accesses⟩
      else .inl ⟨behind, state.output + ret.toNat, memory, accesses⟩

def loopStart (memory : Memory) : LoopState where
  input := (readFrameHeader buffers memory).length
  output := 0
  memory := memory
  accesses := [.read buffers.source frameHeaderSize]

def ulz4fn (fuel : Nat) (memory : Memory) : Option Result :=
  -- Input overrun.
  if buffers.sourceSize < frameHeaderSize + 8 + 1 then some ⟨0, memory, []⟩
  else
    let h := readFrameHeader buffers memory
    if h.accepted then
      run (blockStep width decompress buffers h.hasBlockChecksum) fuel (loopStart buffers memory)
    else some ⟨0, memory, [.read buffers.source frameHeaderSize]⟩

end Wrapper

/-- The decoder of a block keeps to the room that it is given. -/
structure Bounded (decompress : DecompressGeneric) : Prop where
  writes : ∀ memory source dest inputSize outputSize address,
    address < dest ∨ dest + outputSize.toNat ≤ address →
    (decompress memory source dest inputSize outputSize).1 address = memory address
  returns : ∀ memory source dest inputSize outputSize,
    (decompress memory source dest inputSize outputSize).2 < 0 ∨
      (decompress memory source dest inputSize outputSize).2 ≤ outputSize

section Contract

variable (decompress : DecompressGeneric) (buffers : Buffers)

def Inside : Access → Prop
  | .read base size => buffers.source ≤ base ∧
      base + size ≤ buffers.source + buffers.sourceSize
  | .write base size => buffers.dest ≤ base ∧
      base + size ≤ buffers.dest + buffers.destSize

/-- A block is decoded: its memory and the length of its contents. -/
inductive DecodedBlock (memory : Memory) (input output : Nat) (b : BlockHeader) :
    Memory → Nat → Prop
  | copied (uncompressed : b.notCompressed = true)
      (fits : b.size ≤ buffers.destSize - output) :
      DecodedBlock memory input output b (copyBlock buffers memory input output b.size) b.size
  | decoded {next : Memory} {ret : Nat} (compressed : b.notCompressed = false)
      (returns : decompress memory (buffers.source + input)
        (buffers.dest + output) b.size (outputRoom buffers output) = (next, (ret : Int))) :
      DecodedBlock memory input output b next ret

/-- All the blocks in front of an offset of the input are decoded, to as many
bytes of output. -/
inductive BlocksTo (start : Memory) : Nat → Nat → Memory → Prop
  | header (long : frameHeaderSize + 8 + 1 ≤ buffers.sourceSize)
      (accepted : (readFrameHeader buffers start).accepted = true) :
      BlocksTo start (readFrameHeader buffers start).length 0 start
  | block {input output : Nat} {memory next : Memory} {size : Nat}
      (before : BlocksTo start input output memory)
      (nonempty : (readBlockHeader buffers memory input).size ≠ 0)
      (complete : input + blockHeaderSize +
        (readBlockHeader buffers memory input).size ≤ buffers.sourceSize)
      (decoded : DecodedBlock decompress buffers memory
        (input + blockHeaderSize) output (readBlockHeader buffers memory input)
        next size) :
      BlocksTo start
        (input + blockHeaderSize + (readBlockHeader buffers memory input).size +
          if (readFrameHeader buffers start).hasBlockChecksum then 4 else 0)
        (output + size) next

/-- The function ends, all its accesses are inside the buffers, and a size that
is not 0 is the output of all the blocks up to an end mark. -/
def FrameSafe (width : Nat) (memory : Memory) : Prop :=
  ∃ fuel result, ulz4fn width decompress buffers fuel memory = some result ∧
    (∀ access ∈ result.accesses, Inside buffers access) ∧
    (result.outSize ≠ 0 → ∃ input,
      BlocksTo decompress buffers memory input result.outSize result.memory ∧
        (readBlockHeader buffers result.memory input).size = 0)

/-- Wherever the decoded blocks lead, four bytes are left for the header of the
next block; and an end of a block that wraps around is the one of a block that
is not compressed, and fills the output before the input ends. -/
def HeadersInside (width : Nat) (memory : Memory) : Prop :=
  ∀ input output current,
    BlocksTo decompress buffers memory input output current →
    input + blockHeaderSize ≤ buffers.sourceSize ∧
      (2 ^ width ≤ input + blockHeaderSize + (readBlockHeader buffers current input).size →
        (readBlockHeader buffers current input).notCompressed = true ∧
          buffers.destSize - output < (readBlockHeader buffers current input).size ∧
          input + blockHeaderSize + (buffers.destSize - output) ≤ buffers.sourceSize)

end Contract

section Turns

variable {width : Nat} {decompress : DecompressGeneric} {buffers : Buffers}
  {hasBlockChecksum : Bool} {state : LoopState}

def LoopState.withHeader (buffers : Buffers) (state : LoopState) : List Access :=
  state.accesses ++ [.read (buffers.source + state.input) blockHeaderSize]

def LoopState.header (buffers : Buffers) (state : LoopState) : BlockHeader :=
  readBlockHeader buffers state.memory state.input

def LoopState.contents (state : LoopState) : Nat := state.input + blockHeaderSize

def LoopState.behind (buffers : Buffers) (hasBlockChecksum : Bool) (state : LoopState) : Nat :=
  state.contents + (state.header buffers).size + if hasBlockChecksum then 4 else 0

theorem blockStep_overrun
    (overrun : buffers.sourceSize < (state.contents + (state.header buffers).size) % 2 ^ width) :
    blockStep width decompress buffers hasBlockChecksum state =
      .inr ⟨0, state.memory, state.withHeader buffers⟩ :=
  if_pos overrun

variable (goes : ¬ buffers.sourceSize < (state.contents + (state.header buffers).size) % 2 ^ width)

include goes

theorem blockStep_ended (ended : (state.header buffers).size = 0) :
    blockStep width decompress buffers hasBlockChecksum state =
      .inr ⟨state.output, state.memory, state.withHeader buffers⟩ :=
  (if_neg goes).trans (if_pos ended)

variable (nonempty : (state.header buffers).size ≠ 0)

include nonempty

theorem blockStep_copied {size : Nat} (uncompressed : (state.header buffers).notCompressed = true)
    (is : size = min (state.header buffers).size (buffers.destSize - state.output)) :
    blockStep width decompress buffers hasBlockChecksum state =
      let memory := copyBlock buffers state.memory state.contents state.output size
      let accesses := state.withHeader buffers ++
        [.read (buffers.source + state.contents) size, .write (buffers.dest + state.output) size]
      if size < (state.header buffers).size then .inr ⟨0, memory, accesses⟩
      else .inl ⟨state.behind buffers hasBlockChecksum, state.output + size, memory, accesses⟩ := by
  subst is
  exact ((if_neg goes).trans (if_neg nonempty)).trans (if_pos uncompressed)

theorem blockStep_decoded {next : Memory} {ret : Int}
    (compressed : (state.header buffers).notCompressed = false)
    (returns : decompress state.memory (buffers.source + state.contents)
      (buffers.dest + state.output) (state.header buffers).size
        (outputRoom buffers state.output) = (next, ret)) :
    blockStep width decompress buffers hasBlockChecksum state =
      let accesses := state.withHeader buffers ++
        [.read (buffers.source + state.contents) (state.header buffers).size,
          .write (buffers.dest + state.output) (outputRoom buffers state.output).toNat]
      if ret < 0 then .inr ⟨0, next, accesses⟩
      else .inl ⟨state.behind buffers hasBlockChecksum,
        state.output + ret.toNat, next, accesses⟩ := by
  have notTrue : ¬ (state.header buffers).notCompressed = true := by
    rw [compressed]
    exact Bool.false_ne_true
  obtain ⟨rfl, rfl⟩ := Prod.mk.inj returns
  exact ((if_neg goes).trans (if_neg nonempty)).trans (if_neg notTrue)

end Turns

section Safe

variable {width : Nat} {decompress : DecompressGeneric} {buffers : Buffers}
  {start : Memory} {state : LoopState}

theorem outputRoom_le (buffers : Buffers) (output : Nat) :
    outputRoom buffers output ≤ ((buffers.destSize - output : Nat) : Int) := by
  rw [outputRoom, BitVec.toInt_eq_toNat_cond, BitVec.toNat_ofNat]
  split_ifs <;> omega

structure LoopInvariant (decompress : DecompressGeneric) (buffers : Buffers)
    (start : Memory) (state : LoopState) : Prop where
  blocks : BlocksTo decompress buffers start state.input state.output state.memory
  room : state.output ≤ buffers.destSize
  inside : ∀ access ∈ state.accesses, Inside buffers access

structure SafeResult (decompress : DecompressGeneric) (buffers : Buffers)
    (start : Memory) (result : Result) : Prop where
  inside : ∀ access ∈ result.accesses, Inside buffers access
  room : result.outSize ≤ buffers.destSize
  ended : result.outSize ≠ 0 → ∃ input,
    BlocksTo decompress buffers start input result.outSize result.memory ∧
      (readBlockHeader buffers result.memory input).size = 0

theorem blockStep_spec (bounded : Bounded decompress) (fits : buffers.sourceSize < 2 ^ width)
    (invariant : LoopInvariant decompress buffers start state)
    (header : state.contents ≤ buffers.sourceSize)
    (wraps : 2 ^ width ≤ state.contents + (state.header buffers).size →
      (state.header buffers).notCompressed = true ∧
        buffers.destSize - state.output < (state.header buffers).size ∧
        state.contents + (buffers.destSize - state.output) ≤ buffers.sourceSize) :
    match blockStep width decompress buffers
      (readFrameHeader buffers start).hasBlockChecksum state with
    | .inl next => LoopInvariant decompress buffers start next ∧
        state.input < next.input
    | .inr result => SafeResult decompress buffers start result := by
  have atContents : state.contents = state.input + blockHeaderSize := rfl
  have four : blockHeaderSize = 4 := rfl
  have accesses : ∀ access ∈ state.withHeader buffers, Inside buffers access :=
    List.forall_mem_append.mpr ⟨invariant.inside, List.forall_mem_singleton.mpr
      ⟨Nat.le_add_right _ _, by omega⟩⟩
  have more {reads writes : Access} (first : Inside buffers reads)
      (second : Inside buffers writes) :
      ∀ access ∈ state.withHeader buffers ++ [reads, writes], Inside buffers access :=
    List.forall_mem_append.mpr ⟨accesses, List.forall_mem_cons.mpr
      ⟨first, List.forall_mem_singleton.mpr second⟩⟩
  have room := invariant.room
  by_cases goes : buffers.sourceSize < (state.contents + (state.header buffers).size) % 2 ^ width
  · rw [blockStep_overrun goes]
    exact ⟨accesses, Nat.zero_le _, fun nonzero => absurd rfl nonzero⟩
  by_cases nonempty : (state.header buffers).size = 0
  · rw [blockStep_ended goes nonempty]
    exact ⟨accesses, room, fun _ => ⟨state.input, invariant.blocks, nonempty⟩⟩
  have complete (short : state.contents + (state.header buffers).size <
      2 ^ width) : state.contents + (state.header buffers).size ≤ buffers.sourceSize := by
    rwa [Nat.mod_eq_of_lt short, not_lt] at goes
  have forward : state.input < state.behind buffers
      (readFrameHeader buffers start).hasBlockChecksum := by
    rw [LoopState.behind]
    omega
  cases compression : (state.header buffers).notCompressed with
  | true =>
    obtain ⟨size, is⟩ : ∃ size, size = min (state.header buffers).size
        (buffers.destSize - state.output) := ⟨_, rfl⟩
    rw [blockStep_copied goes nonempty compression is]
    have roomy : size ≤ buffers.destSize - state.output := by omega
    have written : Inside buffers (.write (buffers.dest + state.output) size) :=
      ⟨Nat.le_add_right _ _, by omega⟩
    have readable : state.contents + size ≤ buffers.sourceSize := by
      rcases Nat.lt_or_ge (state.contents + (state.header buffers).size)
        (2 ^ width) with short | long
      · have := complete short
        omega
      · have := (wraps long).2.2
        omega
    have contained := more
      (show Inside buffers (.read (buffers.source + state.contents) size) from
        ⟨Nat.le_add_right _ _, by omega⟩) written
    by_cases full : size < (state.header buffers).size
    · rw [if_pos full]
      exact ⟨contained, Nat.zero_le _, fun nonzero => absurd rfl nonzero⟩
    · rw [if_neg full]
      obtain rfl : size = (state.header buffers).size := by omega
      have whole := complete (Nat.lt_of_le_of_lt readable fits)
      exact ⟨⟨.block invariant.blocks nonempty whole
        (.copied compression roomy), by simp only; omega, contained⟩,
        forward⟩
  | false =>
    have whole := complete (Nat.lt_of_not_le fun long =>
      Bool.false_ne_true (compression.symm.trans (wraps long).1))
    obtain ⟨⟨next, ret⟩, returns⟩ : ∃ answer, decompress state.memory
        (buffers.source + state.contents) (buffers.dest + state.output)
        (state.header buffers).size (outputRoom buffers state.output) = answer := ⟨_, rfl⟩
    have within := outputRoom_le buffers state.output
    have bound := bounded.returns state.memory
      (buffers.source + state.contents) (buffers.dest + state.output)
      (state.header buffers).size (outputRoom buffers state.output)
    rw [returns] at bound
    have contained := more
      (show Inside buffers (.read (buffers.source + state.contents)
        (state.header buffers).size) from ⟨Nat.le_add_right _ _, by omega⟩)
      (show Inside buffers (.write (buffers.dest + state.output)
        (outputRoom buffers state.output).toNat) from ⟨Nat.le_add_right _ _, by omega⟩)
    rw [blockStep_decoded goes nonempty compression returns]
    by_cases failed : ret < 0
    · rw [if_pos failed]
      exact ⟨contained, Nat.zero_le _, fun nonzero => absurd rfl nonzero⟩
    · rw [if_neg failed]
      have small : ret ≤ outputRoom buffers state.output := bound.resolve_left failed
      have decoded : decompress state.memory
          (buffers.source + state.contents) (buffers.dest + state.output)
          (state.header buffers).size (outputRoom buffers state.output) =
            (next, (ret.toNat : Int)) := by
        rw [returns, Int.toNat_of_nonneg (Int.not_lt.mp failed)]
      exact ⟨⟨.block invariant.blocks nonempty whole
        (.decoded compression decoded), by simp only; omega, contained⟩,
        forward⟩

theorem endsWith_of_headersInside (bounded : Bounded decompress)
    (fits : buffers.sourceSize < 2 ^ width) (headers : HeadersInside decompress buffers width start)
    (invariant : LoopInvariant decompress buffers start state) :
    ∃ result, EndsWith (blockStep width decompress buffers
        (readFrameHeader buffers start).hasBlockChecksum) state result ∧
      SafeResult decompress buffers start result := by
  obtain ⟨left, is⟩ : ∃ left, left = buffers.sourceSize - state.input := ⟨_, rfl⟩
  induction left using Nat.strong_induction_on generalizing state with
  | _ left ih =>
    obtain ⟨inside, wraps⟩ := headers _ _ _ invariant.blocks
    have spec := blockStep_spec bounded fits invariant inside wraps
    cases taken : blockStep width decompress buffers
        (readFrameHeader buffers start).hasBlockChecksum state with
    | inl next =>
      rw [taken] at spec
      obtain ⟨nextInvariant, forward⟩ := spec
      have nextInside := (headers _ _ _ nextInvariant.blocks).1
      have four : blockHeaderSize = 4 := rfl
      obtain ⟨result, ends, safe⟩ :=
        ih (buffers.sourceSize - next.input) (by omega) nextInvariant rfl
      exact ⟨result, .of_moves taken ends, safe⟩
    | inr result =>
      rw [taken] at spec
      exact ⟨result, ⟨state, .refl, taken⟩, spec⟩

end Safe

section Unsafe

variable {width : Nat} {decompress : DecompressGeneric} {buffers : Buffers}
  {hasBlockChecksum : Bool} {state : LoopState} {result : Result} {start : Memory}
  {input output : Nat} {memory : Memory}

theorem accesses_of_blockStep (width : Nat) (decompress : DecompressGeneric)
    (buffers : Buffers) (hasBlockChecksum : Bool) (state : LoopState) :
    match blockStep width decompress buffers hasBlockChecksum state with
    | .inl next => state.withHeader buffers ⊆ next.accesses
    | .inr result => state.withHeader buffers ⊆ result.accesses := by
  by_cases goes : buffers.sourceSize < (state.contents + (state.header buffers).size) % 2 ^ width
  · rw [blockStep_overrun goes]
    exact List.Subset.refl _
  by_cases nonempty : (state.header buffers).size = 0
  · rw [blockStep_ended goes nonempty]
    exact List.Subset.refl _
  cases compression : (state.header buffers).notCompressed with
  | true =>
    rw [blockStep_copied goes nonempty compression rfl]
    split_ifs
    · exact List.subset_append_left _ _
    · exact List.subset_append_left _ _
  | false =>
    rw [blockStep_decoded goes nonempty compression rfl]
    split_ifs
    · exact List.subset_append_left _ _
    · exact List.subset_append_left _ _

theorem accesses_of_endsWith
    (ends : EndsWith (blockStep width decompress buffers hasBlockChecksum) state result) :
    state.withHeader buffers ⊆ result.accesses := by
  obtain ⟨last, reaches, ended⟩ := ends
  induction reaches using Relation.ReflTransGen.head_induction_on with
  | refl =>
    have spec := accesses_of_blockStep width decompress buffers hasBlockChecksum last
    rwa [ended] at spec
  | @head state next moves _ ih =>
    have spec := accesses_of_blockStep width decompress buffers hasBlockChecksum state
    rw [show blockStep _ _ _ _ state = .inl next from moves] at spec
    exact fun access member =>
      ih (List.subset_append_left _ _ (spec member))

theorem mem_accesses_of_endsWith {access : Access}
    (step : match blockStep width decompress buffers hasBlockChecksum state with
      | .inl next => access ∈ next.accesses
      | .inr result => access ∈ result.accesses)
    (ends : EndsWith (blockStep width decompress buffers hasBlockChecksum) state result) :
    access ∈ result.accesses := by
  cases taken : blockStep width decompress buffers hasBlockChecksum state with
  | inl next =>
    rw [taken] at step
    exact accesses_of_endsWith ((endsWith_iff_of_moves taken).mp ends) (List.mem_append_left _ step)
  | inr other =>
    rw [taken] at step
    rwa [← (endsWith_iff_of_ended taken).mp ends]

theorem read_of_endsWith
    (ends : EndsWith (blockStep width decompress buffers hasBlockChecksum) state result)
    (goes : ¬ buffers.sourceSize < (state.contents + (state.header buffers).size) % 2 ^ width)
    (nonempty : (state.header buffers).size ≠ 0) :
    .read (buffers.source + state.contents)
        (if (state.header buffers).notCompressed then
          min (state.header buffers).size (buffers.destSize - state.output)
        else (state.header buffers).size) ∈ result.accesses := by
  refine mem_accesses_of_endsWith ?_ ends
  cases compression : (state.header buffers).notCompressed with
  | true =>
    rw [blockStep_copied goes nonempty compression rfl, if_pos rfl]
    split_ifs
    · exact List.mem_append_right _ (.head _)
    · exact List.mem_append_right _ (.head _)
  | false =>
    rw [blockStep_decoded goes nonempty compression rfl, if_neg Bool.false_ne_true]
    split_ifs
    · exact List.mem_append_right _ (.head _)
    · exact List.mem_append_right _ (.head _)

theorem exists_moves (fits : buffers.sourceSize < 2 ^ width)
    (state : LoopState) {next : Memory} {size : Nat} (nonempty : (state.header buffers).size ≠ 0)
    (complete : state.contents + (state.header buffers).size ≤ buffers.sourceSize)
    (decoded : DecodedBlock decompress buffers state.memory state.contents
      state.output (state.header buffers) next size) :
    ∃ accesses, blockStep width decompress buffers hasBlockChecksum state =
      .inl ⟨state.behind buffers hasBlockChecksum, state.output + size, next, accesses⟩ := by
  have goes : ¬ buffers.sourceSize <
      (state.contents + (state.header buffers).size) % 2 ^ width := by
    rw [Nat.mod_eq_of_lt (Nat.lt_of_le_of_lt complete fits)]
    exact Nat.not_lt.mpr complete
  cases decoded with
  | copied uncompressed fitting =>
    have step : blockStep width decompress buffers hasBlockChecksum state = _ :=
      blockStep_copied goes nonempty uncompressed (Nat.min_eq_left fitting).symm
    exact ⟨_, step.trans (if_neg (Nat.lt_irrefl _))⟩
  | decoded compressed returns =>
    have step : blockStep width decompress buffers hasBlockChecksum state = _ :=
      blockStep_decoded goes nonempty compressed returns
    exact ⟨_, step.trans (if_neg (Int.not_lt.mpr (Int.natCast_nonneg size)))⟩

theorem reaches_of_blocksTo (fits : buffers.sourceSize < 2 ^ width)
    (blocks : BlocksTo decompress buffers start input output memory) :
    ∃ accesses, Reaches (blockStep width decompress buffers
        (readFrameHeader buffers start).hasBlockChecksum)
      (loopStart buffers start) ⟨input, output, memory, accesses⟩ := by
  induction blocks with
  | header _ _ => exact ⟨_, .refl⟩
  | block _ nonempty complete decoded ih =>
    obtain ⟨accesses, reaches⟩ := ih
    obtain ⟨nextAccesses, moves⟩ := exists_moves fits ⟨_, _, _, accesses⟩ nonempty complete decoded
    exact ⟨nextAccesses, reaches.tail moves⟩

theorem size_lt (b : BlockHeader) : b.size < 2 ^ 31 := (b.raw.setWidth 31).isLt

/-- A block whose end wraps around and whose contents are read inside is not
compressed, and is cut off at the end of the output. -/
theorem cut_of_wraps {contents room limit sourceSize base : Nat} {b : BlockHeader}
    (fits : sourceSize < limit) (long : limit ≤ contents + b.size) (bound : base + contents +
      (if b.notCompressed then min b.size room else b.size) ≤ base + sourceSize) :
    b.notCompressed = true ∧ room < b.size ∧ contents + room ≤ sourceSize := by
  cases compression : b.notCompressed with
  | true =>
    rw [compression, if_pos rfl] at bound
    exact ⟨rfl, by omega, by omega⟩
  | false =>
    rw [compression, if_neg Bool.false_ne_true] at bound
    omega

theorem headersInside_of_endsWith (wide : 32 ≤ width) (fits : buffers.sourceSize < 2 ^ width)
    (ends : EndsWith (blockStep width decompress buffers
      (readFrameHeader buffers start).hasBlockChecksum)
      (loopStart buffers start) result)
    (inside : ∀ access ∈ result.accesses, Inside buffers access) :
    HeadersInside decompress buffers width start := by
  intro input output current blocks
  obtain ⟨accesses, reaches⟩ := reaches_of_blocksTo fits blocks
  have ends := ends.of_reached reaches
  have header : input + blockHeaderSize ≤ buffers.sourceSize := by
    have read : Inside buffers (.read (buffers.source + input) blockHeaderSize) :=
      inside _ (accesses_of_endsWith ends (List.mem_append_right _ (.head _)))
    have bound := read.2
    omega
  refine ⟨header, fun long => ?_⟩
  have small : (readBlockHeader buffers current input).size < 2 ^ width :=
    (size_lt _).trans (Nat.pow_lt_pow_right Nat.one_lt_two wide)
  have goes : ¬ buffers.sourceSize < (input + blockHeaderSize +
      (readBlockHeader buffers current input).size) % 2 ^ width := by
    rw [Nat.mod_eq_sub_mod long, Nat.mod_eq_of_lt (by omega)]
    omega
  have nonempty : (readBlockHeader buffers current input).size ≠ 0 := by omega
  have member := read_of_endsWith ends goes nonempty
  exact cut_of_wraps fits long (inside _ member).2

theorem BlocksTo.accepted (blocks : BlocksTo decompress buffers start input output memory) :
    frameHeaderSize + 8 + 1 ≤ buffers.sourceSize ∧
      (readFrameHeader buffers start).accepted = true := by
  induction blocks with
  | header long accepted => exact ⟨long, accepted⟩
  | block _ _ _ _ ih => exact ih

end Unsafe

section Writes

/-- What `ulz4fn` does with the frame header: the loop begins, or it ends. -/
def enterFrame (buffers : Buffers) (memory : Memory) : (Bool × LoopState) ⊕ Result :=
  if buffers.sourceSize < frameHeaderSize + 8 + 1 then .inr ⟨0, memory, []⟩
  else
    let h := readFrameHeader buffers memory
    if h.accepted then .inl (h.hasBlockChecksum, loopStart buffers memory)
    else .inr ⟨0, memory, [.read buffers.source frameHeaderSize]⟩

theorem ulz4fn_eq_enterFrame (width : Nat) (decompress : DecompressGeneric)
    (buffers : Buffers) (fuel : Nat) (memory : Memory) :
    ulz4fn width decompress buffers fuel memory =
      match enterFrame buffers memory with
      | .inl (hasBlockChecksum, state) =>
        run (blockStep width decompress buffers hasBlockChecksum) fuel state
      | .inr result => some result := by
  unfold ulz4fn enterFrame
  dsimp only
  split_ifs <;> rfl

def Access.Writes (address : Nat) : Access → Prop
  | .read _ _ => False
  | .write base size => base ≤ address ∧ address < base + size

/-- Only certain addresses are written to. -/
def WritesWithin (inside : Nat → Prop) (accesses : List Access) : Prop :=
  ∀ access ∈ accesses, ∀ address, access.Writes address → inside address

variable {inside : Nat → Prop}

theorem writesWithin_nil : WritesWithin inside [] := nofun

theorem WritesWithin.append {first second : List Access} (before : WritesWithin inside first)
    (after : WritesWithin inside second) : WritesWithin inside (first ++ second) :=
  List.forall_mem_append.mpr ⟨before, after⟩

theorem writesWithin_read (base size : Nat) : WritesWithin inside [.read base size] :=
  List.forall_mem_singleton.mpr fun _ => False.elim

theorem writesWithin_write {base size : Nat}
    (written : ∀ address, base ≤ address → address < base + size → inside address) :
    WritesWithin inside [.write base size] :=
  List.forall_mem_singleton.mpr fun address writes =>
    written address writes.1 writes.2

theorem enterFrame_spec (inside : Nat → Prop) (buffers : Buffers) (memory : Memory) :
    match enterFrame buffers memory with
    | .inl (_, state) => state.output = 0 ∧ WritesWithin inside state.accesses
    | .inr result => result.outSize = 0 ∧ WritesWithin inside result.accesses := by
  unfold enterFrame
  dsimp only
  split_ifs
  · exact ⟨rfl, writesWithin_nil⟩
  · exact ⟨rfl, writesWithin_read _ _⟩
  · exact ⟨rfl, writesWithin_read _ _⟩

theorem blockStep_writes {decompress : DecompressGeneric} (buffers : Buffers)
    (bounded : Bounded decompress) (covers : ∀ address, buffers.dest ≤ address →
      address < buffers.dest + buffers.destSize → inside address) (width : Nat)
    (hasBlockChecksum : Bool) {state : LoopState} (room : state.output ≤ buffers.destSize)
    (before : WritesWithin inside state.accesses) :
    match blockStep width decompress buffers hasBlockChecksum state with
    | .inl next =>
      next.output ≤ buffers.destSize ∧ WritesWithin inside next.accesses
    | .inr result =>
      result.outSize ≤ buffers.destSize ∧ WritesWithin inside result.accesses := by
  have header : WritesWithin inside (state.withHeader buffers) :=
    before.append (writesWithin_read _ _)
  have contents : ∀ base read size, size ≤ buffers.destSize - state.output →
      WritesWithin inside (state.withHeader buffers ++
        [.read base read, .write (buffers.dest + state.output) size]) :=
    fun base read size fits => header.append ((writesWithin_read base read).append
      (writesWithin_write fun address above below =>
        covers address (by omega) (by omega)))
  by_cases goes : buffers.sourceSize < (state.contents + (state.header buffers).size) % 2 ^ width
  · rw [blockStep_overrun goes]
    exact ⟨Nat.zero_le _, header⟩
  by_cases nonempty : (state.header buffers).size = 0
  · rw [blockStep_ended goes nonempty]
    exact ⟨room, header⟩
  cases compression : (state.header buffers).notCompressed with
  | true =>
    obtain ⟨size, is⟩ : ∃ size, size = min (state.header buffers).size
        (buffers.destSize - state.output) := ⟨_, rfl⟩
    have fits : size ≤ buffers.destSize - state.output := is ▸ Nat.min_le_right _ _
    rw [blockStep_copied goes nonempty compression is]
    split_ifs
    · exact ⟨Nat.zero_le _, contents _ _ _ fits⟩
    · exact ⟨by simp only; omega, contents _ _ _ fits⟩
  | false =>
    obtain ⟨⟨next, ret⟩, returns⟩ : ∃ answer, answer =
        decompress state.memory (buffers.source + state.contents)
          (buffers.dest + state.output) (state.header buffers).size
            (outputRoom buffers state.output) := ⟨_, rfl⟩
    have returned := bounded.returns state.memory
      (buffers.source + state.contents) (buffers.dest + state.output)
        (state.header buffers).size (outputRoom buffers state.output)
    rw [← returns] at returned
    have fits := outputRoom_le buffers state.output
    rw [blockStep_decoded goes nonempty compression returns.symm]
    split_ifs with error
    · exact ⟨Nat.zero_le _, contents _ _ _ (by omega)⟩
    · exact ⟨by simp only at returned ⊢; omega, contents _ _ _ (by omega)⟩

end Writes

section Frames

variable {width : Nat} {decompress : DecompressGeneric} {buffers : Buffers} {memory : Memory}

theorem ulz4fn_of_accepted (long : frameHeaderSize + 8 + 1 ≤ buffers.sourceSize)
    (accepted : (readFrameHeader buffers memory).accepted = true) (fuel : Nat) :
    ulz4fn width decompress buffers fuel memory =
      run (blockStep width decompress buffers
        (readFrameHeader buffers memory).hasBlockChecksum) fuel (loopStart buffers memory) :=
  (if_neg (Nat.not_lt.mpr long)).trans (if_pos accepted)

theorem headersInside_of_frameSafe (wide : 32 ≤ width) (fits : buffers.sourceSize < 2 ^ width)
    (safe : FrameSafe decompress buffers width memory) :
    HeadersInside decompress buffers width memory := by
  intro input output current blocks
  obtain ⟨long, accepted⟩ := blocks.accepted
  obtain ⟨fuel, result, ran, inside, -⟩ := safe
  rw [ulz4fn_of_accepted long accepted] at ran
  exact headersInside_of_endsWith wide fits (exists_run_iff.mp ⟨fuel, ran⟩)
    inside input output current blocks

theorem exists_safeResult (bounded : Bounded decompress) (fits : buffers.sourceSize < 2 ^ width)
    (headers : HeadersInside decompress buffers width memory) :
    ∃ fuel result, ulz4fn width decompress buffers fuel memory = some result ∧
      SafeResult decompress buffers memory result := by
  by_cases short : buffers.sourceSize < frameHeaderSize + 8 + 1
  · exact ⟨0, ⟨0, memory, []⟩, if_pos short, nofun, Nat.zero_le _,
      fun nonzero => absurd rfl nonzero⟩
  have headerRead : Inside buffers (.read buffers.source frameHeaderSize) := ⟨le_rfl, by omega⟩
  by_cases accepted : (readFrameHeader buffers memory).accepted = true
  · have long := Nat.not_lt.mp short
    obtain ⟨result, ends, safe⟩ := endsWith_of_headersInside bounded fits headers
      (show LoopInvariant decompress buffers memory (loopStart buffers memory) from
        { blocks := .header long accepted
          room := Nat.zero_le _
          inside := List.forall_mem_singleton.mpr headerRead })
    obtain ⟨fuel, ran⟩ := exists_run_iff.mpr ends
    exact ⟨fuel, result, (ulz4fn_of_accepted long accepted fuel).trans ran, safe⟩
  · exact ⟨0, ⟨0, memory, [.read buffers.source frameHeaderSize]⟩,
      (if_neg short).trans (if_neg accepted), List.forall_mem_singleton.mpr headerRead,
      Nat.zero_le _, fun nonzero => absurd rfl nonzero⟩

end Frames

/-- A frame is decoded safely exactly when the block headers are inside. -/
theorem frameSafe_iff {width : Nat} (wide : 32 ≤ width) {decompress : DecompressGeneric}
    (bounded : Bounded decompress) {buffers : Buffers} (fits : buffers.sourceSize < 2 ^ width)
    (memory : Memory) :
    FrameSafe decompress buffers width memory ↔ HeadersInside decompress buffers width memory := by
  refine ⟨headersInside_of_frameSafe wide fits, fun headers => ?_⟩
  obtain ⟨fuel, result, ran, safe⟩ := exists_safeResult bounded fits headers
  exact ⟨fuel, result, ran, safe.inside, safe.ended⟩

def rejectAll : DecompressGeneric := fun memory _ _ _ _ => (memory, -1)

theorem bounded_rejectAll : Bounded rejectAll where
  writes _ _ _ _ _ _ _ := rfl
  returns _ _ _ _ _ := .inl (show (-1 : Int) < 0 by decide)

/-- The frame header of a frame of independent blocks, with its checksum. -/
def plainHeader : List Byte := [0x04, 0x22, 0x4d, 0x18, 0x60, 0x40, 0x82]

/-- A frame with one byte that is not compressed, and the end mark. -/
def plainFrame : Memory := store (fun _ => 0) 0 (plainHeader ++ [1, 0, 0, 0x80, 0x41, 0, 0, 0, 0])

theorem frameSafe_iff_plainFrame :
    FrameSafe rejectAll ⟨0, 16, 0x1000, 1⟩ 32 plainFrame ↔
      HeadersInside rejectAll ⟨0, 16, 0x1000, 1⟩ 32 plainFrame :=
  frameSafe_iff (by decide) bounded_rejectAll (by decide) plainFrame

example : (ulz4fn 32 rejectAll ⟨0, 16, 0x1000, 1⟩ 3 plainFrame).map
    (fun result => (result.outSize, result.memory 0x1000)) = some (1, 0x41) := by
  decide

def truncatedFrame : Memory :=
  store (fun _ => 0) 0 (plainHeader ++ [4, 0, 0, 0x80, 0x41, 0x42, 0x43, 0x44])

/-- The header of the next block is read behind the input. -/
theorem not_frameSafe_truncatedFrame :
    ¬ FrameSafe rejectAll ⟨0, 15, 0x1000, 4⟩ 32 truncatedFrame := by
  intro safe
  have first : BlocksTo rejectAll ⟨0, 15, 0x1000, 4⟩ truncatedFrame 7 0
      truncatedFrame := .header (by decide) (by decide)
  have behind := (headersInside_of_frameSafe (by decide) (by decide) safe _ _ _
    (first.block (by decide) (by decide) (.copied (by decide) (by decide)))).1
  exact absurd behind (by decide)

end Coreboot.Lz4Frame
