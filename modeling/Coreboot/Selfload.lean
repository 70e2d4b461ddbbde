import Coreboot.Memrange
import Coreboot.Payload
import Coreboot.SteppedRun

/-!
# Loading a payload

The table of a mapped payload becomes a list of segments, which are checked, buffered where they
would overwrite the ramstage, and loaded one by one.
-/

namespace Coreboot.Selfload

open ByteMemory Memrange Payload SteppedRun

/-- What the ramstage is built for: the bits of an `unsigned long`, where the
ramstage and its heap lie, and how it is configured. -/
structure Platform where
  bits : Nat
  lbStart : Nat
  lbEnd : Nat
  heapEnd : Nat
  archSupportsBounceBuffer : Bool
  relocatableRamstage : Bool
  bits_eq : bits = 32 ∨ bits = 64
  start_lt : lbStart < lbEnd
  end_lt : lbEnd < 2 ^ bits

/-- The decompressors: the memory they leave, and the size of their output, which
is zero after an error. -/
structure Decompressors where
  ulzman : Memory → Nat → Nat → Nat → Nat → Memory × Nat
  ulz4fn : Memory → Nat → Nat → Nat → Nat → Memory × Nat

/-- What a call can end with: it returns, or it stops the machine. -/
inductive Outcome (α : Type) where
  | done (value : α)
  | died
deriving DecidableEq, Repr

/-- What the loader works on: the memory, where the payload is mapped, which is
zero when it could not be, the map of the memory, the pointer of the heap, and
whether the regions are checked. -/
structure Input where
  memory : Memory
  mapped : Nat
  bootmem : Memranges
  heap : Nat
  checkRegions : Bool

namespace Platform

def word (platform : Platform) (number : Nat) : Nat := number % 2 ^ platform.bits

def visible (platform : Platform) (memory : Memory) : Memory :=
  fun address => memory (platform.word address)

def sizeofSegment (platform : Platform) : Nat := if platform.bits = 64 then 56 else 28

def sizeofRangeEntry (platform : Platform) : Nat := if platform.bits = 64 then 32 else 24

/-- `malloc`: the pointer of the heap after an allocation, if there is room. -/
def malloc (platform : Platform) (size heap : Nat) : Option Nat :=
  let heap := (heap + 7) / 8 * 8 + size
  if heap ≥ platform.heapEnd then none else some heap

/-- A number of allocations of one size. -/
def mallocs (platform : Platform) (size : Nat) : Nat → Nat → Option Nat
  | 0, heap => some heap
  | count + 1, heap =>
    (platform.mallocs size count heap).bind (platform.malloc size)

end Platform

variable (platform : Platform) (decompressors : Decompressors)

/-- The state of the loop over the table. -/
structure Building where
  current : Nat
  segments : List Payload.Segment
  heap : Nat
deriving DecidableEq, Repr

/-- What the loop leaves: the list, the entry point, which is zero unless it was
found, the heap, and the value returned. -/
structure Built where
  segments : List Payload.Segment
  entry : Nat
  heap : Nat
  status : Int
deriving DecidableEq, Repr

def Building.insert (state : Building) (segment : Payload.Segment) : Building ⊕ Outcome Built :=
  match platform.malloc platform.sizeofSegment state.heap with
  | none => .inr .died
  | some heap =>
    .inl ⟨state.current + Payload.sizeofSegment, state.segments ++ [segment], heap⟩

/-- The loop of `build_self_segment_list` takes a decoded record. -/
def Building.take (state : Building) (segment : PayloadSegment) : Building ⊕ Outcome Built :=
  if segment.type = payloadSegmentParams then
    .inl { state with current := state.current + Payload.sizeofSegment }
  else if segment.type = payloadSegmentCode ∨ segment.type = payloadSegmentData then
    state.insert platform (loadSegment platform.bits segment)
  else if segment.type = payloadSegmentBss then
    state.insert platform (bssSegment platform.bits segment)
  else if segment.type = payloadSegmentEntry then
    .inr (.done ⟨state.segments, platform.word segment.loadAddr, state.heap, 1⟩)
  -- We found something that we don't know about.
  else .inr (.done ⟨state.segments, 0, state.heap, -1⟩)

/-- One turn of the loop of `build_self_segment_list`. -/
def buildStep (memory : Memory) (state : Building) : Building ⊕ Outcome Built :=
  state.take platform (decodePayloadSegment (platform.visible memory) state.current)

def buildSelfSegmentList (memory : Memory) (first heap fuel : Nat) : Option (Outcome Built) :=
  run (buildStep platform memory) fuel ⟨first, [], heap⟩

/-- `LB_MEM_RAM` and `LB_MEM_UNUSABLE`. -/
def lbMemRam : Tag := 1
def lbMemUnusable : Tag := 5

def bootmemRegionTargetsUsableRam (bootmem : Memranges) (start size : Address) : Bool :=
  (bootmem.entries.takeWhile fun entry =>
    ! decide (start + size ≤ rangeEntryBase entry)).any fun entry =>
      decide (start ≥ rangeEntryBase entry ∧ start + size ≤ rangeEntryEnd entry ∧
        entry.tag = lbMemRam)

/-- `bootmem_add_range`.  The entries that come from the heap are those that are
more than there were, on the list and on the free list. -/
def bootmemAddRange (bootmem : Memranges) (start size : Address) (tag : Tag)
    (heap : Nat) : Option (Memranges × Nat) :=
  let inserted := memrangesInsert true bootmem start size tag
  (platform.mallocs platform.sizeofRangeEntry
    (inserted.entries.length + inserted.freeList -
      (bootmem.entries.length + bootmem.freeList)) heap).map
    fun heap => (inserted, heap)

def maxAddr : Address := 0x100000000

/-- The end of a range, below the 32-bit boundary. -/
def clampedEnd (entry : RangeEntry) : Address :=
  if rangeEntryEnd entry > maxAddr then maxAddr else rangeEntryEnd entry

/-- The conditions of `bootmem_allocate_buffer` on a range. -/
def rangeFits (size : Address) (entry : RangeEntry) : Bool :=
  decide (¬ rangeEntryEnd entry - rangeEntryBase entry < size ∧
    entry.tag = lbMemRam ∧ ¬ rangeEntryBase entry ≥ maxAddr ∧
    ¬ clampedEnd entry - rangeEntryBase entry < size)

/-- The address of the buffer, which is zero when there is none, and the map and
the heap after it. -/
def bootmemAllocateBuffer (bootmem : Memranges) (size heap : Nat) :
    Option (Nat × Memranges × Nat) :=
  let size := BitVec.ofNat 64 (platform.word (size + 4095) / 4096 * 4096)
  match (bootmem.entries.filter (rangeFits size)).getLast? with
  | none => some (0, bootmem, heap)
  | some region =>
    let start := clampedEnd region - size
    (bootmemAddRange platform bootmem start size lbMemUnusable heap).map
      fun (bootmem, heap) => (platform.word start.toNat, bootmem, heap)

def overlapsCoreboot (segment : Payload.Segment) : Bool :=
  !(decide (platform.word (segment.dstaddr + segment.memsz) ≤ platform.lbStart) ||
    decide (segment.dstaddr ≥ platform.lbEnd))

def oneMeg : Nat := 0x100000

/-- The check of one segment in `payload_targets_usable_ram`. -/
def segmentTargetsUsableRam (bootmem : Memranges) (segment : Payload.Segment) : Bool :=
  bootmemRegionTargetsUsableRam bootmem (BitVec.ofNat 64 segment.dstaddr)
      (BitVec.ofNat 64 segment.memsz) ||
    decide (segment.dstaddr < oneMeg ∧ platform.word (segment.dstaddr + segment.memsz) ≤ oneMeg)

def payloadTargetsUsableRam (bootmem : Memranges) (segments : List Payload.Segment) : Bool :=
  segments.all (segmentTargetsUsableRam platform bootmem)

/-- The loop of `load_self_segments` over the segments before there is a buffer:
the map, the heap and `bounce_high` after it. -/
def reserveSegments (checkRegions : Bool) :
    List Payload.Segment → Memranges × Nat × Nat → Option (Memranges × Nat × Nat)
  | [], state => some state
  | segment :: rest, (bootmem, heap, bounceHigh) =>
    let added :=
      if checkRegions then
        bootmemAddRange platform bootmem (BitVec.ofNat 64 segment.dstaddr)
          (BitVec.ofNat 64 segment.memsz) lbMemUnusable heap
      else some (bootmem, heap)
    added.bind fun (bootmem, heap) =>
      let segmentEnd := platform.word (segment.dstaddr + segment.memsz)
      reserveSegments checkRegions rest (bootmem, heap,
        if overlapsCoreboot platform segment ∧ segmentEnd > bounceHigh then
          segmentEnd
        else bounceHigh)

def getBounceBuffer (bootmem : Memranges) (reqSize heap : Nat) : Option (Nat × Nat) :=
  if platform.relocatableRamstage ∨ ¬ platform.archSupportsBounceBuffer then
    some (2 ^ platform.bits - 1, heap)
  else
    let lbSize := platform.word (reqSize + (platform.lbEnd - platform.lbStart))
    (bootmemAllocateBuffer platform bootmem lbSize heap).map fun (buffer, _, heap) => (buffer, heap)

/-- The part of `load_self_segments` between the check and the copying. -/
def prepare (checkRegions : Bool) (bootmem : Memranges) (segments : List Payload.Segment)
    (heap : Nat) : Option (Nat × Nat) :=
  (reserveSegments platform checkRegions segments
    (bootmem, heap, platform.lbEnd)).bind fun (bootmem, heap, bounceHigh) =>
      getBounceBuffer platform bootmem (bounceHigh - platform.lbStart) heap

/-- A segment on its way to the buffer, with what was sliced off before and after
it. -/
structure Relocation where
  early : Option Payload.Segment
  segment : Payload.Segment
  late : Option Payload.Segment
deriving DecidableEq, Repr

def firstPart (segment : Payload.Segment) (len : Nat) : Payload.Segment :=
  { segment with
    memsz := len
    filesz := if segment.filesz > len then len else segment.filesz }

def lastPart (segment : Payload.Segment) (len : Nat) : Payload.Segment :=
  { segment with
    memsz := segment.memsz - len
    dstaddr := segment.dstaddr + len
    srcaddr := segment.srcaddr + len
    filesz := if segment.filesz > len then segment.filesz - len else 0 }

/-- The slice at the beginning that doesn't conflict with coreboot. -/
def sliceEarly (relocation : Relocation) : Relocation :=
  let segment := relocation.segment
  if segment.dstaddr < platform.lbStart then
    let len := platform.lbStart - segment.dstaddr
    { relocation with
      early := some (firstPart segment len), segment := lastPart segment len }
  else relocation

def sliceLate (segmentEnd : Nat) (relocation : Relocation) : Relocation :=
  let segment := relocation.segment
  if segmentEnd > platform.lbEnd then
    let len := platform.lbEnd - segment.dstaddr
    { relocation with
      segment := firstPart segment len, late := some (lastPart segment len) }
  else relocation

/-- The slices of a segment that overlaps coreboot; compressed ones have none. -/
def slice (segment : Payload.Segment) : Relocation :=
  if segment.compression = 0 then
    sliceLate platform (platform.word (segment.dstaddr + segment.memsz))
      (sliceEarly platform ⟨none, segment, none⟩)
  else ⟨none, segment, none⟩

def Relocation.count (relocation : Relocation) : Nat :=
  relocation.early.toList.length + relocation.late.toList.length

def relocateSegment (buffer : Nat) (segment : Payload.Segment) (heap : Nat) :
    Outcome (Relocation × Nat) :=
  if overlapsCoreboot platform segment then
    -- Bounce buffer not supported.
    if ¬ platform.archSupportsBounceBuffer then .died
    else
      let relocation := slice platform segment
      match platform.mallocs platform.sizeofSegment relocation.count heap with
      | none => .died
      | some heap =>
        let segment := relocation.segment
        .done ({ relocation with
          segment :=
            { segment with
              dstaddr := platform.word (buffer + segment.dstaddr +
                (2 ^ platform.bits - platform.lbStart)) } }, heap)
  else .done (⟨none, segment, none⟩, heap)

/-- What loading one segment comes to. -/
inductive Loading where
  | loaded (memory : Memory)
  | decompressionError
  | unknownCompression

/-- The copy of the data: the memory and the number of bytes, if the compression
is known. -/
def copyData (memory : Memory) (data : Nat) (segment : Payload.Segment) : Option (Memory × Nat) :=
  let src := platform.word (data + segment.srcaddr)
  match segment.compression with
  | 0 =>
    some (store memory segment.dstaddr (load memory src segment.filesz), segment.filesz)
  | 1 =>
    some (decompressors.ulzman memory src segment.filesz segment.dstaddr segment.memsz)
  | 2 =>
    some (decompressors.ulz4fn memory src segment.filesz segment.dstaddr segment.memsz)
  | _ => none

def memcpy (memory : Memory) (target source amount : Nat) : Memory :=
  store memory target (load memory source amount)

/-- Clear what is behind the data, and copy what lies outside the area that
shadows the ramstage. -/
def finish (memory : Memory) (buffer len : Nat) (segment : Payload.Segment) : Memory :=
  let dest := segment.dstaddr
  let middle := platform.word (dest + len)
  let segmentEnd := platform.word (dest + segment.memsz)
  let memory :=
    if middle < segmentEnd then fill memory middle (segmentEnd - middle) 0
    else memory
  if segmentEnd > buffer then
    let memory :=
      if dest < buffer then
        memcpy memory
          (platform.word (2 ^ platform.bits + platform.lbStart - (buffer - dest)))
          dest (buffer - dest)
      else memory
    let shadowEnd := platform.word (buffer + (platform.lbEnd - platform.lbStart))
    if segmentEnd > shadowEnd then
      memcpy memory platform.lbEnd shadowEnd (segmentEnd - shadowEnd)
    else memory
  else memory

def copySegment (memory : Memory) (data buffer : Nat) (segment : Payload.Segment) : Loading :=
  match copyData platform decompressors memory data segment with
  | none => .unknownCompression
  | some (memory, len) =>
    if segment.compression ≠ 0 ∧ len = 0 then .decompressionError
    else .loaded (finish platform memory buffer len segment)

/-- The state of the loop over the segments: those still to be loaded, the memory
and the heap. -/
structure State where
  segments : List Payload.Segment
  memory : Memory
  heap : Nat

/-- One turn of the loop of `load_self_segments`.  After a slice was put before
the segment, the loop goes back to it. -/
def loadStep (data buffer : Nat) (state : State) : State ⊕ Outcome Int :=
  match state.segments with
  | [] => .inr (.done 1)
  | segment :: rest =>
    match relocateSegment platform buffer segment state.heap with
    | .died => .inr .died
    | .done (⟨some early, segment, late⟩, heap) =>
      .inl ⟨early :: segment :: (late.toList ++ rest), state.memory, heap⟩
    | .done (⟨none, segment, late⟩, heap) =>
      match copySegment platform decompressors state.memory data buffer segment with
      | .loaded memory => .inl ⟨late.toList ++ rest, memory, heap⟩
      | .decompressionError => .inr (.done 0)
      | .unknownCompression => .inr (.done (-1))

/-- `load_self_segments`, with the heap after the list was built. -/
def loadSelfSegments (input : Input) (heap : Nat) (segments : List Payload.Segment)
    (fuel : Nat) : Option (Outcome Int) :=
  if input.checkRegions ∧ ¬ payloadTargetsUsableRam platform input.bootmem segments then
    some (.done 0)
  else
    match prepare platform input.checkRegions input.bootmem segments heap with
    | none => some .died
    | some (buffer, heap) =>
      if buffer = 0 then some (.done 0)
      else
        run (loadStep platform decompressors input.mapped buffer) fuel
          ⟨segments, input.memory, heap⟩

def selfload (input : Input) (fuel : Nat) : Option (Outcome Nat) :=
  if input.mapped = 0 then some (.done 0)
  else
    match buildSelfSegmentList platform input.memory input.mapped input.heap fuel with
    | none => none
    | some .died => some .died
    | some (.done built) =>
      if built.status = 0 then some (.done 0)
      else
        match loadSelfSegments platform decompressors input built.heap built.segments fuel with
        | none => none
        | some .died => some .died
        | some (.done status) =>
          if status = 0 then some (.done 0) else some (.done built.entry)

end Coreboot.Selfload
