import Coreboot.Payload

/-!
# ELF files from payloads

The host tool decompresses the data of the records of a payload into a new buffer, and gives their
sections to the writer of ELF files.
-/

namespace Coreboot.Payload

open ByteMemory

/-- The loop of `cbfs_payload_decompress`: the offsets of the next data in both
buffers, the new buffer and the records that are changed. -/
structure Unpacking where
  input : Nat
  offset : Nat
  memory : Memory
  segs : List PayloadSegment

/-- One record.  A write outside of a buffer is a failure. -/
def unpackSegment (codec : Codec) (payload : Memory) (limit : Nat)
    (segment : PayloadSegment) (state : Unpacking) : Option Unpacking :=
  let packed := load payload state.input segment.len
  let record := { segment with
    offset := state.offset % 4294967296, compression := 0 }
  if segment.compression > 2 then none
  else if segment.type = payloadSegmentBss ∨ segment.type = payloadSegmentEntry then
    some { state with segs := state.segs ++ [segment] }
  else if segment.type = payloadSegmentParams then
    if state.offset + segment.len ≤ limit then
      some ⟨state.input + segment.len, state.offset + segment.len,
        store state.memory state.offset packed, state.segs ++ [record]⟩
    else none
  else
    (codec.decompress segment.compression packed).bind fun bytes =>
      if bytes.length ≤ segment.memLen ∧ state.offset + bytes.length ≤ limit then
        some ⟨state.input + segment.len, state.offset + bytes.length,
          store state.memory state.offset bytes,
          state.segs ++ [{ record with len := bytes.length }]⟩
      else none

def unpackSegments (codec : Codec) (payload : Memory) (limit : Nat) :
    List PayloadSegment → Unpacking → Option Unpacking
  | [], state => some state
  | segment :: rest, state =>
    (unpackSegment codec payload limit segment state).bind (unpackSegments codec payload limit rest)

def cbfsPayloadDecompress (codec : Codec) (payload : Memory)
    (segs : List PayloadSegment) : Option (List PayloadSegment × Memory) :=
  let first := sizeofSegment * segs.length
  let limit := first + (segs.map fun segment => segment.memLen).sum
  (unpackSegments codec payload limit segs ⟨first, first, fun _ => 0, []⟩).map
    fun state => (state.segs, xdrSegs state.memory state.segs)

structure Section where
  name : String
  type : Nat
  flags : Nat
  addr : Nat
  size : Nat
  content : List Byte
deriving DecidableEq

def shtProgbits : Nat := 1
def shtNote : Nat := 7
def shtNobits : Nat := 8
def shfWrite : Nat := 1
def shfAlloc : Nat := 2
def shfExecinstr : Nat := 4

/-- The most sections of the writer, and those it begins with. -/
def maxSections : Nat := 16
def initialSections : Nat := 4

def elfWriterAddSection (sections : List Section) (added : Section) : Option (List Section) :=
  if initialSections + sections.length = maxSections then none
  else some (sections ++ [added])

def addSections : List Section → List Section → Option (List Section)
  | [], sections => some sections
  | added :: rest, sections =>
    (elfWriterAddSection sections added).bind (addSections rest)

/-- The section of zeros behind the data of a record. -/
def emptySections (segment : PayloadSegment) : List Section :=
  if segment.memLen - segment.len ≠ 0 then
    [⟨".empty", shtNobits, shfWrite ||| shfAlloc,
      (segment.loadAddr + segment.len) % 18446744073709551616,
      segment.memLen - segment.len, []⟩]
  else []

def segmentSections (memory : Memory) (segment : PayloadSegment) : List Section :=
  let content := load memory segment.offset segment.len
  if segment.type = payloadSegmentCode then
    ⟨".text", shtProgbits, shfWrite ||| shfAlloc ||| shfExecinstr,
      segment.loadAddr, segment.len, content⟩ :: emptySections segment
  else if segment.type = payloadSegmentData then
    ⟨".data", shtProgbits, shfAlloc ||| shfWrite, segment.loadAddr,
      segment.len, content⟩ :: emptySections segment
  else if segment.type = payloadSegmentBss then
    [⟨".bss", shtNobits, shfAlloc ||| shfWrite, segment.loadAddr, segment.len, []⟩]
  else [⟨".note.pinfo", shtNote, 0, 0, segment.len, content⟩]

def makeSections (memory : Memory) : List PayloadSegment → List Section → Option (List Section)
  | [], sections => some sections
  | segment :: rest, sections =>
    if segment.type = payloadSegmentEntry then some sections
    else (addSections (segmentSections memory segment) sections).bind (makeSections memory rest)

/-- The records of a payload up to the entry point, with a bound on their number. -/
def readSegments (payload : Memory) : Nat → Nat → Option (List PayloadSegment)
  | 0, _ => none
  | fuel + 1, position =>
    let segment := decodePayloadSegment payload position
    if segment.IsLoad ∨ segment.type = payloadSegmentParams then
      (readSegments payload fuel (position + sizeofSegment)).map fun rest => segment :: rest
    else if segment.type = payloadSegmentEntry then some [segment]
    else none

/-- `cbfs_payload_make_elf` up to the writer: the entry point and the sections. -/
def cbfsPayloadMakeElf (codec : Codec) (payload : Memory) (fuel : Nat) :
    Option (Nat × List Section) :=
  (readSegments payload fuel 0).bind fun segs =>
    (cbfsPayloadDecompress codec payload segs).bind fun (segs, memory) =>
      (makeSections memory segs []).map fun sections =>
        (segs.getLast?.elim 0 fun segment => segment.loadAddr, sections)

def noteSection (elf : Elf) (shdr : Shdr) : Section :=
  ⟨".note.pinfo", shtNote, 0, 0, shdr.size.toNat, elf.noteBytes shdr⟩

/-- The sections with the memory of a program header: its bytes, and zeros up to its
size. -/
def imageSections (elf : Elf) (phdr : Phdr) : List Section :=
  let filesz := phdr.filesz.toNat
  let memsz := phdr.memsz.toNat
  let addr := phdr.paddr.toNat
  if phdr.filesz = 0 then
    [⟨".bss", shtNobits, shfAlloc ||| shfWrite, addr, memsz, []⟩]
  else
    (if phdr.flags &&& pfX ≠ 0 then
      ⟨".text", shtProgbits, shfWrite ||| shfAlloc ||| shfExecinstr, addr,
        filesz, elf.fileBytes phdr⟩
    else
      ⟨".data", shtProgbits, shfAlloc ||| shfWrite, addr, filesz, elf.fileBytes phdr⟩) ::
    if memsz - filesz ≠ 0 then
      [⟨".empty", shtNobits, shfWrite ||| shfAlloc,
        (addr + filesz) % 18446744073709551616, memsz - filesz, []⟩]
    else []

/-- The sections of an ELF file that describe the same memory. -/
def exportSections (elf : Elf) : List Section :=
  elf.notes.map (noteSection elf) ++ elf.loads.flatMap (imageSections elf)

def Exported (codec : Codec) (elf : Elf) (payload : Memory) : Prop :=
  ∃ fuel, cbfsPayloadMakeElf codec payload fuel = some (elf.entry.toNat, exportSections elf)

def plainBytes (elf : Elf) : List Byte :=
  elf.notes.flatMap elf.noteBytes ++ elf.loads.flatMap elf.fileBytes

/-- The pieces of a file without compression. -/
def plainPieces (elf : Elf) : List Piece := pieces plainCodec elf

/-- Offsets in records have 32 bits. -/
def PayloadSegment.wrapped (segment : PayloadSegment) : PayloadSegment :=
  { segment with offset := segment.offset % 4294967296 }

def exportImage (elf : Elf) : Memory :=
  let first := sizeofSegment * countSegments elf
  xdrSegs (store (fun _ => 0) first (plainBytes elf))
    ((recordsFrom first (plainPieces elf)).map PayloadSegment.wrapped ++ [entrySegment elf])

/-- The bytes of program headers are at their offsets modulo `2 ^ 32`. -/
def ReadBack (elf : Elf) (memory : Memory) : Nat → List Phdr → Prop
  | _, [] => True
  | offset, phdr :: rest =>
    load memory (offset % 4294967296) phdr.filesz.toNat = elf.fileBytes phdr ∧
      ReadBack elf memory (offset + phdr.filesz.toNat) rest

/-- No program header is without bytes, the bytes are not more than the memory, the
sections are not more than the writer has, and offsets below `2 ^ 32` find the
bytes. -/
structure ExportFits (elf : Elf) : Prop where
  noBss : ∀ phdr ∈ elf.loads, phdr.filesz ≠ 0
  room : (plainBytes elf).length ≤ (elf.loads.map fun phdr => phdr.memsz.toNat).sum
  sections : initialSections + (exportSections elf).length ≤ maxSections
  readBack : ReadBack elf (exportImage elf)
    (sizeofSegment * countSegments elf + (elf.notes.flatMap elf.noteBytes).length) elf.loads

section Reading

variable {payload : Memory} {position : Nat}

theorem readSegments_eq {segs : List PayloadSegment} {last : PayloadSegment}
    (known : ∀ segment ∈ segs, segment.IsLoad ∨ segment.type = payloadSegmentParams)
    (isEntry : last.type = payloadSegmentEntry)
    (records : Records payload position (segs ++ [last])) (fuel : Nat) :
    readSegments payload fuel position =
      if segs.length < fuel then some (segs ++ [last]) else none := by
  induction fuel generalizing segs position with
  | zero => rfl
  | succ fuel ih =>
    cases segs with
    | nil =>
      obtain ⟨decoded, _⟩ := records
      rw [readSegments, decoded, if_neg, if_pos isEntry,
        List.length_nil, if_pos (Nat.succ_pos fuel), List.nil_append]
      rw [PayloadSegment.IsLoad, isEntry]
      decide
    | cons segment rest =>
      obtain ⟨own, others⟩ := List.forall_mem_cons.mp known
      obtain ⟨decoded, records⟩ := records
      rw [readSegments, decoded, if_pos own, ih others records, List.length_cons]
      by_cases enough : rest.length < fuel
      · rw [if_pos enough, if_pos (Nat.succ_lt_succ enough)]
        rfl
      · rw [if_neg enough, if_neg fun bound =>
          enough (Nat.lt_of_succ_lt_succ bound)]
        rfl

end Reading

section Unpacking

variable {codec : Codec} {elf : Elf} {payload : Memory} {limit : Nat}

def unpackedRecord (elf : Elf) (doffset offset : Nat) (phdr : Phdr) : PayloadSegment :=
  { (loadPiece plainCodec elf phdr).segment with
    offset := if phdr.filesz = 0 then doffset else offset % 4294967296 }

def unpackedRecords (codec : Codec) (elf : Elf) : Nat → Nat → List Phdr → List PayloadSegment
  | _, _, [] => []
  | doffset, offset, phdr :: rest =>
    unpackedRecord elf doffset offset phdr ::
      unpackedRecords codec elf
        (doffset + (loadPiece codec elf phdr).segment.len)
        (offset + phdr.filesz.toNat) rest

theorem unpackSegments_append (segs others : List PayloadSegment) (state : Unpacking) :
    unpackSegments codec payload limit (segs ++ others) state =
      (unpackSegments codec payload limit segs state).bind
        (unpackSegments codec payload limit others) := by
  induction segs generalizing state with
  | nil => rfl
  | cons segment rest ih =>
    rw [List.cons_append, unpackSegments, unpackSegments, Option.bind_assoc]
    congr 1
    funext next
    exact ih next

theorem unpackSegment_note {shdr : Shdr} {state : Unpacking}
    (small : shdr.size.toNat < 4294967296)
    (word : state.offset < 4294967296)
    (holds : load payload state.input (notePiece elf shdr).data.length =
      (notePiece elf shdr).data) :
    unpackSegment codec payload limit
        { (notePiece elf shdr).segment with offset := state.offset } state =
      if state.offset + (elf.noteBytes shdr).length ≤ limit then
        some ⟨state.input + shdr.size.toNat, state.offset + shdr.size.toNat,
          store state.memory state.offset (elf.noteBytes shdr),
          state.segs ++ [{ (notePiece elf shdr).segment with offset := state.offset }]⟩
      else none := by
  have length : (elf.noteBytes shdr).length = shdr.size.toNat := length_load _ _ _
  have holds : load payload state.input shdr.size.toNat = elf.noteBytes shdr := length ▸ holds
  have notData : ¬ (payloadSegmentParams = payloadSegmentBss ∨
    payloadSegmentParams = payloadSegmentEntry) := by decide
  rw [notePiece, unpackSegment, length, Nat.mod_eq_of_lt small]
  rw [if_neg (by decide : ¬ 0 > 2), if_neg notData, if_pos rfl]
  rw [Nat.mod_eq_of_lt word, holds]

theorem unpackSegment_load {phdr : Phdr} {state : Unpacking} {doffset : Nat}
    (bounds : phdr.filesz.toNat ≤ phdr.memsz.toNat ∧ phdr.memsz.toNat < 4294967296)
    (below : state.offset ≤ limit)
    (holds : load payload state.input (loadPiece codec elf phdr).data.length =
      (loadPiece codec elf phdr).data) :
    unpackSegment codec payload limit
        { (loadPiece codec elf phdr).segment with offset := doffset } state =
      if state.offset + (elf.fileBytes phdr).length ≤ limit then
        some ⟨state.input + (loadPiece codec elf phdr).segment.len,
          state.offset + phdr.filesz.toNat,
          store state.memory state.offset (elf.fileBytes phdr),
          state.segs ++ [unpackedRecord elf doffset state.offset phdr]⟩
      else none := by
  have length : (elf.fileBytes phdr).length = phdr.filesz.toNat := length_load _ _ _
  by_cases empty : phdr.filesz = 0
  · have none' : elf.fileBytes phdr = [] := by rw [Elf.fileBytes, empty]; rfl
    rw [none', unpackedRecord, loadPiece, loadPiece, if_pos empty, if_pos empty, if_pos empty,
      List.length_nil, Nat.add_zero, if_pos below, empty]
    rfl
  · have known : ¬ (packedBytes codec (elf.fileBytes phdr)).1 > 2 :=
      Nat.not_lt.mpr (packedBytes_algo_le _)
    have memLen : phdr.memsz.toNat % 4294967296 = phdr.memsz.toNat := Nat.mod_eq_of_lt bounds.2
    have plain : packedBytes plainCodec (elf.fileBytes phdr) = (0, elf.fileBytes phdr) := by
      rw [packedBytes]
      exact if_neg (Nat.lt_irrefl _)
    have notData : ¬ ((if phdr.flags &&& pfX ≠ 0 then payloadSegmentCode
        else payloadSegmentData) = payloadSegmentBss ∨
        (if phdr.flags &&& pfX ≠ 0 then payloadSegmentCode
          else payloadSegmentData) = payloadSegmentEntry) := by
      split_ifs <;> decide
    have notParams : ¬ (if phdr.flags &&& pfX ≠ 0 then payloadSegmentCode
        else payloadSegmentData) = payloadSegmentParams := by
      split_ifs <;> decide
    rw [loadPiece, if_neg empty] at holds
    rw [unpackedRecord, loadPiece, loadPiece, if_neg empty, if_neg empty,
      if_neg empty, plain, unpackSegment]
    dsimp only at holds ⊢
    rw [if_neg known, if_neg notData, if_neg notParams, holds,
      decompress_packedBytes, Option.bind_some, length, memLen]
    by_cases inside : state.offset + phdr.filesz.toNat ≤ limit
    · rw [if_pos ⟨bounds.1, inside⟩, if_pos inside]
    · rw [if_neg fun both => inside both.2, if_neg inside]

theorem unpackSegments_notes {notes : List Shdr} {state : Unpacking}
    (small : ∀ shdr ∈ notes, shdr.size.toNat < 4294967296)
    (same : state.input = state.offset) (below : state.offset ≤ limit)
    (word : state.offset + (notes.flatMap elf.noteBytes).length < 4294967296)
    (holds : Holds payload state.offset (notes.map (notePiece elf))) :
    unpackSegments codec payload limit
        (recordsFrom state.offset (notes.map (notePiece elf))) state =
      if state.offset + (notes.flatMap elf.noteBytes).length ≤ limit then
        some ⟨state.offset + (notes.flatMap elf.noteBytes).length,
          state.offset + (notes.flatMap elf.noteBytes).length,
          store state.memory state.offset (notes.flatMap elf.noteBytes),
          state.segs ++ recordsFrom state.offset (notes.map (notePiece elf))⟩
      else none := by
  induction notes generalizing state with
  | nil =>
    obtain ⟨input, offset, memory, segs⟩ := state
    obtain rfl : input = offset := same
    rw [List.flatMap_nil, List.length_nil, Nat.add_zero, if_pos below,
      List.map_nil, recordsFrom, List.append_nil]
    rfl
  | cons shdr rest ih =>
    obtain ⟨own, others⟩ := List.forall_mem_cons.mp small
    obtain ⟨holds, later⟩ := holds
    have length : (elf.noteBytes shdr).length = shdr.size.toNat := length_load _ _ _
    have len : (notePiece elf shdr).segment.len = shdr.size.toNat := Nat.mod_eq_of_lt own
    rw [List.flatMap_cons, List.length_append, length] at word ⊢
    rw [len] at later
    rw [List.map_cons, recordsFrom, unpackSegments,
      unpackSegment_note own (by omega) (same ▸ holds), length, same, len]
    by_cases inside : state.offset + shdr.size.toNat ≤ limit
    · rw [if_pos inside, Option.bind_some, @ih ⟨_, _, _, _⟩ others rfl inside
        (by dsimp only; omega) later]
      rw [← length, store_store_append, length, Nat.add_assoc, List.append_assoc]
      rfl
    · rw [if_neg inside, if_neg (by omega)]
      rfl

theorem unpackSegments_loads {loads : List Phdr} {state : Unpacking}
    (bounds : ∀ phdr ∈ loads, phdr.filesz.toNat ≤ phdr.memsz.toNat ∧ phdr.memsz.toNat < 4294967296)
    (below : state.offset ≤ limit)
    (holds : Holds payload state.input (loads.map (loadPiece codec elf))) :
    unpackSegments codec payload limit
        (recordsFrom state.input (loads.map (loadPiece codec elf))) state =
      if state.offset + (loads.flatMap elf.fileBytes).length ≤ limit then
        some ⟨state.input + dataLength (loads.map (loadPiece codec elf)),
          state.offset + (loads.flatMap elf.fileBytes).length,
          store state.memory state.offset (loads.flatMap elf.fileBytes),
          state.segs ++ unpackedRecords codec elf state.input state.offset loads⟩
      else none := by
  induction loads generalizing state with
  | nil =>
    rw [List.flatMap_nil, List.length_nil, Nat.add_zero, if_pos below,
      unpackedRecords, List.append_nil]
    rfl
  | cons phdr rest ih =>
    obtain ⟨own, others⟩ := List.forall_mem_cons.mp bounds
    obtain ⟨holds, later⟩ := holds
    have length : (elf.fileBytes phdr).length = phdr.filesz.toNat := length_load _ _ _
    rw [List.flatMap_cons, List.length_append, List.map_cons, recordsFrom,
      unpackSegments, unpackSegment_load own below holds, length]
    by_cases inside : state.offset + phdr.filesz.toNat ≤ limit
    · have next := @ih ⟨state.input + (loadPiece codec elf phdr).segment.len,
        state.offset + phdr.filesz.toNat,
        store state.memory state.offset (elf.fileBytes phdr),
        state.segs ++ [unpackedRecord elf state.input state.offset phdr]⟩
        others inside later
      rw [if_pos inside, Option.bind_some, next, ← length, store_store_append, length,
        Nat.add_assoc, Nat.add_assoc, List.append_assoc]
      rfl
    · rw [if_neg inside, if_neg (by omega)]
      rfl

end Unpacking

section NewBuffer

variable {codec : Codec} {elf : Elf} {payload : Memory}

def unpackedSegs (codec : Codec) (elf : Elf) : List PayloadSegment :=
  let first := sizeofSegment * countSegments elf
  let start := first + (elf.notes.flatMap elf.noteBytes).length
  recordsFrom first (elf.notes.map (notePiece elf)) ++
    unpackedRecords codec elf start start elf.loads ++ [entrySegment elf]

theorem memLen_recordsFrom (doffset : Nat) (list : List Piece) :
    ((recordsFrom doffset list).map fun segment => segment.memLen) =
      list.map fun piece => piece.segment.memLen := by
  induction list generalizing doffset with
  | nil => rfl
  | cons piece rest ih => rw [recordsFrom, List.map_cons, ih, List.map_cons]

theorem memLen_loadPiece {phdr : Phdr}
    (bounds : phdr.filesz.toNat ≤ phdr.memsz.toNat ∧ phdr.memsz.toNat < 4294967296) :
    (loadPiece codec elf phdr).segment.memLen = phdr.memsz.toNat := by
  rw [loadPiece]
  split_ifs <;> exact Nat.mod_eq_of_lt bounds.2

theorem sum_memLen (wellFormed : elf.WellFormed) :
    ((pieces codec elf).map fun piece => piece.segment.memLen).sum =
      (elf.loads.map fun phdr => phdr.memsz.toNat).sum := by
  have notes : ((elf.notes.map (notePiece elf)).map fun piece => piece.segment.memLen).sum = 0 := by
    induction elf.notes with
    | nil => rfl
    | cons shdr rest ih => exact (Nat.zero_add _).trans ih
  have loads : (elf.loads.map (loadPiece codec elf)).map
      (fun piece => piece.segment.memLen) = elf.loads.map fun phdr => phdr.memsz.toNat := by
    rw [List.map_map]
    exact List.map_congr_left fun phdr member =>
      memLen_loadPiece (wellFormed phdr member)
  rw [pieces, List.map_append, List.sum_append, notes, loads, Nat.zero_add]

theorem notes_small {limit doffset : Nat} {notes : List Shdr} {others : List Piece}
    (bound : limit < 4294967296) (start : doffset < 4294967296)
    (fit : PiecesFit limit doffset (notes.map (notePiece elf) ++ others)) :
    (∀ shdr ∈ notes, shdr.size.toNat < 4294967296) ∧
      doffset + (notes.flatMap elf.noteBytes).length < 4294967296 := by
  induction notes generalizing doffset with
  | nil => exact ⟨List.forall_mem_nil _, start⟩
  | cons shdr rest ih =>
    obtain ⟨inside, _, fit⟩ := fit
    have length : (elf.noteBytes shdr).length = shdr.size.toNat := length_load _ _ _
    have data : (notePiece elf shdr).data.length = shdr.size.toNat := length
    rw [data] at inside
    have small : shdr.size.toNat < 4294967296 := by omega
    have len : (notePiece elf shdr).segment.len = shdr.size.toNat := Nat.mod_eq_of_lt small
    rw [len] at fit
    obtain ⟨others, sum⟩ := ih (by omega) fit
    rw [List.flatMap_cons, List.length_append, length, ← Nat.add_assoc]
    exact ⟨List.forall_mem_cons.mpr ⟨small, others⟩, sum⟩

theorem dataLength_notes {notes : List Shdr}
    (small : ∀ shdr ∈ notes, shdr.size.toNat < 4294967296) :
    dataLength (notes.map (notePiece elf)) = (notes.flatMap elf.noteBytes).length := by
  induction notes with
  | nil => rfl
  | cons shdr rest ih =>
    obtain ⟨own, others⟩ := List.forall_mem_cons.mp small
    have length : (elf.noteBytes shdr).length = shdr.size.toNat := length_load _ _ _
    have len : (notePiece elf shdr).segment.len = shdr.size.toNat := Nat.mod_eq_of_lt own
    rw [dataLength] at ih
    rw [List.flatMap_cons, List.length_append, ← ih others, dataLength,
      List.map_cons, List.map_cons, List.sum_cons, len, length]

theorem cbfsPayloadDecompress_eq (wellFormed : elf.WellFormed)
    (small : ∀ shdr ∈ elf.notes, shdr.size.toNat < 4294967296)
    (word : sizeofSegment * countSegments elf +
      (elf.notes.flatMap elf.noteBytes).length < 4294967296)
    (holds : Holds payload (sizeofSegment * countSegments elf) (pieces codec elf)) :
    cbfsPayloadDecompress codec payload
        (recordsFrom (sizeofSegment * countSegments elf) (pieces codec elf) ++ [entrySegment elf]) =
      if (plainBytes elf).length ≤ (elf.loads.map fun phdr => phdr.memsz.toNat).sum then
        some (unpackedSegs codec elf,
          xdrSegs (store (fun _ => 0) (sizeofSegment * countSegments elf)
            (plainBytes elf)) (unpackedSegs codec elf))
      else none := by
  have length : (recordsFrom (sizeofSegment * countSegments elf)
      (pieces codec elf) ++ [entrySegment elf]).length = countSegments elf := by
    rw [List.length_append, length_recordsFrom, ← length_pieces codec]
    rfl
  have limit : ((recordsFrom (sizeofSegment * countSegments elf)
      (pieces codec elf) ++ [entrySegment elf]).map fun segment => segment.memLen).sum =
      (elf.loads.map fun phdr => phdr.memsz.toNat).sum := by
    rw [List.map_append, List.sum_append, memLen_recordsFrom, sum_memLen wellFormed]
    rfl
  rw [cbfsPayloadDecompress, length, limit]
  generalize (elf.loads.map fun phdr => phdr.memsz.toNat).sum = memory
  generalize first_eq : sizeofSegment * countSegments elf = first at *
  rw [pieces, holds_append, dataLength_notes small] at holds
  rw [pieces, recordsFrom_append, dataLength_notes small, List.append_assoc,
    unpackSegments_append, plainBytes, List.length_append]
  have notes := @unpackSegments_notes codec elf payload (first + memory)
    elf.notes ⟨first, first, fun _ => 0, []⟩ small rfl (Nat.le_add_right _ _)
    word holds.1
  rw [notes]
  by_cases inside : first + (elf.notes.flatMap elf.noteBytes).length ≤ first + memory
  · have loads := @unpackSegments_loads codec elf payload (first + memory)
      elf.loads ⟨first + (elf.notes.flatMap elf.noteBytes).length,
        first + (elf.notes.flatMap elf.noteBytes).length,
        store (fun _ => 0) first (elf.notes.flatMap elf.noteBytes),
        [] ++ recordsFrom first (elf.notes.map (notePiece elf))⟩
      wellFormed inside holds.2
    rw [if_pos inside, Option.bind_some, unpackSegments_append, loads, store_store_append]
    by_cases room : first + (elf.notes.flatMap elf.noteBytes).length +
        (elf.loads.flatMap elf.fileBytes).length ≤ first + memory
    · rw [if_pos room, if_pos (by omega), Option.bind_some, unpackedSegs, first_eq]
      rfl
    · rw [if_neg room, if_neg (by omega)]
      rfl
  · rw [if_neg inside, if_neg (by omega)]
    rfl

end NewBuffer

section Sections

variable {elf : Elf} {memory : Memory}

theorem addSections_eq {list sections : List Section}
    (room : initialSections + sections.length ≤ maxSections) :
    addSections list sections =
      if initialSections + (sections ++ list).length ≤ maxSections then
        some (sections ++ list)
      else none := by
  induction list generalizing sections with
  | nil => rw [List.append_nil, if_pos room, addSections]
  | cons added rest ih =>
    rw [addSections, elfWriterAddSection]
    by_cases full : initialSections + sections.length = maxSections
    · rw [if_pos full, if_neg]
      · rfl
      · rw [List.length_append, List.length_cons]
        omega
    · have next : initialSections + (sections ++ [added]).length ≤ maxSections := by
        rw [List.length_append, List.length_singleton]
        omega
      rw [if_neg full, Option.bind_some, ih next, List.append_assoc]
      rfl

theorem addSections_append (list others sections : List Section) :
    addSections (list ++ others) sections =
      (addSections list sections).bind (addSections others) := by
  induction list generalizing sections with
  | nil => rfl
  | cons added rest ih =>
    rw [List.cons_append, addSections, addSections, Option.bind_assoc]
    congr 1
    funext next
    exact ih next

theorem makeSections_eq {segs : List PayloadSegment} {last : PayloadSegment}
    (inner : ∀ segment ∈ segs, segment.type ≠ payloadSegmentEntry)
    (isEntry : last.type = payloadSegmentEntry) (sections : List Section) :
    makeSections memory (segs ++ [last]) sections =
      addSections (segs.flatMap (segmentSections memory)) sections := by
  induction segs generalizing sections with
  | nil => exact if_pos isEntry
  | cons segment rest ih =>
    obtain ⟨own, others⟩ := List.forall_mem_cons.mp inner
    rw [List.cons_append, makeSections, if_neg own, List.flatMap_cons, addSections_append]
    congr 1
    funext next
    exact ih others next

theorem flatMap_segmentSections_notes {notes : List Shdr} {doffset : Nat}
    (small : ∀ shdr ∈ notes, shdr.size.toNat < 4294967296)
    (holds : Holds memory doffset (notes.map (notePiece elf))) :
    (recordsFrom doffset (notes.map (notePiece elf))).flatMap
        (segmentSections memory) = notes.map (noteSection elf) := by
  induction notes generalizing doffset with
  | nil => rfl
  | cons shdr rest ih =>
    obtain ⟨own, others⟩ := List.forall_mem_cons.mp small
    obtain ⟨holds, later⟩ := holds
    have length : (elf.noteBytes shdr).length = shdr.size.toNat := length_load _ _ _
    have len : (notePiece elf shdr).segment.len = shdr.size.toNat := Nat.mod_eq_of_lt own
    have holds : load memory doffset shdr.size.toNat = elf.noteBytes shdr := length ▸ holds
    have single : segmentSections memory
        { (notePiece elf shdr).segment with offset := doffset } = [noteSection elf shdr] := by
      rw [segmentSections, len, holds]
      rfl
    rw [List.map_cons, List.map_cons, recordsFrom, List.flatMap_cons,
      ih others later, single, List.singleton_append]

theorem plain_packed (phdr : Phdr) : packedBytes plainCodec (elf.fileBytes phdr) =
        (0, elf.fileBytes phdr) := by
      rw [packedBytes]
      exact if_neg (Nat.lt_irrefl _)

variable {phdr : Phdr}

theorem unpackedRecord_of_ne (bytes : phdr.filesz ≠ 0)
    (bounds : phdr.filesz.toNat ≤ phdr.memsz.toNat ∧ phdr.memsz.toNat < 4294967296)
    (doffset offset : Nat) :
    unpackedRecord elf doffset offset phdr =
      ⟨if phdr.flags &&& pfX ≠ 0 then payloadSegmentCode
        else payloadSegmentData, 0, offset % 4294967296, phdr.paddr.toNat,
        phdr.filesz.toNat, phdr.memsz.toNat⟩ := by
  have length : (elf.fileBytes phdr).length = phdr.filesz.toNat := length_load _ _ _
  rw [unpackedRecord, loadPiece, if_neg bytes, if_neg bytes, plain_packed,
    Nat.mod_eq_of_lt bounds.2]
  dsimp only
  rw [length]

theorem unpackedRecord_of_eq (empty : phdr.filesz = 0) (doffset offset : Nat) :
    unpackedRecord elf doffset offset phdr =
      ⟨payloadSegmentBss, 0, doffset, phdr.paddr.toNat, 0, phdr.memsz.toNat % 4294967296⟩ := by
  rw [unpackedRecord, loadPiece, if_pos empty, if_pos empty]

theorem segmentSections_unpackedRecord_of_ne (bytes : phdr.filesz ≠ 0)
    (bounds : phdr.filesz.toNat ≤ phdr.memsz.toNat ∧ phdr.memsz.toNat < 4294967296)
    (doffset offset : Nat) :
    segmentSections memory (unpackedRecord elf doffset offset phdr) =
      (imageSections elf phdr).modifyHead fun header =>
        { header with
          content := load memory (offset % 4294967296) phdr.filesz.toNat } := by
  rw [unpackedRecord_of_ne bytes bounds, segmentSections, imageSections, if_neg bytes]
  by_cases code : phdr.flags &&& pfX ≠ 0
  · rw [if_pos code, if_pos code]
    rfl
  · rw [if_neg code, if_neg code]
    rfl

theorem length_segmentSections_unpackedRecord
    (bounds : phdr.filesz.toNat ≤ phdr.memsz.toNat ∧ phdr.memsz.toNat < 4294967296)
    (doffset offset : Nat) :
    (segmentSections memory (unpackedRecord elf doffset offset phdr)).length =
      (imageSections elf phdr).length := by
  by_cases empty : phdr.filesz = 0
  · rw [unpackedRecord_of_eq empty, imageSections, if_pos empty]
    rfl
  · rw [segmentSections_unpackedRecord_of_ne empty bounds, List.length_modifyHead]

theorem segmentSections_unpackedRecord_iff {phdr : Phdr}
    (bounds : phdr.filesz.toNat ≤ phdr.memsz.toNat ∧ phdr.memsz.toNat < 4294967296)
    (nonempty : phdr.memsz ≠ 0) (doffset offset : Nat) :
    segmentSections memory (unpackedRecord elf doffset offset phdr) = imageSections elf phdr ↔
      phdr.filesz ≠ 0 ∧
        load memory (offset % 4294967296) phdr.filesz.toNat = elf.fileBytes phdr := by
  by_cases empty : phdr.filesz = 0
  · refine iff_of_false (fun same => ?_) fun both => both.1 empty
    rw [unpackedRecord_of_eq empty, imageSections, if_pos empty] at same
    have size := congrArg Section.size (List.cons.inj same).1
    exact nonempty (BitVec.eq_of_toNat_eq size.symm)
  · rw [segmentSections_unpackedRecord_of_ne empty bounds, imageSections, if_neg empty,
      List.modifyHead_cons, List.cons_eq_cons, and_iff_left rfl, and_iff_right empty]
    constructor
    · intro same
      have content := congrArg Section.content same
      split_ifs at content <;> exact content
    · intro content
      rw [content]
      split_ifs <;> rfl

/-- The sections of the program headers are right exactly if none is without bytes
and all bytes are read back. -/
theorem flatMap_segmentSections_loads_iff {codec : Codec} {loads : List Phdr}
    (bounds : ∀ phdr ∈ loads, phdr.filesz.toNat ≤ phdr.memsz.toNat ∧ phdr.memsz.toNat < 4294967296)
    (nonempty : ∀ phdr ∈ loads, phdr.memsz ≠ 0) (doffset offset : Nat) :
    (unpackedRecords codec elf doffset offset loads).flatMap
        (segmentSections memory) = loads.flatMap (imageSections elf) ↔
      (∀ phdr ∈ loads, phdr.filesz ≠ 0) ∧ ReadBack elf memory offset loads := by
  induction loads generalizing doffset offset with
  | nil =>
    exact iff_of_true rfl ⟨List.forall_mem_nil _, trivial⟩
  | cons phdr rest ih =>
    obtain ⟨bound, bounds⟩ := List.forall_mem_cons.mp bounds
    obtain ⟨own, others⟩ := List.forall_mem_cons.mp nonempty
    have own := @segmentSections_unpackedRecord_iff elf memory phdr bound own doffset offset
    have rest' := ih bounds others
      (doffset + (loadPiece codec elf phdr).segment.len)
      (offset + phdr.filesz.toNat)
    rw [unpackedRecords, List.flatMap_cons, List.flatMap_cons, List.forall_mem_cons, ReadBack]
    constructor
    · intro same
      obtain ⟨first, later⟩ := List.append_inj same
        (length_segmentSections_unpackedRecord bound doffset offset)
      obtain ⟨bytes, back⟩ := own.mp first
      obtain ⟨all, backs⟩ := rest'.mp later
      exact ⟨⟨bytes, all⟩, back, backs⟩
    · rintro ⟨⟨bytes, all⟩, back, backs⟩
      rw [own.mpr ⟨bytes, back⟩, rest'.mpr ⟨all, backs⟩]

end Sections

section RoundTrip

variable {codec : Codec} {elf : Elf} {payload : Memory}

def newBuffer (codec : Codec) (elf : Elf) : Memory :=
  xdrSegs (store (fun _ => 0) (sizeofSegment * countSegments elf)
    (plainBytes elf)) (unpackedSegs codec elf)

def newSections (codec : Codec) (elf : Elf) : List Section :=
  let start := sizeofSegment * countSegments elf + (elf.notes.flatMap elf.noteBytes).length
  elf.notes.map (noteSection elf) ++
    (unpackedRecords codec elf start start elf.loads).flatMap
      (segmentSections (newBuffer codec elf))

theorem holds_store {list : List Piece} {memory : Memory} {base : Nat}
    (exactly : ∀ piece ∈ list, piece.data.length = piece.segment.len) (others : List Byte) :
    Holds (store memory base ((list.flatMap fun piece => piece.data) ++ others)) base list := by
  induction list generalizing base with
  | nil => trivial
  | cons piece rest ih =>
    obtain ⟨own, later⟩ := List.forall_mem_cons.mp exactly
    rw [List.flatMap_cons, List.append_assoc, store_append]
    refine ⟨load_store_self _ base piece.data, ?_⟩
    rw [← own]
    exact (ih later).congr fun address above =>
      store_of_outside (.inr above)

theorem length_unpackedRecords (doffset offset : Nat) (loads : List Phdr) :
    (unpackedRecords codec elf doffset offset loads).length = loads.length := by
  induction loads generalizing doffset offset with
  | nil => rfl
  | cons phdr rest ih =>
    rw [unpackedRecords, List.length_cons, ih, List.length_cons]

theorem length_unpackedSegs (codec : Codec) (elf : Elf) :
    (unpackedSegs codec elf).length = countSegments elf := by
  rw [unpackedSegs, List.length_append, List.length_append, length_recordsFrom,
    length_unpackedRecords, List.length_map, List.length_singleton, countSegments]
  omega

theorem holds_newBuffer (small : ∀ shdr ∈ elf.notes, shdr.size.toNat < 4294967296) :
    Holds (newBuffer codec elf) (sizeofSegment * countSegments elf)
      (elf.notes.map (notePiece elf)) := by
  have exactly : ∀ piece ∈ elf.notes.map (notePiece elf),
      piece.data.length = piece.segment.len := by
    intro piece member
    obtain ⟨shdr, present, rfl⟩ := List.mem_map.mp member
    exact (length_load _ _ _).trans (Nat.mod_eq_of_lt (small shdr present)).symm
  have bytes : (elf.notes.map (notePiece elf)).flatMap
      (fun piece => piece.data) = elf.notes.flatMap elf.noteBytes := by
    rw [List.flatMap_map]
    rfl
  have stored := @holds_store _ (fun _ => 0)
    (sizeofSegment * countSegments elf) exactly
    (elf.loads.flatMap elf.fileBytes)
  rw [bytes] at stored
  refine stored.congr fun address above => store_of_outside (.inr ?_)
  rw [length_flatMap_encodeSegment, length_unpackedSegs, Nat.zero_add]
  exact above

theorem unpackedRecords_ne_entry (doffset offset : Nat) (loads : List Phdr) :
    ∀ segment ∈ unpackedRecords codec elf doffset offset loads,
      segment.type ≠ payloadSegmentEntry := by
  induction loads generalizing doffset offset with
  | nil => exact List.forall_mem_nil _
  | cons phdr rest ih =>
    refine List.forall_mem_cons.mpr ⟨?_, ih _ _⟩
    rw [unpackedRecord]
    rcases @isLoad_loadPiece plainCodec elf phdr with type | type | type
    all_goals
      rw [type]
      decide

theorem cbfsPayloadMakeElf_eq (wellFormed : elf.WellFormed)
    (small : ∀ shdr ∈ elf.notes, shdr.size.toNat < 4294967296)
    (word : sizeofSegment * countSegments elf +
      (elf.notes.flatMap elf.noteBytes).length < 4294967296) (records : Records payload 0
      (recordsFrom (sizeofSegment * countSegments elf) (pieces codec elf) ++ [entrySegment elf]))
    (holds : Holds payload (sizeofSegment * countSegments elf) (pieces codec elf)) (fuel : Nat) :
    cbfsPayloadMakeElf codec payload fuel =
      if (pieces codec elf).length < fuel ∧
          (plainBytes elf).length ≤ (elf.loads.map fun phdr => phdr.memsz.toNat).sum ∧
          initialSections + (newSections codec elf).length ≤ maxSections then
        some (elf.entry.toNat, newSections codec elf)
      else none := by
  have known : ∀ segment ∈ recordsFrom (sizeofSegment * countSegments elf)
      (pieces codec elf),
      segment.IsLoad ∨ segment.type = payloadSegmentParams := by
    rw [pieces, recordsFrom_append]
    exact List.forall_mem_append.mpr
      ⟨fun segment member => .inr (params_recordsFrom elf.notes segment member),
        fun segment member => .inl (isLoad_recordsFrom elf.loads segment member)⟩
  have inner : ∀ segment ∈ recordsFrom (sizeofSegment * countSegments elf)
      (elf.notes.map (notePiece elf)) ++ unpackedRecords codec elf
        (sizeofSegment * countSegments elf + (elf.notes.flatMap elf.noteBytes).length)
        (sizeofSegment * countSegments elf + (elf.notes.flatMap elf.noteBytes).length) elf.loads,
      segment.type ≠ payloadSegmentEntry := by
    refine List.forall_mem_append.mpr ⟨fun segment member => ?_,
      unpackedRecords_ne_entry _ _ elf.loads⟩
    rw [params_recordsFrom elf.notes segment member]
    decide
  rw [cbfsPayloadMakeElf, readSegments_eq known rfl records, length_recordsFrom]
  by_cases enough : (pieces codec elf).length < fuel
  · rw [if_pos enough, Option.bind_some, cbfsPayloadDecompress_eq wellFormed small word holds]
    by_cases room : (plainBytes elf).length ≤ (elf.loads.map fun phdr => phdr.memsz.toNat).sum
    · have made := @makeSections_eq (newBuffer codec elf) _ _ inner
        (rfl : (entrySegment elf).type = payloadSegmentEntry) []
      rw [List.flatMap_append, flatMap_segmentSections_notes small
        (holds_newBuffer small), addSections_eq (by decide),
        List.nil_append] at made
      have made : makeSections (newBuffer codec elf) (unpackedSegs codec elf)
          [] = if initialSections + (newSections codec elf).length ≤ maxSections
            then some (newSections codec elf) else none := made
      have last : (unpackedSegs codec elf).getLast? = some (entrySegment elf) :=
        List.getLast?_concat
      rw [newBuffer] at made
      rw [if_pos room, Option.bind_some]
      dsimp only
      rw [made, last]
      by_cases few : initialSections + (newSections codec elf).length ≤ maxSections
      · rw [if_pos few, if_pos ⟨enough, room, few⟩]
        rfl
      · rw [if_neg few, if_neg fun all => few all.2.2]
        rfl
    · rw [if_neg room, if_neg fun all => room all.2.1]
      rfl
  · rw [if_neg enough, if_neg fun all => enough all.1]
    rfl

theorem wrapped_of_inRange {segment : PayloadSegment}
    (range : segment.InRange) : segment.wrapped = segment := by
  rw [PayloadSegment.wrapped, Nat.mod_eq_of_lt range.2.2.1]

/-- Without a program header without bytes, only the offset of a record depends on
the records before it. -/
theorem unpackedRecords_of_noBss {loads : List Phdr}
    (noBss : ∀ phdr ∈ loads, phdr.filesz ≠ 0) (doffset offset : Nat) :
    unpackedRecords codec elf doffset offset loads =
      (recordsFrom offset (loads.map (loadPiece plainCodec elf))).map PayloadSegment.wrapped := by
  induction loads generalizing doffset offset with
  | nil => rfl
  | cons phdr rest ih =>
    obtain ⟨own, others⟩ := List.forall_mem_cons.mp noBss
    have length : (elf.fileBytes phdr).length = phdr.filesz.toNat := length_load _ _ _
    have len : (loadPiece plainCodec elf phdr).segment.len = phdr.filesz.toNat := by
      rw [loadPiece, if_neg own, plain_packed]
      exact length
    rw [unpackedRecords, ih others, List.map_cons, recordsFrom, len,
      List.map_cons, unpackedRecord, if_neg own]
    rfl

theorem newBuffer_eq_exportImage {limit : Nat}
    (fit : PiecesFit limit (sizeofSegment * countSegments elf) (elf.notes.map (notePiece elf)))
    (small : ∀ shdr ∈ elf.notes, shdr.size.toNat < 4294967296)
    (noBss : ∀ phdr ∈ elf.loads, phdr.filesz ≠ 0) : newBuffer codec elf = exportImage elf := by
  have range : ∀ segment ∈ recordsFrom (sizeofSegment * countSegments elf)
      (elf.notes.map (notePiece elf)), segment.InRange := by
    refine inRange_recordsFrom (fun piece member => ?_) fit
    obtain ⟨shdr, _, rfl⟩ := List.mem_map.mp member
    exact inRange_notePiece shdr
  have notes : (recordsFrom (sizeofSegment * countSegments elf)
      (elf.notes.map (notePiece elf))).map PayloadSegment.wrapped =
        recordsFrom (sizeofSegment * countSegments elf) (elf.notes.map (notePiece elf)) :=
    (List.map_congr_left fun segment member =>
      wrapped_of_inRange (range segment member)).trans (List.map_id _)
  rw [newBuffer, exportImage, unpackedSegs, plainPieces, pieces, recordsFrom_append,
    dataLength_notes small, List.map_append, notes, unpackedRecords_of_noBss noBss]

theorem piecesFit_left {limit doffset : Nat} {list others : List Piece}
    (fit : PiecesFit limit doffset (list ++ others)) : PiecesFit limit doffset list := by
  induction list generalizing doffset with
  | nil => trivial
  | cons piece rest ih => exact ⟨fit.1, fit.2.1, ih fit.2.2⟩

structure Made (codec : Codec) (elf : Elf) (payload : Memory) : Prop where
  records : Records payload 0
    (recordsFrom (sizeofSegment * countSegments elf) (pieces codec elf) ++ [entrySegment elf])
  holds : Holds payload (sizeofSegment * countSegments elf) (pieces codec elf)
  small : ∀ shdr ∈ elf.notes, shdr.size.toNat < 4294967296
  word : sizeofSegment * countSegments elf + (elf.notes.flatMap elf.noteBytes).length < 4294967296
  image : (∀ phdr ∈ elf.loads, phdr.filesz ≠ 0) → newBuffer codec elf = exportImage elf

theorem made_of_parsed {size : Nat} (wellFormed : elf.WellFormed)
    (parsed : parseElfToPayload codec elf = some (payload, size)) : Made codec elf payload := by
  have counted : 0 ≤ countSize elf := by
    by_contra negative
    rw [parseElfToPayload, if_pos (Int.not_le.mp negative)] at parsed
    cases parsed
  have run := parsed
  rw [parseElfToPayload_eq counted] at run
  obtain ⟨final, emitted, _⟩ := Option.map_eq_some_iff.mp run
  have fit := piecesFit_of_emitPieces emitted
  obtain ⟨other, size', parsed', _, records, holds⟩ := exists_payload wellFormed counted fit
  obtain rfl : other = payload := (Prod.mk.inj (Option.some.inj (parsed'.symm.trans parsed))).1
  have bound := limit_lt elf
  obtain ⟨small, word⟩ := notes_small bound (by dsimp only; omega) fit
  exact ⟨records, holds, small, word, newBuffer_eq_exportImage (piecesFit_left fit) small⟩

section

variable (made : Made codec elf payload)
include made

theorem Made.sections_iff (wellFormed : elf.WellFormed) :
    newSections codec elf = exportSections elf ↔
      (∀ phdr ∈ elf.loads, phdr.filesz ≠ 0) ∧
        ReadBack elf (exportImage elf)
          (sizeofSegment * countSegments elf +
            (elf.notes.flatMap elf.noteBytes).length) elf.loads := by
  have nonempty : ∀ phdr ∈ elf.loads, phdr.memsz ≠ 0 := fun phdr member =>
    (of_decide_eq_true (List.mem_filter.mp member).2).2
  have loads := @flatMap_segmentSections_loads_iff elf
    (newBuffer codec elf) codec elf.loads wellFormed nonempty
    (sizeofSegment * countSegments elf + (elf.notes.flatMap elf.noteBytes).length)
    (sizeofSegment * countSegments elf + (elf.notes.flatMap elf.noteBytes).length)
  rw [newSections, exportSections, List.append_cancel_left_eq, loads]
  exact and_congr_right fun noBss => by rw [made.image noBss]

theorem Made.fits (wellFormed : elf.WellFormed) (exported : Exported codec elf payload) :
    ExportFits elf := by
  obtain ⟨fuel, exported⟩ := exported
  rw [cbfsPayloadMakeElf_eq wellFormed made.small made.word made.records made.holds] at exported
  split_ifs at exported with all
  have same := (Prod.mk.inj (Option.some.inj exported)).2
  obtain ⟨noBss, readBack⟩ := (made.sections_iff wellFormed).mp same
  rw [same] at all
  exact ⟨noBss, all.2.1, all.2.2, readBack⟩

theorem Made.exported (wellFormed : elf.WellFormed) (fits : ExportFits elf) :
    Exported codec elf payload := by
  obtain ⟨noBss, room, few, readBack⟩ := fits
  have same := (made.sections_iff wellFormed).mpr ⟨noBss, readBack⟩
  refine ⟨(pieces codec elf).length + 1, ?_⟩
  rw [cbfsPayloadMakeElf_eq wellFormed made.small made.word made.records
    made.holds, same, if_pos ⟨Nat.lt_succ_self _, room, few⟩]

end

theorem readBack_of_lt {loads : List Phdr} {memory : Memory} {offset : Nat}
    (holds : Holds memory offset (loads.map (loadPiece plainCodec elf)))
    (noBss : ∀ phdr ∈ loads, phdr.filesz ≠ 0)
    (small : offset + (loads.flatMap elf.fileBytes).length ≤ 4294967296) :
    ReadBack elf memory offset loads := by
  induction loads generalizing offset with
  | nil => trivial
  | cons phdr rest ih =>
    obtain ⟨own, others⟩ := List.forall_mem_cons.mp noBss
    obtain ⟨holds, later⟩ := holds
    have length : (elf.fileBytes phdr).length = phdr.filesz.toNat := length_load _ _ _
    have positive : phdr.filesz.toNat ≠ 0 := fun zero =>
      own (BitVec.eq_of_toNat_eq zero)
    have piece : (loadPiece plainCodec elf phdr).segment.len =
        phdr.filesz.toNat ∧ (loadPiece plainCodec elf phdr).data = elf.fileBytes phdr := by
      rw [loadPiece, if_neg own, plain_packed]
      exact ⟨length, rfl⟩
    rw [List.flatMap_cons, List.length_append, length] at small
    rw [piece.2, length] at holds
    rw [piece.1] at later
    refine ⟨?_, ih later others (by omega)⟩
    rw [Nat.mod_eq_of_lt (by omega)]
    exact holds

theorem holds_exportImage (noBss : ∀ phdr ∈ elf.loads, phdr.filesz ≠ 0) :
    Holds (exportImage elf) (sizeofSegment * countSegments elf +
        (elf.notes.flatMap elf.noteBytes).length)
      (elf.loads.map (loadPiece plainCodec elf)) := by
  have pieces' : ∀ phdr ∈ elf.loads,
      (loadPiece plainCodec elf phdr).data = elf.fileBytes phdr ∧
        (loadPiece plainCodec elf phdr).data.length =
          (loadPiece plainCodec elf phdr).segment.len := by
    intro phdr member
    rw [loadPiece, if_neg (noBss phdr member), plain_packed]
    exact ⟨rfl, rfl⟩
  have exactly : ∀ piece ∈ elf.loads.map (loadPiece plainCodec elf),
      piece.data.length = piece.segment.len := by
    intro piece member
    obtain ⟨phdr, present, rfl⟩ := List.mem_map.mp member
    exact (pieces' phdr present).2
  have bytes : (elf.loads.map (loadPiece plainCodec elf)).flatMap
      (fun piece => piece.data) = elf.loads.flatMap elf.fileBytes := by
    rw [List.flatMap_map]
    exact List.flatMap_congr fun phdr member => (pieces' phdr member).1
  have stored := @holds_store _ (fun _ => 0)
    (sizeofSegment * countSegments elf + (elf.notes.flatMap elf.noteBytes).length) exactly []
  rw [bytes, List.append_nil] at stored
  refine stored.congr fun address above => ?_
  rw [exportImage, xdrSegs, store_of_outside, plainBytes, store_append,
    store_of_outside (.inr above)]
  rw [length_flatMap_encodeSegment, List.length_append, List.length_map, length_recordsFrom,
    plainPieces, List.length_singleton, length_pieces, Nat.zero_add]
  exact .inr ((Nat.le_add_right _ _).trans above)

theorem readBack_exportImage (noBss : ∀ phdr ∈ elf.loads, phdr.filesz ≠ 0)
    (small : sizeofSegment * countSegments elf + (plainBytes elf).length ≤ 4294967296) :
    ReadBack elf (exportImage elf) (sizeofSegment * countSegments elf +
      (elf.notes.flatMap elf.noteBytes).length) elf.loads := by
  refine readBack_of_lt (holds_exportImage noBss) noBss ?_
  rw [plainBytes, List.length_append] at small
  omega

theorem roundElf_shnum : ([⟨0, 0, 12⟩, ⟨0, 2, 3⟩] : List Shdr).length < 65536 := by decide

/-- A file with a note section and a program header with zeros behind its bytes. -/
def roundElf : Elf where
  data := fun address => notePinfo.getD address 0
  entry := 0x100000
  shstrndx := 0
  phdrs := [⟨1, 5, 4, 0x100000, 4, 8⟩]
  shdrs := [⟨0, 0, 12⟩, ⟨0, 2, 3⟩]
  phnum_lt := by decide
  shnum_lt := roundElf_shnum

end RoundTrip

end Coreboot.Payload
