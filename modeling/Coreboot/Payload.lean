import Coreboot.ByteMemory
import Mathlib.Data.List.Forall2

/-!
# Payloads from ELF files

The host tool turns the note sections and the program headers of an ELF file into a payload:
records of 28 bytes, and the data behind them.
-/

namespace Coreboot.Payload

open ByteMemory

/-- The fields of a program header that are used. -/
structure Phdr where
  type : BitVec 32
  flags : BitVec 32
  offset : BitVec 64
  paddr : BitVec 64
  filesz : BitVec 64
  memsz : BitVec 64

/-- The fields of a section header that are used. -/
structure Shdr where
  name : BitVec 32
  offset : BitVec 64
  size : BitVec 64

/-- An ELF file with its parsed headers, which are counted in 16 bits. -/
structure Elf where
  data : Memory
  entry : BitVec 64
  shstrndx : Nat
  phdrs : List Phdr
  shdrs : List Shdr
  phnum_lt : phdrs.length < 65536
  shnum_lt : shdrs.length < 65536

def ptLoad : BitVec 32 := 1
def pfX : BitVec 32 := 1

/-- The bytes of the string `.note.pinfo`. -/
def notePinfo : List Byte := [0x2e, 0x6e, 0x6f, 0x74, 0x65, 0x2e, 0x70, 0x69, 0x6e, 0x66, 0x6f, 0]

namespace Elf

/-- The offset of the section names. -/
def strtab (elf : Elf) : Nat := (elf.shdrs[elf.shstrndx]?).elim 0 fun shdr => shdr.offset.toNat

def IsPinfo (elf : Elf) (shdr : Shdr) : Prop :=
  load elf.data (elf.strtab + shdr.name.toNat) 12 = notePinfo

instance (elf : Elf) (shdr : Shdr) : Decidable (elf.IsPinfo shdr) :=
  inferInstanceAs (Decidable (_ = _))

/-- The sections that a payload keeps. -/
def notes (elf : Elf) : List Shdr :=
  (elf.shdrs.zipIdx.filter fun numbered =>
    numbered.2 ≠ elf.shstrndx ∧ numbered.1.size ≠ 0 ∧ elf.IsPinfo numbered.1).map Prod.fst

/-- The program headers that a payload keeps. -/
def loads (elf : Elf) : List Phdr :=
  elf.phdrs.filter fun phdr => phdr.type = ptLoad ∧ phdr.memsz ≠ 0

def fileBytes (elf : Elf) (phdr : Phdr) : List Byte :=
  load elf.data phdr.offset.toNat phdr.filesz.toNat

def noteBytes (elf : Elf) (shdr : Shdr) : List Byte :=
  load elf.data shdr.offset.toNat shdr.size.toNat

/-- A file has no more bytes than memory, and sizes are numbers of 32 bits. -/
def WellFormed (elf : Elf) : Prop :=
  ∀ phdr ∈ elf.loads, phdr.filesz.toNat ≤ phdr.memsz.toNat ∧ phdr.memsz.toNat < 4294967296

instance (elf : Elf) : Decidable elf.WellFormed :=
  inferInstanceAs (Decidable (∀ phdr ∈ elf.loads, _))

end Elf

/-- A compressor that may fail, and a decompressor that inverts it.  The algorithm
0 stands for bytes that are not compressed, and 2 is the last one. -/
structure Codec where
  algo : Nat
  compress : List Byte → Option (List Byte)
  decompress : Nat → List Byte → Option (List Byte)
  algo_le : algo ≤ 2
  inverts : ∀ bytes packed, compress bytes = some packed → decompress algo packed = some bytes
  raw : ∀ bytes, decompress 0 bytes = some bytes

def payloadSegmentCode : Nat := 0x434f4445
def payloadSegmentData : Nat := 0x44415441
def payloadSegmentBss : Nat := 0x42535320
def payloadSegmentParams : Nat := 0x50415241
def payloadSegmentEntry : Nat := 0x454e5452

structure PayloadSegment where
  type : Nat
  compression : Nat
  offset : Nat
  loadAddr : Nat
  len : Nat
  memLen : Nat
deriving DecidableEq, Repr

def sizeofSegment : Nat := 28

/-- A record of `xdr_segs`. -/
def encodeSegment (segment : PayloadSegment) : List Byte :=
  encodeBE 4 segment.type ++ encodeBE 4 segment.compression ++
    encodeBE 4 segment.offset ++ encodeBE 8 segment.loadAddr ++
      encodeBE 4 segment.len ++ encodeBE 4 segment.memLen

def xdrSegs (output : Memory) (segs : List PayloadSegment) : Memory :=
  store output 0 (segs.flatMap encodeSegment)

/-- A record without its offset, and its data. -/
structure Piece where
  segment : PayloadSegment
  data : List Byte

def notePiece (elf : Elf) (shdr : Shdr) : Piece :=
  ⟨⟨payloadSegmentParams, 0, 0, 0, shdr.size.toNat % 4294967296, 0⟩, elf.noteBytes shdr⟩

/-- The data of a program header: raw if the compressor fails or makes it
bigger. -/
def packedBytes (codec : Codec) (bytes : List Byte) : Nat × List Byte :=
  match codec.compress bytes with
  | none => (0, bytes)
  | some packed =>
    if packed.length > bytes.length then (0, bytes) else (codec.algo, packed)

def loadPiece (codec : Codec) (elf : Elf) (phdr : Phdr) : Piece :=
  if phdr.filesz = 0 then
    ⟨⟨payloadSegmentBss, 0, 0, phdr.paddr.toNat, 0, phdr.memsz.toNat % 4294967296⟩, []⟩
  else
    let packed := packedBytes codec (elf.fileBytes phdr)
    ⟨⟨if phdr.flags &&& pfX ≠ 0 then payloadSegmentCode else payloadSegmentData,
      packed.1, 0, phdr.paddr.toNat, packed.2.length,
      phdr.memsz.toNat % 4294967296⟩, packed.2⟩

/-- The output with the offset of the next data and the records. -/
structure Emission where
  memory : Memory
  doffset : Nat
  segs : List PayloadSegment

/-- The data of records, one after the other.  A write outside of the buffer, or an
offset that is no `int`, is a failure. -/
def emitPieces (limit : Nat) : List Piece → Emission → Option Emission
  | [], emission => some emission
  | piece :: rest, emission =>
    if emission.doffset + piece.data.length ≤ limit ∧
        emission.doffset + piece.segment.len < 2147483648 then
      emitPieces limit rest
        ⟨store emission.memory emission.doffset piece.data,
          emission.doffset + piece.segment.len,
          emission.segs ++ [{ piece.segment with offset := emission.doffset }]⟩
    else none

/-- The number of records that is counted first. -/
def countSegments (elf : Elf) : Nat := 1 + elf.notes.length + elf.loads.length

/-- The size of the data that is counted first, an `int`. -/
def countSize (elf : Elf) : Int :=
  (BitVec.ofNat 32
    ((elf.notes.map fun shdr => shdr.size.toNat % 4294967296).sum +
      (elf.loads.map fun phdr => phdr.filesz.toNat).sum)).toInt

/-- `parse_elf_to_payload`: the payload and its size.  With a negative counted size
there is no buffer, or one without room for the records. -/
def parseElfToPayload (codec : Codec) (elf : Elf) : Option (Memory × Nat) :=
  if countSize elf < 0 then none
  else
    let first := sizeofSegment * countSegments elf
    let limit := first + (countSize elf).toNat
    ((emitPieces limit (elf.notes.map (notePiece elf)) ⟨fun _ => 0, first, []⟩).bind
      (emitPieces limit (elf.loads.map (loadPiece codec elf)))).map
      fun emission =>
        let segs := emission.segs ++ [⟨payloadSegmentEntry, 0, 0, elf.entry.toNat, 0, 0⟩]
        (xdrSegs emission.memory segs, sizeofSegment * segs.length + (emission.doffset - first))

/-- `struct segment`, with the source as an offset in the payload. -/
structure Segment where
  dstaddr : Nat
  srcaddr : Nat
  memsz : Nat
  filesz : Nat
  compression : Nat
deriving DecidableEq, Repr

def decodePayloadSegment (payload : Memory) (position : Nat) : PayloadSegment :=
  ⟨readBE 4 payload position, readBE 4 payload (position + 4),
    readBE 4 payload (position + 8), readBE 8 payload (position + 12),
    readBE 4 payload (position + 20), readBE 4 payload (position + 24)⟩

/-- The segment of a record of code or data, in words of the given number of
bits. -/
def loadSegment (bits : Nat) (segment : PayloadSegment) : Segment :=
  ⟨segment.loadAddr % 2 ^ bits, segment.offset, segment.memLen,
    if segment.len > segment.memLen then segment.memLen else segment.len,
    segment.compression⟩

/-- The segment of a record without data. -/
def bssSegment (bits : Nat) (segment : PayloadSegment) : Segment :=
  ⟨segment.loadAddr % 2 ^ bits, segment.offset, segment.memLen, 0, 0⟩

/-- `build_self_segment_list`, from a record on, with a bound on the number of
records. -/
def buildSelfSegmentList (bits : Nat) (payload : Memory) : Nat → Nat → Option (List Segment × Nat)
  | 0, _ => none
  | fuel + 1, position =>
    let segment := decodePayloadSegment payload position
    let next := buildSelfSegmentList bits payload fuel (position + sizeofSegment)
    if segment.type = payloadSegmentParams then next
    else if segment.type = payloadSegmentCode ∨ segment.type = payloadSegmentData then
      next.map fun (rest, entry) => (loadSegment bits segment :: rest, entry)
    else if segment.type = payloadSegmentBss then
      next.map fun (rest, entry) => (bssSegment bits segment :: rest, entry)
    else if segment.type = payloadSegmentEntry then
      some ([], segment.loadAddr % 2 ^ bits)
    else none

/-- A segment describes a program header: its source lies in the payload and
decompresses to the bytes of the file. -/
def SegmentDescribes (codec : Codec) (elf : Elf) (payload : Memory)
    (size : Nat) (phdr : Phdr) (segment : Segment) : Prop :=
  segment.dstaddr = phdr.paddr.toNat ∧ segment.memsz = phdr.memsz.toNat ∧
    segment.srcaddr + segment.filesz ≤ size ∧
    codec.decompress segment.compression
      (load payload segment.srcaddr segment.filesz) = some (elf.fileBytes phdr)

/-- A file is turned into a payload, and the list of segments of the payload
describes the file. -/
def PayloadExact (bits : Nat) (codec : Codec) (elf : Elf) : Prop :=
  ∃ payload size segments entry fuel,
    parseElfToPayload codec elf = some (payload, size) ∧
      buildSelfSegmentList bits payload fuel 0 = some (segments, entry) ∧
      List.Forall₂ (SegmentDescribes codec elf payload size) elf.loads segments ∧
      entry = elf.entry.toNat

/-- The data of every record fits behind the data before it, in the buffer, and
ends below `2 ^ 31`. -/
def PiecesFit (limit : Nat) : Nat → List Piece → Prop
  | _, [] => True
  | doffset, piece :: rest =>
    doffset + piece.data.length ≤ limit ∧
      doffset + piece.segment.len < 2147483648 ∧
      PiecesFit limit (doffset + piece.segment.len) rest

instance decidablePiecesFit (limit : Nat) :
    (doffset : Nat) → (list : List Piece) → Decidable (PiecesFit limit doffset list)
  | _, [] => isTrue trivial
  | doffset, piece :: rest =>
    have := decidablePiecesFit limit (doffset + piece.segment.len) rest
    inferInstanceAs (Decidable (_ ∧ _ ∧ _))

def pieces (codec : Codec) (elf : Elf) : List Piece :=
  elf.notes.map (notePiece elf) ++ elf.loads.map (loadPiece codec elf)

/-- The counted size is not negative, the data fits in the buffer of that size,
and addresses are words of the firmware. -/
structure PayloadFits (bits : Nat) (codec : Codec) (elf : Elf) : Prop where
  counted : 0 ≤ countSize elf
  data : PiecesFit
    (sizeofSegment * countSegments elf + (countSize elf).toNat)
    (sizeofSegment * countSegments elf) (pieces codec elf)
  addresses : ∀ phdr ∈ elf.loads, phdr.paddr.toNat < 2 ^ bits
  entry : elf.entry.toNat < 2 ^ bits

variable {segment : PayloadSegment}

section Records

variable {memory : Memory} {position : Nat}

/-- All fields of a record are numbers of their widths. -/
def PayloadSegment.InRange (segment : PayloadSegment) : Prop :=
  segment.type < 4294967296 ∧ segment.compression < 4294967296 ∧
    segment.offset < 4294967296 ∧ segment.loadAddr < 18446744073709551616 ∧
      segment.len < 4294967296 ∧ segment.memLen < 4294967296

theorem length_encodeSegment (segment : PayloadSegment) : (encodeSegment segment).length = 28 := by
  simp [encodeSegment]

theorem load_eq_append {first second : Nat} {left right : List Byte} (length : left.length = first)
    (whole : load memory position (first + second) = left ++ right) :
    load memory position first = left ∧ load memory (position + first) second = right := by
  rw [load_append] at whole
  exact List.append_inj whole (by rw [length_load, length])

theorem readBE_of_load {width number : Nat}
    (bytes : load memory position width = encodeBE width number) (small : number < 256 ^ width) :
    readBE width memory position = number := by
  rw [readBE, bytes, decodeBE_encodeBE]
  exact Nat.mod_eq_of_lt small

theorem decodePayloadSegment_of_load (range : segment.InRange)
    (bytes : load memory position 28 = encodeSegment segment) :
    decodePayloadSegment memory position = segment := by
  obtain ⟨type, compression, offset, loadAddr, len, memLen⟩ := range
  obtain ⟨rest, sixth⟩ := @load_eq_append memory position 24 4 _ _ (by simp) bytes
  obtain ⟨rest, fifth⟩ := @load_eq_append memory position 20 4 _ _ (by simp) rest
  obtain ⟨rest, fourth⟩ := @load_eq_append memory position 12 8 _ _ (by simp) rest
  obtain ⟨rest, third⟩ := @load_eq_append memory position 8 4 _ _ (by simp) rest
  obtain ⟨first, second⟩ := @load_eq_append memory position 4 4 _ _ (by simp) rest
  rw [decodePayloadSegment, readBE_of_load first type, readBE_of_load second compression,
    readBE_of_load third offset, readBE_of_load fourth loadAddr, readBE_of_load fifth len,
    readBE_of_load sixth memLen]

def Records (memory : Memory) : Nat → List PayloadSegment → Prop
  | _, [] => True
  | position, segment :: rest =>
    decodePayloadSegment memory position = segment ∧ Records memory (position + sizeofSegment) rest

variable {segs : List PayloadSegment}

theorem behind_segments : position + sizeofSegment + sizeofSegment * segs.length =
    position + sizeofSegment * (segs.length + 1) := by
  rw [Nat.mul_succ]
  omega

theorem records_append {others : List PayloadSegment} :
    Records memory position (segs ++ others) ↔
      Records memory position segs ∧
        Records memory (position + sizeofSegment * segs.length) others := by
  induction segs generalizing position with
  | nil => exact (iff_of_eq (true_and _)).symm
  | cons segment rest ih =>
    rw [List.cons_append, Records, Records, ih, behind_segments, and_assoc, List.length_cons]

theorem records_of_load (range : ∀ segment ∈ segs, segment.InRange)
    (bytes : load memory position (28 * segs.length) = segs.flatMap encodeSegment) :
    Records memory position segs := by
  induction segs generalizing position with
  | nil => trivial
  | cons segment rest ih =>
    obtain ⟨first, others⟩ := List.forall_mem_cons.mp range
    have count : 28 * (segment :: rest).length = 28 + 28 * rest.length := by
      rw [List.length_cons]
      omega
    rw [count, List.flatMap_cons] at bytes
    obtain ⟨own, later⟩ := load_eq_append (length_encodeSegment segment) bytes
    exact ⟨decodePayloadSegment_of_load first own, ih others later⟩

theorem length_flatMap_encodeSegment (segs : List PayloadSegment) :
    (segs.flatMap encodeSegment).length = 28 * segs.length := by
  induction segs with
  | nil => rfl
  | cons segment rest ih =>
    rw [List.flatMap_cons, List.length_append, length_encodeSegment, ih, List.length_cons]
    omega

theorem records_xdrSegs (range : ∀ segment ∈ segs, segment.InRange)
    (output : Memory) : Records (xdrSegs output segs) 0 segs := by
  apply records_of_load range
  have self := load_store_self output 0 (segs.flatMap encodeSegment)
  rwa [length_flatMap_encodeSegment] at self

end Records

section Emission

variable {limit : Nat} {list : List Piece} {emission final : Emission}

def recordsFrom : Nat → List Piece → List PayloadSegment
  | _, [] => []
  | doffset, piece :: rest =>
    { piece.segment with offset := doffset } :: recordsFrom (doffset + piece.segment.len) rest

def dataLength (list : List Piece) : Nat := (list.map fun piece => piece.segment.len).sum

def Holds (memory : Memory) : Nat → List Piece → Prop
  | _, [] => True
  | doffset, piece :: rest =>
    load memory doffset piece.data.length = piece.data ∧
      Holds memory (doffset + piece.segment.len) rest

def Piece.Sized (piece : Piece) : Prop := piece.segment.len = piece.data.length % 4294967296

theorem emitPieces_append (others : List Piece) :
    emitPieces limit (list ++ others) emission =
      (emitPieces limit list emission).bind (emitPieces limit others) := by
  induction list generalizing emission with
  | nil => rfl
  | cons piece rest ih =>
    rw [List.cons_append, emitPieces, emitPieces]
    split_ifs
    · exact ih
    · rfl

theorem recordsFrom_append (doffset : Nat) (others : List Piece) :
    recordsFrom doffset (list ++ others) = recordsFrom doffset list ++
      recordsFrom (doffset + dataLength list) others := by
  induction list generalizing doffset with
  | nil => rfl
  | cons piece rest ih =>
    rw [List.cons_append, recordsFrom, recordsFrom, ih, dataLength,
      dataLength, List.map_cons, List.sum_cons, Nat.add_assoc]
    rfl

theorem holds_append {memory : Memory} {doffset : Nat} {others : List Piece} :
    Holds memory doffset (list ++ others) ↔ Holds memory doffset list ∧
      Holds memory (doffset + dataLength list) others := by
  induction list generalizing doffset with
  | nil => exact (iff_of_eq (true_and _)).symm
  | cons piece rest ih =>
    rw [List.cons_append, Holds, Holds, ih, dataLength, dataLength,
      List.map_cons, List.sum_cons, Nat.add_assoc, and_assoc]

theorem Holds.congr {memory other : Memory} {doffset : Nat} (holds : Holds memory doffset list)
    (same : ∀ address, doffset ≤ address → other address = memory address) :
    Holds other doffset list := by
  induction list generalizing doffset with
  | nil => trivial
  | cons piece rest ih =>
    refine ⟨?_, ih holds.2 fun address above => same address (by omega)⟩
    exact (load_congr fun address above _ => same address above).trans holds.1

theorem piecesFit_of_emitPieces (emitted : emitPieces limit list emission = some final) :
    PiecesFit limit emission.doffset list := by
  induction list generalizing emission with
  | nil => trivial
  | cons piece rest ih =>
    rw [emitPieces] at emitted
    split_ifs at emitted with room
    exact ⟨room.1, room.2, ih emitted⟩

theorem emitPieces_of_fit (small : limit < 4294967296) (sized : ∀ piece ∈ list, piece.Sized)
    (fit : PiecesFit limit emission.doffset list) :
    ∃ final, emitPieces limit list emission = some final ∧
      final.doffset = emission.doffset + dataLength list ∧
      final.segs = emission.segs ++ recordsFrom emission.doffset list ∧
      Holds final.memory emission.doffset list ∧
      ∀ address, address < emission.doffset → final.memory address = emission.memory address := by
  induction list generalizing emission with
  | nil =>
    exact ⟨emission, rfl, rfl, (List.append_nil _).symm, trivial, fun _ _ => rfl⟩
  | cons piece rest ih =>
    obtain ⟨own, later⟩ := List.forall_mem_cons.mp sized
    obtain ⟨inside, int, fit⟩ := fit
    have length : piece.segment.len = piece.data.length := by
      rw [own]
      exact Nat.mod_eq_of_lt (by omega)
    obtain ⟨final, emitted, doffset, segs, holds, below⟩ := @ih
      ⟨store emission.memory emission.doffset piece.data,
        emission.doffset + piece.segment.len, emission.segs ++
          [{ piece.segment with offset := emission.doffset }]⟩ later fit
    refine ⟨final, ?_, ?_, ?_, ⟨?_, holds⟩, fun address above => ?_⟩
    · rw [emitPieces, if_pos ⟨inside, int⟩]
      exact emitted
    · rw [doffset, dataLength, dataLength, List.map_cons, List.sum_cons, Nat.add_assoc]
    · rw [segs, List.append_assoc]
      rfl
    · refine (load_congr fun address above inside => ?_).trans
        (load_store_self emission.memory emission.doffset piece.data)
      exact below address (by dsimp only; omega)
    · rw [below address (by dsimp only; omega)]
      exact store_of_outside (.inl above)

end Emission

section Pieces

variable {codec : Codec} {elf : Elf}

theorem length_notes_lt (elf : Elf) : elf.notes.length < 65536 := by
  have filtered := List.length_filter_le (fun numbered : Shdr × Nat =>
    decide (numbered.2 ≠ elf.shstrndx ∧ numbered.1.size ≠ 0 ∧
      elf.IsPinfo numbered.1)) elf.shdrs.zipIdx
  rw [List.length_zipIdx] at filtered
  rw [Elf.notes, List.length_map]
  exact lt_of_le_of_lt filtered elf.shnum_lt

theorem length_loads_lt (elf : Elf) : elf.loads.length < 65536 :=
  lt_of_le_of_lt (List.length_filter_le _ _) elf.phnum_lt

theorem limit_lt (elf : Elf) :
    sizeofSegment * countSegments elf + (countSize elf).toNat < 4294967296 := by
  have notes := length_notes_lt elf
  have loads := length_loads_lt elf
  have size : countSize elf < 2147483648 := BitVec.toInt_lt
  rw [sizeofSegment, countSegments]
  omega

theorem sized_notePiece (shdr : Shdr) : (notePiece elf shdr).Sized := by
  rw [Piece.Sized, notePiece, Elf.noteBytes, length_load]

theorem length_packedBytes_le (bytes : List Byte) :
    (packedBytes codec bytes).2.length ≤ bytes.length := by
  rw [packedBytes]
  cases codec.compress bytes with
  | none => exact le_rfl
  | some packed =>
    dsimp only
    split_ifs with bigger
    · exact le_rfl
    · exact Nat.not_lt.mp bigger

theorem decompress_packedBytes (bytes : List Byte) :
    codec.decompress (packedBytes codec bytes).1 (packedBytes codec bytes).2 = some bytes := by
  rw [packedBytes]
  cases compressed : codec.compress bytes with
  | none => exact codec.raw bytes
  | some packed =>
    dsimp only
    split_ifs
    · exact codec.raw bytes
    · exact codec.inverts bytes packed compressed

theorem packedBytes_algo_le (bytes : List Byte) : (packedBytes codec bytes).1 ≤ 2 := by
  rw [packedBytes]
  cases codec.compress bytes with
  | none => exact Nat.zero_le 2
  | some packed =>
    dsimp only
    split_ifs
    · exact Nat.zero_le 2
    · exact codec.algo_le

theorem packedBytes_algo_lt (bytes : List Byte) : (packedBytes codec bytes).1 < 4294967296 :=
  lt_of_le_of_lt (packedBytes_algo_le bytes) (by decide)

variable {phdr : Phdr}

section

variable (bounds : phdr.filesz.toNat ≤ phdr.memsz.toNat ∧ phdr.memsz.toNat < 4294967296)
include bounds

theorem length_packedBytes_lt : (packedBytes codec (elf.fileBytes phdr)).2.length < 4294967296 := by
  have packed := @length_packedBytes_le codec (elf.fileBytes phdr)
  rw [Elf.fileBytes, length_load] at packed
  rw [Elf.fileBytes]
  omega

theorem sized_loadPiece : (loadPiece codec elf phdr).Sized := by
  rw [Piece.Sized, loadPiece]
  split_ifs
  · rfl
  all_goals exact (Nat.mod_eq_of_lt (length_packedBytes_lt bounds)).symm

omit bounds in
theorem sized_pieces (wellFormed : elf.WellFormed) : ∀ piece ∈ pieces codec elf, piece.Sized := by
  intro piece member
  rcases List.mem_append.mp member with note | load
  · obtain ⟨shdr, _, rfl⟩ := List.mem_map.mp note
    exact sized_notePiece shdr
  · obtain ⟨phdr, present, rfl⟩ := List.mem_map.mp load
    exact sized_loadPiece (wellFormed phdr present)

omit bounds in
theorem inRange_notePiece (shdr : Shdr) : (notePiece elf shdr).segment.InRange := by
  have zero : 0 < 4294967296 := by decide
  have type : payloadSegmentParams < 4294967296 := by decide
  exact ⟨type, zero, zero, Nat.zero_lt_succ _, Nat.mod_lt _ zero, zero⟩

theorem inRange_loadPiece : (loadPiece codec elf phdr).segment.InRange := by
  have zero : 0 < 4294967296 := by decide
  have memLen : phdr.memsz.toNat % 4294967296 < 4294967296 := Nat.mod_lt _ zero
  have bss : payloadSegmentBss < 4294967296 := by decide
  have code : payloadSegmentCode < 4294967296 := by decide
  have data : payloadSegmentData < 4294967296 := by decide
  rw [loadPiece]
  split_ifs
  · exact ⟨bss, zero, zero, phdr.paddr.isLt, zero, memLen⟩
  · exact ⟨code, packedBytes_algo_lt _, zero, phdr.paddr.isLt, length_packedBytes_lt bounds, memLen⟩
  · exact ⟨data, packedBytes_algo_lt _, zero, phdr.paddr.isLt, length_packedBytes_lt bounds, memLen⟩

end

theorem inRange_pieces (wellFormed : elf.WellFormed) :
    ∀ piece ∈ pieces codec elf, piece.segment.InRange := by
  intro piece member
  rcases List.mem_append.mp member with note | load
  · obtain ⟨shdr, _, rfl⟩ := List.mem_map.mp note
    exact inRange_notePiece shdr
  · obtain ⟨phdr, present, rfl⟩ := List.mem_map.mp load
    exact inRange_loadPiece (wellFormed phdr present)

theorem inRange_recordsFrom {limit doffset : Nat} {list : List Piece}
    (range : ∀ piece ∈ list, piece.segment.InRange) (fit : PiecesFit limit doffset list) :
    ∀ segment ∈ recordsFrom doffset list, segment.InRange := by
  induction list generalizing doffset with
  | nil => exact List.forall_mem_nil _
  | cons piece rest ih =>
    obtain ⟨⟨type, compression, _, loadAddr, len, memLen⟩, others⟩ := List.forall_mem_cons.mp range
    obtain ⟨_, int, fit⟩ := fit
    exact List.forall_mem_cons.mpr ⟨⟨type, compression, by dsimp only; omega,
      loadAddr, len, memLen⟩, ih others fit⟩

theorem length_recordsFrom (doffset : Nat) (list : List Piece) :
    (recordsFrom doffset list).length = list.length := by
  induction list generalizing doffset with
  | nil => rfl
  | cons piece rest ih => rw [recordsFrom, List.length_cons, ih, List.length_cons]

theorem length_pieces (codec : Codec) (elf : Elf) :
    (pieces codec elf).length + 1 = countSegments elf := by
  rw [pieces, List.length_append, List.length_map, List.length_map, countSegments]
  omega

end Pieces

section Segments

variable {bits : Nat} {payload : Memory} {position : Nat} {segs : List PayloadSegment}

theorem buildSelfSegmentList_params (params : ∀ segment ∈ segs, segment.type = payloadSegmentParams)
    (records : Records payload position segs) (fuel : Nat) :
    buildSelfSegmentList bits payload (fuel + segs.length) position =
      buildSelfSegmentList bits payload fuel (position + sizeofSegment * segs.length) := by
  induction segs generalizing position with
  | nil => rfl
  | cons segment rest ih =>
    obtain ⟨own, others⟩ := List.forall_mem_cons.mp params
    rw [List.length_cons, ← Nat.add_assoc, buildSelfSegmentList, records.1,
      if_pos own, ih others records.2, behind_segments]

/-- The segment of a record with an address. -/
def describe (bits : Nat) (segment : PayloadSegment) : Segment :=
  if segment.type = payloadSegmentBss then bssSegment bits segment
  else loadSegment bits segment

def PayloadSegment.IsLoad (segment : PayloadSegment) : Prop :=
  segment.type = payloadSegmentCode ∨ segment.type = payloadSegmentData ∨
    segment.type = payloadSegmentBss

instance (segment : PayloadSegment) : Decidable segment.IsLoad :=
  inferInstanceAs (Decidable (_ ∨ _ ∨ _))

theorem buildSelfSegmentList_load (isLoad : segment.IsLoad)
    (decoded : decodePayloadSegment payload position = segment) (fuel : Nat) :
    buildSelfSegmentList bits payload (fuel + 1) position =
      (buildSelfSegmentList bits payload fuel (position + sizeofSegment)).map
        fun (rest, entry) => (describe bits segment :: rest, entry) := by
  rw [buildSelfSegmentList, decoded, describe]
  obtain ⟨type, compression, offset, loadAddr, len, memLen⟩ := segment
  rcases isLoad with code | data | bss
  · obtain rfl : type = payloadSegmentCode := code
    rfl
  · obtain rfl : type = payloadSegmentData := data
    rfl
  · obtain rfl : type = payloadSegmentBss := bss
    rfl

theorem buildSelfSegmentList_loads (areLoads : ∀ segment ∈ segs, segment.IsLoad)
    (records : Records payload position segs) (fuel : Nat) :
    buildSelfSegmentList bits payload (fuel + segs.length) position =
      (buildSelfSegmentList bits payload fuel
        (position + sizeofSegment * segs.length)).map fun (rest, entry) =>
          (segs.map (describe bits) ++ rest, entry) := by
  induction segs generalizing position with
  | nil => exact Option.map_id'.symm
  | cons segment rest ih =>
    obtain ⟨own, others⟩ := List.forall_mem_cons.mp areLoads
    rw [List.length_cons, ← Nat.add_assoc, buildSelfSegmentList_load own records.1,
      ih others records.2, behind_segments, Option.map_map]
    rfl

theorem buildSelfSegmentList_entry (isEntry : segment.type = payloadSegmentEntry)
    (decoded : decodePayloadSegment payload position = segment) (fuel : Nat) :
    buildSelfSegmentList bits payload (fuel + 1) position =
      some ([], segment.loadAddr % 2 ^ bits) := by
  rw [buildSelfSegmentList, decoded]
  obtain ⟨type, compression, offset, loadAddr, len, memLen⟩ := segment
  obtain rfl : type = payloadSegmentEntry := isEntry
  rfl

theorem buildSelfSegmentList_lt {fuel : Nat} {segments : List Segment} {entry : Nat}
    (built : buildSelfSegmentList bits payload fuel position = some (segments, entry)) :
    (∀ segment ∈ segments, segment.dstaddr < 2 ^ bits) ∧ entry < 2 ^ bits := by
  have word : ∀ address, address % 2 ^ bits < 2 ^ bits :=
    fun address => Nat.mod_lt _ (Nat.two_pow_pos bits)
  induction fuel generalizing position segments entry with
  | zero => cases built
  | succ fuel ih =>
    rw [buildSelfSegmentList] at built
    split_ifs at built
    · exact ih built
    · obtain ⟨⟨rest, last⟩, next, same⟩ := Option.map_eq_some_iff.mp built
      cases same
      exact ⟨List.forall_mem_cons.mpr ⟨word _, (ih next).1⟩, (ih next).2⟩
    · obtain ⟨⟨rest, last⟩, next, same⟩ := Option.map_eq_some_iff.mp built
      cases same
      exact ⟨List.forall_mem_cons.mpr ⟨word _, (ih next).1⟩, (ih next).2⟩
    · cases built
      exact ⟨List.forall_mem_nil _, word _⟩

end Segments

section Exactness

variable {bits size doffset : Nat} {codec : Codec} {elf : Elf}
variable {payload : Memory}

theorem isLoad_loadPiece (phdr : Phdr) : (loadPiece codec elf phdr).segment.IsLoad := by
  rw [loadPiece]
  split_ifs
  · exact .inr (.inr rfl)
  · exact .inl rfl
  · exact .inr (.inl rfl)

theorem isLoad_recordsFrom (loads : List Phdr) :
    ∀ segment ∈ recordsFrom doffset (loads.map (loadPiece codec elf)), segment.IsLoad := by
  induction loads generalizing doffset with
  | nil => exact List.forall_mem_nil _
  | cons phdr rest ih =>
    exact List.forall_mem_cons.mpr ⟨@isLoad_loadPiece codec elf phdr, ih⟩

theorem params_recordsFrom (notes : List Shdr) :
    ∀ segment ∈ recordsFrom doffset (notes.map (notePiece elf)),
      segment.type = payloadSegmentParams := by
  induction notes generalizing doffset with
  | nil => exact List.forall_mem_nil _
  | cons shdr rest ih => exact List.forall_mem_cons.mpr ⟨rfl, ih⟩

theorem segmentDescribes_describe {phdr : Phdr}
    (bounds : phdr.filesz.toNat ≤ phdr.memsz.toNat ∧ phdr.memsz.toNat < 4294967296)
    (address : phdr.paddr.toNat < 2 ^ bits)
    (holds : load payload doffset (loadPiece codec elf phdr).data.length =
      (loadPiece codec elf phdr).data)
    (inside : doffset + (loadPiece codec elf phdr).segment.len ≤ size) :
    SegmentDescribes codec elf payload size phdr
      (describe bits { (loadPiece codec elf phdr).segment with offset := doffset }) := by
  have memLen : phdr.memsz.toNat % 4294967296 = phdr.memsz.toNat := Nat.mod_eq_of_lt bounds.2
  have word := Nat.mod_eq_of_lt address
  by_cases empty : phdr.filesz = 0
  · rw [loadPiece, if_pos empty] at holds inside ⊢
    refine ⟨word, memLen, inside, ?_⟩
    rw [Elf.fileBytes, empty]
    exact codec.raw []
  · have whole : (packedBytes codec (elf.fileBytes phdr)).2.length ≤
        phdr.memsz.toNat % 4294967296 := by
      have packed := @length_packedBytes_le codec (elf.fileBytes phdr)
      rw [Elf.fileBytes, length_load] at packed
      rw [memLen, Elf.fileBytes]
      exact packed.trans bounds.1
    have notBss : (if phdr.flags &&& pfX ≠ 0 then payloadSegmentCode
        else payloadSegmentData) ≠ payloadSegmentBss := by
      split_ifs <;> decide
    rw [loadPiece, if_neg empty] at holds inside ⊢
    rw [describe, if_neg notBss, loadSegment, if_neg (Nat.not_lt.mpr whole)]
    refine ⟨word, memLen, inside, ?_⟩
    rw [holds]
    exact decompress_packedBytes (elf.fileBytes phdr)

theorem forall₂_describe {loads : List Phdr}
    (bounds : ∀ phdr ∈ loads, phdr.filesz.toNat ≤ phdr.memsz.toNat ∧ phdr.memsz.toNat < 4294967296)
    (addresses : ∀ phdr ∈ loads, phdr.paddr.toNat < 2 ^ bits)
    (holds : Holds payload doffset (loads.map (loadPiece codec elf)))
    (inside : doffset + dataLength (loads.map (loadPiece codec elf)) ≤ size) :
    List.Forall₂ (SegmentDescribes codec elf payload size) loads
      ((recordsFrom doffset (loads.map (loadPiece codec elf))).map (describe bits)) := by
  induction loads generalizing doffset with
  | nil => exact List.Forall₂.nil
  | cons phdr rest ih =>
    obtain ⟨bound, bounds⟩ := List.forall_mem_cons.mp bounds
    obtain ⟨address, addresses⟩ := List.forall_mem_cons.mp addresses
    obtain ⟨own, later⟩ := holds
    rw [List.map_cons, dataLength, List.map_cons, List.sum_cons, ← Nat.add_assoc] at inside
    exact List.Forall₂.cons
      (segmentDescribes_describe bound address own (by omega))
      (ih bounds addresses later inside)

def entrySegment (elf : Elf) : PayloadSegment := ⟨payloadSegmentEntry, 0, 0, elf.entry.toNat, 0, 0⟩

theorem parseElfToPayload_eq (counted : 0 ≤ countSize elf) :
    parseElfToPayload codec elf =
      (emitPieces (sizeofSegment * countSegments elf + (countSize elf).toNat)
        (pieces codec elf)
        ⟨fun _ => 0, sizeofSegment * countSegments elf, []⟩).map fun emission =>
          (xdrSegs emission.memory (emission.segs ++ [entrySegment elf]),
            sizeofSegment * (emission.segs ++ [entrySegment elf]).length +
              (emission.doffset - sizeofSegment * countSegments elf)) := by
  rw [parseElfToPayload, if_neg (Int.not_lt.mpr counted), pieces, emitPieces_append]
  rfl

theorem exists_payload (wellFormed : elf.WellFormed) (counted : 0 ≤ countSize elf) (fit : PiecesFit
      (sizeofSegment * countSegments elf + (countSize elf).toNat)
      (sizeofSegment * countSegments elf) (pieces codec elf)) :
    ∃ payload size, parseElfToPayload codec elf = some (payload, size) ∧
      size = sizeofSegment * countSegments elf + dataLength (pieces codec elf) ∧
      Records payload 0 (recordsFrom (sizeofSegment * countSegments elf)
        (pieces codec elf) ++ [entrySegment elf]) ∧
      Holds payload (sizeofSegment * countSegments elf) (pieces codec elf) := by
  obtain ⟨final, emitted, doffset, segs, holds, _⟩ := @emitPieces_of_fit _ _
    ⟨fun _ => 0, sizeofSegment * countSegments elf, []⟩ (limit_lt elf)
    (sized_pieces wellFormed) fit
  have segs : final.segs = recordsFrom (sizeofSegment * countSegments elf)
    (pieces codec elf) := segs
  have length : (final.segs ++ [entrySegment elf]).length = countSegments elf := by
    rw [List.length_append, segs, length_recordsFrom, ← length_pieces codec]
    rfl
  have entryRange : (entrySegment elf).InRange := by
    have zero : 0 < 4294967296 := by decide
    have type : payloadSegmentEntry < 4294967296 := by decide
    exact ⟨type, zero, zero, elf.entry.isLt, zero, zero⟩
  refine ⟨xdrSegs final.memory (final.segs ++ [entrySegment elf]), _, ?_, rfl, ?_, ?_⟩
  · rw [parseElfToPayload_eq counted, emitted, Option.map_some, length, doffset,
      Nat.add_sub_cancel_left]
  · rw [segs]
    apply records_xdrSegs
    exact List.forall_mem_append.mpr
      ⟨inRange_recordsFrom (inRange_pieces wellFormed) fit,
        List.forall_mem_singleton.mpr entryRange⟩
  · refine holds.congr fun address above => store_of_outside (.inr ?_)
    have above : sizeofSegment * countSegments elf ≤ address := above
    rw [length_flatMap_encodeSegment, length]
    exact (Nat.zero_add _).trans_le above

theorem payloadExact_of_fits (wellFormed : elf.WellFormed)
    (fits : PayloadFits bits codec elf) : PayloadExact bits codec elf := by
  obtain ⟨counted, fit, addresses, entry⟩ := fits
  obtain ⟨payload, size, parsed, sized, records, holds⟩ := exists_payload wellFormed counted fit
  rw [pieces, recordsFrom_append, records_append, records_append] at records
  obtain ⟨⟨notes, loads⟩, last⟩ := records
  rw [pieces, holds_append] at holds
  rw [pieces, dataLength, List.map_append, List.sum_append] at sized
  rw [List.length_append, Nat.mul_add, ← Nat.add_assoc] at last
  have built := @buildSelfSegmentList_params bits payload 0 _
    (params_recordsFrom elf.notes) notes (0 + 1 + (recordsFrom
      (sizeofSegment * countSegments elf + dataLength (elf.notes.map (notePiece elf)))
      (elf.loads.map (loadPiece codec elf))).length)
  rw [buildSelfSegmentList_loads (isLoad_recordsFrom elf.loads) loads,
    buildSelfSegmentList_entry rfl last.1, Option.map_some] at built
  dsimp only at built
  rw [List.append_nil, entrySegment, Nat.mod_eq_of_lt entry] at built
  refine ⟨payload, size, _, elf.entry.toNat, _, parsed, built,
    forall₂_describe wellFormed addresses holds.2 ?_, rfl⟩
  rw [sized, ← Nat.add_assoc]
  exact le_rfl

theorem exists_of_forall₂ {first second : Type} {R : first → second → Prop}
    {left : List first} {right : List second} (related : List.Forall₂ R left right)
    {value : first} (member : value ∈ left) : ∃ other ∈ right, R value other := by
  induction related with
  | nil => cases member
  | @cons head other rest others own _ ih =>
    rcases List.mem_cons.mp member with rfl | later
    · exact ⟨other, (.head _), own⟩
    · obtain ⟨found, present, relates⟩ := ih later
      exact ⟨found, List.mem_cons_of_mem other present, relates⟩

theorem PayloadExact.fits (exactly : PayloadExact bits codec elf) : PayloadFits bits codec elf := by
  obtain ⟨payload, size, segments, entry, fuel, parsed, built, described, same⟩ := exactly
  have words := buildSelfSegmentList_lt built
  have counted : 0 ≤ countSize elf := by
    by_contra negative
    rw [parseElfToPayload, if_pos (Int.not_le.mp negative)] at parsed
    cases parsed
  rw [parseElfToPayload_eq counted] at parsed
  obtain ⟨final, emitted, _⟩ := Option.map_eq_some_iff.mp parsed
  refine ⟨counted, piecesFit_of_emitPieces emitted, fun phdr member => ?_, same ▸ words.2⟩
  obtain ⟨segment, present, describes⟩ := exists_of_forall₂ described member
  rw [← describes.1]
  exact words.1 segment present

def plainCodec : Codec where
  algo := 0
  compress := some
  decompress := fun _ bytes => some bytes
  algo_le := by decide
  inverts := fun _ _ packed => packed.symm
  raw := fun _ => rfl

/-- A file with a note section, a program header and one without data. -/
def smallElf : Elf where
  data := fun address => notePinfo.getD address 0
  entry := 0x100000
  shstrndx := 0
  phdrs := [⟨1, 5, 4, 0x100000, 4, 8⟩, ⟨1, 6, 0, 0x200000, 0, 16⟩]
  shdrs := [⟨0, 0, 12⟩, ⟨0, 2, 3⟩]
  phnum_lt := by decide
  shnum_lt := by decide

def giantElf : Elf where
  data := fun _ => 0
  entry := 0x100000
  shstrndx := 0
  phdrs := [⟨1, 5, 0, 0x100000, 0x80000000, 0x80000000⟩]
  shdrs := [⟨0, 0, 0⟩]
  phnum_lt := by decide
  shnum_lt := by decide

end Exactness

end Coreboot.Payload
