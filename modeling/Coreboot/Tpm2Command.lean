import Coreboot.Tpm2Response

/-!
# Encoding of TPM2 commands

The writers share a pointer into the buffer and the room that remains. Room of zero stands for a
command that did not fit, except that the writer of a blob leaves the greatest number.
-/

namespace Coreboot.Tpm2

open ByteMemory

def tpmStNoSessions : Nat := 0x8001
def tpmStSessions : Nat := 0x8002

def tpmRsPw : Nat := 0x40000009
def tpmRhPlatform : Nat := 0x4000000c

def sizeMax : Nat := 4294967295

/-- The buffer with the pointer, the remaining room and the tag of the
message. -/
structure Room where
  memory : Memory
  position : Nat
  space : Nat
  tag : Nat

/-- The common form of `marshal_u8`, `marshal_u16` and `marshal_u32`. -/
def marshalNumber (width value : Nat) (room : Room) : Room :=
  if room.space < width then { room with space := 0 }
  else { room with
    memory := writeBE width room.memory room.position value
    position := room.position + width
    space := room.space - width }

def marshalU8 (value : BitVec 8) : Room → Room := marshalNumber 1 value.toNat

def marshalU16 (value : BitVec 16) : Room → Room := marshalNumber 2 value.toNat

def marshalU32 (value : BitVec 32) : Room → Room := marshalNumber 4 value.toNat

def marshalBlob (blob : List Byte) (room : Room) : Room :=
  if room.space < blob.length then { room with space := sizeMax }
  else { room with
    memory := store room.memory room.position blob
    position := room.position + blob.length
    space := room.space - blob.length }

structure Tpm2b where
  data : List Byte
  small : data.length < 65536

def marshalTpm2b (buffer : Tpm2b) (room : Room) : Room :=
  if buffer.data.length + 2 > room.space then { room with space := 0 }
  else
    let room := marshalU16 (BitVec.ofNat 16 buffer.data.length) room
    { room with
      memory := store room.memory room.position buffer.data
      position := room.position + buffer.data.length
      space := room.space - buffer.data.length }

structure NvPublic where
  nvIndex : BitVec 32
  nameAlg : BitVec 16
  attributes : BitVec 32
  authPolicy : Tpm2b
  dataSize : BitVec 16

structure TpmtHa where
  hashAlg : BitVec 16
  sha256 : List Byte
  size : sha256.length = 32

/-- The array of digests has one element. -/
structure DigestValues where
  digests : List TpmtHa
  bounded : digests.length ≤ 1

structure SessionHeader where
  sessionHandle : BitVec 32
  nonce : List Byte
  sessionAttrs : BitVec 8
  auth : List Byte

/-- The header of a session without nonce, attributes and authorisation. -/
def passwordSession : SessionHeader := ⟨BitVec.ofNat 32 tpmRsPw, [], 0, []⟩

inductive Command where
  | startup (startupType : BitVec 16)
  | getCapability (capability property propertyCount : BitVec 32)
  | nvRead (nvIndex : BitVec 32) (size offset : BitVec 16)
  | nvDefineSpace (auth : Tpm2b) (publicInfo : NvPublic)
  | nvWrite (nvIndex : BitVec 32) (data : Tpm2b) (offset : BitVec 16)
  | nvWriteLock (nvIndex : BitVec 32)
  | selfTest (yesNo : BitVec 8)
  | hierarchyControl (enable : BitVec 32) (state : BitVec 8)
  | clear
  | pcrExtend (pcrHandle : BitVec 32) (digests : DigestValues)

def Command.code : Command → Nat
  | startup _ => tpm2Startup
  | getCapability _ _ _ => tpm2GetCapability
  | nvRead _ _ _ => tpm2NvRead
  | nvDefineSpace _ _ => tpm2NvDefineSpace
  | nvWrite _ _ _ => tpm2NvWrite
  | nvWriteLock _ => tpm2NvWriteLock
  | selfTest _ => tpm2SelfTest
  | hierarchyControl _ _ => tpm2HierarchyControl
  | clear => tpm2Clear
  | pcrExtend _ _ => tpm2PcrExtend

def marshalStartup (startupType : BitVec 16) (room : Room) : Room := marshalU16 startupType room

def marshalGetCapability (capability property propertyCount : BitVec 32) (room : Room) : Room :=
  let room := marshalU32 capability room
  let room := marshalU32 property room
  marshalU32 propertyCount room

def marshalNvPublic (nvpub : NvPublic) (room : Room) : Room :=
  let room := marshalU32 nvpub.nvIndex room
  let room := marshalU16 nvpub.nameAlg room
  let room := marshalU32 nvpub.attributes room
  let room := marshalTpm2b nvpub.authPolicy room
  marshalU16 nvpub.dataSize room

def marshalTpmtHa (tpmtha : TpmtHa) (room : Room) : Room :=
  let room := marshalU16 tpmtha.hashAlg room
  marshalBlob tpmtha.sha256 room

/-- `marshal_TPML_DIGEST_VALUES`. -/
def marshalDigestValues (dvalues : DigestValues) (room : Room) : Room :=
  let room := marshalU32 (BitVec.ofNat 32 dvalues.digests.length) room
  dvalues.digests.foldl (fun room digest => marshalTpmtHa digest room) room

/-- The writes of `marshal_session_header` after the slot for the size. -/
def marshalSession (header : SessionHeader) (room : Room) : Room :=
  let room := marshalU32 header.sessionHandle room
  let room := marshalU16 (BitVec.ofNat 16 header.nonce.length) room
  let room := marshalBlob header.nonce room
  let room := marshalU8 header.sessionAttrs room
  let room := marshalU16 (BitVec.ofNat 16 header.auth.length) room
  marshalBlob header.auth room

def marshalSessionHeader (header : SessionHeader) (room : Room) : Room :=
  let sizeLocation := room.position
  if room.space < 4 then { room with space := 0 }
  else
    let room := { room with
      space := room.space - 4
      position := room.position + 4 }
    let baseSize := room.space
    let room := marshalSession header room
    if room.space = 0 then room
    else
      -- The size is pasted with the pointer and the room of its own.
      let paste := marshalU32 (BitVec.ofNat 32 (baseSize - room.space))
        { room with position := sizeLocation, space := baseSize }
      { room with memory := paste.memory }

def marshalHandles (handles : List (BitVec 32)) (room : Room) : Room :=
  handles.foldl (fun room handle => marshalU32 handle room) room

def marshalCommonSessionHeader (handles : List (BitVec 32)) (room : Room) : Room :=
  let room := { room with tag := tpmStSessions }
  let room := marshalHandles handles room
  marshalSessionHeader passwordSession room

def platformHandle : BitVec 32 := BitVec.ofNat 32 tpmRhPlatform

def marshalNvDefineSpace (auth : Tpm2b) (publicInfo : NvPublic) (room : Room) : Room :=
  let room := marshalCommonSessionHeader [platformHandle] room
  let room := marshalTpm2b auth room
  let sizeLocation := room.position
  let room := { room with position := room.position + 2 }
  if room.space < 2 then { room with space := 0 }
  else
    let room := { room with space := room.space - 2 }
    let baseSize := room.space
    let room := marshalNvPublic publicInfo room
    if room.space = 0 then room
    else
      let paste := marshalU16 (BitVec.ofNat 16 (baseSize - room.space))
        { room with position := sizeLocation, space := 2 }
      { room with memory := paste.memory }

def marshalNvWrite (nvIndex : BitVec 32) (data : Tpm2b) (offset : BitVec 16) (room : Room) : Room :=
  let room := marshalCommonSessionHeader [platformHandle, nvIndex] room
  let room := marshalTpm2b data room
  marshalU16 offset room

def marshalNvWriteLock (nvIndex : BitVec 32) (room : Room) : Room :=
  marshalCommonSessionHeader [platformHandle, nvIndex] room

def marshalPcrExtend (pcrHandle : BitVec 32) (digests : DigestValues) (room : Room) : Room :=
  let room := marshalCommonSessionHeader [pcrHandle] room
  marshalDigestValues digests room

def marshalNvRead (nvIndex : BitVec 32) (size offset : BitVec 16) (room : Room) : Room :=
  let room := marshalCommonSessionHeader [platformHandle, nvIndex] room
  let room := marshalU16 size room
  marshalU16 offset room

def marshalClear (room : Room) : Room := marshalCommonSessionHeader [platformHandle] room

def marshalSelftest (yesNo : BitVec 8) (room : Room) : Room := marshalU8 yesNo room

def marshalHierarchyControl (enable : BitVec 32) (state : BitVec 8) (room : Room) : Room :=
  let room := { room with tag := tpmStSessions }
  let room := marshalU32 platformHandle room
  let room := marshalSessionHeader passwordSession room
  let room := marshalU32 enable room
  marshalU8 state room

/-- The switch of `tpm_marshal_command`. -/
def marshalBody : Option Command → Room → Room
  | some (.startup startupType), room => marshalStartup startupType room
  | some (.getCapability capability property propertyCount), room =>
    marshalGetCapability capability property propertyCount room
  | some (.nvRead nvIndex size offset), room =>
    marshalNvRead nvIndex size offset room
  | some (.nvDefineSpace auth publicInfo), room =>
    marshalNvDefineSpace auth publicInfo room
  | some (.nvWrite nvIndex data offset), room =>
    marshalNvWrite nvIndex data offset room
  | some (.nvWriteLock nvIndex), room => marshalNvWriteLock nvIndex room
  | some (.selfTest yesNo), room => marshalSelftest yesNo room
  | some (.hierarchyControl enable state), room =>
    marshalHierarchyControl enable state room
  | some .clear, room => marshalClear room
  | some (.pcrExtend pcrHandle digests), room =>
    marshalPcrExtend pcrHandle digests room
  | none, room => { room with space := 0 }

/-- The end of `tpm_marshal_command`. -/
def marshalHeader (code : Nat) (buffer marshaledSize : Nat) (room : Room) : Room :=
  let header : Room := { room with position := buffer, space := sizeofHeader }
  let header := marshalU16 (BitVec.ofNat 16 room.tag) header
  let header := marshalU32 (BitVec.ofNat 32 marshaledSize) header
  marshalU32 (BitVec.ofNat 32 code) header

/-- `tpm_marshal_command`, with `none` as an unsupported command.  The result is
an `int`. -/
def tpmMarshalCommand (command : Option Command) (memory : Memory)
    (buffer bufferSize : Nat) : Int × Memory :=
  let maxBodySize := bufferSize - sizeofHeader
  let room := marshalBody command ⟨memory, buffer + sizeofHeader, maxBodySize, tpmStNoSessions⟩
  if room.space > 0 then
    let marshaledSize := (maxBodySize + 4294967296 - room.space + sizeofHeader) % 4294967296
    let header := marshalHeader (command.elim 0 Command.code) buffer marshaledSize room
    ((BitVec.ofNat 32 marshaledSize).toInt, header.memory)
  else (-1, room.memory)

/-- A field is a number, bytes with a length before them, or bytes alone. -/
inductive Field where
  | number (width value : Nat)
  | sized (width : Nat) (bytes : List Byte)
  | blob (bytes : List Byte)

def Field.encode : Field → List Byte
  | number width value => encodeBE width value
  | sized width bytes => encodeBE width bytes.length ++ bytes
  | blob bytes => bytes

def encodeFields (fields : List Field) : List Byte := fields.flatMap Field.encode

/-- The length before the bytes of a field is the number of these bytes. -/
def Field.Prefixed : Field → Prop
  | sized width bytes =>
    decodeBE (encodeBE width bytes.length) = bytes.length
  | _ => True

def Tpm2b.field (buffer : Tpm2b) : Field := .sized 2 buffer.data

def NvPublic.fields (nvpub : NvPublic) : List Field :=
  [.number 4 nvpub.nvIndex.toNat, .number 2 nvpub.nameAlg.toNat,
    .number 4 nvpub.attributes.toNat, nvpub.authPolicy.field,
    .number 2 nvpub.dataSize.toNat]

/-- A password session without a nonce and an authorisation value. -/
def sessionFields : List Field := [.number 4 tpmRsPw, .sized 2 [], .number 1 0, .sized 2 []]

def TpmtHa.fields (tpmtha : TpmtHa) : List Field :=
  [.number 2 tpmtha.hashAlg.toNat, .blob tpmtha.sha256]

namespace Command

def handles : Command → Option (List (BitVec 32))
  | startup _ => none
  | getCapability _ _ _ => none
  | nvRead nvIndex _ _ => some [platformHandle, nvIndex]
  | nvDefineSpace _ _ => some [platformHandle]
  | nvWrite nvIndex _ _ => some [platformHandle, nvIndex]
  | nvWriteLock nvIndex => some [platformHandle, nvIndex]
  | selfTest _ => none
  | hierarchyControl _ _ => some [platformHandle]
  | clear => some [platformHandle]
  | pcrExtend pcrHandle _ => some [pcrHandle]

def parameters : Command → List Field
  | startup startupType => [.number 2 startupType.toNat]
  | getCapability capability property propertyCount =>
    [.number 4 capability.toNat, .number 4 property.toNat, .number 4 propertyCount.toNat]
  | nvRead _ size offset => [.number 2 size.toNat, .number 2 offset.toNat]
  | nvDefineSpace auth publicInfo =>
    [auth.field, .sized 2 (encodeFields publicInfo.fields)]
  | nvWrite _ data offset => [data.field, .number 2 offset.toNat]
  | nvWriteLock _ => []
  | selfTest yesNo => [.number 1 yesNo.toNat]
  | hierarchyControl enable state =>
    [.number 4 enable.toNat, .number 1 state.toNat]
  | clear => []
  | pcrExtend _ digests => .number 4 digests.digests.length ::
      digests.digests.flatMap TpmtHa.fields

def authorisation (handles : List (BitVec 32)) : List Field :=
  handles.map (fun handle => .number 4 handle.toNat) ++ [.sized 4 (encodeFields sessionFields)]

def fields (command : Command) : List Field :=
  (command.handles.elim [] authorisation) ++ command.parameters

def nested : Command → List Field
  | nvDefineSpace _ publicInfo => sessionFields ++ publicInfo.fields
  | _ => sessionFields

def body (command : Command) : List Byte := encodeFields command.fields

/-- The tag says whether there is an authorisation area. -/
def tag (command : Command) : Nat :=
  if command.handles.isSome then tpmStSessions else tpmStNoSessions

def message (command : Command) : List Byte :=
  encodeFields [.number 2 command.tag,
    .number 4 (sizeofHeader + command.body.length), .number 4 command.code,
    .blob command.body]

end Command

/-- The encoder writes in the buffer only, it refuses the commands that do not
fit, and it writes the others. -/
def MarshalExact (command : Command) (memory : Memory) (buffer bufferSize : Nat) : Prop :=
  let result := tpmMarshalCommand (some command) memory buffer bufferSize
  SameOutside memory result.2 buffer (buffer + bufferSize) ∧
    (bufferSize < command.message.length → result.1 = -1) ∧
    (command.message.length ≤ bufferSize →
      result.1 = command.message.length ∧
        load result.2 buffer command.message.length = command.message ∧
        ∀ field ∈ command.fields ++ command.nested, field.Prefixed)

def Command.HasDigest : Command → Prop
  | pcrExtend _ digests => digests.digests ≠ []
  | _ => False

/-- The size of the public area is a number of 16 bits. -/
def Command.PublicFits : Command → Prop
  | nvDefineSpace _ publicInfo => publicInfo.authPolicy.data.length ≤ 65521
  | _ => True

/-- The message does not fill the buffer, one that does not fit has no digest,
and one that fits has a small public area. -/
def MarshalFits (command : Command) (bufferSize : Nat) : Prop :=
  command.message.length ≠ bufferSize ∧
    (bufferSize < command.message.length → ¬ command.HasDigest) ∧
    (command.message.length < bufferSize → command.PublicFits)

/-- Fields with room to spare are written whole, and others leave no room. -/
structure Writes (fields : List Field) (first last : Room) : Prop where
  whole : (encodeFields fields).length < first.space →
    last.memory = store first.memory first.position (encodeFields fields) ∧
      last.position = first.position + (encodeFields fields).length ∧
      last.space = first.space - (encodeFields fields).length
  spent : first.space ≤ (encodeFields fields).length → last.space = 0
  inside : SameOutside first.memory last.memory first.position (first.position + first.space)

variable {bytes : List Byte}

section Writers

variable {first second third : Room} {fields : List Field}

theorem encodeFields_append (fields others : List Field) :
    encodeFields (fields ++ others) = encodeFields fields ++ encodeFields others :=
  List.flatMap_append

theorem encodeFields_singleton (field : Field) : encodeFields [field] = field.encode :=
  List.append_nil _

theorem Writes.refl (room : Room) : Writes [] room room :=
  ⟨fun _ => ⟨rfl, rfl, rfl⟩, fun none => Nat.le_zero.mp none, SameOutside.refl _ _ _⟩

theorem Writes.append {fields others : List Field} (left : Writes fields first second)
    (right : Writes others second third) : Writes (fields ++ others) first third := by
  have length : (encodeFields (fields ++ others)).length =
      (encodeFields fields).length + (encodeFields others).length := by
    rw [encodeFields_append, List.length_append]
  by_cases room : (encodeFields fields).length < first.space
  · obtain ⟨memory, position, space⟩ := left.whole room
    refine ⟨fun fits => ?_, fun full => right.spent (by omega), ?_⟩
    · obtain ⟨memory', position', space'⟩ := right.whole (by omega)
      refine ⟨?_, by omega, by omega⟩
      rw [memory', position, memory, store_store_append, encodeFields_append]
    · exact left.inside.trans (right.inside.mono (by omega) (by omega))
  · have space := left.spent (not_lt.mp room)
    refine ⟨fun fits => by omega, fun _ => right.spent (by omega), ?_⟩
    refine left.inside.trans fun address outside => ?_
    exact right.inside address (by omega)

theorem Writes.cons {field : Field} (left : Writes [field] first second)
    (right : Writes fields second third) : Writes (field :: fields) first third :=
  left.append right

theorem marshalNumber_writes (width value : Nat) (room : Room) :
    Writes [.number width value] room (marshalNumber width value room) := by
  have length : (encodeFields [.number width value]).length = width := by
    rw [encodeFields_singleton, Field.encode, length_encodeBE]
  rw [marshalNumber]
  split_ifs with short
  · exact ⟨fun fits => by omega, fun _ => rfl, SameOutside.refl _ _ _⟩
  · refine ⟨fun _ => ⟨?_, ?_, ?_⟩, fun full => ?_, ?_⟩
    · rw [encodeFields_singleton]
      rfl
    · rw [length]
    · rw [length]
    · dsimp only
      omega
    · exact sameOutside_writeBE le_rfl (by omega)

theorem Writes.of_encode_eq {fields others : List Field} (writes : Writes fields first second)
    (same : encodeFields fields = encodeFields others) : Writes others first second := by
  obtain ⟨whole, spent, inside⟩ := writes
  rw [same] at whole spent
  exact ⟨whole, spent, inside⟩

theorem marshalBlob_nil (room : Room) : marshalBlob [] room = room := if_neg (Nat.not_lt_zero _)

theorem marshalEmpty_writes (room : Room) :
    Writes [.sized 2 []] room (marshalBlob [] (marshalU16 0 room)) := by
  rw [marshalBlob_nil]
  exact (marshalNumber_writes 2 0 room).of_encode_eq rfl

theorem marshalTpm2b_writes (buffer : Tpm2b) (room : Room) :
    Writes [buffer.field] room (marshalTpm2b buffer room) := by
  have small := buffer.small
  have encoded : encodeFields [buffer.field] = encodeBE 2 buffer.data.length ++ buffer.data :=
    encodeFields_singleton _
  have length : (encodeFields [buffer.field]).length = 2 + buffer.data.length := by
    rw [encoded, List.length_append, length_encodeBE]
  have number : (BitVec.ofNat 16 buffer.data.length).toNat = buffer.data.length := by
    rw [BitVec.toNat_ofNat]
    exact Nat.mod_eq_of_lt small
  rw [marshalTpm2b]
  split_ifs with short
  · exact ⟨fun fits => by omega, fun _ => rfl, SameOutside.refl _ _ _⟩
  · have written : marshalU16 (BitVec.ofNat 16 buffer.data.length) room =
        ⟨writeBE 2 room.memory room.position buffer.data.length,
          room.position + 2, room.space - 2, room.tag⟩ := by
      rw [marshalU16, number, marshalNumber, if_neg (by omega)]
    rw [written]
    have whole : store (writeBE 2 room.memory room.position buffer.data.length)
        (room.position + 2) buffer.data =
        store room.memory room.position (encodeFields [buffer.field]) := by
      have next := store_store_append room.memory room.position
        (encodeBE 2 buffer.data.length) buffer.data
      rwa [length_encodeBE, ← encoded] at next
    refine ⟨fun _ => ⟨whole, ?_, ?_⟩, fun full => ?_, ?_⟩
    · dsimp only
      omega
    · dsimp only
      omega
    · dsimp only
      omega
    · dsimp only
      rw [whole]
      exact sameOutside_store le_rfl (by omega)

theorem marshalHandles_writes (handles : List (BitVec 32)) (room : Room) :
    Writes (handles.map fun handle => .number 4 handle.toNat) room
      (marshalHandles handles room) := by
  induction handles generalizing room with
  | nil => exact Writes.refl room
  | cons handle handles ih =>
    exact (marshalNumber_writes 4 handle.toNat room).cons (ih _)

theorem marshalNvPublic_writes (nvpub : NvPublic) (room : Room) :
    Writes nvpub.fields room (marshalNvPublic nvpub room) :=
  (marshalNumber_writes 4 _ _).cons <|
    (marshalNumber_writes 2 _ _).cons <|
    (marshalNumber_writes 4 _ _).cons <|
    (marshalTpm2b_writes _ _).cons <|
    marshalNumber_writes 2 _ _

theorem marshalSession_writes (room : Room) :
    Writes sessionFields room (marshalSession passwordSession room) :=
  (marshalNumber_writes 4 _ _).cons <|
    (marshalEmpty_writes _).cons <|
    (marshalNumber_writes 1 _ _).cons <|
    marshalEmpty_writes _

variable {width : Nat} {room : Room}

theorem paste_writes (number : Nat) {last : Room} (fits : width ≤ room.space)
    (body : Writes fields { room with
      position := room.position + width
      space := room.space - width } last)
    (same : encodeBE width number = encodeBE width (room.space - width - last.space)) :
    Writes [.sized width (encodeFields fields)] room
      (if last.space = 0 then last
      else { last with
        memory := writeBE width last.memory room.position number }) := by
  have encoded : encodeFields [.sized width (encodeFields fields)] =
      encodeBE width (encodeFields fields).length ++ encodeFields fields :=
    encodeFields_singleton _
  have length : (encodeFields [.sized width (encodeFields fields)]).length =
      width + (encodeFields fields).length := by
    rw [encoded, List.length_append, length_encodeBE]
  have inside : SameOutside room.memory last.memory room.position (room.position + room.space) :=
    body.inside.mono (by dsimp only; omega) (by dsimp only; omega)
  split_ifs with none
  · refine ⟨fun more => ?_, fun _ => none, inside⟩
    have space := (body.whole (by dsimp only; omega)).2.2
    dsimp only at space
    omega
  · have more : (encodeFields fields).length < room.space - width := by
      by_contra full
      exact none (body.spent (not_lt.mp full))
    obtain ⟨memory, position, space⟩ := body.whole more
    dsimp only at memory position space
    refine ⟨fun _ => ⟨?_, ?_, ?_⟩, fun full => by omega, ?_⟩
    · have count : room.space - width - last.space = (encodeFields fields).length := by omega
      have behind := store_append room.memory room.position
        (encodeBE width (encodeFields fields).length) (encodeFields fields)
      rw [length_encodeBE, ← encoded] at behind
      rw [behind, ← memory, ← count, ← same]
      rfl
    · dsimp only
      omega
    · dsimp only
      omega
    · exact inside.trans (sameOutside_writeBE le_rfl (by omega))

theorem Writes.of_short (short : room.space < width)
    (sized : fields = [.sized width bytes]) (position : Nat) :
    Writes fields room { room with position := position, space := 0 } := by
  have length : (encodeFields fields).length = width + bytes.length := by
    rw [sized, encodeFields_singleton, Field.encode, List.length_append, length_encodeBE]
  exact ⟨fun fits => by omega, fun _ => rfl, SameOutside.refl _ _ _⟩

theorem marshalNumber_memory {value : Nat} (fits : width ≤ room.space) :
    (marshalNumber width value room).memory = writeBE width room.memory room.position value := by
  rw [marshalNumber, if_neg (not_lt.mpr fits)]

theorem length_sessionFields : (encodeFields sessionFields).length = 9 := rfl

theorem marshalSessionHeader_writes (room : Room) :
    Writes [.sized 4 (encodeFields sessionFields)] room
      (marshalSessionHeader passwordSession room) := by
  rw [marshalSessionHeader]
  dsimp only
  by_cases short : room.space < 4
  · rw [if_pos short]
    exact Writes.of_short short rfl _
  · rw [if_neg short]
    have body := marshalSession_writes ⟨room.memory, room.position + 4, room.space - 4, room.tag⟩
    generalize marshalSession passwordSession
      ⟨room.memory, room.position + 4, room.space - 4, room.tag⟩ = last
      at body ⊢
    have pasted := paste_writes
      (BitVec.ofNat 32 (room.space - 4 - last.space)).toNat
      (not_lt.mp short) body (by rw [BitVec.toNat_ofNat]; exact encodeBE_mod 4 _)
    by_cases none : last.space = 0
    · rw [if_pos none] at pasted ⊢
      exact pasted
    · rw [if_neg none] at pasted ⊢
      have fits : 4 ≤ room.space - 4 := by
        by_contra full
        have length := length_sessionFields
        exact none (body.spent (by dsimp only; omega))
      rw [marshalU32, marshalNumber_memory fits]
      exact pasted

theorem marshalCommonSessionHeader_writes (handles : List (BitVec 32)) (room : Room) :
    Writes (Command.authorisation handles) room (marshalCommonSessionHeader handles room) := by
  obtain ⟨whole, spent, inside⟩ :=
    (marshalHandles_writes handles { room with tag := tpmStSessions }).append
      (marshalSessionHeader_writes _)
  exact ⟨whole, spent, inside⟩

theorem marshalNvDefineSpace_writes (auth : Tpm2b) (publicInfo : NvPublic) (room : Room) :
    Writes (Command.nvDefineSpace auth publicInfo).fields room
      (marshalNvDefineSpace auth publicInfo room) := by
  have first := (marshalCommonSessionHeader_writes [platformHandle] room).append
    (marshalTpm2b_writes auth _)
  rw [marshalNvDefineSpace]
  generalize marshalTpm2b auth
    (marshalCommonSessionHeader [platformHandle] room) = middle at first ⊢
  have last : Writes [.sized 2 (encodeFields publicInfo.fields)] middle
      (if middle.space < 2 then
        { middle with position := middle.position + 2, space := 0 }
      else
        let room := marshalNvPublic publicInfo ⟨middle.memory,
          middle.position + 2, middle.space - 2, middle.tag⟩
        if room.space = 0 then room
        else { room with memory := (marshalU16
          (BitVec.ofNat 16 (middle.space - 2 - room.space))
          { room with position := middle.position, space := 2 }).memory }) := by
    by_cases short : middle.space < 2
    · rw [if_pos short]
      exact Writes.of_short short rfl _
    · rw [if_neg short]
      have body := marshalNvPublic_writes publicInfo
        ⟨middle.memory, middle.position + 2, middle.space - 2, middle.tag⟩
      generalize marshalNvPublic publicInfo
        ⟨middle.memory, middle.position + 2, middle.space - 2, middle.tag⟩ =
        last at body ⊢
      have pasted := paste_writes
        (BitVec.ofNat 16 (middle.space - 2 - last.space)).toNat
        (not_lt.mp short) body (by rw [BitVec.toNat_ofNat]; exact encodeBE_mod 2 _)
      by_cases none : last.space = 0
      · rw [if_pos none] at pasted ⊢
        exact pasted
      · rw [if_neg none] at pasted ⊢
        have fits : 2 ≤ (⟨last.memory, middle.position, 2, last.tag⟩ : Room).space := le_rfl
        rw [marshalU16, marshalNumber_memory fits]
        exact pasted
  exact (first.append last).of_encode_eq (by
    rw [Command.fields, Command.parameters, Command.handles, List.append_assoc]
    rfl)

theorem marshalBody_writes (command : Command) (plain : ¬ command.HasDigest) (room : Room) :
    Writes command.fields room (marshalBody (some command) room) := by
  cases command with
  | startup startupType => exact marshalNumber_writes 2 _ room
  | getCapability capability property propertyCount =>
    exact (marshalNumber_writes 4 _ room).cons <|
      (marshalNumber_writes 4 _ _).cons <| marshalNumber_writes 4 _ _
  | nvRead nvIndex size offset =>
    exact (marshalCommonSessionHeader_writes _ room).append <|
      (marshalNumber_writes 2 _ _).cons <| marshalNumber_writes 2 _ _
  | nvDefineSpace auth publicInfo =>
    exact marshalNvDefineSpace_writes auth publicInfo room
  | nvWrite nvIndex data offset =>
    exact (marshalCommonSessionHeader_writes _ room).append <|
      (marshalTpm2b_writes _ _).cons <| marshalNumber_writes 2 _ _
  | nvWriteLock nvIndex =>
    exact (marshalCommonSessionHeader_writes _ room).append (Writes.refl _)
  | selfTest yesNo => exact marshalNumber_writes 1 _ room
  | hierarchyControl enable state =>
    exact ((marshalCommonSessionHeader_writes [platformHandle] room).append <|
      (marshalNumber_writes 4 _ _).cons <| marshalNumber_writes 1 _ _)
  | clear =>
    exact (marshalCommonSessionHeader_writes _ room).append (Writes.refl _)
  | pcrExtend pcrHandle digests =>
    obtain ⟨digests, bounded⟩ := digests
    cases digests with
    | nil =>
      exact (marshalCommonSessionHeader_writes _ room).append (marshalNumber_writes 4 _ _)
    | cons digest digests =>
      exact absurd (List.cons_ne_nil digest digests) plain

/-- What a body does to the buffer: a digest that does not fit leaves the
greatest room. -/
structure Marshals (command : Command) (first last : Room) : Prop where
  whole : command.body.length < first.space →
    last.memory = store first.memory first.position command.body ∧
      last.position = first.position + command.body.length ∧
      last.space = first.space - command.body.length
  full : first.space = command.body.length → last.space = 0
  short : first.space < command.body.length → ¬ command.HasDigest → last.space = 0
  wrong : first.space < command.body.length → command.HasDigest → last.space = sizeMax
  inside : SameOutside first.memory last.memory first.position (first.position + first.space)

theorem marshals_of_digest (pcrHandle : BitVec 32) (digest : TpmtHa)
    (bounded : [digest].length ≤ 1) (room : Room) :
    Marshals (.pcrExtend pcrHandle ⟨[digest], bounded⟩) room
      (marshalBody (some (.pcrExtend pcrHandle ⟨[digest], bounded⟩)) room) := by
  have left := (marshalCommonSessionHeader_writes [pcrHandle] room).append <|
    (marshalNumber_writes 4 1 _).cons <|
    marshalNumber_writes 2 digest.hashAlg.toNat _
  have size := digest.size
  have last : marshalBody (some (.pcrExtend pcrHandle ⟨[digest], bounded⟩))
      room = marshalBlob digest.sha256 (marshalNumber 2 digest.hashAlg.toNat
        (marshalNumber 4 1 (marshalCommonSessionHeader [pcrHandle] room))) := rfl
  rw [last]
  generalize marshalNumber 2 digest.hashAlg.toNat (marshalNumber 4 1
    (marshalCommonSessionHeader [pcrHandle] room)) = middle at left ⊢
  have body : (Command.pcrExtend pcrHandle ⟨[digest], bounded⟩).body =
      encodeFields (Command.authorisation [pcrHandle] ++
        [.number 4 1, .number 2 digest.hashAlg.toNat]) ++ digest.sha256 := by
    have shape : (Command.pcrExtend pcrHandle ⟨[digest], bounded⟩).fields =
        (Command.authorisation [pcrHandle] ++
          [.number 4 1, .number 2 digest.hashAlg.toNat]) ++
          [.blob digest.sha256] := by
      rw [List.append_assoc]
      rfl
    rw [Command.body, shape, encodeFields_append, encodeFields_singleton]
    rfl
  generalize Command.authorisation [pcrHandle] ++
    [.number 4 1, .number 2 digest.hashAlg.toNat] = fields at left body
  have length : (Command.pcrExtend pcrHandle ⟨[digest], bounded⟩).body.length =
      (encodeFields fields).length + 32 := by
    rw [body, List.length_append, size]
  rw [marshalBlob, size]
  by_cases room' : (encodeFields fields).length < room.space
  · obtain ⟨memory, position, space⟩ := left.whole room'
    by_cases fits : middle.space < 32
    · rw [if_pos fits]
      exact ⟨fun more => by omega, fun same => by omega,
        fun _ plain => absurd (List.cons_ne_nil digest []) plain,
        fun _ _ => rfl, left.inside⟩
    · rw [if_neg fits]
      have whole : store middle.memory middle.position digest.sha256 =
          store room.memory room.position
            (Command.pcrExtend pcrHandle ⟨[digest], bounded⟩).body := by
        rw [memory, position, store_store_append, body]
      refine ⟨fun more => ⟨whole, ?_, ?_⟩, fun same => ?_,
        fun _ plain => absurd (List.cons_ne_nil digest []) plain,
        fun short _ => by omega, ?_⟩
      · dsimp only
        omega
      · dsimp only
        omega
      · dsimp only
        omega
      · dsimp only
        rw [whole]
        exact sameOutside_store le_rfl (by omega)
  · have space := left.spent (not_lt.mp room')
    rw [if_pos (by omega)]
    exact ⟨fun more => by omega, fun same => by omega,
      fun _ plain => absurd (List.cons_ne_nil digest []) plain,
      fun _ _ => rfl, left.inside⟩

theorem marshalBody_marshals (command : Command) (room : Room) :
    Marshals command room (marshalBody (some command) room) := by
  have plain (plain : ¬ command.HasDigest) :
      Marshals command room (marshalBody (some command) room) := by
    obtain ⟨whole, spent, inside⟩ := marshalBody_writes command plain room
    exact ⟨whole, fun same => spent same.le, fun short _ => spent short.le,
      fun _ digest => absurd digest plain, inside⟩
  cases command with
  | pcrExtend pcrHandle digests =>
    obtain ⟨digests, bounded⟩ := digests
    rcases digests with _ | ⟨digest, _ | ⟨second, rest⟩⟩
    · exact plain fun some => some rfl
    · exact marshals_of_digest pcrHandle digest bounded room
    · exact absurd bounded (by rw [List.length_cons, List.length_cons]; omega)
  | _ => exact plain id

@[simp]
theorem marshalNumber_tag (width value : Nat) (room : Room) :
    (marshalNumber width value room).tag = room.tag := by
  rw [marshalNumber]
  split_ifs
  · rfl
  · rfl

@[simp]
theorem marshalBlob_tag (blob : List Byte) (room : Room) :
    (marshalBlob blob room).tag = room.tag := by
  rw [marshalBlob]
  split_ifs
  · rfl
  · rfl

@[simp]
theorem marshalTpm2b_tag (buffer : Tpm2b) (room : Room) :
    (marshalTpm2b buffer room).tag = room.tag := by
  rw [marshalTpm2b]
  split_ifs
  · rfl
  · exact marshalNumber_tag _ _ _

@[simp]
theorem marshalHandles_tag (handles : List (BitVec 32)) (room : Room) :
    (marshalHandles handles room).tag = room.tag := by
  induction handles generalizing room with
  | nil => rfl
  | cons handle handles ih => exact (ih _).trans (marshalNumber_tag _ _ _)

@[simp]
theorem marshalSessionHeader_tag (header : SessionHeader) (room : Room) :
    (marshalSessionHeader header room).tag = room.tag := by
  rw [marshalSessionHeader]
  dsimp only
  split_ifs
  · rfl
  · simp [marshalSession, marshalU8, marshalU16, marshalU32]
  · simp [marshalSession, marshalU8, marshalU16, marshalU32]

theorem marshalBody_tag (command : Command) (room : Room) (plain : room.tag = tpmStNoSessions) :
    (marshalBody (some command) room).tag = command.tag := by
  have common (handles : List (BitVec 32)) (room : Room) :
      (marshalCommonSessionHeader handles room).tag = tpmStSessions := by
    simp [marshalCommonSessionHeader]
  cases command with
  | startup startupType =>
    exact (marshalNumber_tag _ _ _).trans plain
  | getCapability capability property propertyCount =>
    simp [marshalBody, marshalGetCapability, marshalU32, plain, Command.tag, Command.handles]
  | nvRead nvIndex size offset =>
    simp [marshalBody, marshalNvRead, marshalU16, common, Command.tag, Command.handles]
  | nvDefineSpace auth publicInfo =>
    rw [marshalBody, marshalNvDefineSpace]
    dsimp only
    split_ifs
    · simp [common, Command.tag, Command.handles]
    · simp [marshalNvPublic, marshalU16, marshalU32, common, Command.tag, Command.handles]
    · simp [marshalNvPublic, marshalU16, marshalU32, common, Command.tag, Command.handles]
  | nvWrite nvIndex data offset =>
    simp [marshalBody, marshalNvWrite, marshalU16, common, Command.tag, Command.handles]
  | nvWriteLock nvIndex => exact common _ _
  | selfTest yesNo => exact (marshalNumber_tag _ _ _).trans plain
  | hierarchyControl enable state =>
    simp [marshalBody, marshalHierarchyControl, marshalU8, marshalU32, Command.tag, Command.handles]
  | clear => exact common _ _
  | pcrExtend pcrHandle digests =>
    have fold (digests : List TpmtHa) (room : Room) :
        (digests.foldl (fun room digest => marshalTpmtHa digest room) room).tag = room.tag := by
      induction digests generalizing room with
      | nil => rfl
      | cons digest digests ih =>
        exact (ih _).trans ((marshalBlob_tag _ _).trans (marshalNumber_tag _ _ _))
    exact (fold _ _).trans ((marshalNumber_tag _ _ _).trans (common _ _))

theorem length_body_lt (command : Command) : command.body.length < 1000000 := by
  cases command with
  | nvDefineSpace auth publicInfo =>
    have first := auth.small
    have second := publicInfo.authPolicy.small
    simp [Command.body, Command.fields, Command.handles, Command.parameters, Command.authorisation,
      encodeFields, Field.encode, Tpm2b.field, NvPublic.fields, sessionFields]
    omega
  | nvWrite nvIndex data offset =>
    have first := data.small
    simp [Command.body, Command.fields, Command.handles, Command.parameters, Command.authorisation,
      encodeFields, Field.encode, Tpm2b.field, sessionFields]
    omega
  | pcrExtend pcrHandle digests =>
    obtain ⟨digests, bounded⟩ := digests
    rcases digests with _ | ⟨digest, _ | ⟨second, rest⟩⟩
    · simp [Command.body, Command.fields, Command.handles, Command.parameters,
        Command.authorisation, encodeFields, Field.encode, sessionFields]
    · have size := digest.size
      simp [Command.body, Command.fields, Command.handles, Command.parameters,
        Command.authorisation, encodeFields, Field.encode, sessionFields, TpmtHa.fields, size]
    · exact absurd bounded (by rw [List.length_cons, List.length_cons]; omega)
  | _ =>
    simp [Command.body, Command.fields, Command.handles, Command.parameters,
      Command.authorisation, encodeFields, Field.encode, sessionFields]

end Writers

section Message

variable {command : Command} {memory : Memory} {buffer bufferSize : Nat}

theorem marshalHeader_memory (code marshaledSize : Nat) (room : Room) :
    (marshalHeader code buffer marshaledSize room).memory =
      store room.memory buffer (encodeFields [.number 2 room.tag,
        .number 4 marshaledSize, .number 4 code]) := by
  have encoded : encodeFields [.number 2 room.tag, .number 4 marshaledSize,
      .number 4 code] = encodeBE 2 room.tag ++ encodeBE 4 marshaledSize ++ encodeBE 4 code := by
    rw [List.append_assoc]
    exact congrArg (encodeBE 2 room.tag ++ ·)
      (congrArg (encodeBE 4 marshaledSize ++ ·) (List.append_nil _))
  have number (width value : Nat) :
      encodeBE width (value % 2 ^ (8 * width)) = encodeBE width value := by
    rw [pow_mul]
    exact encodeBE_mod width value
  have written (tag size code : Nat) :
      (marshalNumber 4 code (marshalNumber 4 size (marshalNumber 2 tag
        { room with position := buffer, space := sizeofHeader }))).memory =
        store (store (store room.memory buffer (encodeBE 2 tag)) (buffer + 2)
          (encodeBE 4 size)) (buffer + 2 + 4) (encodeBE 4 code) := rfl
  rw [marshalHeader, marshalU16, marshalU32, marshalU32, BitVec.toNat_ofNat, BitVec.toNat_ofNat,
    BitVec.toNat_ofNat, written, number 2, number 4, number 4]
  have first := store_store_append room.memory buffer (encodeBE 2 room.tag)
    (encodeBE 4 marshaledSize)
  have second := store_store_append room.memory buffer
    (encodeBE 2 room.tag ++ encodeBE 4 marshaledSize) (encodeBE 4 code)
  rw [List.length_append, length_encodeBE, length_encodeBE, ← Nat.add_assoc] at second
  rw [length_encodeBE] at first
  rw [first, second, encoded]

theorem message_eq (command : Command) :
    command.message = encodeFields [.number 2 command.tag,
      .number 4 (sizeofHeader + command.body.length),
      .number 4 command.code] ++ command.body :=
  (encodeFields_append [.number 2 command.tag,
      .number 4 (sizeofHeader + command.body.length),
      .number 4 command.code] [.blob command.body]).trans
    (congrArg (_ ++ ·) (encodeFields_singleton _))

theorem length_message (command : Command) : command.message.length = 10 + command.body.length := by
  rw [message_eq, List.length_append]
  rfl

theorem toInt_ofNat_of_lt {number : Nat} (small : number < 2147483648) :
    (BitVec.ofNat 32 number).toInt = number := by
  have value : (BitVec.ofNat 32 number).toNat = number := by
    rw [BitVec.toNat_ofNat]
    exact Nat.mod_eq_of_lt (by omega)
  rw [BitVec.toInt_eq_toNat_of_lt (by omega), value]

def bodyRoom (memory : Memory) (buffer bufferSize : Nat) : Room :=
  ⟨memory, buffer + sizeofHeader, bufferSize - sizeofHeader, tpmStNoSessions⟩

theorem tpmMarshalCommand_of_zero
    (none : (marshalBody (some command) (bodyRoom memory buffer bufferSize)).space = 0) :
    tpmMarshalCommand (some command) memory buffer bufferSize =
      (-1, (marshalBody (some command) (bodyRoom memory buffer bufferSize)).memory) :=
  if_neg (not_lt.mpr none.le)

theorem tpmMarshalCommand_of_pos {last : Room}
    (body : marshalBody (some command) (bodyRoom memory buffer bufferSize) = last)
    (some' : 0 < last.space) {marshaledSize : Nat}
    (size : (bufferSize - 10 + 4294967296 - last.space + 10) % 4294967296 = marshaledSize)
    (small : marshaledSize < 2147483648) :
    tpmMarshalCommand (some command) memory buffer bufferSize =
      ((marshaledSize : Int), store last.memory buffer
        (encodeFields [.number 2 command.tag, .number 4 marshaledSize,
          .number 4 command.code])) := by
  have tag : last.tag = command.tag := by
    rw [← body]
    exact marshalBody_tag command _ rfl
  have size' : (bufferSize - sizeofHeader + 4294967296 - last.space +
      sizeofHeader) % 4294967296 = marshaledSize := size
  have step : tpmMarshalCommand (some command) memory buffer bufferSize =
      if last.space > 0 then
        ((BitVec.ofNat 32 ((bufferSize - sizeofHeader + 4294967296 -
          last.space + sizeofHeader) % 4294967296)).toInt,
          (marshalHeader command.code buffer ((bufferSize - sizeofHeader +
            4294967296 - last.space + sizeofHeader) % 4294967296)
            last).memory)
      else (-1, last.memory) := by
    rw [← body]
    rfl
  rw [step, if_pos some', size', toInt_ofNat_of_lt small, marshalHeader_memory, tag]

section

variable (header : 10 ≤ bufferSize)
include header

theorem tpmMarshalCommand_of_lt (fits : command.message.length < bufferSize) :
    tpmMarshalCommand (some command) memory buffer bufferSize =
      ((command.message.length : Int), store memory buffer command.message) := by
  have length := length_message command
  have small := length_body_lt command
  have space : (bodyRoom memory buffer bufferSize).space = bufferSize - 10 := rfl
  obtain ⟨written, position, rest⟩ := (marshalBody_marshals command
    (bodyRoom memory buffer bufferSize)).whole (by omega)
  rw [tpmMarshalCommand_of_pos rfl (by omega)
    (show _ = command.message.length by omega) (by omega), written]
  have behind := store_append memory buffer (encodeFields
    [.number 2 command.tag, .number 4 (sizeofHeader + command.body.length),
      .number 4 command.code]) command.body
  rw [← message_eq] at behind
  rw [behind, length]
  rfl

/-- A command that fills the buffer is refused, and so is a greater one without
a digest. -/
theorem tpmMarshalCommand_of_le (full : bufferSize ≤ command.message.length)
    (plain : bufferSize < command.message.length → ¬ command.HasDigest) :
    (tpmMarshalCommand (some command) memory buffer bufferSize).1 = -1 := by
  have length := length_message command
  have space : (bodyRoom memory buffer bufferSize).space = bufferSize - 10 := rfl
  have marshals := marshalBody_marshals command (bodyRoom memory buffer bufferSize)
  rw [tpmMarshalCommand_of_zero]
  rcases full.eq_or_lt with same | short
  · exact marshals.full (by omega)
  · exact marshals.short (by omega) (plain short)

theorem tpmMarshalCommand_of_hasDigest
    (short : bufferSize < command.message.length) (digest : command.HasDigest) :
    (tpmMarshalCommand (some command) memory buffer bufferSize).1 = (bufferSize + 1 : Nat) := by
  have length := length_message command
  have small := length_body_lt command
  have space : (bodyRoom memory buffer bufferSize).space = bufferSize - 10 := rfl
  have most : sizeMax = 4294967295 := rfl
  have rest := (marshalBody_marshals command
    (bodyRoom memory buffer bufferSize)).wrong (by omega) digest
  rw [tpmMarshalCommand_of_pos rfl (by omega) (show _ = bufferSize + 1 by omega) (by omega)]

theorem tpmMarshalCommand_inside :
    SameOutside memory
      (tpmMarshalCommand (some command) memory buffer bufferSize).2 buffer
      (buffer + bufferSize) := by
  have space : (bodyRoom memory buffer bufferSize).space = bufferSize - 10 := rfl
  have start : (bodyRoom memory buffer bufferSize).position = buffer + 10 := rfl
  have body : SameOutside memory (marshalBody (some command)
      (bodyRoom memory buffer bufferSize)).memory buffer (buffer + bufferSize) :=
    (marshalBody_marshals command
      (bodyRoom memory buffer bufferSize)).inside.mono (by omega) (by omega)
  rcases Nat.eq_zero_or_pos (marshalBody (some command)
    (bodyRoom memory buffer bufferSize)).space with none | some'
  · rw [tpmMarshalCommand_of_zero none]
    exact body
  · have step : tpmMarshalCommand (some command) memory buffer bufferSize =
        (_, (marshalHeader command.code buffer _ _).memory) := if_pos some'
    rw [step, marshalHeader_memory]
    refine body.trans (sameOutside_store le_rfl ?_)
    show buffer + 10 ≤ buffer + bufferSize
    omega

end

end Message

section Lengths

variable {command : Command}

@[simp]
theorem Field.prefixed_number (width value : Nat) : (Field.number width value).Prefixed := trivial

theorem Field.prefixed_sized {width : Nat} :
    (Field.sized width bytes).Prefixed ↔ bytes.length < 256 ^ width := by
  rw [Prefixed, decodeBE_encodeBE]
  exact Nat.mod_eq_iff_lt (pow_pos (by decide) width).ne'

theorem Tpm2b.prefixed (buffer : Tpm2b) : buffer.field.Prefixed :=
  Field.prefixed_sized.mpr buffer.small

theorem NvPublic.length_fields (nvpub : NvPublic) :
    (encodeFields nvpub.fields).length = 14 + nvpub.authPolicy.data.length := by
  simp [encodeFields, Field.encode, Tpm2b.field, NvPublic.fields]
  omega

theorem prefixed_sessionFields : ∀ field ∈ sessionFields, field.Prefixed := by
  have empty : (Field.sized 2 []).Prefixed := Field.prefixed_sized.mpr (by decide)
  simp [sessionFields, empty]

theorem prefixed_authorisation (handles : List (BitVec 32)) :
    ∀ field ∈ Command.authorisation handles, field.Prefixed := by
  intro field member
  rcases List.mem_append.mp member with handle | area
  · obtain ⟨_, -, rfl⟩ := List.mem_map.mp handle
    trivial
  · rw [List.mem_singleton.mp area, Field.prefixed_sized, length_sessionFields]
    decide

theorem NvPublic.prefixed_fields (nvpub : NvPublic) : ∀ field ∈ nvpub.fields, field.Prefixed := by
  simp [NvPublic.fields, nvpub.authPolicy.prefixed]

theorem prefixed_parameters_iff :
    (∀ field ∈ command.parameters, field.Prefixed) ↔ command.PublicFits := by
  cases command with
  | nvDefineSpace auth publicInfo =>
    have length := publicInfo.length_fields
    rw [Command.parameters, List.forall_mem_cons, List.forall_mem_singleton,
      Field.prefixed_sized, Command.PublicFits, length]
    constructor
    · rintro ⟨-, small⟩
      omega
    · intro small
      exact ⟨auth.prefixed, by omega⟩
  | nvWrite nvIndex data offset =>
    refine iff_of_true ?_ trivial
    rw [Command.parameters, List.forall_mem_cons, List.forall_mem_singleton]
    exact ⟨data.prefixed, trivial⟩
  | pcrExtend pcrHandle digests =>
    refine iff_of_true ?_ trivial
    rw [Command.parameters, List.forall_mem_cons]
    refine ⟨trivial, fun field member => ?_⟩
    obtain ⟨digest, -, member⟩ := List.mem_flatMap.mp member
    rcases List.mem_cons.mp member with rfl | blob
    · trivial
    · rw [List.mem_singleton.mp blob]
      trivial
  | _ =>
    refine iff_of_true ?_ trivial
    simp [Command.parameters]

theorem prefixed_iff :
    (∀ field ∈ command.fields ++ command.nested, field.Prefixed) ↔ command.PublicFits := by
  have nested : ∀ field ∈ command.nested, field.Prefixed := by
    cases command with
    | nvDefineSpace auth publicInfo =>
      exact List.forall_mem_append.mpr ⟨prefixed_sessionFields, publicInfo.prefixed_fields⟩
    | _ => exact prefixed_sessionFields
  have handles : ∀ field ∈ command.handles.elim [] Command.authorisation, field.Prefixed := by
    cases command.handles with
    | none => exact List.forall_mem_nil _
    | some handles => exact prefixed_authorisation handles
  rw [← prefixed_parameters_iff]
  constructor
  · exact fun all field member =>
      all field (List.mem_append_left _ (List.mem_append_right _ member))
  · intro parameters
    have outer := List.forall_mem_append.mpr ⟨handles, parameters⟩
    exact List.forall_mem_append.mpr ⟨outer, nested⟩

end Lengths

/-- The encoder is exact unless the message fills the buffer, a digest does not
fit or a public area is too great. -/
theorem marshalExact_iff_fits (command : Command) (memory : Memory)
    (buffer : Nat) {bufferSize : Nat} (header : sizeofHeader ≤ bufferSize) :
    MarshalExact command memory buffer bufferSize ↔ MarshalFits command bufferSize := by
  rw [MarshalExact, MarshalFits]
  rcases Nat.lt_trichotomy command.message.length bufferSize with
    fits | same | short
  · have result := @tpmMarshalCommand_of_lt command memory buffer bufferSize header fits
    have inside := @tpmMarshalCommand_inside command memory buffer bufferSize header
    constructor
    · rintro ⟨-, -, whole⟩
      exact ⟨fits.ne, fun short => absurd short fits.le.not_gt,
        fun _ => prefixed_iff.mp (whole fits.le).2.2⟩
    · rintro ⟨-, -, small⟩
      refine ⟨inside, fun short => absurd short fits.le.not_gt, fun _ => ?_⟩
      rw [result]
      exact ⟨rfl, load_store_self _ _ _, prefixed_iff.mpr (small fits)⟩
  · have result := @tpmMarshalCommand_of_le command memory buffer bufferSize
      header same.ge (fun short => absurd same short.ne')
    constructor
    · rintro ⟨-, -, whole⟩
      have length := (whole same.le).1
      rw [result] at length
      omega
    · rintro ⟨differ, -⟩
      exact absurd same differ
  · constructor
    · rintro ⟨-, refused, -⟩
      refine ⟨short.ne', fun _ digest => ?_, fun fits => absurd fits short.le.not_gt⟩
      have result := @tpmMarshalCommand_of_hasDigest command memory buffer
        bufferSize header short digest
      rw [refused short] at result
      omega
    · rintro ⟨-, plain, -⟩
      exact ⟨tpmMarshalCommand_inside header,
        fun _ => tpmMarshalCommand_of_le header short.le plain,
        fun fits => absurd fits short.not_ge⟩

/-- A self test in a buffer with a byte to spare. -/
theorem marshalExact_selfTest :
    sizeofHeader ≤ 12 ∧ (MarshalExact (.selfTest 1) (fun _ => 0) 0 12 ↔
      MarshalFits (.selfTest 1) 12) :=
  ⟨by decide, marshalExact_iff_fits (.selfTest 1) (fun _ => 0) 0 (by decide)⟩

/-- A self test is a message of 11 bytes, and it is refused in a buffer of 11
bytes. -/
theorem not_marshalExact_selfTest : ¬ ∀ command memory buffer bufferSize,
    sizeofHeader ≤ bufferSize → MarshalExact command memory buffer bufferSize := by
  intro sound
  have whole := (sound (.selfTest 1) (fun _ => 0) 0 11 (by decide)).2.2 (by decide)
  exact absurd whole.1 (by decide)

end Coreboot.Tpm2
