import Coreboot.ByteMemory

/-!
# Decoding of TPM2 responses

A response of the device is a header and a body of big-endian fields. The readers share a cursor
with the number of bytes that remain, which is negative once something did not fit.
-/

namespace Coreboot.Tpm2

open ByteMemory

/-- The pointer into the response, the remaining space and the ranges that have
been read. -/
structure Cursor where
  position : Nat
  space : Int
  reads : List (Nat × Nat)
deriving DecidableEq, Repr

/-- A reader of a field, with the bytes of the field and of the result type. -/
def unmarshalNumber (width result : Nat) (data : Memory) (cursor : Cursor) : Nat × Cursor :=
  if cursor.space < 0 then (0, cursor)
  else if cursor.space < width then (0, { cursor with space := -1 })
  else (readBE width data cursor.position % 256 ^ result,
    ⟨cursor.position + width, cursor.space - width, cursor.reads ++ [(cursor.position, width)]⟩)

def unmarshalU16 : Memory → Cursor → Nat × Cursor := unmarshalNumber 2 2

/-- `unmarshal_u32`, whose result is an `uint16_t`. -/
def unmarshalU32 : Memory → Cursor → Nat × Cursor := unmarshalNumber 4 2

def unmarshalU8 : Memory → Cursor → Nat × Cursor := unmarshalNumber 1 1

def tpm2HierarchyControl : Nat := 0x121
def tpm2Clear : Nat := 0x126
def tpm2NvDefineSpace : Nat := 0x12a
def tpm2NvWrite : Nat := 0x137
def tpm2NvWriteLock : Nat := 0x138
def tpm2SelfTest : Nat := 0x143
def tpm2Startup : Nat := 0x144
def tpm2NvRead : Nat := 0x14e
def tpm2GetCapability : Nat := 0x17a
def tpm2PcrExtend : Nat := 0x182

def tpmCapTpmProperties : Nat := 6

/-- The size of `struct tpm_header`. -/
def sizeofHeader : Nat := 10

def maxTpmProperties : Nat := 29

structure TaggedProperty where
  property : Nat
  value : Nat
deriving DecidableEq, Repr

structure GetCapResponse where
  moreData : Nat
  capability : Nat
  count : Nat
  properties : List TaggedProperty
deriving DecidableEq, Repr

structure NvReadResponse where
  paramsSize : Nat
  size : Nat
  buffer : Option Nat
deriving DecidableEq, Repr

/-- The part of a response that depends on the command. -/
inductive Body where
  | ignored
  | getCapability (response : GetCapResponse)
  | nvRead (response : NvReadResponse)
deriving DecidableEq, Repr

structure Response where
  tag : Nat
  size : Nat
  code : Nat
  body : Body
deriving DecidableEq, Repr

/-- The loop of `unmarshal_get_capability`. -/
def unmarshalProperties (data : Memory) : Nat → Cursor → List TaggedProperty × Cursor
  | 0, cursor => ([], cursor)
  | count + 1, cursor =>
    let (property, cursor) := unmarshalU32 data cursor
    let (value, cursor) := unmarshalU32 data cursor
    let (rest, cursor) := unmarshalProperties data count cursor
    (⟨property, value⟩ :: rest, cursor)

def unmarshalGetCapability (data : Memory) (cursor : Cursor) : GetCapResponse × Cursor :=
  let (moreData, cursor) := unmarshalU8 data cursor
  let (capability, cursor) := unmarshalU32 data cursor
  if cursor.space < 0 then (⟨moreData, capability, 0, []⟩, cursor)
  else if capability = tpmCapTpmProperties then
    let (count, cursor) := unmarshalU32 data cursor
    if cursor.space < 0 then (⟨moreData, capability, count, []⟩, cursor)
    else if count > maxTpmProperties then
      (⟨moreData, capability, count, []⟩, { cursor with space := -1 })
    else
      let (properties, cursor) := unmarshalProperties data count cursor
      (⟨moreData, capability, count, properties⟩, cursor)
  else (⟨moreData, capability, 0, []⟩, { cursor with space := -1 })

/-- `unmarshal_TPM2B_MAX_NV_BUFFER`: the size and the buffer. -/
def unmarshalMaxNvBuffer (data : Memory) (cursor : Cursor) : Nat × Option Nat × Cursor :=
  let (size, cursor) := unmarshalU16 data cursor
  if cursor.space < 0 ∨ (size : Int) > cursor.space then
    (size, none, { cursor with space := -1 })
  else (size, some cursor.position, { cursor with
    position := cursor.position + size
    space := cursor.space - size })

def unmarshalNvRead (data : Memory) (cursor : Cursor) : NvReadResponse × Cursor :=
  let (paramsSize, cursor) := unmarshalU32 data cursor
  let (size, buffer, cursor) := unmarshalMaxNvBuffer data cursor
  if paramsSize ≠ size + 2 then (⟨paramsSize, size, buffer⟩, cursor)
  else if cursor.space < 0 then (⟨paramsSize, size, buffer⟩, cursor)
  -- The authorisation section is ignored.
  else (⟨paramsSize, size, buffer⟩, { cursor with
    position := cursor.position + cursor.space.toNat
    space := 0 })

/-- The switch of `tpm_unmarshal_response`.  The remaining bytes of an
unexpected command are read to be printed. -/
def unmarshalBody (command : Nat) (data : Memory) (cursor : Cursor) : Option Body × Cursor :=
  if command = tpm2Startup then (some .ignored, cursor)
  else if command = tpm2GetCapability then
    let (response, cursor) := unmarshalGetCapability data cursor
    (some (.getCapability response), cursor)
  else if command = tpm2NvRead then
    let (response, cursor) := unmarshalNvRead data cursor
    (some (.nvRead response), cursor)
  else if command = tpm2HierarchyControl ∨ command = tpm2Clear ∨
      command = tpm2NvDefineSpace ∨ command = tpm2NvWrite ∨
        command = tpm2NvWriteLock ∨ command = tpm2PcrExtend then
    (some .ignored, { cursor with space := 0 })
  else (none, { cursor with
    reads := cursor.reads ++ [(cursor.position, cursor.space.toNat)] })

/-- `tpm_unmarshal_response`, with a null pointer as `none`, and the ranges it
has read. -/
def tpmUnmarshalResponse (command : Nat) (data : Memory)
    (inSize : BitVec 32) : Option Response × List (Nat × Nat) :=
  let cursor : Cursor := ⟨0, inSize.toInt, []⟩
  if cursor.space < 0 ∨ inSize.toNat < sizeofHeader then (none, [])
  else
    let (tag, cursor) := unmarshalU16 data cursor
    let (size, cursor) := unmarshalU32 data cursor
    let (code, cursor) := unmarshalU32 data cursor
    if cursor.space = 0 then (some ⟨tag, size, code, .ignored⟩, cursor.reads)
    else
      let (body, cursor) := unmarshalBody command data cursor
      match body with
      | none => (none, cursor.reads)
      | some body =>
        if cursor.space ≠ 0 then (none, cursor.reads)
        else (some ⟨tag, size, code, body⟩, cursor.reads)

def wireProperties (data : Memory) : Nat → Nat → List TaggedProperty
  | 0, _ => []
  | count + 1, offset =>
    ⟨readBE 4 data offset, readBE 4 data (offset + 4)⟩ :: wireProperties data count (offset + 8)

/-- The header fields of a response are those on the wire. -/
def HeaderExact (data : Memory) (response : Response) : Prop :=
  response.tag = readBE 2 data 0 ∧ response.size = readBE 4 data 2 ∧ response.code = readBE 4 data 6

/-- A body of capabilities that has the right size, with its fields. -/
def CapabilityExact (data : Memory) (size : Nat) (body : Body) : Prop :=
  size = 19 + 8 * readBE 4 data 15 ∧
    body = .getCapability ⟨readBE 1 data 10, readBE 4 data 11,
      readBE 4 data 15, wireProperties data (readBE 4 data 15) 19⟩

/-- A body of data that lies in the response and agrees with the size of the
parameters, with its fields. -/
def NvReadExact (data : Memory) (size : Nat) (body : Body) : Prop :=
  16 + readBE 2 data 14 ≤ size ∧ readBE 4 data 10 = readBE 2 data 14 + 2 ∧
    body = .nvRead ⟨readBE 4 data 10, readBE 2 data 14, some 16⟩

/-- The decoder reads within the response, what it returns is what the wire
says, and a malformed body gives a null pointer. -/
def Exact (command : Nat) (data : Memory) (inSize : BitVec 32) : Prop :=
  (∀ read ∈ (tpmUnmarshalResponse command data inSize).2, read.1 + read.2 ≤ inSize.toNat) ∧
  ∀ response, (tpmUnmarshalResponse command data inSize).1 = some response →
    HeaderExact data response ∧
      (inSize.toNat ≠ sizeofHeader →
        (command = tpm2GetCapability → CapabilityExact data inSize.toNat response.body) ∧
        (command = tpm2NvRead → NvReadExact data inSize.toNat response.body))

/-- A field of 32 bits as the reader returns it. -/
def half (data : Memory) (offset : Nat) : Nat := readBE 4 data offset % 65536

def halfProperties (data : Memory) : Nat → Nat → List TaggedProperty
  | 0, _ => []
  | count + 1, offset =>
    ⟨half data offset, half data (offset + 4)⟩ :: halfProperties data count (offset + 8)

/-- The bodies that pass the tests of the decoder, which see half of every field
of 32 bits. -/
def AcceptsBody (command : Nat) (data : Memory) (size : Nat) : Prop :=
  command = tpm2GetCapability ∧ half data 11 = tpmCapTpmProperties ∧
      half data 15 ≤ maxTpmProperties ∧ size = 19 + 8 * half data 15 ∨
    command = tpm2NvRead ∧ 16 + readBE 2 data 14 ≤ size ∧
      (half data 10 = readBE 2 data 14 + 2 ∨ size = 16 + readBE 2 data 14) ∨
    (command = tpm2HierarchyControl ∨ command = tpm2Clear ∨
      command = tpm2NvDefineSpace ∨ command = tpm2NvWrite ∨
        command = tpm2NvWriteLock ∨ command = tpm2PcrExtend)

def Accepts (command : Nat) (data : Memory) (size : Nat) : Prop :=
  size = sizeofHeader ∨ sizeofHeader < size ∧ size < 2 ^ 31 ∧ AcceptsBody command data size

/-- In an accepted response, every field of 32 bits is less than `2 ^ 16`, and a
buffer that is read agrees with the size of the parameters. -/
def Fits (command : Nat) (data : Memory) (inSize : BitVec 32) : Prop :=
  Accepts command data inSize.toNat →
    (readBE 4 data 2 < 65536 ∧ readBE 4 data 6 < 65536) ∧
      (inSize.toNat ≠ sizeofHeader →
        (command = tpm2GetCapability →
          readBE 4 data 11 < 65536 ∧ readBE 4 data 15 < 65536 ∧
            ∀ tagged ∈ wireProperties data (readBE 4 data 15) 19,
              tagged.property < 65536 ∧ tagged.value < 65536) ∧
        (command = tpm2NvRead → readBE 4 data 10 = readBE 2 data 14 + 2 ∧ readBE 4 data 10 < 65536))

section Readers

variable {data : Memory} {cursor : Cursor}

theorem unmarshalNumber_of_le {width : Nat} (result : Nat) (fits : (width : Int) ≤ cursor.space) :
    unmarshalNumber width result data cursor =
      (readBE width data cursor.position % 256 ^ result,
        ⟨cursor.position + width, cursor.space - width,
          cursor.reads ++ [(cursor.position, width)]⟩) := by
  rw [unmarshalNumber, if_neg (by omega), if_neg (by omega)]

theorem unmarshalNumber_of_lt {width : Nat} (result : Nat) (short : cursor.space < width) :
    (unmarshalNumber width result data cursor).2.space < 0 := by
  rw [unmarshalNumber]
  split_ifs with failed
  · exact failed
  · show (-1 : Int) < 0
    decide

variable {position space : Nat} {reads : List (Nat × Nat)}

theorem unmarshalU8_of_le (fits : 1 ≤ space) :
    unmarshalU8 data ⟨position, space, reads⟩ = (readBE 1 data position,
      ⟨position + 1, (space - 1 : Nat), reads ++ [(position, 1)]⟩) := by
  have read := @unmarshalNumber_of_le data ⟨position, space, reads⟩ 1 1 (by dsimp only; omega)
  have small : readBE 1 data position % 256 ^ 1 = readBE 1 data position :=
    Nat.mod_eq_of_lt (readBE_lt 1 data position)
  rw [small] at read
  rw [unmarshalU8, read, Nat.cast_sub fits]

theorem unmarshalU16_of_le (fits : 2 ≤ space) :
    unmarshalU16 data ⟨position, space, reads⟩ = (readBE 2 data position,
      ⟨position + 2, (space - 2 : Nat), reads ++ [(position, 2)]⟩) := by
  have read := @unmarshalNumber_of_le data ⟨position, space, reads⟩ 2 2 (by dsimp only; omega)
  have small : readBE 2 data position % 256 ^ 2 = readBE 2 data position :=
    Nat.mod_eq_of_lt (readBE_lt 2 data position)
  rw [small] at read
  rw [unmarshalU16, read, Nat.cast_sub fits]

theorem unmarshalU32_of_le (fits : 4 ≤ space) :
    unmarshalU32 data ⟨position, space, reads⟩ = (half data position,
      ⟨position + 4, (space - 4 : Nat), reads ++ [(position, 4)]⟩) := by
  have read := @unmarshalNumber_of_le data ⟨position, space, reads⟩ 4 2 (by dsimp only; omega)
  rw [unmarshalU32, read, Nat.cast_sub fits]
  rfl

theorem unmarshalProperties_of_le {count : Nat} (fits : (8 * count : Nat) ≤ cursor.space) :
    (unmarshalProperties data count cursor).1 = halfProperties data count cursor.position ∧
      (unmarshalProperties data count cursor).2.space = cursor.space - (8 * count : Nat) := by
  induction count generalizing cursor with
  | zero => exact ⟨rfl, (Int.sub_zero _).symm⟩
  | succ count ih =>
    have first := @unmarshalNumber_of_le data cursor 4 2 (by omega)
    rw [unmarshalProperties]
    simp only [unmarshalU32, first]
    have second := @unmarshalNumber_of_le data
      ⟨cursor.position + 4, cursor.space - (4 : Nat),
        cursor.reads ++ [(cursor.position, 4)]⟩ 4 2 (by dsimp only; omega)
    simp only [second]
    obtain ⟨properties, space⟩ := @ih ⟨cursor.position + 4 + 4,
      cursor.space - (4 : Nat) - (4 : Nat),
        cursor.reads ++ [(cursor.position, 4)] ++ [(cursor.position + 4, 4)]⟩ (by dsimp only; omega)
    exact ⟨congrArg (_ :: ·) properties, space.trans (by dsimp only; omega)⟩

theorem unmarshalProperties_of_neg (failed : cursor.space < 0) (count : Nat) :
    (unmarshalProperties data count cursor).2.space < 0 := by
  induction count generalizing cursor with
  | zero => exact failed
  | succ count ih =>
    rw [unmarshalProperties]
    apply ih
    apply unmarshalNumber_of_lt
    exact lt_of_lt_of_le (unmarshalNumber_of_lt 2 (by omega)) (by decide)

theorem unmarshalProperties_of_lt {count : Nat} (short : cursor.space < (8 * count : Nat)) :
    (unmarshalProperties data count cursor).2.space < 0 := by
  induction count generalizing cursor with
  | zero => exact short
  | succ count ih =>
    rw [unmarshalProperties]
    by_cases first : (4 : Nat) ≤ cursor.space
    · simp only [unmarshalU32, unmarshalNumber_of_le 2 first]
      by_cases second : (4 : Nat) ≤ cursor.space - (4 : Nat)
      · rw [unmarshalNumber_of_le 2 second]
        exact ih (by dsimp only; omega)
      · apply unmarshalProperties_of_neg
        exact unmarshalNumber_of_lt 2 (by dsimp only; omega)
    · apply unmarshalProperties_of_neg
      apply unmarshalNumber_of_lt
      exact lt_of_lt_of_le (unmarshalNumber_of_lt 2 (by omega)) (by decide)

end Readers

section Bodies

variable {data : Memory} {space : Nat} {reads : List (Nat × Nat)} {cursor : Cursor}

theorem unmarshalGetCapability_of_lt
    (short : (unmarshalU32 data (unmarshalU8 data cursor).2).2.space < 0) :
    (unmarshalGetCapability data cursor).2.space < 0 := by
  have stopped : unmarshalGetCapability data cursor =
      (⟨(unmarshalU8 data cursor).1,
        (unmarshalU32 data (unmarshalU8 data cursor).2).1, 0, []⟩,
        (unmarshalU32 data (unmarshalU8 data cursor).2).2) := if_pos short
  rw [stopped]
  exact short

theorem unmarshalGetCapability_spec :
    (∃ cursor, unmarshalGetCapability data ⟨10, space, reads⟩ =
        (⟨readBE 1 data 10, half data 11, half data 15,
          halfProperties data (half data 15) 19⟩, cursor) ∧
      cursor.space = 0 ∧ half data 11 = tpmCapTpmProperties ∧
        half data 15 ≤ maxTpmProperties ∧ space = 9 + 8 * half data 15) ∨
    ((unmarshalGetCapability data ⟨10, space, reads⟩).2.space ≠ 0 ∧
      ¬ (half data 11 = tpmCapTpmProperties ∧
        half data 15 ≤ maxTpmProperties ∧ space = 9 + 8 * half data 15)) := by
  by_cases five : 5 ≤ space
  · rw [unmarshalGetCapability]
    simp only [unmarshalU8_of_le (show 1 ≤ space by omega),
      unmarshalU32_of_le (show 4 ≤ space - 1 by omega), Nat.reduceAdd]
    rw [if_neg (by omega)]
    by_cases capability : half data 11 = tpmCapTpmProperties
    · rw [if_pos capability]
      by_cases nine : 9 ≤ space
      · simp only [unmarshalU32_of_le (show 4 ≤ space - 1 - 4 by omega), Nat.reduceAdd]
        rw [if_neg (by omega)]
        by_cases many : half data 15 > maxTpmProperties
        · right
          rw [if_pos many]
          exact ⟨by show (-1 : Int) ≠ 0; decide, fun good => absurd good.2.1 (not_le.mpr many)⟩
        · rw [if_neg many]
          by_cases room : 9 + 8 * half data 15 ≤ space
          · obtain ⟨properties, rest⟩ := @unmarshalProperties_of_le data
              ⟨19, (space - 1 - 4 - 4 : Nat),
                reads ++ [(10, 1)] ++ [(11, 4)] ++ [(15, 4)]⟩ (half data 15)
              (by dsimp only; omega)
            by_cases whole : space = 9 + 8 * half data 15
            · left
              refine ⟨_, Prod.ext ?_ rfl, ?_, capability, not_lt.mp many, whole⟩
              · exact congrArg (GetCapResponse.mk _ _ _) properties
              · exact rest.trans (by dsimp only; omega)
            · right
              refine ⟨fun none => ?_, fun good => whole good.2.2⟩
              have left' := rest.symm.trans none
              dsimp only at left'
              omega
          · right
            have short := @unmarshalProperties_of_lt data
              ⟨19, (space - 1 - 4 - 4 : Nat),
                reads ++ [(10, 1)] ++ [(11, 4)] ++ [(15, 4)]⟩ (half data 15)
              (by dsimp only; omega)
            exact ⟨short.ne, fun good => room good.2.2.ge⟩
      · right
        have short : (unmarshalU32 data ⟨15, (space - 1 - 4 : Nat),
            reads ++ [(10, 1)] ++ [(11, 4)]⟩).2.space < 0 :=
          unmarshalNumber_of_lt 2 (by dsimp only; omega)
        rw [if_pos short]
        exact ⟨short.ne, fun good => by omega⟩
    · right
      rw [if_neg capability]
      exact ⟨by show (-1 : Int) ≠ 0; decide, fun good => capability good.1⟩
  · right
    have first : (unmarshalU8 data ⟨10, space, reads⟩).2.space < 4 := by
      by_cases one : 1 ≤ space
      · rw [unmarshalU8_of_le one]
        dsimp only
        omega
      · exact lt_trans (unmarshalNumber_of_lt 1 (by dsimp only; omega)) (by decide)
    have second : (unmarshalU32 data (unmarshalU8 data ⟨10, space, reads⟩).2).2.space < 0 :=
      unmarshalNumber_of_lt 2 first
    exact ⟨(unmarshalGetCapability_of_lt second).ne, fun good => by omega⟩

theorem unmarshalNvRead_of_lt
    (short : (unmarshalU16 data (unmarshalU32 data cursor).2).2.space < 0 ∨
      ((unmarshalU16 data (unmarshalU32 data cursor).2).1 : Int) >
        (unmarshalU16 data (unmarshalU32 data cursor).2).2.space) :
    (unmarshalNvRead data cursor).2.space ≠ 0 := by
  rcases params : unmarshalU32 data cursor with ⟨paramsSize, middle⟩
  rcases field : unmarshalU16 data middle with ⟨size, rest⟩
  rw [params] at short
  rw [field] at short
  have overrun : unmarshalMaxNvBuffer data middle = (size, none, { rest with space := -1 }) := by
    rw [unmarshalMaxNvBuffer, field]
    exact if_pos short
  rw [unmarshalNvRead, params]
  dsimp only
  rw [overrun]
  dsimp only
  split_ifs
  · show (-1 : Int) ≠ 0
    decide
  · show (-1 : Int) ≠ 0
    decide
  · omega

theorem unmarshalNvRead_spec :
    (∃ cursor, unmarshalNvRead data ⟨10, space, reads⟩ =
        (⟨half data 10, readBE 2 data 14, some 16⟩, cursor) ∧
      cursor.space = 0 ∧ 6 + readBE 2 data 14 ≤ space ∧
        (half data 10 = readBE 2 data 14 + 2 ∨ space = 6 + readBE 2 data 14)) ∨
    ((unmarshalNvRead data ⟨10, space, reads⟩).2.space ≠ 0 ∧
      ¬ (6 + readBE 2 data 14 ≤ space ∧
        (half data 10 = readBE 2 data 14 + 2 ∨ space = 6 + readBE 2 data 14))) := by
  by_cases six : 6 ≤ space
  · by_cases room : 6 + readBE 2 data 14 ≤ space
    · have read : unmarshalMaxNvBuffer data
          ⟨14, (space - 4 : Nat), reads ++ [(10, 4)]⟩ =
          (readBE 2 data 14, some 16, ⟨16 + readBE 2 data 14,
            (space - 4 - 2 : Nat) - (readBE 2 data 14 : Int),
            reads ++ [(10, 4)] ++ [(14, 2)]⟩) := by
        rw [unmarshalMaxNvBuffer]
        simp only [unmarshalU16_of_le (show 2 ≤ space - 4 by omega), Nat.reduceAdd]
        rw [if_neg (by omega)]
      rw [unmarshalNvRead]
      simp only [unmarshalU32_of_le (show 4 ≤ space by omega), Nat.reduceAdd, read]
      by_cases agree : half data 10 = readBE 2 data 14 + 2
      · left
        rw [if_neg (not_not.mpr agree), if_neg (by omega)]
        exact ⟨_, rfl, rfl, room, .inl agree⟩
      · rw [if_pos agree]
        by_cases whole : space = 6 + readBE 2 data 14
        · left
          exact ⟨_, rfl, by dsimp only; omega, room, .inr whole⟩
        · right
          exact ⟨by dsimp only; omega, fun good => good.2.elim agree whole⟩
    · right
      refine ⟨unmarshalNvRead_of_lt (.inr ?_), fun good => room good.1⟩
      simp only [unmarshalU32_of_le (show 4 ≤ space by omega),
        unmarshalU16_of_le (show 2 ≤ space - 4 by omega), Nat.reduceAdd]
      omega
  · right
    refine ⟨unmarshalNvRead_of_lt (.inl (unmarshalNumber_of_lt 2 ?_)), fun good => by omega⟩
    by_cases four : 4 ≤ space
    · rw [unmarshalU32_of_le four]
      dsimp only
      omega
    · exact lt_trans (unmarshalNumber_of_lt 2 (by dsimp only; omega)) (by decide)

def decodedBody (command : Nat) (data : Memory) : Body :=
  if command = tpm2GetCapability then .getCapability ⟨readBE 1 data 10,
    half data 11, half data 15, halfProperties data (half data 15) 19⟩
  else if command = tpm2NvRead then
    .nvRead ⟨half data 10, readBE 2 data 14, some 16⟩
  else .ignored

theorem unmarshalBody_spec (command : Nat) (body : 0 < space) :
    (∃ cursor, unmarshalBody command data ⟨10, space, reads⟩ =
        (some (decodedBody command data), cursor) ∧ cursor.space = 0 ∧
      AcceptsBody command data (10 + space)) ∨
    (((unmarshalBody command data ⟨10, space, reads⟩).1 = none ∨
        (unmarshalBody command data ⟨10, space, reads⟩).2.space ≠ 0) ∧
      ¬ AcceptsBody command data (10 + space)) := by
  rw [unmarshalBody, decodedBody, AcceptsBody]
  by_cases startup : command = tpm2Startup
  · subst startup
    right
    rw [if_pos rfl]
    refine ⟨.inr (by dsimp only; omega), ?_⟩
    rintro (⟨same, -⟩ | ⟨same, -⟩ | same)
    · cases same
    · cases same
    · exact absurd same (by decide)
  · rw [if_neg startup]
    by_cases capability : command = tpm2GetCapability
    · subst capability
      rw [if_pos rfl, if_pos rfl]
      rcases @unmarshalGetCapability_spec data space reads with
        ⟨cursor, decoded, done, kind, few, whole⟩ | ⟨failed, bad⟩
      · left
        rw [decoded]
        exact ⟨cursor, rfl, done, .inl ⟨rfl, kind, few, by omega⟩⟩
      · right
        refine ⟨.inr failed, ?_⟩
        rintro (⟨-, kind, few, whole⟩ | ⟨same, -⟩ | same)
        · exact bad ⟨kind, few, by omega⟩
        · cases same
        · exact absurd same (by decide)
    · rw [if_neg capability, if_neg capability]
      by_cases read : command = tpm2NvRead
      · subst read
        rw [if_pos rfl, if_pos rfl]
        rcases @unmarshalNvRead_spec data space reads with
          ⟨cursor, decoded, done, room, agree⟩ | ⟨failed, bad⟩
        · left
          rw [decoded]
          exact ⟨cursor, rfl, done, .inr (.inl ⟨rfl, by omega, by omega⟩)⟩
        · right
          refine ⟨.inr failed, ?_⟩
          rintro (⟨same, -⟩ | ⟨-, room, agree⟩ | same)
          · cases same
          · exact bad ⟨by omega, by omega⟩
          · exact absurd same (by decide)
      · rw [if_neg read, if_neg read]
        by_cases session : command = tpm2HierarchyControl ∨
            command = tpm2Clear ∨ command = tpm2NvDefineSpace ∨
              command = tpm2NvWrite ∨ command = tpm2NvWriteLock ∨ command = tpm2PcrExtend
        · left
          rw [if_pos session]
          exact ⟨_, rfl, rfl, .inr (.inr session)⟩
        · right
          rw [if_neg session]
          refine ⟨.inl rfl, ?_⟩
          rintro (⟨same, -⟩ | ⟨same, -⟩ | same)
          · exact capability same
          · exact read same
          · exact session same

end Bodies

/-- All reads so far, and the bytes that remain, lie in the response. -/
def Cursor.Within (size : Nat) (cursor : Cursor) : Prop :=
  (∀ read ∈ cursor.reads, read.1 + read.2 ≤ size) ∧
    (0 ≤ cursor.space → cursor.position + cursor.space ≤ size)

section Within

variable (data : Memory) {size : Nat} {cursor : Cursor}

section

variable (within : cursor.Within size)
include within

theorem Cursor.Within.failed {space : Int} (negative : space < 0) :
    ({ cursor with space := space } : Cursor).Within size :=
  ⟨within.1, fun positive => absurd positive (not_le.mpr negative)⟩

omit within in
theorem Cursor.Within.read (within : cursor.Within size) {width : Nat}
    (fits : (width : Int) ≤ cursor.space) :
    (⟨cursor.position + width, cursor.space - width,
      cursor.reads ++ [(cursor.position, width)]⟩ : Cursor).Within size := by
  have room := within.2 (by omega)
  refine ⟨fun read member => ?_, fun _ => by dsimp only; omega⟩
  rcases List.mem_append.mp member with earlier | last
  · exact within.1 read earlier
  · rw [List.mem_singleton.mp last]
    omega

theorem unmarshalNumber_within (width result : Nat) :
    (unmarshalNumber width result data cursor).2.Within size := by
  rw [unmarshalNumber]
  split_ifs with negative short
  · exact within
  · exact within.failed (by decide)
  · exact within.read (by omega)

omit within in
theorem unmarshalProperties_within (count : Nat) (within : cursor.Within size) :
    (unmarshalProperties data count cursor).2.Within size := by
  induction count generalizing cursor with
  | zero => exact within
  | succ count ih =>
    rw [unmarshalProperties]
    exact ih (unmarshalNumber_within data (unmarshalNumber_within data within 4 2) 4 2)

theorem unmarshalGetCapability_within : (unmarshalGetCapability data cursor).2.Within size := by
  have second := unmarshalNumber_within data (unmarshalNumber_within data within 1 1) 4 2
  have third := unmarshalNumber_within data second 4 2
  rw [unmarshalGetCapability]
  dsimp only
  split_ifs
  · exact second
  · exact third
  · exact third.failed (by decide)
  · exact unmarshalProperties_within data _ third
  · exact second.failed (by decide)

theorem unmarshalMaxNvBuffer_within : (unmarshalMaxNvBuffer data cursor).2.2.Within size := by
  have field := unmarshalNumber_within data within 2 2
  rw [unmarshalMaxNvBuffer]
  dsimp only
  split_ifs with short
  · exact field.failed (by decide)
  · rw [not_or] at short
    have room := field.2 (by
      have := short.1
      rw [unmarshalU16] at this
      omega)
    refine ⟨field.1, fun _ => ?_⟩
    rw [unmarshalU16] at short ⊢
    dsimp only
    omega

theorem unmarshalNvRead_within : (unmarshalNvRead data cursor).2.Within size := by
  have buffer := unmarshalMaxNvBuffer_within data (unmarshalNumber_within data within 4 2)
  rw [unmarshalNvRead, unmarshalU32]
  generalize unmarshalNumber 4 2 data cursor = params at buffer ⊢
  dsimp only
  generalize unmarshalMaxNvBuffer data params.2 = parsed at buffer ⊢
  split_ifs with differ negative
  · exact buffer
  · exact buffer
  · have positive : 0 ≤ parsed.2.2.space := not_lt.mp negative
    have room := buffer.2 positive
    refine ⟨buffer.1, fun _ => ?_⟩
    show ((parsed.2.2.position + parsed.2.2.space.toNat : Nat) : Int) + 0 ≤ size
    omega

end

theorem unmarshalBody_within (command : Nat) (within : cursor.Within size)
    (open' : 0 ≤ cursor.space) : (unmarshalBody command data cursor).2.Within size := by
  have room := within.2 open'
  rw [unmarshalBody]
  split_ifs
  · exact within
  · exact unmarshalGetCapability_within data within
  · exact unmarshalNvRead_within data within
  · exact ⟨within.1, fun _ => by dsimp only; omega⟩
  · refine ⟨fun read member => ?_, within.2⟩
    rcases List.mem_append.mp member with earlier | last
    · exact within.1 read earlier
    · rw [List.mem_singleton.mp last]
      omega

end Within

section Decoder

variable {command : Nat} {data : Memory} {inSize : BitVec 32}

def bodyCursor (size : Nat) : Cursor := ⟨10, (size - 10 : Nat), [(0, 2), (2, 4), (6, 4)]⟩

theorem bodyCursor_within {size : Nat} (header : 10 ≤ size) : (bodyCursor size).Within size := by
  refine ⟨fun read member => ?_, fun _ => by
    rw [bodyCursor]
    dsimp only
    omega⟩
  simp only [bodyCursor, List.mem_cons, List.not_mem_nil, or_false] at member
  rcases member with rfl | rfl | rfl <;> dsimp only <;> omega

theorem tpmUnmarshalResponse_of_small (small : ¬ (10 ≤ inSize.toNat ∧ inSize.toNat < 2147483648)) :
    tpmUnmarshalResponse command data inSize = (none, []) := by
  rw [tpmUnmarshalResponse]
  apply if_pos
  dsimp only
  rw [BitVec.toInt_eq_toNat_cond, sizeofHeader]
  split_ifs <;> omega

theorem tpmUnmarshalResponse_of_header (header : 10 ≤ inSize.toNat)
    (small : inSize.toNat < 2147483648) :
    tpmUnmarshalResponse command data inSize =
      if inSize.toNat = 10 then
        (some ⟨readBE 2 data 0, half data 2, half data 6, .ignored⟩,
          (bodyCursor inSize.toNat).reads)
      else match (unmarshalBody command data (bodyCursor inSize.toNat)).1 with
        | none => (none,
            (unmarshalBody command data (bodyCursor inSize.toNat)).2.reads)
        | some body =>
          if (unmarshalBody command data (bodyCursor inSize.toNat)).2.space ≠ 0 then
            (none, (unmarshalBody command data (bodyCursor inSize.toNat)).2.reads)
          else (some ⟨readBE 2 data 0, half data 2, half data 6, body⟩,
            (unmarshalBody command data (bodyCursor inSize.toNat)).2.reads) := by
  have space : inSize.toInt = inSize.toNat := BitVec.toInt_eq_toNat_of_lt (by omega)
  rw [tpmUnmarshalResponse]
  simp only [space]
  rw [if_neg (by rw [sizeofHeader]; omega)]
  simp only [unmarshalU16_of_le (show 2 ≤ inSize.toNat by omega),
    unmarshalU32_of_le (show 4 ≤ inSize.toNat - 2 by omega),
    unmarshalU32_of_le (show 4 ≤ inSize.toNat - 2 - 4 by omega),
    Nat.reduceAdd]
  have rest : inSize.toNat - 2 - 4 - 4 = inSize.toNat - 10 := by omega
  have none : ((inSize.toNat - 10 : Nat) : Int) = 0 ↔ inSize.toNat = 10 := by
    omega
  simp only [rest, none]
  rfl

theorem tpmUnmarshalResponse_within :
    ∀ read ∈ (tpmUnmarshalResponse command data inSize).2, read.1 + read.2 ≤ inSize.toNat := by
  by_cases bounds : 10 ≤ inSize.toNat ∧ inSize.toNat < 2147483648
  · have start := bodyCursor_within bounds.1
    have body := (unmarshalBody_within data command start (by rw [bodyCursor]; dsimp only; omega)).1
    rw [tpmUnmarshalResponse_of_header bounds.1 bounds.2]
    by_cases only : inSize.toNat = 10
    · rw [if_pos only]
      exact start.1
    · rw [if_neg only]
      split
      · exact body
      · split_ifs
        · exact body
        · exact body
  · rw [tpmUnmarshalResponse_of_small bounds]
    intro read member
    cases member

theorem tpmUnmarshalResponse_eq_some {response : Response} :
    (tpmUnmarshalResponse command data inSize).1 = some response ↔
      Accepts command data inSize.toNat ∧
        response = ⟨readBE 2 data 0, half data 2, half data 6,
          if inSize.toNat = sizeofHeader then .ignored
          else decodedBody command data⟩ := by
  rw [Accepts, sizeofHeader]
  by_cases bounds : 10 ≤ inSize.toNat ∧ inSize.toNat < 2147483648
  · rw [tpmUnmarshalResponse_of_header bounds.1 bounds.2]
    by_cases only : inSize.toNat = 10
    · rw [if_pos only, if_pos only]
      exact ⟨fun same => ⟨.inl only, (Option.some.inj same).symm⟩,
        fun good => congrArg some good.2.symm⟩
    · rw [if_neg only, if_neg only]
      have whole : 10 + (inSize.toNat - 10) = inSize.toNat := by omega
      have spec := @unmarshalBody_spec data (inSize.toNat - 10)
        [(0, 2), (2, 4), (6, 4)] command (by omega)
      rw [whole, ← bodyCursor] at spec
      rcases spec with ⟨cursor, decoded, done, accepts⟩ | ⟨failed, rejects⟩
      · rw [decoded]
        dsimp only
        rw [if_neg (not_not.mpr done)]
        exact ⟨fun same => ⟨.inr ⟨by omega, by omega, accepts⟩,
          (Option.some.inj same).symm⟩, fun good => congrArg some good.2.symm⟩
      · refine ⟨fun same => ?_, fun good => ?_⟩
        · split at same
          · exact absurd same (Option.some_ne_none _).symm
          · next found =>
            rcases failed with none | left'
            · rw [none] at found
              exact absurd found (Option.some_ne_none _).symm
            · rw [if_pos left'] at same
              exact absurd same (Option.some_ne_none _).symm
        · rcases good.1 with same | ⟨-, -, accepts⟩
          · exact absurd same only
          · exact absurd accepts rejects
  · rw [tpmUnmarshalResponse_of_small bounds]
    refine ⟨fun same => absurd same (Option.some_ne_none _).symm, fun good => absurd ?_ bounds⟩
    rcases good.1 with same | ⟨header, small, -⟩
    · omega
    · omega

end Decoder

section Exactness

variable {data : Memory}

theorem half_eq_iff {offset : Nat} :
    half data offset = readBE 4 data offset ↔ readBE 4 data offset < 65536 :=
  Nat.mod_eq_iff_lt (by decide)

theorem halfProperties_eq_iff {count offset : Nat} :
    halfProperties data count offset = wireProperties data count offset ↔
      ∀ tagged ∈ wireProperties data count offset,
        tagged.property < 65536 ∧ tagged.value < 65536 := by
  induction count generalizing offset with
  | zero => exact ⟨fun _ _ => nofun, fun _ => rfl⟩
  | succ count ih =>
    rw [halfProperties, wireProperties, List.cons.injEq, TaggedProperty.mk.injEq, half_eq_iff,
      half_eq_iff, ih, List.forall_mem_cons]

theorem capabilityExact_iff {size : Nat} (accepted : AcceptsBody tpm2GetCapability data size) :
    CapabilityExact data size (decodedBody tpm2GetCapability data) ↔
      readBE 4 data 11 < 65536 ∧ readBE 4 data 15 < 65536 ∧
        ∀ tagged ∈ wireProperties data (readBE 4 data 15) 19,
          tagged.property < 65536 ∧ tagged.value < 65536 := by
  have whole : size = 19 + 8 * half data 15 := by
    rcases accepted with ⟨-, -, -, whole⟩ | ⟨same, -⟩ | same
    · exact whole
    · cases same
    · exact absurd same (by decide)
  rw [CapabilityExact, decodedBody, if_pos rfl, Body.getCapability.injEq,
    GetCapResponse.mk.injEq, half_eq_iff, half_eq_iff]
  constructor
  · rintro ⟨-, -, kind, count, properties⟩
    rw [half_eq_iff.mpr count] at properties
    exact ⟨kind, count, halfProperties_eq_iff.mp properties⟩
  · rintro ⟨kind, count, properties⟩
    have same := half_eq_iff.mpr count
    rw [same] at whole ⊢
    exact ⟨whole, rfl, kind, count, halfProperties_eq_iff.mpr properties⟩

theorem nvReadExact_iff {size : Nat} (accepted : AcceptsBody tpm2NvRead data size) :
    NvReadExact data size (decodedBody tpm2NvRead data) ↔
      readBE 4 data 10 = readBE 2 data 14 + 2 ∧ readBE 4 data 10 < 65536 := by
  have room : 16 + readBE 2 data 14 ≤ size := by
    rcases accepted with ⟨same, -⟩ | ⟨-, room, -⟩ | same
    · cases same
    · exact room
    · exact absurd same (by decide)
  rw [NvReadExact, decodedBody, if_neg (by decide), if_pos rfl,
    Body.nvRead.injEq, NvReadResponse.mk.injEq, half_eq_iff]
  exact ⟨fun exact' => ⟨exact'.2.1, exact'.2.2.1⟩, fun fits => ⟨room, fits.1, fits.2, rfl, rfl⟩⟩

/-- The decoder is exact where the fields of 32 bits are numbers of 16 bits and
the sizes of a buffer agree. -/
theorem exact_iff_fits (command : Nat) (data : Memory) (inSize : BitVec 32) :
    Exact command data inSize ↔ Fits command data inSize := by
  have body (accepts : Accepts command data inSize.toNat)
      (more : inSize.toNat ≠ sizeofHeader) :
      AcceptsBody command data inSize.toNat :=
    (accepts.resolve_left more).2.2
  have header : HeaderExact data ⟨readBE 2 data 0, half data 2, half data 6,
      if inSize.toNat = sizeofHeader then .ignored
      else decodedBody command data⟩ ↔
      readBE 4 data 2 < 65536 ∧ readBE 4 data 6 < 65536 := by
    rw [HeaderExact, half_eq_iff, half_eq_iff]
    exact ⟨And.right, fun fits => ⟨rfl, fits⟩⟩
  constructor
  · intro sound accepts
    obtain ⟨fields, rest⟩ := sound.2 _ (tpmUnmarshalResponse_eq_some.mpr ⟨accepts, rfl⟩)
    refine ⟨header.mp fields, fun more => ⟨?_, ?_⟩⟩
    · rintro rfl
      have exact' := (rest more).1 rfl
      rw [if_neg more] at exact'
      exact (capabilityExact_iff (body accepts more)).mp exact'
    · rintro rfl
      have exact' := (rest more).2 rfl
      rw [if_neg more] at exact'
      exact (nvReadExact_iff (body accepts more)).mp exact'
  · intro fits
    refine ⟨tpmUnmarshalResponse_within, fun response decoded => ?_⟩
    obtain ⟨accepts, rfl⟩ := tpmUnmarshalResponse_eq_some.mp decoded
    obtain ⟨fields, rest⟩ := fits accepts
    refine ⟨header.mpr fields, fun more => ⟨?_, ?_⟩⟩
    · rintro rfl
      rw [if_neg more]
      exact (capabilityExact_iff (body accepts more)).mpr ((rest more).1 rfl)
    · rintro rfl
      rw [if_neg more]
      exact (nvReadExact_iff (body accepts more)).mpr ((rest more).2 rfl)

/-- A response that is only a header, with the code `0x00010000`, is decoded as
a success. -/
theorem not_exact_header : ¬ ∀ command data inSize, Exact command data inSize := by
  intro sound
  have decoded : (tpmUnmarshalResponse tpm2Startup
      (fun address => if address = 7 then 1 else 0) 10).1 =
      some ⟨0, 0, 0, .ignored⟩ := by decide
  exact absurd ((sound _ _ _).2 _ decoded).1.2.2 (by decide)

end Exactness

end Coreboot.Tpm2
