import Coreboot.AcpiGeneratorBytes

/-!
# Name strings

`acpigen_emit_namestring` pads each segment of a path to four characters.
-/

namespace Coreboot.Acpigen

open Aml ByteMemory

/-- A padded segment of name characters, the first of which may be a digit. -/
structure Padded (segment : List Byte) : Prop where
  four : segment.length = 4
  chars : ∀ c ∈ segment, NameChar c

instance (segment : List Byte) : Decidable (Padded segment) :=
  letI := List.decidableBAll NameChar segment
  decidable_of_iff (segment.length = 4 ∧ ∀ c ∈ segment, NameChar c)
    ⟨fun both => ⟨both.1, both.2⟩, fun padded => ⟨padded.four, padded.chars⟩⟩

def readSegments : Nat → Parser (List (List Byte))
  | 0, bytes => some ([], bytes)
  | count + 1, bytes =>
    if Padded (bytes.take 4) then do
      let (segments, rest) ← readSegments count (bytes.drop 4)
      some (bytes.take 4 :: segments, rest)
    else
      none

def readPath : Parser (List (List Byte))
  | 0x00 :: rest => some ([], rest)
  | 0x2e :: rest => readSegments 2 rest
  | 0x2f :: count :: rest => readSegments count.toNat rest
  | bytes => readSegments 1 bytes

def readBehindRoot (root : Bool) (bytes : List Byte) : Option (NameString × List Byte) :=
  let (parents, bytes) := parseParents bytes
  (readPath bytes).map fun (segments, rest) => (⟨root, parents, segments⟩, rest)

/-- The root and any number of parents may stand in front of the path. -/
def readNamestring : Parser NameString := fun bytes =>
  if bytes.head? = some 0x5c then
    readBehindRoot true bytes.tail
  else
    readBehindRoot false bytes

variable {segment : List Byte} {segments : List (List Byte)}

theorem Unpadded.padded (unpadded : Unpadded segment) : Padded (pad segment) := by
  have short := unpadded.short
  constructor
  · rw [pad, List.length_append, List.length_replicate]
    omega
  · intro c member
    rcases List.mem_append.mp member with inside | padding
    · exact unpadded.chars c inside
    · rw [List.eq_of_mem_replicate padding]
      exact .inl (.inl rfl)

section

variable (padded : ∀ segment ∈ segments, Padded segment)
include padded

theorem readSegments_flatten (rest : List Byte) :
    readSegments segments.length (segments.flatten ++ rest) = some (segments, rest) := by
  induction segments with
  | nil => rfl
  | cons segment segments ih =>
    rw [List.forall_mem_cons] at padded
    have four := padded.1.four
    rw [List.length_cons, readSegments, List.flatten_cons, List.append_assoc,
      List.take_left' four, List.drop_left' four, if_pos padded.1, ih padded.2]
    rfl

omit padded in
theorem Padded.cons (padded : Padded segment) :
    ∃ lead more, segment = lead :: more ∧ NameChar lead := by
  cases segment with
  | nil => cases padded.four
  | cons lead more =>
    exact ⟨lead, more, rfl, padded.chars lead (.head _)⟩

theorem pathBytes_cons :
    ∃ lead more, pathBytes segments = lead :: more ∧ lead ≠ 0x5c ∧ lead ≠ 0x5e := by
  match segments with
  | [] => exact ⟨_, _, rfl, by decide, by decide⟩
  | [segment] =>
    obtain ⟨lead, more, rfl, char⟩ := (padded segment (.head _)).cons
    exact ⟨lead, more, rfl, char.ne.2.2.2.1, char.ne.2.2.2.2⟩
  | [_, _] => exact ⟨_, _, rfl, by decide, by decide⟩
  | _ :: _ :: _ :: _ => exact ⟨_, _, rfl, by decide, by decide⟩

theorem readPath_pathBytes (count : segments.length ≤ 255) (rest : List Byte) :
    readPath (pathBytes segments ++ rest) = some (segments, rest) := by
  have read := readSegments_flatten padded rest
  match segments with
  | [] => rfl
  | [segment] =>
    obtain ⟨lead, more, rfl, char⟩ := (padded segment (.head _)).cons
    rw [List.flatten_singleton] at read
    rw [pathBytes, List.cons_append, readPath]
    · exact read
    · exact fun _ same => char.ne.1 (List.cons.inj same).1
    · exact fun _ same => char.ne.2.1 (List.cons.inj same).1
    · exact fun _ _ same => char.ne.2.2.1 (List.cons.inj same).1
  | [first, second] =>
    rw [List.flatten_cons, List.flatten_singleton] at read
    exact read
  | first :: second :: third :: more =>
    have size : (BitVec.ofNat 8
        (first :: second :: third :: more).length).toNat =
        (first :: second :: third :: more).length := by
      rw [BitVec.toNat_ofNat]
      exact Nat.mod_eq_of_lt (Nat.lt_succ_of_le count)
    rw [← size] at read
    rw [pathBytes]
    · exact read
    · simp
    · simp
    · simp

end

theorem readNamestring_bytes {name : NameString}
    (padded : ∀ segment ∈ name.segments, Padded segment) (count : name.segments.length ≤ 255)
    (rest : List Byte) : readNamestring (name.bytes ++ rest) = some (name, rest) := by
  obtain ⟨root, parents, segments⟩ := name
  obtain ⟨lead, more, shape, notRoot, notParent⟩ := pathBytes_cons padded
  have path := readPath_pathBytes padded count rest
  have prefixes := parseParents_replicate notParent parents (more ++ rest)
  rw [shape, List.cons_append] at path
  have behind : readBehindRoot root
      (List.replicate parents 0x5e ++ lead :: (more ++ rest)) =
      some (⟨root, parents, segments⟩, rest) := by
    rw [readBehindRoot, prefixes]
    dsimp only
    rw [path]
    rfl
  have unfolded : NameString.bytes ⟨root, parents, segments⟩ ++ rest =
      (if root then [0x5c] else []) ++ (List.replicate parents 0x5e ++ lead :: (more ++ rest)) := by
    simp [NameString.bytes, shape]
  rw [unfolded, readNamestring]
  cases root with
  | true =>
    rw [if_pos rfl]
    exact behind
  | false =>
    rw [if_neg]
    · exact behind
    · cases parents with
      | zero => simpa using notRoot
      | succ parents =>
        intro isRoot
        cases isRoot

/-- A path as it is written in a call: at most 255 segments of one to four name
characters. -/
structure Path.Writable (path : Path) : Prop where
  segments : ∀ segment ∈ path.segments, Unpadded segment
  count : path.segments.length ≤ 255

theorem Path.Writable.read {path : Path} (writable : path.Writable) (rest : List Byte) :
    readNamestring (path.name.bytes ++ rest) = some (path.name, rest) := by
  apply readNamestring_bytes
  · intro segment member
    obtain ⟨other, inside, rfl⟩ := List.mem_map.mp member
    exact (writable.segments other inside).padded
  · rw [Path.name, List.length_map]
    exact writable.count

/-- Every path is written as its name string, which is read back; the bytes
determine the path up to its padding. -/
theorem emitNamestring_readNamestring (path : Path) (writable : path.Writable) (g : Generator) :
    emitNamestring path.text g = g.append path.name.bytes ∧
      (∀ rest, readNamestring (path.name.bytes ++ rest) = some (path.name, rest)) ∧
      ∀ other : Path, other.Writable →
        (emitNamestring other.text g = emitNamestring path.text g ↔ other.name = path.name) := by
  have written := emitNamestring_text writable.segments g
  refine ⟨written, writable.read, fun other otherWritable => ?_⟩
  rw [written, emitNamestring_text otherWritable.segments]
  constructor
  · intro same
    have bytes : other.name.bytes = path.name.bytes :=
      List.append_cancel_left (congrArg Generator.output same)
    have first := otherWritable.read []
    rw [bytes, writable.read] at first
    exact (Prod.mk.inj (Option.some.inj first)).1.symm
  · intro same
    rw [same]

/-- The path `\^_SB.PCI0.A`. -/
theorem emitNamestring_readNamestring_short :
    let path : Path := ⟨true, 1, [[0x5f, 0x53, 0x42], [0x50, 0x43, 0x49, 0x30], [0x41]]⟩
    emitNamestring path.text ⟨[], []⟩ =
      (⟨[], []⟩ : Generator).append path.name.bytes ∧
      readNamestring path.name.bytes = some (path.name, []) := by
  intro path
  have writable : path.Writable := by
    constructor
    · simp only [path, List.forall_mem_cons]
      refine ⟨⟨nofun, by decide, by decide⟩, ⟨nofun, by decide, by decide⟩,
        ⟨nofun, by decide, by decide⟩, nofun⟩
    · decide
  obtain ⟨written, read, _⟩ := emitNamestring_readNamestring path writable _
  have all := read []
  rw [List.append_nil] at all
  exact ⟨written, all⟩

end Coreboot.Acpigen
