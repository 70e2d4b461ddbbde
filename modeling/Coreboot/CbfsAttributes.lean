import Coreboot.CbfsMerge

/-!
# File attributes

A file header may carry attributes behind its name. An attribute starts with its tag and its
length.
-/

namespace Coreboot.Cbfs

open ByteMemory

/-- The size of `struct cbfs_file_attribute`: tag and length. -/
def sizeofAttribute : Nat := 8

def cbfsFileAttrTagUnused : Nat := 0
def cbfsFileAttrTagUnused2 : Nat := 0xffffffff

def attrTag (data : Memory) (attr : Nat) : Nat := readBE 4 data attr

def attrLen (data : Memory) (attr : Nat) : Nat := readBE 4 data (attr + 4)

def cbfsFileFirstAttr (data : Memory) (file : Nat) : Option Nat :=
  if entryAttributesOffset data file ≤ sizeofFile then none
  else if entryOffset data file ≤ sizeofFile + sizeofAttribute then none
  else some (file + entryAttributesOffset data file)

def cbfsFileNextAttr (data : Memory) (file attr : Nat) : Option Nat :=
  if attr + attrLen data attr + sizeofAttribute ≥ file + entryOffset data file then none
  else
    let next := attr + attrLen data attr
    if attrTag data next = cbfsFileAttrTagUnused then none
    else if attrTag data next = cbfsFileAttrTagUnused2 then none
    else some next

/-- The loop of `cbfs_add_file_attr` from an attribute to the last one. -/
def lastAttr (data : Memory) (file : Nat) : Nat → Nat → Option Nat
  | 0, _ => none
  | fuel + 1, attr =>
    match cbfsFileNextAttr data file attr with
    | none => some attr
    | some next => lastAttr data file fuel next

def putAttr (header : Memory) (attr tag size headerSize : Nat) : Memory :=
  let header := setOffset header 0 headerSize
  let header := fill header attr size cbfsContentDefaultValue
  let header := writeBE 4 header attr tag
  writeBE 4 header (attr + 4) size

/-- `cbfs_add_file_attr` on a header at zero, with the address of the attribute.
A null pointer is `some none`. -/
def cbfsAddFileAttr (header : Memory) (tag size : Nat) : Option (Option (Memory × Nat)) :=
  match cbfsFileFirstAttr header 0 with
  | none =>
    let headerSize := add32 (entryOffset header 0) size
    if headerSize > maxCbfsFileHeaderBuffer then some none
    else
      -- New attributes start where the header ends.
      let attr := entryOffset header 0
      let header := setAttributesOffset header 0 attr
      some (some (putAttr header attr tag size headerSize, attr))
  | some first =>
    match lastAttr header 0 (entryOffset header 0 + 1) first with
    | none => none
    | some last =>
      let headerSize := add32 (entryOffset header 0) size
      if headerSize > maxCbfsFileHeaderBuffer then some none
      else
        let attr := last + attrLen header last
        some (some (putAttr header attr tag size headerSize, attr))

/-- The headers that `cbfs_create_file_header` and `cbfs_add_file_attr` build
for a C string.  The caller of the latter fills in what follows the tag and the
length. -/
inductive Built (type len : Nat) (name : List Byte) : Memory → Prop
  | create (string : 0 ∉ name) (short : name.length < maxCbfsFileHeaderBuffer)
      (fits : cbfsCalculateFileHeaderSize name ≤ maxCbfsFileHeaderBuffer) :
      Built type len name (cbfsCreateFileHeader type len name)
  | addAttr {header header' : Memory} {tag size attr : Nat}
      {bytes : List Byte} (built : Built type len name header)
      (fits : entryOffset header 0 + size ≤ maxCbfsFileHeaderBuffer)
      (added : cbfsAddFileAttr header tag size = some (some (header', attr)))
      (filled : sizeofAttribute + bytes.length = size) :
      Built type len name (store header' (attr + sizeofAttribute) bytes)

theorem le_nextAttr {data : Memory} {file attr next : Nat}
    (found : cbfsFileNextAttr data file attr = some next) : next = attr + attrLen data attr := by
  rw [cbfsFileNextAttr] at found
  dsimp only at found
  split_ifs at found
  exact (Option.some.inj found).symm

theorem le_lastAttr {data : Memory} {file fuel attr last : Nat}
    (found : lastAttr data file fuel attr = some last) : attr ≤ last := by
  induction fuel generalizing attr with
  | zero => cases found
  | succ fuel ih =>
    rw [lastAttr] at found
    cases next : cbfsFileNextAttr data file attr with
    | none =>
      rw [next] at found
      exact (Option.some.inj found).le
    | some attr' =>
      rw [next] at found
      have forward := le_nextAttr next
      exact le_trans (by omega) (ih found)

/-- An attribute is put behind the name, and changes the sizes of the header and
what follows the attribute. -/
theorem cbfsAddFileAttr_spec {header header' : Memory} {tag size attr nameEnd : Nat}
    (attributes : entryAttributesOffset header 0 = 0 ∨ nameEnd ≤ entryAttributesOffset header 0)
    (behind : nameEnd ≤ entryOffset header 0) (large : 24 < nameEnd)
    (fits : entryOffset header 0 + size ≤ maxCbfsFileHeaderBuffer)
    (added : cbfsAddFileAttr header tag size = some (some (header', attr))) :
    nameEnd ≤ attr ∧ entryOffset header' 0 = entryOffset header 0 + size ∧
      nameEnd ≤ entryAttributesOffset header' 0 ∧
      ∀ address, address < 16 ∨ 24 ≤ address ∧ address < nameEnd →
        header' address = header address := by
  have fits' : entryOffset header 0 + size ≤ 1024 := fits
  have size32 : add32 (entryOffset header 0) size = entryOffset header 0 + size :=
    add32_of_lt (by omega)
  have put (base : Memory) (place : nameEnd ≤ attr) :
      entryOffset (putAttr base attr tag size (entryOffset header 0 + size))
          0 = entryOffset header 0 + size ∧
        SameOutside (setOffset base 0 (entryOffset header 0 + size))
          (putAttr base attr tag size (entryOffset header 0 + size)) nameEnd
          (attr + max size 8) := by
    have change : SameOutside (setOffset base 0 (entryOffset header 0 + size))
        (putAttr base attr tag size (entryOffset header 0 + size)) nameEnd
        (attr + max size 8) :=
      ((sameOutside_fill place (by omega)).trans
        (sameOutside_writeBE place (by omega))).trans (sameOutside_writeBE (by omega) (by omega))
    refine ⟨?_, change⟩
    rw [entryOffset, change.readBE (by omega)]
    refine (readBE_writeBE_self 4 _ _ _).trans ?_
    exact Nat.mod_eq_of_lt (show _ < 4294967296 by omega)
  have resized (base : Memory) :
      SameOutside base (setOffset base 0 (entryOffset header 0 + size)) 20 24 :=
    sameOutside_writeBE le_rfl le_rfl
  rw [cbfsAddFileAttr, size32] at added
  cases first : cbfsFileFirstAttr header 0 with
  | none =>
    rw [first] at added
    rw [if_neg (not_lt.mpr fits)] at added
    obtain ⟨headerEq, attrEq⟩ := Prod.mk.inj (Option.some.inj (Option.some.inj added))
    obtain ⟨started, startedEq⟩ : ∃ started,
        setAttributesOffset header 0 (entryOffset header 0) = started :=
      ⟨_, rfl⟩
    have start : SameOutside header started 16 20 := by
      rw [← startedEq]
      exact sameOutside_writeBE le_rfl le_rfl
    have read : entryAttributesOffset started 0 = entryOffset header 0 := by
      rw [← startedEq]
      exact (readBE_writeBE_self 4 _ _ _).trans
        (Nat.mod_eq_of_lt (show entryOffset header 0 < 4294967296 by omega))
    rw [startedEq] at headerEq
    have place : nameEnd ≤ attr := by omega
    obtain ⟨offset, change⟩ := put started place
    subst attrEq headerEq
    refine ⟨place, offset, ?_, fun address outside => ?_⟩
    · rw [entryAttributesOffset, change.readBE (by omega), (resized _).readBE (by omega)]
      exact behind.trans_eq read.symm
    · rw [change address (by omega), resized _ address (by omega), start address (by omega)]
  | some start =>
    rw [first] at added
    dsimp only at added
    have startEq : start = entryAttributesOffset header 0 ∧
        nameEnd ≤ entryAttributesOffset header 0 := by
      rw [cbfsFileFirstAttr] at first
      split_ifs at first with early
      change ¬ _ ≤ 24 at early
      have same := Option.some.inj first
      omega
    cases last : lastAttr header 0 (entryOffset header 0 + 1) start with
    | none =>
      rw [last] at added
      cases added
    | some attr' =>
      rw [last] at added
      dsimp only at added
      rw [if_neg (not_lt.mpr fits)] at added
      obtain ⟨headerEq, attrEq⟩ := Prod.mk.inj (Option.some.inj (Option.some.inj added))
      have forward := le_lastAttr last
      have place : nameEnd ≤ attr := by omega
      rw [attrEq] at headerEq
      subst headerEq
      obtain ⟨offset, change⟩ := put header place
      refine ⟨place, offset, ?_, fun address outside => ?_⟩
      · rw [entryAttributesOffset, change.readBE (by omega), (resized _).readBE (by omega)]
        exact startEq.2
      · rw [change address (by omega), resized _ address (by omega)]

variable {name : List Byte}

theorem calculateFileHeaderSize_bounds (short : name.length < maxCbfsFileHeaderBuffer) :
    24 + name.length + 1 ≤ cbfsCalculateFileHeaderSize name ∧
      cbfsCalculateFileHeaderSize name < 24 + name.length + 17 := by
  have short' : name.length < 1024 := short
  show 24 + name.length + 1 ≤ 24 + (if (name.length + 1) % 16 ≠ 0 then
      add32 (name.length + 1) (16 - (name.length + 1) % 16)
      else name.length + 1) ∧ 24 + (if (name.length + 1) % 16 ≠ 0 then
      add32 (name.length + 1) (16 - (name.length + 1) % 16)
      else name.length + 1) < _
  rw [add32_of_lt (by omega)]
  split_ifs <;> omega

/-- A built header keeps its type, length and name, and its attributes come
behind the name. -/
structure BuiltHeader (type len : Nat) (name : List Byte) (header : Memory) :
    Prop where
  string : 0 ∉ name
  fields : Header header type len (entryOffset header 0) name
  named : 24 + name.length + 1 ≤ entryOffset header 0
  fits : entryOffset header 0 ≤ maxCbfsFileHeaderBuffer
  attributes : entryAttributesOffset header 0 = 0 ∨
    24 + name.length + 1 ≤ entryAttributesOffset header 0

theorem Built.spec {type len : Nat} {header : Memory}
    (built : Built type len name header) : BuiltHeader type len name header := by
  induction built with
  | create string short fits =>
    have bounds := calculateFileHeaderSize_bounds short
    obtain ⟨created, attributes⟩ := header_createFileHeader type len
      (lt_of_le_of_lt fits (by decide))
    have offset := created.offset
    exact ⟨string, by rwa [offset], by omega, by omega, Or.inl attributes⟩
  | @addAttr header header' tag size attr bytes built fits added filled ih =>
    obtain ⟨string, ⟨magic, typeEq, lenEq, -, nameEq⟩, named, -, attributes⟩ := ih
    obtain ⟨place, offset, attributes', same⟩ :=
      cbfsAddFileAttr_spec attributes named (by omega) fits added
    have change : SameOutside header' (store header'
        (attr + sizeofAttribute) bytes) attr (attr + size) :=
      sameOutside_store (Nat.le_add_right _ _) (by omega)
    have offset' : entryOffset (store header' (attr + sizeofAttribute) bytes)
        0 = entryOffset header 0 + size := by
      rw [entryOffset, change.readBE (by omega)]
      exact offset
    refine ⟨string, ⟨?_, ?_, ?_, rfl, ?_⟩, by omega, by omega, Or.inr ?_⟩
    · rw [change.load (by omega), ← magic]
      exact load_congr fun _ _ below => same _ (by omega)
    · rw [entryType, change.readBE (by omega), ← typeEq, readBE]
      exact congrArg decodeBE (load_congr fun _ _ below => same _ (by omega))
    · rw [entryLen, change.readBE (by omega), ← lenEq, readBE]
      exact congrArg decodeBE (load_congr fun _ _ below => same _ (by omega))
    · rw [change.load (by show 24 + _ ≤ _ ∨ _; omega), ← nameEq]
      refine load_congr fun address above below => same _ ?_
      change 24 ≤ address at above
      change address < 24 + _ at below
      omega
    · rw [entryAttributesOffset, change.readBE (by omega)]
      exact attributes'

end Coreboot.Cbfs
