import Coreboot.ElfParser
import Coreboot.FaultFree
import Coreboot.SteppedRun

/-!
# What the ELF parser reads

The parser stops at a read outside of the input or of an array, and at a division by zero.
-/

namespace Coreboot.ElfParsing

open ByteMemory ElfHeaders FaultFree SteppedRun

/-- The parser returns -1, divides by zero, or reads outside. -/
inductive Stop
  | error
  | division
  | outside
deriving DecidableEq

/-- The functions of `xdr` do not check for underflow. -/
def getRecord {α : Type} (b : Buffer) (read : List Byte → α) (position size : Nat) :
    Except Stop α :=
  if position + size ≤ b.size then .ok (read (load b.memory position size))
  else .error .outside

/-- The product of two `uint16_t` is an `int`, and becomes a `size_t`. -/
def tableSize (entsize count : Nat) : Nat := (Int.bmod (entsize * count) (2 ^ 32) % 2 ^ 64).toNat

def segmentRead (b : Buffer) (ehdr : Ehdr) (xdr : Xdr) (bit64 : Bool) (i : Nat) :
    Except Stop Phdr := do
  let phdr ← getRecord b (elfPhdr xdr bit64) (ehdr.phoff + ehdr.phentsize * i) (sizeofPhdr bit64)
  -- "Ensure the contents are valid within the elf file."
  if checkSize b phdr.offset phdr.filesz then .ok phdr else .error .error

def phdrRead (b : Buffer) (ehdr : Ehdr) (xdr : Xdr) (bit64 : Bool) : Except Stop (List Phdr) :=
  if checkSize b ehdr.phoff (tableSize ehdr.phentsize ehdr.phnum) then
    tabulate (segmentRead b ehdr xdr bit64) ehdr.phnum
  else .error .error

def sectionRead (b : Buffer) (ehdr : Ehdr) (xdr : Xdr) (bit64 : Bool) (i : Nat) :
    Except Stop Shdr :=
  getRecord b (elfShdr xdr bit64) (ehdr.shoff + ehdr.shentsize * i) (sizeofShdr bit64)

def shdrRead (b : Buffer) (ehdr : Ehdr) (xdr : Xdr) (bit64 : Bool) : Except Stop (List Shdr) :=
  if checkSize b ehdr.shoff (tableSize ehdr.shentsize ehdr.shnum) then
    tabulate (sectionRead b ehdr xdr bit64) ehdr.shnum
  else .error .error

def relocSection (b : Buffer) (ehdr : Ehdr) (xdr : Xdr) (bit64 : Bool)
    (shdrs : List Shdr) (i : Nat) : Except Stop (List Rela) :=
  let shdr := shdrs.getD i emptyShdr
  if shdr.type ≠ shtRel ∧ shdr.type ≠ shtRela then .ok []
  else if shdr.info ≥ ehdr.shnum ∨ shdr.info = 0 then
    -- The message is about `shdr[i]`, and `shdr` is `&pelf->shdr[i]`.
    if i + i < ehdr.shnum then .error .error else .error .outside
  else if shdr.entsize = 0 then .error .division
  else if checkSize b shdr.offset shdr.size then
    let isRela : Bool := shdr.type = shtRela
    tabulate (fun j => getRecord b (readRela xdr bit64 isRela)
      (shdr.offset + relaSize bit64 isRela * j) (relaSize bit64 isRela))
      (shdr.size / shdr.entsize)
  else .error .error

def relocRead (b : Buffer) (ehdr : Ehdr) (xdr : Xdr) (bit64 : Bool)
    (shdrs : List Shdr) : Except Stop (List (List Rela)) :=
  tabulate (relocSection b ehdr xdr bit64 shdrs) ehdr.shnum

def strtabSection (b : Buffer) (shdrs : List Shdr) (i : Nat) : Except Stop (Option (List Byte)) :=
  match strtabSectionRead b (shdrs.getD i emptyShdr) with
  | some strtab => .ok strtab
  | none => .error .error

def strtabRead (b : Buffer) (ehdr : Ehdr) (shdrs : List Shdr) :
    Except Stop (List (Option (List Byte))) :=
  if ehdr.shstrndx ≥ ehdr.shnum then .error .error
  else tabulate (strtabSection b shdrs) ehdr.shnum

/-- The loop over the symbols.  The index is an `Elf64_Half`. -/
structure SymState where
  i : Nat
  position : Nat
  syms : Nat → Sym

def symStep (b : Buffer) (xdr : Xdr) (bit64 : Bool) (nsyms : Nat) (state : SymState) :
    SymState ⊕ Except Stop (List Sym) :=
  if state.i < nsyms then
    match getRecord b (readSym xdr bit64) state.position (sizeofSym bit64) with
    | .error stop => .inr (.error stop)
    | .ok sym => .inl ⟨(state.i + 1) % 65536, state.position + sizeofSym bit64,
        Function.update state.syms state.i sym⟩
  else .inr (.ok ((List.range nsyms).map state.syms))

def noSyms : Nat → Sym := fun _ => ⟨0, 0, 0, 0, 0, 0⟩

/-- `symtab_read` comes to this. -/
def SymtabRead (b : Buffer) (xdr : Xdr) (bit64 : Bool) (shdrs : List Shdr)
    (outcome : Except Stop (List Sym)) : Prop :=
  match shdrs.filter fun shdr => shdr.type = shtSymtab with
  | [shdr] =>
    if checkSize b shdr.offset shdr.size then
      if shdr.entsize = 0 then outcome = .error .division
      else EndsWith (symStep b xdr bit64 (shdr.size / shdr.entsize))
        ⟨0, shdr.offset, noSyms⟩ outcome
    else outcome = .error .error
  | _ => outcome = .error .error

def optional {α : Type} (asked : Bool) (read : Except Stop (List α)) : Except Stop (List α) :=
  if asked then read else .ok []

def sections (flags : ParseFlags) : Bool :=
  flags.shdr || flags.reloc || flags.strtab || flags.symtab

def fileIdent (b : Buffer) : List Byte := load b.memory 0 eiNident

def fileHeader (b : Buffer) : Ehdr :=
  elfEhdr (xdrOf (fileIdent b)) (isBit64 (fileIdent b)) (fileIdent b)
    (load b.memory eiNident (sizeofEhdr (isBit64 (fileIdent b)) - eiNident))

/-- `parse_elf` before the symbols. -/
def parseTables (b : Buffer) (flags : ParseFlags) : Except Stop ParsedElf := do
  -- `iself`
  let magic ← getRecord b id 0 4
  if magic ≠ elfmag then .error .error
  else
    -- `bgets` copies no more than there is.
    let bit64 := isBit64 (fileIdent b)
    let xdr := xdrOf (fileIdent b)
    let ehdr ← getRecord b (elfEhdr xdr bit64 (fileIdent b)) eiNident (sizeofEhdr bit64 - eiNident)
    let phdr ← optional flags.phdr (phdrRead b ehdr xdr bit64)
    let shdr ← optional (sections flags) (shdrRead b ehdr xdr bit64)
    let relocs ← optional flags.reloc (relocRead b ehdr xdr bit64 shdr)
    let strtabs ← optional flags.strtab (strtabRead b ehdr shdr)
    .ok ⟨ehdr, phdr, shdr, relocs, strtabs, []⟩

/-- `parse_elf` comes to this, if its loops end. -/
def ParseElf (b : Buffer) (flags : ParseFlags) (outcome : Except Stop ParsedElf) : Prop :=
  match parseTables b flags with
  | .error stop => outcome = .error stop
  | .ok pelf =>
    if flags.symtab then
      ∃ syms, SymtabRead b (xdrOf (fileIdent b)) (isBit64 (fileIdent b)) pelf.shdr
          syms ∧ outcome = syms.map fun syms => { pelf with syms }
    else outcome = .ok pelf

section Unique

variable {b : Buffer} {xdr : Xdr} {bit64 : Bool} {shdrs : List Shdr} {flags : ParseFlags}

theorem SymtabRead.unique {first second : Except Stop (List Sym)}
    (one : SymtabRead b xdr bit64 shdrs first)
    (other : SymtabRead b xdr bit64 shdrs second) : first = second := by
  unfold SymtabRead at one other
  generalize (shdrs.filter fun shdr => shdr.type = shtSymtab) = symtabs at one other
  match symtabs with
  | [] => exact one.trans other.symm
  | [shdr] =>
    dsimp only at one other
    split_ifs at one other
    · exact one.trans other.symm
    · exact EndsWith.unique one other
    · exact one.trans other.symm
  | _ :: _ :: _ => exact one.trans other.symm

theorem ParseElf.unique {first second : Except Stop ParsedElf}
    (one : ParseElf b flags first) (other : ParseElf b flags second) : first = second := by
  unfold ParseElf at one other
  cases tables : parseTables b flags with
  | error stop =>
    rw [tables] at one other
    exact one.trans other.symm
  | ok pelf =>
    rw [tables] at one other
    split_ifs at one other
    · obtain ⟨syms, read, rfl⟩ := one
      obtain ⟨syms', read', rfl⟩ := other
      rw [read.unique read']
    · exact one.trans other.symm

end Unique

def Inside (b : Buffer) (offset size : Nat) : Prop := size = 0 ∨ offset + size ≤ b.size

def relocsAt (b : Buffer) (xdr : Xdr) (bit64 : Bool) (shdr : Shdr) : List Rela :=
  let isRela : Bool := shdr.type = shtRela
  readTable (readRela xdr bit64 isRela) (relaSize bit64 isRela) b.memory
    (relaSize bit64 isRela) shdr.offset (shdr.size / shdr.entsize)

def symsAt (b : Buffer) (xdr : Xdr) (bit64 : Bool) (shdr : Shdr) : List Sym :=
  readTable (readSym xdr bit64) (sizeofSym bit64) b.memory (sizeofSym bit64)
    shdr.offset (shdr.size / shdr.entsize)

/-- The tables lie in the input, and the arrays hold the records of the tables. -/
structure Describes (b : Buffer) (flags : ParseFlags) (pelf : ParsedElf) : Prop where
  segments : ∀ phdr ∈ pelf.phdr, Inside b phdr.offset phdr.filesz
  phdrs : flags.phdr → pelf.phdr = readTable
    (elfPhdr (xdrOf (fileIdent b)) (isBit64 (fileIdent b)))
    (sizeofPhdr (isBit64 (fileIdent b))) b.memory (fileHeader b).phentsize
    (fileHeader b).phoff (fileHeader b).phnum
  shdrs : sections flags → pelf.shdr = readTable
    (elfShdr (xdrOf (fileIdent b)) (isBit64 (fileIdent b)))
    (sizeofShdr (isBit64 (fileIdent b))) b.memory (fileHeader b).shentsize
    (fileHeader b).shoff (fileHeader b).shnum
  relocs : flags.reloc → pelf.relocs = pelf.shdr.map fun shdr =>
    if shdr.type = shtRel ∨ shdr.type = shtRela then
      relocsAt b (xdrOf (fileIdent b)) (isBit64 (fileIdent b)) shdr
    else []
  relocTables : flags.reloc → ∀ shdr ∈ pelf.shdr,
    shdr.type = shtRel ∨ shdr.type = shtRela → Inside b shdr.offset shdr.size
  strtabs : flags.strtab → ∀ shdr ∈ pelf.shdr, shdr.type = shtStrtab →
    Inside b shdr.offset shdr.size
  syms : flags.symtab → ∃ shdr ∈ pelf.shdr, shdr.type = shtSymtab ∧
    Inside b shdr.offset shdr.size ∧
    pelf.syms = symsAt b (xdrOf (fileIdent b)) (isBit64 (fileIdent b)) shdr

/-- The parser ends with an error or with the tables, and reads nothing else. -/
def ParsesWell (b : Buffer) (flags : ParseFlags) : Prop :=
  ∃ outcome, ParseElf b flags outcome ∧
    match outcome with
    | .error stop => stop = .error
    | .ok pelf => Describes b flags pelf

section Conditions

variable (b : Buffer)

/-- The byte order and the class of the file. -/
abbrev fileXdr : Xdr := xdrOf (fileIdent b)

abbrev fileBit64 : Bool := isBit64 (fileIdent b)

def segmentAt (i : Nat) : Phdr :=
  elfPhdr (fileXdr b) (fileBit64 b) (load b.memory
    ((fileHeader b).phoff + (fileHeader b).phentsize * i) (sizeofPhdr (fileBit64 b)))

def sectionAt (i : Nat) : Shdr :=
  elfShdr (fileXdr b) (fileBit64 b) (load b.memory
    ((fileHeader b).shoff + (fileHeader b).shentsize * i) (sizeofShdr (fileBit64 b)))

def sectionHeaders : List Shdr := (List.range (fileHeader b).shnum).map (sectionAt b)

/-- The program headers lie in the input, up to the first with bad contents. -/
def SegmentsFit : Prop :=
  checkSize b (fileHeader b).phoff
      (tableSize (fileHeader b).phentsize (fileHeader b).phnum) = true →
    ∀ i < (fileHeader b).phnum,
      (∀ j < i, checkSize b (segmentAt b j).offset (segmentAt b j).filesz = true) →
        (fileHeader b).phoff + (fileHeader b).phentsize * i + sizeofPhdr (fileBit64 b) ≤ b.size

def SegmentsPass : Prop :=
  checkSize b (fileHeader b).phoff
      (tableSize (fileHeader b).phentsize (fileHeader b).phnum) = true ∧
    ∀ i < (fileHeader b).phnum, checkSize b (segmentAt b i).offset (segmentAt b i).filesz = true

def SectionsFit : Prop :=
  checkSize b (fileHeader b).shoff
      (tableSize (fileHeader b).shentsize (fileHeader b).shnum) = true →
    ∀ i < (fileHeader b).shnum,
      (fileHeader b).shoff + (fileHeader b).shentsize * i + sizeofShdr (fileBit64 b) ≤ b.size

def SectionsPass : Prop :=
  checkSize b (fileHeader b).shoff (tableSize (fileHeader b).shentsize (fileHeader b).shnum) = true

def IsReloc (shdr : Shdr) : Prop := shdr.type = shtRel ∨ shdr.type = shtRela

/-- The relocations apply to a section. -/
def Applies (shdr : Shdr) : Prop := shdr.info < (fileHeader b).shnum ∧ shdr.info ≠ 0

/-- A section of relocations that applies to none is in the first half, and the others
have an entry size and records in the input. -/
def RelocFits (i : Nat) : Prop :=
  IsReloc (sectionAt b i) →
    (¬ Applies b (sectionAt b i) → i + i < (fileHeader b).shnum) ∧
    (Applies b (sectionAt b i) → (sectionAt b i).entsize ≠ 0 ∧
      (checkSize b (sectionAt b i).offset (sectionAt b i).size = true →
        ∀ j < (sectionAt b i).size / (sectionAt b i).entsize,
          (sectionAt b i).offset + relaSize (fileBit64 b) ((sectionAt b i).type = shtRela) * j +
            relaSize (fileBit64 b) ((sectionAt b i).type = shtRela) ≤ b.size))

def RelocPasses (i : Nat) : Prop :=
  IsReloc (sectionAt b i) → Applies b (sectionAt b i) ∧
    checkSize b (sectionAt b i).offset (sectionAt b i).size = true

def RelocsFit : Prop := ∀ i < (fileHeader b).shnum, (∀ j < i, RelocPasses b j) → RelocFits b i

def RelocsPass : Prop := ∀ i < (fileHeader b).shnum, RelocPasses b i

def StrtabsPass : Prop :=
  (fileHeader b).shstrndx < (fileHeader b).shnum ∧
    ∀ i < (fileHeader b).shnum, (sectionAt b i).type = shtStrtab →
      checkSize b (sectionAt b i).offset (sectionAt b i).size = true

def symtabs : List Shdr := (sectionHeaders b).filter fun shdr => shdr.type = shtSymtab

/-- The symbols are fewer than 65536, and lie in the input. -/
def SymbolsFit : Prop :=
  ∀ shdr, symtabs b = [shdr] → checkSize b shdr.offset shdr.size = true →
    shdr.entsize ≠ 0 ∧ shdr.size / shdr.entsize < 65536 ∧
      ∀ i < shdr.size / shdr.entsize,
        shdr.offset + sizeofSym (fileBit64 b) * i + sizeofSym (fileBit64 b) ≤ b.size

def SymbolsPass : Prop := ∃ shdr, symtabs b = [shdr] ∧ checkSize b shdr.offset shdr.size = true

/-- The end of a table is a `size_t`. -/
def EndFits (offset size : Nat) : Prop := size = 0 ∨ offset + size < 2 ^ 64

variable (flags : ParseFlags)

/-- What is checked is as it should be. -/
structure Accepted : Prop where
  segments : flags.phdr → SegmentsPass b
  sections : sections flags → SectionsPass b
  relocs : flags.reloc → RelocsPass b
  strtabs : flags.strtab → StrtabsPass b
  symbols : flags.symtab → SymbolsPass b

/-- No sum of an offset and a size that is compared wraps around. -/
structure EndsFit : Prop where
  segments : flags.phdr → ∀ i < (fileHeader b).phnum,
    EndFits (segmentAt b i).offset (segmentAt b i).filesz
  relocs : flags.reloc → ∀ i < (fileHeader b).shnum, IsReloc (sectionAt b i) →
    EndFits (sectionAt b i).offset (sectionAt b i).size
  strtabs : flags.strtab → ∀ i < (fileHeader b).shnum,
    (sectionAt b i).type = shtStrtab → EndFits (sectionAt b i).offset (sectionAt b i).size
  symbols : flags.symtab → ∀ shdr ∈ symtabs b, EndFits shdr.offset shdr.size

/-- The records that are reached lie in the input, and in a file that passes the
checks the sums do not wrap around. -/
structure Bounded : Prop where
  segments : flags.phdr → SegmentsFit b
  sections : sections flags → (flags.phdr → SegmentsPass b) → SectionsFit b
  relocs : flags.reloc → (flags.phdr → SegmentsPass b) → SectionsPass b → RelocsFit b
  symbols : flags.symtab → (flags.phdr → SegmentsPass b) → SectionsPass b →
    (flags.reloc → RelocsPass b) → (flags.strtab → StrtabsPass b) → SymbolsFit b
  ends : Accepted b flags → EndsFit b flags

end Conditions

def Reported (stop : Stop) : Prop := stop = .error

section Records

variable {α : Type} {b : Buffer} {read : List Byte → α} {position size : Nat}

theorem yields_getRecord :
    Yields (getRecord b read position size) (read (load b.memory position size)) := by
  unfold getRecord
  split_ifs
  · exact (yields_ok _ _).mpr rfl
  · exact yields_error _ _

theorem passes_getRecord : Passes (getRecord b read position size) ↔ position + size ≤ b.size := by
  unfold getRecord
  split_ifs with inside <;> simp [inside]

theorem safe_getRecord :
    Safe Reported (getRecord b read position size) ↔ position + size ≤ b.size := by
  unfold getRecord
  split_ifs with inside <;> simp [inside, Reported]

theorem map_load_eq_readTable (read : List Byte → α) (memory : Memory)
    (size stride base count : Nat) :
    ((List.range count).map fun i => read (load memory (base + stride * i) size)) =
      readTable read size memory stride base count := by
  induction count generalizing base with
  | zero => rfl
  | succ count ih =>
    rw [List.range_succ_eq_map, List.map_cons, List.map_map, readTable, ← ih,
      Nat.mul_zero, Nat.add_zero]
    congr 2
    funext i
    simp only [Function.comp_apply]
    congr 2
    rw [Nat.mul_succ]
    omega

end Records

section Headers

variable {b : Buffer}

theorem yields_segmentRead (i : Nat) :
    Yields (segmentRead b (fileHeader b) (fileXdr b) (fileBit64 b) i) (segmentAt b i) := by
  apply yields_bind yields_getRecord
  split_ifs
  · exact (yields_ok _ _).mpr rfl
  · exact yields_error _ _

theorem passes_segmentRead (i : Nat) :
    Passes (segmentRead b (fileHeader b) (fileXdr b) (fileBit64 b) i) ↔
      (fileHeader b).phoff + (fileHeader b).phentsize * i + sizeofPhdr (fileBit64 b) ≤ b.size ∧
        checkSize b (segmentAt b i).offset (segmentAt b i).filesz = true := by
  rw [segmentRead, passes_bind yields_getRecord, passes_getRecord]
  apply and_congr_right
  intro
  change Passes (if checkSize b (segmentAt b i).offset (segmentAt b i).filesz = true then
    _ else _) ↔ _
  split_ifs with inside <;> simp [inside]

theorem safe_segmentRead (i : Nat) :
    Safe Reported (segmentRead b (fileHeader b) (fileXdr b) (fileBit64 b) i) ↔
      (fileHeader b).phoff + (fileHeader b).phentsize * i + sizeofPhdr (fileBit64 b) ≤ b.size := by
  rw [segmentRead, safe_bind yields_getRecord, safe_getRecord]
  apply and_iff_left
  intro
  split_ifs <;> simp [Reported]

theorem yields_phdrRead :
    Yields (phdrRead b (fileHeader b) (fileXdr b) (fileBit64 b))
      ((List.range (fileHeader b).phnum).map (segmentAt b)) := by
  unfold phdrRead
  split_ifs
  · exact yields_tabulate fun i _ => yields_segmentRead i
  · exact yields_error _ _

theorem safe_phdrRead :
    Safe Reported (phdrRead b (fileHeader b) (fileXdr b) (fileBit64 b)) ↔ SegmentsFit b := by
  unfold phdrRead SegmentsFit
  split_ifs with table
  · rw [safe_tabulate fun i _ => yields_segmentRead i]
    simp only [safe_segmentRead, passes_segmentRead]
    rw [forall_reached_iff]
    simp [table]
  · simp [table, Reported]

theorem passes_phdrRead (fits : SegmentsFit b) :
    Passes (phdrRead b (fileHeader b) (fileXdr b) (fileBit64 b)) ↔ SegmentsPass b := by
  unfold phdrRead SegmentsPass
  split_ifs with table
  · rw [passes_tabulate fun i _ => yields_segmentRead i]
    simp only [passes_segmentRead, table, true_and]
    constructor
    · intro passes i below
      exact (passes i below).2
    · intro passes i below
      refine ⟨?_, passes i below⟩
      exact fits table i below fun j before => passes j (before.trans below)
  · simp [table]

theorem yields_sectionRead (i : Nat) :
    Yields (sectionRead b (fileHeader b) (fileXdr b) (fileBit64 b) i) (sectionAt b i) :=
  yields_getRecord

theorem yields_shdrRead :
    Yields (shdrRead b (fileHeader b) (fileXdr b) (fileBit64 b)) (sectionHeaders b) := by
  unfold shdrRead
  split_ifs
  · exact yields_tabulate fun i _ => yields_sectionRead i
  · exact yields_error _ _

theorem safe_shdrRead :
    Safe Reported (shdrRead b (fileHeader b) (fileXdr b) (fileBit64 b)) ↔ SectionsFit b := by
  unfold shdrRead SectionsFit
  split_ifs with table
  · rw [safe_tabulate fun i _ => yields_sectionRead i]
    simp only [sectionRead, safe_getRecord, passes_getRecord, table, true_imp_iff]
    have reached := @forall_reached_iff (fun i => (fileHeader b).shoff +
      (fileHeader b).shentsize * i + sizeofShdr (fileBit64 b) ≤ b.size) (fun _ => True)
      (fileHeader b).shnum
    simpa using reached
  · simp [table, Reported]

theorem passes_shdrRead (fits : SectionsFit b) :
    Passes (shdrRead b (fileHeader b) (fileXdr b) (fileBit64 b)) ↔ SectionsPass b := by
  unfold shdrRead SectionsPass
  split_ifs with table
  · rw [passes_tabulate fun i _ => yields_sectionRead i]
    simp only [sectionRead, passes_getRecord]
    exact iff_of_true (fits table) table
  · simp [table]

theorem getD_sectionHeaders {i : Nat} (below : i < (fileHeader b).shnum) :
    (sectionHeaders b).getD i emptyShdr = sectionAt b i := by
  simp [sectionHeaders, below]

end Headers

section Tables

variable {b : Buffer}

/-- The relocations of a section, and none of another. -/
def relocsOf (b : Buffer) (shdr : Shdr) : List Rela :=
  if shdr.type = shtRel ∨ shdr.type = shtRela then
    relocsAt b (fileXdr b) (fileBit64 b) shdr
  else []

variable {i : Nat}

section

variable (below : i < (fileHeader b).shnum)
include below

theorem relocSection_of_other (other : ¬ IsReloc (sectionAt b i)) :
    relocSection b (fileHeader b) (fileXdr b) (fileBit64 b) (sectionHeaders b) i = .ok [] := by
  unfold relocSection
  rw [getD_sectionHeaders below]
  exact if_pos (not_or.mp other)

theorem relocSection_of_invalid (reloc : IsReloc (sectionAt b i))
    (invalid : ¬ Applies b (sectionAt b i)) :
    relocSection b (fileHeader b) (fileXdr b) (fileBit64 b) (sectionHeaders b) i =
      if i + i < (fileHeader b).shnum then .error .error else .error .outside := by
  have invalid' : (sectionAt b i).info ≥ (fileHeader b).shnum ∨ (sectionAt b i).info = 0 := by
    unfold Applies at invalid
    omega
  unfold relocSection
  rw [getD_sectionHeaders below]
  rw [if_neg fun other => (not_or.mpr other) reloc, if_pos invalid']

theorem relocSection_of_applies (reloc : IsReloc (sectionAt b i))
    (applies : Applies b (sectionAt b i)) :
    relocSection b (fileHeader b) (fileXdr b) (fileBit64 b) (sectionHeaders b) i =
      if (sectionAt b i).entsize = 0 then .error .division
      else if checkSize b (sectionAt b i).offset (sectionAt b i).size then
        tabulate (fun j => getRecord b
            (readRela (fileXdr b) (fileBit64 b) ((sectionAt b i).type = shtRela))
            ((sectionAt b i).offset + relaSize (fileBit64 b) ((sectionAt b i).type = shtRela) * j)
            (relaSize (fileBit64 b) ((sectionAt b i).type = shtRela)))
          ((sectionAt b i).size / (sectionAt b i).entsize)
      else .error .error := by
  have valid : ¬ ((sectionAt b i).info ≥ (fileHeader b).shnum ∨ (sectionAt b i).info = 0) := by
    unfold Applies at applies
    omega
  unfold relocSection
  rw [getD_sectionHeaders below]
  rw [if_neg fun other => (not_or.mpr other) reloc, if_neg valid]

theorem yields_relocSection :
    Yields (relocSection b (fileHeader b) (fileXdr b) (fileBit64 b) (sectionHeaders b) i)
      (relocsOf b (sectionAt b i)) := by
  unfold relocsOf
  by_cases reloc : IsReloc (sectionAt b i)
  · rw [if_pos (show _ ∨ _ from reloc)]
    by_cases applies : Applies b (sectionAt b i)
    · rw [relocSection_of_applies below reloc applies]
      split_ifs
      · exact yields_error _ _
      · rw [relocsAt, ← map_load_eq_readTable]
        exact yields_tabulate fun j _ => yields_getRecord
      · exact yields_error _ _
    · rw [relocSection_of_invalid below reloc applies]
      split_ifs
      · exact yields_error _ _
      · exact yields_error _ _
  · rw [relocSection_of_other below reloc, if_neg (show ¬ (_ ∨ _) from reloc)]
    exact (yields_ok _ _).mpr rfl

theorem safe_relocSection :
    Safe Reported (relocSection b (fileHeader b) (fileXdr b) (fileBit64 b)
      (sectionHeaders b) i) ↔ RelocFits b i := by
  unfold RelocFits
  by_cases reloc : IsReloc (sectionAt b i)
  · by_cases applies : Applies b (sectionAt b i)
    · rw [relocSection_of_applies below reloc applies]
      split_ifs with entsize table
      · simp [reloc, applies, entsize, Reported]
      · rw [safe_tabulate fun j _ => yields_getRecord]
        simp only [safe_getRecord, passes_getRecord]
        have reached := @forall_reached_iff (fun j => (sectionAt b i).offset +
            relaSize (fileBit64 b) ((sectionAt b i).type = shtRela) * j +
          relaSize (fileBit64 b) ((sectionAt b i).type = shtRela) ≤ b.size)
          (fun _ => True) ((sectionAt b i).size / (sectionAt b i).entsize)
        simp only [and_true, true_imp_iff, imp_true_iff] at reached
        simp [reached, reloc, applies, entsize, table]
      · simp [reloc, applies, entsize, table, Reported]
    · rw [relocSection_of_invalid below reloc applies]
      split_ifs with half <;> simp [reloc, applies, half, Reported]
  · simp [relocSection_of_other below reloc, reloc]

theorem passes_relocSection (fits : RelocFits b i) :
    Passes (relocSection b (fileHeader b) (fileXdr b) (fileBit64 b)
      (sectionHeaders b) i) ↔ RelocPasses b i := by
  unfold RelocPasses
  by_cases reloc : IsReloc (sectionAt b i)
  · by_cases applies : Applies b (sectionAt b i)
    · obtain ⟨entsize, records⟩ := (fits reloc).2 applies
      rw [relocSection_of_applies below reloc applies, if_neg entsize]
      split_ifs with table
      · rw [passes_tabulate fun j _ => yields_getRecord]
        simp only [passes_getRecord]
        exact iff_of_true (records table) fun _ => ⟨applies, table⟩
      · simp [reloc, applies, table]
    · rw [relocSection_of_invalid below reloc applies]
      split_ifs <;> simp [reloc, applies]
  · simp [relocSection_of_other below reloc, reloc]

omit below in
theorem yields_relocRead :
    Yields (relocRead b (fileHeader b) (fileXdr b) (fileBit64 b) (sectionHeaders b))
      ((sectionHeaders b).map (relocsOf b)) := by
  rw [sectionHeaders, List.map_map]
  exact yields_tabulate fun i below => yields_relocSection below

omit below in
theorem safe_relocRead :
    Safe Reported (relocRead b (fileHeader b) (fileXdr b) (fileBit64 b)
      (sectionHeaders b)) ↔ RelocsFit b := by
  unfold relocRead RelocsFit
  rw [safe_tabulate fun i below => yields_relocSection below]
  have reached := @forall_reached_iff (RelocFits b) (RelocPasses b) (fileHeader b).shnum
  rw [← reached]
  constructor
  · intro safe i below passed
    rw [← safe_relocSection below]
    apply safe i below
    intro j before
    have below' := before.trans below
    exact (passes_relocSection below' (passed j before).1).mpr (passed j before).2
  · intro fits i below passed
    rw [safe_relocSection below]
    apply fits i below
    intro j
    induction j using Nat.strong_induction_on with
    | _ j ih =>
      intro before
      have below' := before.trans below
      have fit := fits j below' fun k less => ih k less (less.trans before)
      exact ⟨fit, (passes_relocSection below' fit).mp (passed j before)⟩

omit below in
theorem passes_relocRead (fits : RelocsFit b) :
    Passes (relocRead b (fileHeader b) (fileXdr b) (fileBit64 b) (sectionHeaders b)) ↔
      RelocsPass b := by
  unfold relocRead RelocsPass
  rw [passes_tabulate fun i below => yields_relocSection below]
  constructor
  · intro passes i
    induction i using Nat.strong_induction_on with
    | _ i ih =>
      intro below
      have fit := fits i below fun j before => ih j before (before.trans below)
      exact (passes_relocSection below fit).mp (passes i below)
  · intro passes i below
    have fit := fits i below fun j before => passes j (before.trans below)
    exact (passes_relocSection below fit).mpr (passes i below)

/-- The strings of a section, and none of another. -/
def strtabOf (b : Buffer) (shdr : Shdr) : Option (List Byte) :=
  if shdr.type = shtStrtab then some (load b.memory shdr.offset shdr.size) else none

theorem strtabSection_eq :
    strtabSection b (sectionHeaders b) i =
      if (sectionAt b i).type = shtStrtab →
          checkSize b (sectionAt b i).offset (sectionAt b i).size = true then
        .ok (strtabOf b (sectionAt b i))
      else .error .error := by
  unfold strtabSection strtabSectionRead strtabOf
  rw [getD_sectionHeaders below]
  by_cases strtab : (sectionAt b i).type = shtStrtab
  · by_cases table : checkSize b (sectionAt b i).offset (sectionAt b i).size = true
    · simp [strtab, table]
    · simp [strtab, table]
  · simp [strtab]

theorem yields_strtabSection :
    Yields (strtabSection b (sectionHeaders b) i) (strtabOf b (sectionAt b i)) := by
  rw [strtabSection_eq below]
  split_ifs
  · exact (yields_ok _ _).mpr rfl
  · exact yields_error _ _

end

theorem yields_strtabRead :
    Yields (strtabRead b (fileHeader b) (sectionHeaders b))
      ((sectionHeaders b).map (strtabOf b)) := by
  unfold strtabRead
  split_ifs
  · exact yields_error _ _
  · rw [sectionHeaders, List.map_map]
    exact yields_tabulate fun i below => yields_strtabSection below

theorem safe_strtabRead : Safe Reported (strtabRead b (fileHeader b) (sectionHeaders b)) := by
  unfold strtabRead
  split_ifs
  · simp [Reported]
  · rw [safe_tabulate fun i below => yields_strtabSection below]
    intro i below
    rw [strtabSection_eq below]
    split_ifs <;> simp [Reported]

theorem passes_strtabRead :
    Passes (strtabRead b (fileHeader b) (sectionHeaders b)) ↔ StrtabsPass b := by
  unfold strtabRead StrtabsPass
  split_ifs with range
  · simp [Nat.not_lt.mpr range]
  · rw [passes_tabulate fun i below => yields_strtabSection below]
    simp only [Nat.lt_of_not_le range, true_and]
    apply forall_congr'
    intro i
    apply forall_congr'
    intro below
    rw [strtabSection_eq below]
    split_ifs with table
    · simpa using table
    · simpa using table

end Tables

variable {outcome : Except Stop (List Sym)}

section Symbols

variable {b : Buffer} {xdr : Xdr} {bit64 : Bool} {nsyms : Nat} {state : SymState}

theorem symStep_of_inside (more : state.i < nsyms)
    (inside : state.position + sizeofSym bit64 ≤ b.size) :
    symStep b xdr bit64 nsyms state =
      .inl ⟨(state.i + 1) % 65536, state.position + sizeofSym bit64,
        Function.update state.syms state.i
          (readSym xdr bit64 (load b.memory state.position (sizeofSym bit64)))⟩ := by
  unfold symStep getRecord
  rw [if_pos more, if_pos inside]

theorem symStep_of_outside (more : state.i < nsyms)
    (outside : ¬ state.position + sizeofSym bit64 ≤ b.size) :
    symStep b xdr bit64 nsyms state = .inr (.error .outside) := by
  unfold symStep getRecord
  rw [if_pos more, if_neg outside]

theorem symStep_of_done (done : ¬ state.i < nsyms) :
    symStep b xdr bit64 nsyms state = .inr (.ok ((List.range nsyms).map state.syms)) :=
  if_neg done

def symAt (b : Buffer) (xdr : Xdr) (bit64 : Bool) (offset i : Nat) : Sym :=
  readSym xdr bit64 (load b.memory (offset + sizeofSym bit64 * i) (sizeofSym bit64))

def symsDone (b : Buffer) (xdr : Xdr) (bit64 : Bool) (offset done : Nat) : SymState :=
  ⟨done, offset + sizeofSym bit64 * done,
    fun i => if i < done then symAt b xdr bit64 offset i else noSyms i⟩

variable {offset : Nat}

theorem reaches_symsDone {done : Nat} (few : nsyms < 65536) (le : done ≤ nsyms)
    (fits : ∀ i < done, offset + sizeofSym bit64 * i + sizeofSym bit64 ≤ b.size) :
    Reaches (symStep b xdr bit64 nsyms) ⟨0, offset, noSyms⟩ (symsDone b xdr bit64 offset done) := by
  induction done with
  | zero =>
    have start : symsDone b xdr bit64 offset 0 = ⟨0, offset, noSyms⟩ := by
      simp [symsDone]
    rw [start]
    exact .refl
  | succ done ih =>
    have before := ih (Nat.le_of_succ_le le) fun i below =>
      fits i (Nat.lt_succ_of_lt below)
    apply Relation.ReflTransGen.tail before
    have step := @symStep_of_inside b xdr bit64 nsyms
      (symsDone b xdr bit64 offset done) le (fits done (Nat.lt_succ_self done))
    unfold Moves
    rw [step]
    congr 1
    unfold symsDone
    congr 1
    · dsimp only
      omega
    · dsimp only
      rw [Nat.mul_succ]
      omega
    · funext i
      dsimp only
      by_cases here : i = done
      · subst here
        simp [symAt]
      · rw [Function.update_of_ne here]
        by_cases below : i < done
        · rw [if_pos below, if_pos (Nat.lt_succ_of_lt below)]
        · rw [if_neg below, if_neg (by omega)]

theorem endsWith_of_inside {shdr : Shdr} (few : shdr.size / shdr.entsize < 65536)
    (fits : ∀ i < shdr.size / shdr.entsize,
      shdr.offset + sizeofSym bit64 * i + sizeofSym bit64 ≤ b.size) :
    EndsWith (symStep b xdr bit64 (shdr.size / shdr.entsize)) ⟨0, shdr.offset, noSyms⟩
      (.ok (symsAt b xdr bit64 shdr)) := by
  refine ⟨_, reaches_symsDone few le_rfl fits, ?_⟩
  have done := @symStep_of_done b xdr bit64 (shdr.size / shdr.entsize)
    (symsDone b xdr bit64 shdr.offset (shdr.size / shdr.entsize)) (Nat.lt_irrefl _)
  rw [done, symsAt, ← map_load_eq_readTable]
  congr 2
  apply List.map_congr_left
  intro i member
  exact if_pos (List.mem_range.mp member)

theorem endsWith_of_not_inside {i : Nat} (few : nsyms < 65536) (below : i < nsyms)
    (outside : ¬ offset + sizeofSym bit64 * i + sizeofSym bit64 ≤ b.size) :
    EndsWith (symStep b xdr bit64 nsyms) ⟨0, offset, noSyms⟩ (.error .outside) := by
  induction i using Nat.strong_induction_on with
  | _ i ih =>
    by_cases earlier : ∃ j < i, ¬ offset + sizeofSym bit64 * j + sizeofSym bit64 ≤ b.size
    · obtain ⟨j, before, first⟩ := earlier
      exact ih j before (before.trans below) first
    · have fits : ∀ j < i, offset + sizeofSym bit64 * j + sizeofSym bit64 ≤ b.size := by
        intro j before
        by_contra first
        exact earlier ⟨j, before, first⟩
      exact ⟨_, reaches_symsDone few below.le fits, symStep_of_outside below outside⟩

theorem outside_of_many (many : 65536 ≤ nsyms)
    (ends : EndsWith (symStep b xdr bit64 nsyms) ⟨0, offset, noSyms⟩ outcome) :
    outcome = .error .outside := by
  obtain ⟨last, reaches, ended⟩ := ends
  have half : last.i < 65536 := by
    apply reaches.invariant (fun state => state.i < 65536) (show 0 < 65536 by decide)
    intro state next _ moves
    have more : state.i < nsyms ∨ ¬ state.i < nsyms := em _
    unfold symStep at moves
    split_ifs at moves
    split at moves
    · cases moves
    · obtain rfl := Sum.inl.inj moves
      exact Nat.mod_lt _ (by decide)
  unfold symStep at ended
  rw [if_pos (half.trans_le many)] at ended
  split at ended
  next stop stopped =>
    obtain rfl := Sum.inr.inj ended
    unfold getRecord at stopped
    split_ifs at stopped
    cases stopped
    rfl
  next => cases ended

end Symbols

section Optional

variable {α : Type} {asked : Bool} {read : Except Stop (List α)} {value : List α}

theorem yields_optional (yields : asked = true → Yields read value) :
    Yields (optional asked read) (if asked then value else []) := by
  cases asked with
  | false => exact (yields_ok _ _).mpr rfl
  | true => exact yields rfl

theorem safe_optional :
    Safe Reported (optional asked read) ↔ (asked = true → Safe Reported read) := by
  cases asked <;> simp [optional]

theorem passes_optional : Passes (optional asked read) ↔ (asked = true → Passes read) := by
  cases asked <;> simp [optional]

end Optional

section Parse

variable {b : Buffer} {flags : ParseFlags} {offset size : Nat} {syms : List Sym}

def askedSections (b : Buffer) (flags : ParseFlags) : List Shdr :=
  if sections flags then sectionHeaders b else []

/-- What `parse_elf` returns without the symbols. -/
def tables (b : Buffer) (flags : ParseFlags) : ParsedElf where
  ehdr := fileHeader b
  phdr := if flags.phdr then (List.range (fileHeader b).phnum).map (segmentAt b) else []
  shdr := askedSections b flags
  relocs := if flags.reloc then (sectionHeaders b).map (relocsOf b) else []
  strtabs := if flags.strtab then (sectionHeaders b).map (strtabOf b) else []
  syms := []

theorem sections_of_reloc (reloc : flags.reloc = true) : sections flags = true := by
  simp [sections, reloc]

theorem sections_of_strtab (strtab : flags.strtab = true) : sections flags = true := by
  simp [sections, strtab]

theorem sections_of_symtab (symtab : flags.symtab = true) : sections flags = true := by
  simp [sections, symtab]

theorem askedSections_eq (asked : sections flags = true) :
    askedSections b flags = sectionHeaders b :=
  if_pos asked

theorem parseTables_eq (header : 64 ≤ b.size) (magic : load b.memory 0 4 = elfmag) :
    parseTables b flags = (do
      let phdr ← optional flags.phdr (phdrRead b (fileHeader b) (fileXdr b) (fileBit64 b))
      let shdr ← optional (sections flags) (shdrRead b (fileHeader b) (fileXdr b) (fileBit64 b))
      let relocs ← optional flags.reloc (relocRead b (fileHeader b) (fileXdr b) (fileBit64 b) shdr)
      let strtabs ← optional flags.strtab (strtabRead b (fileHeader b) shdr)
      .ok ⟨fileHeader b, phdr, shdr, relocs, strtabs, []⟩) := by
  have first : getRecord b id 0 4 = .ok elfmag := by
    rw [getRecord, if_pos (by omega), magic]
    rfl
  have size : eiNident + (sizeofEhdr (fileBit64 b) - eiNident) ≤ b.size := by
    unfold eiNident sizeofEhdr
    split_ifs <;> omega
  have second : getRecord b (elfEhdr (fileXdr b) (fileBit64 b) (fileIdent b)) eiNident
      (sizeofEhdr (fileBit64 b) - eiNident) = .ok (fileHeader b) :=
    if_pos size
  unfold parseTables
  rw [first, ok_bind, if_neg (not_not.mpr rfl)]
  dsimp only
  rw [second, ok_bind]

theorem yields_phdrs :
    Yields (optional flags.phdr (phdrRead b (fileHeader b) (fileXdr b) (fileBit64 b)))
      (tables b flags).phdr :=
  yields_optional fun _ => yields_phdrRead

theorem yields_shdrs :
    Yields (optional (sections flags)
        (shdrRead b (fileHeader b) (fileXdr b) (fileBit64 b))) (askedSections b flags) :=
  yields_optional fun _ => yields_shdrRead

theorem yields_relocs :
    Yields (optional flags.reloc (relocRead b (fileHeader b) (fileXdr b) (fileBit64 b)
      (askedSections b flags))) (tables b flags).relocs := by
  apply yields_optional
  intro reloc
  rw [askedSections_eq (sections_of_reloc reloc)]
  exact yields_relocRead

theorem yields_strtabs :
    Yields (optional flags.strtab (strtabRead b (fileHeader b) (askedSections b flags)))
      (tables b flags).strtabs := by
  apply yields_optional
  intro strtab
  rw [askedSections_eq (sections_of_strtab strtab)]
  exact yields_strtabRead

theorem yields_parseTables (header : 64 ≤ b.size) (magic : load b.memory 0 4 = elfmag) :
    Yields (parseTables b flags) (tables b flags) := by
  rw [parseTables_eq header magic]
  apply yields_bind yields_phdrs
  apply yields_bind yields_shdrs
  apply yields_bind yields_relocs
  apply yields_bind yields_strtabs
  exact (yields_ok _ _).mpr rfl

theorem safe_parseTables (header : 64 ≤ b.size) (magic : load b.memory 0 4 = elfmag) :
    Safe Reported (parseTables b flags) ↔
      (flags.phdr = true → SegmentsFit b) ∧
      ((flags.phdr = true → SegmentsPass b) →
        (sections flags = true → SectionsFit b) ∧
        ((sections flags = true → SectionsPass b) → flags.reloc = true → RelocsFit b)) := by
  rw [parseTables_eq header magic, safe_bind yields_phdrs, safe_bind yields_shdrs,
    safe_bind yields_relocs, safe_bind yields_strtabs]
  simp only [safe_optional, passes_optional, safe_phdrRead, safe_shdrRead, safe_ok,
    imp_true_iff, and_true]
  apply and_congr_right
  intro segments
  apply imp_congr (forall_congr' fun asked => passes_phdrRead (segments asked))
  apply and_congr_right
  intro fits
  apply imp_congr (forall_congr' fun asked => passes_shdrRead (fits asked))
  have strtabs : flags.strtab = true →
      Safe Reported (strtabRead b (fileHeader b) (askedSections b flags)) := by
    intro strtab
    rw [askedSections_eq (sections_of_strtab strtab)]
    exact safe_strtabRead
  rw [and_iff_left fun _ => strtabs]
  apply forall_congr'
  intro reloc
  rw [askedSections_eq (sections_of_reloc reloc), safe_relocRead]

theorem passes_parseTables (header : 64 ≤ b.size)
    (magic : load b.memory 0 4 = elfmag) (safe : Safe Reported (parseTables b flags)) :
    Passes (parseTables b flags) ↔
      (flags.phdr = true → SegmentsPass b) ∧ (sections flags = true → SectionsPass b) ∧
      (flags.reloc = true → RelocsPass b) ∧ (flags.strtab = true → StrtabsPass b) := by
  obtain ⟨segmentsFit, later⟩ := (safe_parseTables header magic).mp safe
  have relocs (asked : flags.reloc = true) (fits : RelocsFit b) :
      Passes (relocRead b (fileHeader b) (fileXdr b) (fileBit64 b)
        (askedSections b flags)) ↔ RelocsPass b := by
    rw [askedSections_eq (sections_of_reloc asked), passes_relocRead fits]
  have strtabs (asked : flags.strtab = true) :
      Passes (strtabRead b (fileHeader b) (askedSections b flags)) ↔ StrtabsPass b := by
    rw [askedSections_eq (sections_of_strtab asked), passes_strtabRead]
  rw [parseTables_eq header magic, passes_bind yields_phdrs, passes_bind yields_shdrs,
    passes_bind yields_relocs, passes_bind yields_strtabs]
  simp only [passes_optional, passes_ok, and_true]
  constructor
  · rintro ⟨first, second, third, fourth⟩
    have segments : flags.phdr = true → SegmentsPass b :=
      fun asked => (passes_phdrRead (segmentsFit asked)).mp (first asked)
    obtain ⟨shdrsFit, relocsFit⟩ := later segments
    have shdrs : sections flags = true → SectionsPass b :=
      fun asked => (passes_shdrRead (shdrsFit asked)).mp (second asked)
    refine ⟨segments, shdrs, fun asked => ?_, fun asked => ?_⟩
    · exact (relocs asked (relocsFit shdrs asked)).mp (third asked)
    · exact (strtabs asked).mp (fourth asked)
  · rintro ⟨segments, shdrs, third, fourth⟩
    obtain ⟨shdrsFit, relocsFit⟩ := later segments
    refine ⟨fun asked => ?_, fun asked => ?_, fun asked => ?_, fun asked => ?_⟩
    · exact (passes_phdrRead (segmentsFit asked)).mpr (segments asked)
    · exact (passes_shdrRead (shdrsFit asked)).mpr (shdrs asked)
    · exact (relocs asked (relocsFit shdrs asked)).mpr (third asked)
    · exact (strtabs asked).mpr (fourth asked)

theorem inside_of_checkSize (inside : checkSize b offset size = true)
    (ends : EndFits offset size) : Inside b offset size := by
  unfold Inside
  unfold checkSize at inside
  rcases ends with empty | ends
  · exact .inl empty
  · split_ifs at inside with empty
    · exact .inl empty
    · right
      simp only [decide_eq_true_eq, not_or] at inside
      rw [Nat.mod_eq_of_lt ends] at inside
      omega

theorem endFits_of_inside (small : b.size < 2 ^ 64)
    (inside : Inside b offset size) : EndFits offset size := by
  rcases inside with empty | inside
  · exact .inl empty
  · exact .inr (inside.trans_lt small)

theorem mem_sectionHeaders {shdr : Shdr} :
    shdr ∈ sectionHeaders b ↔ ∃ i < (fileHeader b).shnum, sectionAt b i = shdr := by
  simp [sectionHeaders]

theorem describes_of_accepted (accepted : Accepted b flags)
    (ends : EndsFit b flags) (read : flags.symtab = true → ∃ shdr, symtabs b = [shdr] ∧
      checkSize b shdr.offset shdr.size = true ∧
      syms = symsAt b (fileXdr b) (fileBit64 b) shdr) :
    Describes b flags { tables b flags with syms } where
  segments := by
    intro phdr member
    cases asked : flags.phdr with
    | false => simp [tables, asked] at member
    | true =>
      simp only [tables, asked, if_true, List.mem_map, List.mem_range] at member
      obtain ⟨i, below, rfl⟩ := member
      exact inside_of_checkSize ((accepted.segments asked).2 i below) (ends.segments asked i below)
  phdrs := by
    intro asked
    rw [← map_load_eq_readTable]
    exact if_pos asked
  shdrs := by
    intro asked
    rw [← map_load_eq_readTable]
    exact if_pos asked
  relocs := by
    intro asked
    have shdrs : (tables b flags).shdr = sectionHeaders b :=
      askedSections_eq (sections_of_reloc asked)
    rw [shdrs]
    exact if_pos asked
  relocTables := by
    intro asked shdr member reloc
    have shdrs : (tables b flags).shdr = sectionHeaders b :=
      askedSections_eq (sections_of_reloc asked)
    rw [shdrs, mem_sectionHeaders] at member
    obtain ⟨i, below, rfl⟩ := member
    exact inside_of_checkSize (accepted.relocs asked i below reloc).2
      (ends.relocs asked i below reloc)
  strtabs := by
    intro asked shdr member strtab
    have shdrs : (tables b flags).shdr = sectionHeaders b :=
      askedSections_eq (sections_of_strtab asked)
    rw [shdrs, mem_sectionHeaders] at member
    obtain ⟨i, below, rfl⟩ := member
    exact inside_of_checkSize ((accepted.strtabs asked).2 i below strtab)
      (ends.strtabs asked i below strtab)
  syms := by
    intro asked
    obtain ⟨shdr, only, inside, rfl⟩ := read asked
    have member : shdr ∈ symtabs b := by
      rw [only]
      exact List.mem_singleton_self shdr
    have found := List.mem_filter.mp member
    have shdrs : (tables b flags).shdr = sectionHeaders b :=
      askedSections_eq (sections_of_symtab asked)
    refine ⟨shdr, ?_, of_decide_eq_true found.2, ?_, rfl⟩
    · dsimp only
      rw [shdrs]
      exact found.1
    · exact inside_of_checkSize inside (ends.symbols asked shdr member)

theorem endsFit_of_describes (small : b.size < 2 ^ 64) (accepted : Accepted b flags)
    (describes : Describes b flags { tables b flags with syms }) : EndsFit b flags where
  segments := by
    intro asked i below
    apply endFits_of_inside small
    apply describes.segments
    simp only [tables, asked, if_true, List.mem_map, List.mem_range]
    exact ⟨i, below, rfl⟩
  relocs := by
    intro asked i below reloc
    have shdrs : (tables b flags).shdr = sectionHeaders b :=
      askedSections_eq (sections_of_reloc asked)
    apply endFits_of_inside small
    apply describes.relocTables asked _ _ reloc
    rw [shdrs, mem_sectionHeaders]
    exact ⟨i, below, rfl⟩
  strtabs := by
    intro asked i below strtab
    have shdrs : (tables b flags).shdr = sectionHeaders b :=
      askedSections_eq (sections_of_strtab asked)
    apply endFits_of_inside small
    apply describes.strtabs asked _ _ strtab
    rw [shdrs, mem_sectionHeaders]
    exact ⟨i, below, rfl⟩
  symbols := by
    intro asked shdr member
    obtain ⟨only, symtab, -⟩ := accepted.symbols asked
    obtain ⟨described, found, type, inside, -⟩ := describes.syms asked
    have shdrs : (tables b flags).shdr = sectionHeaders b :=
      askedSections_eq (sections_of_symtab asked)
    rw [shdrs] at found
    have other : described ∈ symtabs b := List.mem_filter.mpr ⟨found, decide_eq_true type⟩
    rw [symtab, List.mem_singleton] at member other
    rw [member, ← other]
    exact endFits_of_inside small inside

theorem symtabRead_of_fits {shdr : Shdr} (fits : SymbolsFit b) (only : symtabs b = [shdr])
    (inside : checkSize b shdr.offset shdr.size = true) (outcome : Except Stop (List Sym)) :
    SymtabRead b (fileXdr b) (fileBit64 b) (sectionHeaders b) outcome ↔
      outcome = .ok (symsAt b (fileXdr b) (fileBit64 b) shdr) := by
  obtain ⟨entsize, few, records⟩ := fits shdr only inside
  have ends := @endsWith_of_inside b (fileXdr b) (fileBit64 b) shdr few records
  unfold SymtabRead
  rw [show (sectionHeaders b).filter (fun shdr => shdr.type = shtSymtab) = [shdr] from only]
  dsimp only
  rw [if_pos inside, if_neg entsize]
  constructor
  · intro other
    exact other.unique ends
  · rintro rfl
    exact ends

theorem symbolsFit_of_symtabRead
    (read : SymtabRead b (fileXdr b) (fileBit64 b) (sectionHeaders b) outcome)
    (safe : Safe Reported outcome) : SymbolsFit b := by
  intro shdr only inside
  unfold SymtabRead at read
  rw [show (sectionHeaders b).filter (fun shdr => shdr.type = shtSymtab) = [shdr] from only] at read
  dsimp only at read
  rw [if_pos inside] at read
  split_ifs at read with entsize
  · rw [read, safe_error] at safe
    cases safe
  · have few : shdr.size / shdr.entsize < 65536 := by
      by_contra many
      rw [outside_of_many (Nat.le_of_not_lt many) read, safe_error] at safe
      cases safe
    refine ⟨entsize, few, ?_⟩
    intro i below
    by_contra outside
    rw [read.unique (endsWith_of_not_inside few below outside), safe_error] at safe
    cases safe

theorem symtabRead_of_not_passes (fails : ¬ SymbolsPass b) :
    SymtabRead b (fileXdr b) (fileBit64 b) (sectionHeaders b) (.error .error) := by
  unfold SymtabRead
  split
  next shdr only =>
    rw [if_neg fun inside => fails ⟨shdr, only, inside⟩]
  next => rfl

theorem parseTables_of_passes (header : 64 ≤ b.size) (magic : load b.memory 0 4 = elfmag)
    (safe : Safe Reported (parseTables b flags)) (segments : flags.phdr = true → SegmentsPass b)
    (shdrs : sections flags = true → SectionsPass b) (relocs : flags.reloc = true → RelocsPass b)
    (strtabs : flags.strtab = true → StrtabsPass b) :
    parseTables b flags = .ok (tables b flags) := by
  apply (yields_parseTables header magic).eq_ok
  rw [passes_parseTables header magic safe]
  exact ⟨segments, shdrs, relocs, strtabs⟩

theorem parseElf_of_ok {outcome : Except Stop ParsedElf}
    (passed : parseTables b flags = .ok (tables b flags)) :
    ParseElf b flags outcome ↔
      if flags.symtab then
        ∃ syms, SymtabRead b (fileXdr b) (fileBit64 b) (askedSections b flags) syms ∧
          outcome = syms.map fun syms => { tables b flags with syms }
      else outcome = .ok (tables b flags) := by
  unfold ParseElf
  rw [passed]
  rfl

theorem ParsesWell.bounded (small : b.size < 2 ^ 64) (header : 64 ≤ b.size)
    (magic : load b.memory 0 4 = elfmag) (well : ParsesWell b flags) : Bounded b flags := by
  obtain ⟨outcome, parsed, good⟩ := well
  have safe : Safe Reported (parseTables b flags) := by
    intro stop stopped
    unfold ParseElf at parsed
    rw [stopped] at parsed
    rw [parsed] at good
    exact good
  obtain ⟨segments, later⟩ := (safe_parseTables header magic).mp safe
  have symbols : flags.symtab = true → (flags.phdr = true → SegmentsPass b) →
      SectionsPass b → (flags.reloc = true → RelocsPass b) →
      (flags.strtab = true → StrtabsPass b) → SymbolsFit b := by
    intro asked first second third fourth
    have passed := parseTables_of_passes header magic safe first (fun _ => second) third fourth
    rw [parseElf_of_ok passed, if_pos asked, askedSections_eq (sections_of_symtab asked)] at parsed
    obtain ⟨syms, read, rfl⟩ := parsed
    apply symbolsFit_of_symtabRead read
    rintro stop rfl
    exact good
  refine ⟨segments, fun asked first => (later first).1 asked, ?_, symbols, ?_⟩
  · intro asked first second
    exact (later first).2 (fun _ => second) asked
  · intro accepted
    have passed := parseTables_of_passes header magic safe accepted.segments
      accepted.sections accepted.relocs accepted.strtabs
    rw [parseElf_of_ok passed] at parsed
    split_ifs at parsed with asked
    · rw [askedSections_eq (sections_of_symtab asked)] at parsed
      obtain ⟨shdr, only, inside⟩ := accepted.symbols asked
      have fits := symbols asked accepted.segments
        (accepted.sections (sections_of_symtab asked)) accepted.relocs accepted.strtabs
      obtain ⟨syms, read, rfl⟩ := parsed
      rw [symtabRead_of_fits fits only inside] at read
      subst read
      exact endsFit_of_describes small accepted good
    · rw [parsed] at good
      exact endsFit_of_describes small accepted good

/-- The parser reads the input only and returns the tables of the file if and only if
the records it gets to are in the input. -/
theorem parsesWell_iff (small : b.size < 2 ^ 64) (header : 64 ≤ b.size)
    (magic : load b.memory 0 4 = elfmag) : ParsesWell b flags ↔ Bounded b flags := by
  refine ⟨ParsesWell.bounded small header magic, fun bounded => ?_⟩
  have safe : Safe Reported (parseTables b flags) := by
    rw [safe_parseTables header magic]
    refine ⟨bounded.segments, fun first => ⟨fun asked => bounded.sections asked first, ?_⟩⟩
    intro second asked
    exact bounded.relocs asked first (second (sections_of_reloc asked))
  cases outcome : parseTables b flags with
  | error stop =>
    refine ⟨.error stop, ?_, safe stop outcome⟩
    unfold ParseElf
    rw [outcome]
  | ok pelf =>
    have passes : Passes (parseTables b flags) := ⟨pelf, outcome⟩
    have passed := (yields_parseTables header magic).eq_ok passes
    rw [passes_parseTables header magic safe] at passes
    obtain ⟨segments, shdrs, relocs, strtabs⟩ := passes
    cases asked : flags.symtab with
    | false =>
      have unasked : ¬ flags.symtab = true := by simp [asked]
      have accepted : Accepted b flags :=
        ⟨segments, shdrs, relocs, strtabs, fun symtab => absurd symtab unasked⟩
      refine ⟨.ok (tables b flags), ?_, ?_⟩
      · rw [parseElf_of_ok passed, if_neg unasked]
      · exact describes_of_accepted accepted (bounded.ends accepted)
          fun symtab => absurd symtab unasked
    | true =>
      have shdrs' := shdrs (sections_of_symtab asked)
      have fits := bounded.symbols asked segments shdrs' relocs strtabs
      by_cases symbols : SymbolsPass b
      · obtain ⟨shdr, only, inside⟩ := symbols
        have accepted : Accepted b flags :=
          ⟨segments, shdrs, relocs, strtabs, fun _ => ⟨shdr, only, inside⟩⟩
        refine ⟨.ok { tables b flags with syms := symsAt b (fileXdr b) (fileBit64 b) shdr }, ?_, ?_⟩
        · rw [parseElf_of_ok passed, if_pos asked, askedSections_eq (sections_of_symtab asked)]
          exact ⟨_, (symtabRead_of_fits fits only inside _).mpr rfl, rfl⟩
        · exact describes_of_accepted accepted (bounded.ends accepted)
            fun _ => ⟨shdr, only, inside, rfl⟩
      · refine ⟨.error .error, ?_, rfl⟩
        rw [parseElf_of_ok passed, if_pos asked, askedSections_eq (sections_of_symtab asked)]
        exact ⟨_, symtabRead_of_not_passes symbols, rfl⟩

end Parse

/-- A file of 64 bytes with one program header at an offset, of an entry size. -/
def smallFile (phoff phentsize : Byte) : Buffer :=
  ⟨fun address => (elfmag ++ List.replicate 24 0 ++ [phoff] ++ List.replicate 13 0 ++
    [phentsize, 0, 1]).getD address 0, 64⟩

theorem magic_smallFile (phoff phentsize : Byte) :
    load (smallFile phoff phentsize).memory 0 4 = elfmag := by
  rfl

/-- The program header is in the file header. -/
theorem parsesWell_small :
    ParsesWell (smallFile 4 32) ⟨true, false, false, false, false⟩ ↔
      Bounded (smallFile 4 32) ⟨true, false, false, false, false⟩ :=
  parsesWell_iff (by decide) le_rfl (magic_smallFile 4 32)

/-- The table has one byte, and the program header 32. -/
theorem not_parsesWell_shortEntry :
    ¬ ∀ (b : Buffer) (flags : ParseFlags), b.size < 2 ^ 64 → 64 ≤ b.size →
      load b.memory 0 4 = elfmag → ParsesWell b flags := by
  intro claim
  have small : (smallFile 60 1).size < 2 ^ 64 := by decide
  have well := claim (smallFile 60 1) ⟨true, false, false, false, false⟩ small le_rfl
    (magic_smallFile 60 1)
  have fits := (well.bounded small le_rfl (magic_smallFile 60 1)).segments rfl
  have phoff : (fileHeader (smallFile 60 1)).phoff = 60 := rfl
  have phentsize : (fileHeader (smallFile 60 1)).phentsize = 1 := rfl
  have phnum : (fileHeader (smallFile 60 1)).phnum = 1 := rfl
  have record : sizeofPhdr (fileBit64 (smallFile 60 1)) = 32 := rfl
  unfold SegmentsFit at fits
  rw [phoff, phentsize, phnum, record] at fits
  have inside := fits (by decide) 0 Nat.one_pos fun j before => absurd before (by omega)
  exact absurd inside (by decide)

end Coreboot.ElfParsing
