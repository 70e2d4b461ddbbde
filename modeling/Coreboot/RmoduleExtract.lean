import Coreboot.ElfWriter
import Coreboot.FaultFree
import Coreboot.RmoduleLoad

/-!
# Extraction of relocatable modules

The host tool describes an executable from a stage of a relocatable module: a section with the
program, symbols and relocations.
-/

namespace Coreboot.Rmodule

open ByteMemory ElfHeaders FaultFree

/-- A section for `elf_writer_add_section`; it has no bits or is of the program. -/
structure ElfSection where
  name : String
  nobits : Bool
  addr : Nat
  size : Nat
  content : List Byte

def stbLocal : Nat := 0
def stbGlobal : Nat := 1
def sttNotype : Nat := 0
def sttSection : Nat := 3

/-- A symbol for `elf_writer_add_symbol`. -/
structure ElfSymbol where
  name : String
  sectionName : String
  value : Nat
  binding : Nat
  type : Nat

/-- What the writer is told: the entry point, the sections and the symbols, and the
addresses of the relocations, which are all for the symbol of the program section. -/
structure Description where
  entry : Nat
  sections : List ElfSection
  symbols : List ElfSymbol
  rels : List Nat

/-- The tool finds no module, or reports an error, or reads outside of the stage. -/
inductive ExtractStop
  | notRmodule
  | error
  | outside
deriving DecidableEq

def sectionName : String := ".program"

/-- `rmod_deserialize`, of a stage that has a header. -/
def rmodDeserialize (order : ByteOrder) (memory : Memory) : Header where
  magic := BitVec.ofNat 16 (order.read 2 memory 0)
  version := BitVec.ofNat 8 (order.read 1 memory 2)
  type := BitVec.ofNat 8 (order.read 1 memory 3)
  payloadBeginOffset := BitVec.ofNat 32 (order.read 4 memory 4)
  payloadEndOffset := BitVec.ofNat 32 (order.read 4 memory 8)
  relocationsBeginOffset := BitVec.ofNat 32 (order.read 4 memory 12)
  relocationsEndOffset := BitVec.ofNat 32 (order.read 4 memory 16)
  moduleLinkStartAddress := BitVec.ofNat 32 (order.read 4 memory 20)
  moduleProgramSize := BitVec.ofNat 32 (order.read 4 memory 24)
  moduleEntryPoint := BitVec.ofNat 32 (order.read 4 memory 28)
  parametersBegin := BitVec.ofNat 32 (order.read 4 memory 32)
  parametersEnd := BitVec.ofNat 32 (order.read 4 memory 36)
  bssBegin := BitVec.ofNat 32 (order.read 4 memory 40)
  bssEnd := BitVec.ofNat 32 (order.read 4 memory 44)

namespace Header

/-- `payload_sz`, a difference of two `uint32_t`. -/
def payloadSz (rmod : Header) : Nat := (rmod.payloadEndOffset - rmod.payloadBeginOffset).toNat

/-- `relocs_sz`, if it is positive. -/
def relocsSz (rmod : Header) : Nat :=
  rmod.relocationsEndOffset.toNat - rmod.relocationsBeginOffset.toNat

/-- The end of the program in memory, which the next section begins with. -/
def programEnd (rmod : Header) : Nat := rmod.moduleLinkStartAddress.toNat + rmod.payloadSz

def sections (rmod : Header) (memory : Memory) : List ElfSection :=
  ⟨sectionName, false, rmod.moduleLinkStartAddress.toNat, rmod.payloadSz,
    load memory rmod.payloadBeginOffset.toNat rmod.payloadSz⟩ ::
  if rmod.payloadSz ≠ rmod.moduleProgramSize.toNat then
    [⟨".empty", true, rmod.programEnd,
      (rmod.moduleProgramSize.toNat + 2 ^ 64 - rmod.payloadSz) % 2 ^ 64, []⟩]
  else []

/-- `shdr.sh_addr` when the section symbol is added. -/
def sectionSymbolValue (rmod : Header) : Nat :=
  -- The header of the program section has been overwritten by that of `.empty`.
  if rmod.payloadSz ≠ rmod.moduleProgramSize.toNat then rmod.programEnd
  else rmod.moduleLinkStartAddress.toNat

def symbols (rmod : Header) : List ElfSymbol :=
  [⟨sectionName, sectionName, rmod.sectionSymbolValue, stbLocal, sttSection⟩] ++
  (if rmod.parametersBegin ≠ rmod.parametersEnd then
    [⟨"_rmodule_params", sectionName, rmod.parametersBegin.toNat, stbGlobal, sttNotype⟩,
      ⟨"_ermodule_params", sectionName, rmod.parametersEnd.toNat, stbGlobal, sttNotype⟩]
  else []) ++
  [⟨"_bss", sectionName, rmod.bssBegin.toNat, stbGlobal, sttNotype⟩,
    ⟨"_ebss", sectionName, rmod.bssEnd.toNat, stbGlobal, sttNotype⟩]

end Header

theorem wordSize_pos (bit64 : Bool) : 0 < wordSize bit64 := by
  cases bit64 with
  | false => decide
  | true => decide

def readRels (order : ByteOrder) (bit64 : Bool) (b : Buffer) (link relocsSz position : Nat)
    (rels : List Nat) : Except ExtractStop (List Nat) :=
  if 0 < relocsSz then
    if position + wordSize bit64 ≤ b.size then
      let addr := order.read (wordSize bit64) b.memory position
      -- "Skip any relocations that are below the link address."
      readRels order bit64 b link (relocsSz - wordSize bit64) (position + wordSize bit64)
        (if addr < link then rels else rels ++ [addr])
    else .error .outside
  else .ok rels
termination_by relocsSz
decreasing_by
  have positive := wordSize_pos bit64
  omega

/-- The contents are copied when the file is written. -/
def describe (b : Buffer) (rmod : Header) (rels : List Nat) : Except ExtractStop Description :=
  if rmod.payloadBeginOffset.toNat + rmod.payloadSz ≤ b.size then
    .ok ⟨rmod.moduleEntryPoint.toNat, rmod.sections b.memory, rmod.symbols, rels⟩
  else .error .outside

def rmoduleStageToElf (order : ByteOrder) (bit64 : Bool) (b : Buffer) :
    Except ExtractStop Description :=
  -- The header is read before anything is checked.
  if b.size < sizeofHeader then .error .outside
  else
    let rmod := rmodDeserialize order b.memory
    if ¬ rmod.Parses then .error .notRmodule
    else if rmod.payloadBeginOffset.toNat > b.size ∨
        rmod.payloadEndOffset.toNat > b.size ∨
        rmod.relocationsBeginOffset.toNat > b.size ∨
        rmod.relocationsEndOffset.toNat > b.size then .error .error
    else do
      let rels ← readRels order bit64 b rmod.moduleLinkStartAddress.toNat rmod.relocsSz
        rmod.relocationsBeginOffset.toNat []
      describe b rmod rels

/-- `reloc_ops`, by the machine. -/
inductive Machine
  | em386
  | arm
  | aarch64
deriving DecidableEq

def Machine.ops : Machine → ArchOps
  | .em386 => ops386
  | .arm => opsArm
  | .aarch64 => opsAarch64

/-- The type of the relocations that `fixup_relocations` writes: `R_386_32`,
`R_ARM_ABS32` or `R_AARCH64_ABS64`. -/
def Machine.absolute : Machine → Nat
  | .em386 => 1
  | .arm => 2
  | .aarch64 => 257

/-- `write_phdrs`, behind a section that ends at an address: consecutive sections
share a segment, with their contents one after the other in the file. -/
def mergeSegments (stop : Nat) (phdr : Phdr) : List ElfSection → List Phdr
  | [] => [phdr]
  | next :: rest =>
    if stop = next.addr then
      mergeSegments ((next.addr + next.size) % 2 ^ 64)
        { phdr with
          memsz := (phdr.memsz + next.size) % 2 ^ 64
          program := phdr.program ++ next.content } rest
    else
      phdr :: mergeSegments ((next.addr + next.size) % 2 ^ 64)
        ⟨ptLoad, next.addr, next.size, next.content⟩ rest

/-- `write_phdrs`. -/
def segments : List ElfSection → List Phdr
  | [] => []
  | first :: rest =>
    mergeSegments ((first.addr + first.size) % 2 ^ 64)
      ⟨ptLoad, first.addr, first.size, first.content⟩ rest

namespace Description

def values (desc : Description) : List (String × Nat) :=
  desc.symbols.map fun symbol => (symbol.name, symbol.value)

def relSections (desc : Description) (machine : Machine) (width : Nat) : List RelocSection :=
  if desc.rels.isEmpty then []
  else
    (desc.sections.filter fun sec => sec.name = sectionName).map fun sec =>
      ⟨false, !sec.nobits, sec.addr % 256 ^ width, sec.size % 256 ^ width,
        desc.rels.map fun addr => ⟨addr % 256 ^ width, machine.absolute⟩⟩

/-- The executable that `elf_writer_serialize` writes, as it is parsed again.  Addresses
and sizes are words. -/
def executable (desc : Description) (machine : Machine) (order : ByteOrder) (width : Nat) :
    Executable where
  ops := machine.ops
  order := order
  width := width
  entry := desc.entry % 256 ^ width
  phdrs := (segments desc.sections).map fun phdr =>
    { phdr with vaddr := phdr.vaddr % 256 ^ width, memsz := phdr.memsz % 256 ^ width }
  sections := desc.relSections machine width
  symbols := desc.values.map fun symbol => (symbol.1, symbol.2 % 256 ^ width)

end Description

/-- A stage of a module that has been packed, for a machine and a class of files.  The
stage is shorter than 4 GiB, and the relocations lie in the program. -/
structure Packed (machine : Machine) (bit64 : Bool) (ctx : Context) : Prop where
  created : ∃ elf, elf.ops = machine.ops ∧ rmoduleCreate elf = some ctx
  width : ctx.width = wordSize bit64
  short : ctx.image.length < 2 ^ 32
  relocs : ∀ reloc ∈ ctx.relocs, ctx.vaddr ≤ reloc ∧ reloc < ctx.vaddr + ctx.memsz ∧
    reloc < 256 ^ ctx.width

/-- The description is that of the module, and it is packed again to the same image. -/
structure Restores (machine : Machine) (ctx : Context) (desc : Description) : Prop where
  segment : segments desc.sections = [⟨ptLoad, ctx.vaddr, ctx.memsz, ctx.program⟩]
  entry : desc.entry = ctx.entry
  sectionSymbol : populateSym desc.values sectionName = some ctx.vaddr
  parametersBegin : (populateSym desc.values "_rmodule_params").getD 0 = ctx.parametersBegin
  parametersEnd : (populateSym desc.values "_ermodule_params").getD 0 = ctx.parametersEnd
  bssBegin : populateSym desc.values "_bss" = some ctx.bssBegin
  bssEnd : populateSym desc.values "_ebss" = some ctx.bssEnd
  rels : desc.rels = ctx.relocs
  packs : (rmoduleCreate (desc.executable machine ctx.order ctx.width)).map Context.image =
    some ctx.image

def Context.stage (ctx : Context) : Buffer := ⟨store (fun _ => 0) 0 ctx.image, ctx.image.length⟩

def Extracted (machine : Machine) (bit64 : Bool) (ctx : Context) : Prop :=
  ∃ desc, rmoduleStageToElf ctx.order bit64 ctx.stage = .ok desc ∧ Restores machine ctx desc

def ReadsInside (order : ByteOrder) (bit64 : Bool) (b : Buffer) : Prop :=
  rmoduleStageToElf order bit64 b ≠ .error .outside

/-- The numbers of the module have 32 bits.  The program has no memory behind its bytes,
or no bytes.  Parameters that end where they begin are at zero. -/
structure Extractable (ctx : Context) : Prop where
  vaddr : ctx.vaddr < 4294967296
  memsz : ctx.memsz < 4294967296
  entry : ctx.entry < 4294967296
  parametersBegin : ctx.parametersBegin < 4294967296
  parametersEnd : ctx.parametersEnd < 4294967296
  bssBegin : ctx.bssBegin < 4294967296
  bssEnd : ctx.bssEnd < 4294967296
  parameters : ctx.parametersBegin = ctx.parametersEnd → ctx.parametersBegin = 0
  program : ctx.memsz = ctx.filesz ∨ ctx.filesz = 0

/-- The stage has a header, and the program and the words that begin in the relocations
are in the stage, if its offsets are. -/
structure HoldsParts (bit64 : Bool) (b : Buffer) (rmod : Header) : Prop where
  program : rmod.payloadBeginOffset.toNat + rmod.payloadSz ≤ b.size
  relocs : 0 < rmod.relocsSz → rmod.relocationsBeginOffset.toNat +
    (rmod.relocsSz + wordSize bit64 - 1) / wordSize bit64 * wordSize bit64 ≤ b.size

/-- When nothing else is read. -/
def Readable (order : ByteOrder) (bit64 : Bool) (b : Buffer) : Prop :=
  let rmod := rmodDeserialize order b.memory
  sizeofHeader ≤ b.size ∧ (rmod.Parses →
    rmod.payloadBeginOffset.toNat ≤ b.size → rmod.payloadEndOffset.toNat ≤ b.size →
    rmod.relocationsBeginOffset.toNat ≤ b.size → rmod.relocationsEndOffset.toNat ≤ b.size →
    HoldsParts bit64 b rmod)

section Reads

variable {order : ByteOrder} {bit64 : Bool} {b : Buffer} {link position relocsSz : Nat}
  {rels : List Nat}

theorem wordSize_cases (bit64 : Bool) : wordSize bit64 = 4 ∨ wordSize bit64 = 8 := by
  cases bit64 with
  | false => exact .inl rfl
  | true => exact .inr rfl

theorem readRels_inside_iff :
    readRels order bit64 b link relocsSz position rels ≠ .error .outside ↔
      (0 < relocsSz → position +
        (relocsSz + wordSize bit64 - 1) / wordSize bit64 * wordSize bit64 ≤ b.size) := by
  induction relocsSz using Nat.strong_induction_on generalizing position rels with
  | _ relocsSz ih =>
    have words := wordSize_cases bit64
    rw [readRels]
    split_ifs with more fits
    · rw [ih (relocsSz - wordSize bit64) (by omega)]
      clear ih
      generalize wordSize bit64 = width at *
      rcases words with rfl | rfl <;> omega
    · rw [iff_false_left (not_not.mpr rfl)]
      clear ih
      generalize wordSize bit64 = width at *
      rcases words with rfl | rfl <;> omega
    · simp [more]

theorem readRels_error {stop : ExtractStop}
    (stopped : readRels order bit64 b link relocsSz position rels = .error stop) :
    stop = .outside := by
  induction relocsSz using Nat.strong_induction_on generalizing position rels with
  | _ relocsSz ih =>
    have positive := wordSize_pos bit64
    rw [readRels] at stopped
    split_ifs at stopped with more fits
    · exact ih (relocsSz - wordSize bit64) (by omega) stopped
    · cases stopped
      rfl

theorem readRels_eq {relocs : List Nat}
    (table : load b.memory position (relocs.length * wordSize bit64) =
      relocs.flatMap (order.encode (wordSize bit64)))
    (inside : position + relocs.length * wordSize bit64 ≤ b.size)
    (above : ∀ reloc ∈ relocs, link ≤ reloc ∧ reloc < 256 ^ wordSize bit64) :
    readRels order bit64 b link (relocs.length * wordSize bit64) position rels =
      .ok (rels ++ relocs) := by
  have positive := wordSize_pos bit64
  induction relocs generalizing position rels with
  | nil =>
    rw [List.length_nil, Nat.zero_mul, readRels, if_neg (Nat.lt_irrefl 0), List.append_nil]
  | cons reloc rest ih =>
    obtain ⟨own, others⟩ := List.forall_mem_cons.mp above
    rw [List.length_cons, Nat.succ_mul] at table inside ⊢
    rw [Nat.add_comm, load_append, List.flatMap_cons] at table
    obtain ⟨word, later⟩ := List.append_inj table
      ((length_load _ _ _).trans (order.length_encode _ _).symm)
    have read : order.read (wordSize bit64) b.memory position = reloc := by
      rw [ByteOrder.read, word, order.decode_encode]
      exact Nat.mod_eq_of_lt own.2
    rw [readRels, if_pos (by omega), if_pos (by omega)]
    dsimp only
    rw [read, if_neg (Nat.not_lt.mpr own.1), Nat.add_sub_cancel,
      ih later (by omega) others, List.append_assoc]
    rfl

theorem readsInside_iff : ReadsInside order bit64 b ↔ Readable order bit64 b := by
  unfold ReadsInside Readable rmoduleStageToElf
  by_cases header : b.size < sizeofHeader
  · rw [if_pos header]
    simp [Nat.not_le.mpr header]
  · rw [if_neg header]
    generalize rmodDeserialize order b.memory = rmod
    by_cases parses : rmod.Parses
    · rw [if_neg (not_not.mpr parses)]
      split_ifs with bounds
      · constructor
        · intro _
          refine ⟨Nat.le_of_not_lt header, fun _ first second third fourth => ?_⟩
          omega
        · simp
      · have reads := @readRels_inside_iff order bit64 b
          rmod.moduleLinkStartAddress.toNat rmod.relocationsBeginOffset.toNat
          rmod.relocsSz []
        cases run : readRels order bit64 b rmod.moduleLinkStartAddress.toNat
            rmod.relocsSz rmod.relocationsBeginOffset.toNat [] with
        | error stop =>
          obtain rfl := readRels_error run
          constructor
          · intro inside
            exact absurd rfl inside
          · rintro ⟨-, holds⟩
            have parts := holds parses (by omega) (by omega) (by omega) (by omega)
            exact absurd run (reads.mpr parts.relocs)
        | ok rels =>
          have relocs := reads.mp (by simp [run])
          rw [ok_bind, describe]
          split_ifs with program
          · constructor
            · intro _
              exact ⟨Nat.le_of_not_lt header, fun _ _ _ _ _ => ⟨program, relocs⟩⟩
            · simp
          · constructor
            · intro inside
              exact absurd rfl inside
            · rintro ⟨-, holds⟩
              have parts := holds parses (by omega) (by omega) (by omega) (by omega)
              exact absurd parts.program program
    · simp [parses, Nat.le_of_not_lt header]

end Reads

section Stage

variable {machine : Machine} {bit64 : Bool} {ctx : Context} {memory : Memory}

def Context.header (ctx : Context) : Header where
  magic := rmoduleMagic
  version := rmoduleVersion1
  type := 0
  payloadBeginOffset := BitVec.ofNat 32 sizeofHeader
  payloadEndOffset := BitVec.ofNat 32 (sizeofHeader + ctx.filesz)
  relocationsBeginOffset := BitVec.ofNat 32 (sizeofHeader + ctx.filesz)
  relocationsEndOffset := BitVec.ofNat 32 (sizeofHeader + ctx.filesz + ctx.relocsSize)
  moduleLinkStartAddress := BitVec.ofNat 32 ctx.vaddr
  moduleProgramSize := BitVec.ofNat 32 ctx.memsz
  moduleEntryPoint := BitVec.ofNat 32 ctx.entry
  parametersBegin := BitVec.ofNat 32 ctx.parametersBegin
  parametersEnd := BitVec.ofNat 32 ctx.parametersEnd
  bssBegin := BitVec.ofNat 32 ctx.bssBegin
  bssEnd := BitVec.ofNat 32 ctx.bssEnd

theorem HasHeader.field {index width number offset : Nat} (header : HasHeader ctx memory 0)
    (field : ctx.headerFields[index]? = some (width, number))
    (place : ([2, 1, 1, 4, 4, 4, 4, 4, 4, 4, 4, 4, 4, 4, 4, 4, 4, 4].take index).sum = offset) :
    BitVec.ofNat (8 * width) (ctx.order.read width memory offset) =
      BitVec.ofNat (8 * width) number := by
  obtain ⟨inside, here⟩ := List.getElem?_eq_some_iff.mp field
  have fields := (List.take_append_drop index ctx.headerFields).symm
  rw [List.drop_eq_getElem_cons inside, here] at fields
  have read := header.read fields
  rw [Nat.zero_add, List.map_take, map_fst_headerFields, place] at read
  apply BitVec.eq_of_toNat_eq
  rw [BitVec.toNat_ofNat, BitVec.toNat_ofNat, read, Nat.pow_mul, Nat.mod_mod]

theorem rmodDeserialize_eq (header : HasHeader ctx memory 0) :
    rmodDeserialize ctx.order memory = ctx.header := by
  have magic := @HasHeader.field ctx memory 0 2 _ 0 header rfl (by decide)
  have version := @HasHeader.field ctx memory 1 1 _ 2 header rfl (by decide)
  have type := @HasHeader.field ctx memory 2 1 _ 3 header rfl (by decide)
  have payloadBegin := @HasHeader.field ctx memory 3 4 _ 4 header rfl (by decide)
  have payloadEnd := @HasHeader.field ctx memory 4 4 _ 8 header rfl (by decide)
  have relocsBegin := @HasHeader.field ctx memory 5 4 _ 12 header rfl (by decide)
  have relocsEnd := @HasHeader.field ctx memory 6 4 _ 16 header rfl (by decide)
  have link := @HasHeader.field ctx memory 7 4 _ 20 header rfl (by decide)
  have size := @HasHeader.field ctx memory 8 4 _ 24 header rfl (by decide)
  have entry := @HasHeader.field ctx memory 9 4 _ 28 header rfl (by decide)
  have parametersBegin := @HasHeader.field ctx memory 10 4 _ 32 header rfl (by decide)
  have parametersEnd := @HasHeader.field ctx memory 11 4 _ 36 header rfl (by decide)
  have bssBegin := @HasHeader.field ctx memory 12 4 _ 40 header rfl (by decide)
  have bssEnd := @HasHeader.field ctx memory 13 4 _ 44 header rfl (by decide)
  rw [rmodDeserialize, Context.header, Header.mk.injEq]
  exact ⟨magic, version, type, payloadBegin, payloadEnd, relocsBegin, relocsEnd, link, size,
    entry, parametersBegin, parametersEnd, bssBegin, bssEnd⟩

section Fields

variable (short : ctx.image.length < 4294967296)

include short

theorem payloadSz_header : ctx.header.payloadSz = ctx.filesz := by
  rw [length_image] at short
  unfold Header.payloadSz Context.header
  simp only [BitVec.toNat_sub, BitVec.toNat_ofNat]
  unfold sizeofHeader at *
  omega

theorem relocsSz_header : ctx.header.relocsSz = ctx.relocsSize := by
  rw [length_image] at short
  unfold Header.relocsSz Context.header
  simp only [BitVec.toNat_ofNat]
  unfold sizeofHeader at *
  omega

end Fields

/-- What the writer is told of the module. -/
def Context.description (ctx : Context) : Description :=
  ⟨ctx.header.moduleEntryPoint.toNat, ctx.header.sections ctx.stage.memory,
    ctx.header.symbols, ctx.relocs⟩

theorem hasHeader_stage (ctx : Context) : HasHeader ctx ctx.stage.memory 0 :=
  (parts_of_image (load_store_self (fun _ => 0) 0 ctx.image)).1

theorem load_program_stage (ctx : Context) :
    load ctx.stage.memory sizeofHeader ctx.filesz = ctx.program := by
  have parts := (parts_of_image (load_store_self (fun _ => 0) 0 ctx.image)).2.1
  rwa [Nat.zero_add] at parts

theorem load_relocs_stage (ctx : Context) :
    load ctx.stage.memory (sizeofHeader + ctx.filesz) ctx.relocsSize = ctx.relocBytes := by
  have parts := (parts_of_image (load_store_self (fun _ => 0) 0 ctx.image)).2.2
  rwa [Nat.zero_add] at parts

theorem rmoduleStageToElf_stage (packed : Packed machine bit64 ctx) :
    rmoduleStageToElf ctx.order bit64 ctx.stage = .ok ctx.description := by
  obtain ⟨-, width, short, relocs⟩ := packed
  have length := length_image ctx
  have size : ctx.stage.size = sizeofHeader + ctx.filesz + ctx.relocsSize := length
  have payloadSz := payloadSz_header short
  have relocsSz := relocsSz_header short
  have begin : ctx.header.payloadBeginOffset.toNat = sizeofHeader := rfl
  have stop : ctx.header.payloadEndOffset.toNat = sizeofHeader + ctx.filesz :=
    (BitVec.toNat_ofNat _ _).trans (Nat.mod_eq_of_lt (by omega))
  have first : ctx.header.relocationsBeginOffset.toNat = sizeofHeader + ctx.filesz := stop
  have last : ctx.header.relocationsEndOffset.toNat = sizeofHeader + ctx.filesz + ctx.relocsSize :=
    (BitVec.toNat_ofNat _ _).trans (Nat.mod_eq_of_lt (by omega))
  have link : ctx.header.moduleLinkStartAddress.toNat ≤ ctx.vaddr := by
    change ctx.vaddr % 2 ^ 32 ≤ ctx.vaddr
    exact Nat.mod_le _ _
  have table := load_relocs_stage ctx
  have reads : readRels ctx.order bit64 ctx.stage
      ctx.header.moduleLinkStartAddress.toNat ctx.relocsSize
      (sizeofHeader + ctx.filesz) [] = .ok ctx.relocs := by
    rw [Context.relocsSize, width] at table size ⊢
    rw [Context.relocBytes, width] at table
    rw [readRels_eq table (by omega) fun reloc member => ?_, List.nil_append]
    have bounds := relocs reloc member
    rw [width] at bounds
    exact ⟨by omega, bounds.2.2⟩
  unfold rmoduleStageToElf
  rw [if_neg (by omega), rmodDeserialize_eq (hasHeader_stage ctx)]
  rw [if_neg (not_not.mpr ⟨rfl, rfl⟩), begin, stop, first, last, if_neg (by omega),
    relocsSz, reads, ok_bind, describe, begin, payloadSz, if_pos (by omega)]
  rfl

theorem segments_description (short : ctx.image.length < 4294967296) :
    segments ctx.description.sections =
      [⟨ptLoad, ctx.vaddr % 4294967296, ctx.memsz % 4294967296, ctx.program⟩] := by
  have length := length_image ctx
  have link : ctx.header.moduleLinkStartAddress.toNat = ctx.vaddr % 4294967296 := rfl
  have size : ctx.header.moduleProgramSize.toNat = ctx.memsz % 4294967296 := rfl
  have begin : ctx.header.payloadBeginOffset.toNat = sizeofHeader := rfl
  change segments (ctx.header.sections ctx.stage.memory) = _
  unfold Header.sections Header.programEnd
  rw [payloadSz_header short, link, size, begin, load_program_stage]
  have fits : ctx.filesz < 4294967296 := by omega
  by_cases whole : ctx.filesz = ctx.memsz % 4294967296
  · simp [whole, segments, mergeSegments]
  · have consecutive : (ctx.vaddr % 4294967296 + ctx.filesz) % 2 ^ 64 =
        ctx.vaddr % 4294967296 + ctx.filesz := Nat.mod_eq_of_lt (by omega)
    have total : (ctx.filesz +
        (ctx.memsz % 4294967296 + 2 ^ 64 - ctx.filesz) % 2 ^ 64) % 2 ^ 64 =
          ctx.memsz % 4294967296 := by omega
    rw [if_pos whole, segments, mergeSegments]
    rw [if_pos consecutive, mergeSegments, total, List.append_nil]

theorem value_sectionName :
    populateSym ctx.description.values sectionName = some ctx.header.sectionSymbolValue := by
  rfl

theorem value_bss :
    populateSym ctx.description.values "_bss" = some (ctx.bssBegin % 4294967296) ∧
      populateSym ctx.description.values "_ebss" = some (ctx.bssEnd % 4294967296) := by
  change populateSym (ctx.header.symbols.map _) _ = _ ∧ populateSym (ctx.header.symbols.map _) _ = _
  unfold Header.symbols
  split_ifs
  · exact ⟨rfl, rfl⟩
  · exact ⟨rfl, rfl⟩

theorem value_parameters_of_ne (different : ctx.header.parametersBegin ≠ ctx.header.parametersEnd) :
    populateSym ctx.description.values "_rmodule_params" = some (ctx.parametersBegin % 4294967296) ∧
      populateSym ctx.description.values "_ermodule_params" =
        some (ctx.parametersEnd % 4294967296) := by
  change populateSym (ctx.header.symbols.map _) _ = _ ∧ populateSym (ctx.header.symbols.map _) _ = _
  unfold Header.symbols
  rw [if_pos different]
  exact ⟨rfl, rfl⟩

theorem value_parameters_of_eq (same : ctx.header.parametersBegin = ctx.header.parametersEnd) :
    populateSym ctx.description.values "_rmodule_params" = none ∧
      populateSym ctx.description.values "_ermodule_params" = none := by
  change populateSym (ctx.header.symbols.map _) _ = _ ∧ populateSym (ctx.header.symbols.map _) _ = _
  unfold Header.symbols
  rw [if_neg (not_not.mpr same)]
  exact ⟨rfl, rfl⟩

theorem parameters_eq_iff (small : ctx.parametersBegin < 4294967296)
    (small' : ctx.parametersEnd < 4294967296) :
    ctx.header.parametersBegin = ctx.header.parametersEnd ↔
      ctx.parametersBegin = ctx.parametersEnd := by
  change BitVec.ofNat 32 _ = BitVec.ofNat 32 _ ↔ _
  rw [← BitVec.toNat_inj, BitVec.toNat_ofNat, BitVec.toNat_ofNat,
    Nat.mod_eq_of_lt small, Nat.mod_eq_of_lt small']

theorem lt_of_mod_eq {number : Nat} (kept : number % 4294967296 = number) :
    number < 4294967296 := by
  omega

theorem extractable_of_restores (packed : Packed machine bit64 ctx)
    (restores : Restores machine ctx ctx.description) : Extractable ctx := by
  have segment := restores.segment
  rw [segments_description packed.short] at segment
  injection segment with phdr
  injection phdr with _ vaddr memsz
  have bssBegin := Option.some.inj (value_bss.1.symm.trans restores.bssBegin)
  have bssEnd := Option.some.inj (value_bss.2.symm.trans restores.bssEnd)
  have entry : ctx.entry % 4294967296 = ctx.entry := restores.entry
  have program : ctx.memsz = ctx.filesz ∨ ctx.filesz = 0 := by
    have symbol := Option.some.inj (value_sectionName.symm.trans restores.sectionSymbol)
    unfold Header.sectionSymbolValue Header.programEnd at symbol
    rw [payloadSz_header packed.short] at symbol
    have link : ctx.header.moduleLinkStartAddress.toNat = ctx.vaddr % 4294967296 := rfl
    have size : ctx.header.moduleProgramSize.toNat = ctx.memsz % 4294967296 := rfl
    rw [link, size, vaddr, memsz] at symbol
    split_ifs at symbol with whole
    · right
      omega
    · left
      exact (not_not.mp whole).symm
  by_cases same : ctx.header.parametersBegin = ctx.header.parametersEnd
  · have values := value_parameters_of_eq same
    have first := restores.parametersBegin
    have last := restores.parametersEnd
    rw [values.1] at first
    rw [values.2] at last
    change 0 = _ at first last
    exact {
      vaddr := lt_of_mod_eq vaddr
      memsz := lt_of_mod_eq memsz
      entry := lt_of_mod_eq entry
      parametersBegin := by omega
      parametersEnd := by omega
      bssBegin := lt_of_mod_eq bssBegin
      bssEnd := lt_of_mod_eq bssEnd
      parameters := fun _ => first.symm
      program }
  · have values := value_parameters_of_ne same
    have first := restores.parametersBegin
    have last := restores.parametersEnd
    rw [values.1] at first
    rw [values.2] at last
    have small := lt_of_mod_eq first
    have small' := lt_of_mod_eq last
    exact {
      vaddr := lt_of_mod_eq vaddr
      memsz := lt_of_mod_eq memsz
      entry := lt_of_mod_eq entry
      parametersBegin := small
      parametersEnd := small'
      bssBegin := lt_of_mod_eq bssBegin
      bssEnd := lt_of_mod_eq bssEnd
      parameters := fun equal => absurd ((parameters_eq_iff small small').mpr equal) same
      program }

end Stage

section Pack

variable {machine : Machine} {bit64 : Bool} {ctx : Context} {offsets : List Nat}

theorem sorted_of_collect {ops : ArchOps} {relocs : List Rela}
    (collected : rmoduleCollectRelocations ops relocs = some offsets) :
    offsets.Pairwise fun first second => first ≤ second := by
  obtain ⟨⟨_, nrelocs⟩, -, counted⟩ := Option.bind_eq_some_iff.mp collected
  dsimp only at counted
  split_ifs at counted
  · cases counted
    exact List.Pairwise.nil
  · obtain ⟨⟨emitted, count⟩, -, sorted⟩ := Option.bind_eq_some_iff.mp counted
    split_ifs at sorted
    cases sorted
    exact List.pairwise_insertionSort _ _

theorem sorted_of_rmoduleCreate {elf : Executable} (created : rmoduleCreate elf = some ctx) :
    ctx.relocs.Pairwise fun first second => first ≤ second := by
  obtain ⟨phdr, -, created⟩ := Option.bind_eq_some_iff.mp created
  obtain ⟨kept, -, created⟩ := Option.bind_eq_some_iff.mp created
  obtain ⟨relocs, collected, created⟩ := Option.bind_eq_some_iff.mp created
  obtain ⟨bssBegin, -, created⟩ := Option.bind_eq_some_iff.mp created
  obtain ⟨bssEnd, -, rfl⟩ := Option.map_eq_some_iff.mp created
  exact sorted_of_collect collected

theorem absolute_known (machine : Machine) :
    machine.ops.validType machine.absolute = true ∧
      machine.ops.shouldEmit machine.absolute = true := by
  cases machine with
  | em386 => decide
  | arm => decide
  | aarch64 => decide

theorem absoluteOffsets_absolute (machine : Machine) (offsets : List Nat) :
    absoluteOffsets machine.ops
      (offsets.map fun offset => ⟨offset, machine.absolute⟩) = offsets := by
  have emit := (absolute_known machine).2
  unfold absoluteOffsets
  induction offsets with
  | nil => rfl
  | cons offset rest ih => simp [emit, ih]

theorem collect_absolute (sorted : offsets.Pairwise fun first second => first ≤ second) :
    rmoduleCollectRelocations machine.ops
      (offsets.map fun offset => ⟨offset, machine.absolute⟩) = some offsets := by
  have valid := (absolute_known machine).1
  have known : ∀ rela ∈ offsets.map fun offset => (⟨offset, machine.absolute⟩ : Rela),
      machine.ops.validType rela.type = true := by
    simp [valid]
  unfold rmoduleCollectRelocations
  rw [forEachReloc_eq, if_pos known, forEachReloc_eq, if_pos known, absoluteOffsets_absolute]
  simp only [Option.bind_some, Nat.zero_add, List.nil_append, if_true]
  split_ifs with empty different
  · rw [List.length_eq_zero_iff.mp empty]
  · exact absurd rfl different
  · rw [sorted.insertionSort_eq]

theorem mod_word {number : Nat} (small : number < 4294967296) (bit64 : Bool) :
    number % 256 ^ wordSize bit64 = number := by
  apply Nat.mod_eq_of_lt
  cases bit64 with
  | false => exact small
  | true => exact small.trans (by decide)

theorem filter_sections (short : ctx.image.length < 4294967296) :
    (ctx.description.sections.filter fun sec => sec.name = sectionName) =
      [⟨sectionName, false, ctx.vaddr % 4294967296, ctx.filesz, ctx.program⟩] := by
  have link : ctx.header.moduleLinkStartAddress.toNat = ctx.vaddr % 4294967296 := rfl
  have begin : ctx.header.payloadBeginOffset.toNat = sizeofHeader := rfl
  change (ctx.header.sections ctx.stage.memory).filter _ = _
  unfold Header.sections
  rw [payloadSz_header short, link, begin, load_program_stage]
  split_ifs
  · rfl
  · rfl

section

variable (packed : Packed machine bit64 ctx)
include packed

theorem filterRelocationSections_relSections (extractable : Extractable ctx) :
    filterRelocationSections ⟨ptLoad, ctx.vaddr, ctx.memsz, ctx.program⟩
      (ctx.description.relSections machine ctx.width) =
        some (ctx.relocs.map fun offset => ⟨offset, machine.absolute⟩) := by
  have short := packed.short
  have length := length_image ctx
  have within : ctx.filesz ≤ ctx.memsz := by
    have program := extractable.program
    omega
  have words : (ctx.relocs.map fun addr =>
      (⟨addr % 256 ^ ctx.width, machine.absolute⟩ : Rela)) =
        ctx.relocs.map fun offset => ⟨offset, machine.absolute⟩ := by
    apply List.map_congr_left
    intro reloc member
    rw [Nat.mod_eq_of_lt (packed.relocs reloc member).2.2]
  have rels : ctx.description.rels = ctx.relocs := rfl
  unfold Description.relSections
  rw [rels, filter_sections short]
  by_cases empty : ctx.relocs = []
  · rw [empty]
    rfl
  · have inside : (ctx.vaddr + ctx.filesz) % 18446744073709551616 ≤
        (ctx.vaddr + ctx.memsz) % 18446744073709551616 := by
      have vaddr := extractable.vaddr
      have memsz := extractable.memsz
      omega
    rw [if_neg (by simpa using empty), List.map_singleton, words, packed.width,
      Nat.mod_eq_of_lt extractable.vaddr, mod_word extractable.vaddr,
      mod_word (show ctx.filesz < 4294967296 by omega)]
    simp [filterRelocationSections, filterRelocationSection, inside]

omit packed in
theorem sectionSymbolValue_header (short : ctx.image.length < 4294967296)
    (extractable : Extractable ctx) : ctx.header.sectionSymbolValue = ctx.vaddr := by
  have link : ctx.header.moduleLinkStartAddress.toNat = ctx.vaddr :=
    Nat.mod_eq_of_lt extractable.vaddr
  have size : ctx.header.moduleProgramSize.toNat = ctx.memsz := Nat.mod_eq_of_lt extractable.memsz
  rw [Header.sectionSymbolValue, Header.programEnd, payloadSz_header short, link, size]
  rcases extractable.program with whole | empty
  · rw [if_neg (not_not.mpr whole.symm)]
  · rw [empty, Nat.add_zero, ite_self]

omit packed in
theorem parameters_description (extractable : Extractable ctx) :
    (populateSym ctx.description.values "_rmodule_params").getD 0 = ctx.parametersBegin ∧
      (populateSym ctx.description.values "_ermodule_params").getD 0 = ctx.parametersEnd := by
  have small := extractable.parametersBegin
  have small' := extractable.parametersEnd
  by_cases same : ctx.header.parametersBegin = ctx.header.parametersEnd
  · have equal := (parameters_eq_iff small small').mp same
    have zero := extractable.parameters equal
    rw [(value_parameters_of_eq same).1, (value_parameters_of_eq same).2, ← equal, zero]
    exact ⟨rfl, rfl⟩
  · rw [(value_parameters_of_ne same).1, (value_parameters_of_ne same).2,
      Nat.mod_eq_of_lt small, Nat.mod_eq_of_lt small']
    exact ⟨rfl, rfl⟩

theorem symbols_executable (extractable : Extractable ctx) :
    (ctx.description.executable machine ctx.order ctx.width).symbols = ctx.description.values := by
  have small : ∀ symbol ∈ ctx.header.symbols, symbol.value < 4294967296 := by
    have vaddr := extractable.vaddr
    have first := ctx.header.parametersBegin.isLt
    have last := ctx.header.parametersEnd.isLt
    have bssBegin := ctx.header.bssBegin.isLt
    have bssEnd := ctx.header.bssEnd.isLt
    unfold Header.symbols
    rw [sectionSymbolValue_header packed.short extractable]
    split_ifs <;> simp <;> omega
  unfold Description.executable Description.values
  rw [List.map_map, packed.width]
  apply List.map_congr_left
  intro symbol member
  rw [Function.comp_apply, mod_word (small symbol member)]

theorem rmoduleCreate_executable (extractable : Extractable ctx) :
    rmoduleCreate (ctx.description.executable machine ctx.order ctx.width) = some ctx := by
  obtain ⟨elf, -, created⟩ := packed.created
  have sorted := sorted_of_rmoduleCreate created
  have phdrs : (ctx.description.executable machine ctx.order ctx.width).phdrs =
      [⟨ptLoad, ctx.vaddr, ctx.memsz, ctx.program⟩] := by
    unfold Description.executable
    rw [segments_description packed.short, packed.width]
    simp [mod_word, extractable.vaddr, extractable.memsz, Nat.mod_eq_of_lt]
  have segment : findProgramSegment
      (ctx.description.executable machine ctx.order ctx.width) =
        some ⟨ptLoad, ctx.vaddr, ctx.memsz, ctx.program⟩ := by
    unfold findProgramSegment
    rw [phdrs]
    rfl
  have kept : filterRelocationSections ⟨ptLoad, ctx.vaddr, ctx.memsz, ctx.program⟩
      (ctx.description.executable machine ctx.order ctx.width).sections = _ :=
    filterRelocationSections_relSections packed extractable
  have collected : rmoduleCollectRelocations
      (ctx.description.executable machine ctx.order ctx.width).ops _ = _ :=
    collect_absolute sorted
  have entry : (ctx.description.executable machine ctx.order ctx.width).entry = ctx.entry := by
    change ctx.entry % 4294967296 % 256 ^ ctx.width = ctx.entry
    rw [Nat.mod_eq_of_lt extractable.entry, packed.width, mod_word extractable.entry]
  have parameters := parameters_description extractable
  unfold rmoduleCreate
  rw [segment, Option.bind_some, kept, Option.bind_some, collected, Option.bind_some,
    symbols_executable packed extractable, value_bss.1, Option.bind_some, value_bss.2,
    Option.map_some, parameters.1, parameters.2, entry,
    Nat.mod_eq_of_lt extractable.bssBegin, Nat.mod_eq_of_lt extractable.bssEnd]
  rfl

theorem restores_of_extractable (extractable : Extractable ctx) :
    Restores machine ctx ctx.description where
  segment := by
    rw [segments_description packed.short, Nat.mod_eq_of_lt extractable.vaddr,
      Nat.mod_eq_of_lt extractable.memsz]
  entry := Nat.mod_eq_of_lt extractable.entry
  sectionSymbol := by
    rw [value_sectionName, sectionSymbolValue_header packed.short extractable]
  parametersBegin := (parameters_description extractable).1
  parametersEnd := (parameters_description extractable).2
  bssBegin := by
    rw [value_bss.1, Nat.mod_eq_of_lt extractable.bssBegin]
  bssEnd := by
    rw [value_bss.2, Nat.mod_eq_of_lt extractable.bssEnd]
  rels := rfl
  packs := by
    rw [rmoduleCreate_executable packed extractable]
    rfl

theorem extracted_iff : Extracted machine bit64 ctx ↔ Extractable ctx := by
  unfold Extracted
  rw [rmoduleStageToElf_stage packed]
  constructor
  · rintro ⟨_, ⟨⟩, restores⟩
    exact extractable_of_restores packed restores
  · intro extractable
    exact ⟨ctx.description, rfl, restores_of_extractable packed extractable⟩

end

/-- A packed module is extracted from its stage if and only if its header can describe it,
there is no memory behind its bytes or there are no bytes, and parameters that end where
they begin are at zero.  Of any stage nothing outside is read if and only if it holds the
parts that its header names. -/
theorem extraction_iff (machine : Machine) (bit64 : Bool) :
    (∀ ctx, Packed machine bit64 ctx → (Extracted machine bit64 ctx ↔ Extractable ctx)) ∧
    ∀ order b, ReadsInside order bit64 b ↔ Readable order bit64 b :=
  ⟨fun _ packed => extracted_iff packed, fun _ _ => readsInside_iff⟩

def plainExecutable : Executable :=
  { smallExecutable with phdrs := [⟨ptLoad, 0x100, 8, [4, 1, 0, 0, 0, 1, 0, 0]⟩] }

def plainContext : Context := { smallContext with memsz := 8 }

theorem packed_plainContext : Packed .em386 false plainContext where
  created := ⟨plainExecutable, rfl, rfl⟩
  width := rfl
  short := by decide
  relocs := by decide

theorem extracted_plainContext : Extracted .em386 false plainContext := by
  apply ((extraction_iff .em386 false).1 plainContext packed_plainContext).mpr
  exact {
    vaddr := by decide
    memsz := by decide
    entry := by decide
    parametersBegin := by decide
    parametersEnd := by decide
    bssBegin := by decide
    bssEnd := by decide
    parameters := fun _ => rfl
    program := .inl rfl }

theorem packed_smallContext : Packed .em386 false smallContext where
  created := ⟨smallExecutable, rfl, rfl⟩
  width := rfl
  short := by decide
  relocs := by decide

def magicStage : Buffer := ⟨store (fun _ => 0) 0 [0xfe, 0xf8], 2⟩

/-- The symbol of the program section has the address behind the bytes of the program.  A
header is read from two bytes. -/
theorem not_extracted_smallContext :
    (¬ ∀ machine bit64 ctx, Packed machine bit64 ctx → Extracted machine bit64 ctx) ∧
      ¬ ∀ (order : ByteOrder) (bit64 : Bool) (b : Buffer),
        order.read 2 b.memory 0 = rmoduleMagic.toNat → ReadsInside order bit64 b := by
  constructor
  · intro claim
    have extracted := claim .em386 false smallContext packed_smallContext
    have extractable := (extracted_iff packed_smallContext).mp extracted
    exact absurd extractable.program (by decide)
  · intro claim
    have inside := claim littleEndian false magicStage (by decide)
    have readable := readsInside_iff.mp inside
    exact absurd readable.1 (by decide)

end Pack

end Coreboot.Rmodule
