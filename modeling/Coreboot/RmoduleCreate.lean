import Coreboot.ByteMemory
import Coreboot.Rmodule
import Mathlib.Data.List.Sort

/-!
# Packing of relocatable modules

The host tool turns an executable into a relocatable module: a header, the program, and the sorted
offsets of its absolute relocations.
-/

namespace Coreboot.Rmodule

open ByteMemory

structure ByteOrder where
  encode : Nat → Nat → List Byte
  decode : List Byte → Nat
  length_encode : ∀ width number, (encode width number).length = width
  decode_encode : ∀ width number, decode (encode width number) = number % 256 ^ width

def littleEndian : ByteOrder := ⟨encodeLE, decodeLE, length_encodeLE, decodeLE_encodeLE⟩

def bigEndian : ByteOrder := ⟨encodeBE, decodeBE, length_encodeBE, decodeBE_encodeBE⟩

def ByteOrder.read (order : ByteOrder) (width : Nat) (memory : Memory) (base : Nat) : Nat :=
  order.decode (load memory base width)

structure Rela where
  offset : Nat
  type : Nat

/-- The relocation types that an architecture knows, and those that are emitted. -/
structure ArchOps where
  validType : Nat → Bool
  shouldEmit : Nat → Bool

/-- The operations of `EM_386`: `R_386_32` and `R_386_PC32` are known. -/
def ops386 : ArchOps where
  validType := fun type => type = 1 || type = 2
  shouldEmit := fun type => type = 1

/-- The operations of `EM_ARM`: `R_ARM_ABS32` is emitted. -/
def opsArm : ArchOps where
  validType := fun type => [2, 10, 30, 40, 28, 29].contains type
  shouldEmit := fun type => type = 2

/-- The operations of `EM_AARCH64`: `R_AARCH64_ABS64` is emitted. -/
def opsAarch64 : ArchOps where
  validType := fun type =>
    [275, 277, 278, 280, 282, 285, 286, 283, 257, 273, 274].contains type
  shouldEmit := fun type => type = 257

structure Phdr where
  type : Nat
  vaddr : Nat
  memsz : Nat
  program : List Byte

/-- A relocation section: what is known of the section it applies to, and its
relocations. -/
structure RelocSection where
  debug : Bool
  progbits : Bool
  addr : Nat
  size : Nat
  relocs : List Rela

/-- An ELF executable, with its byte order and the width of its words. -/
structure Executable where
  ops : ArchOps
  order : ByteOrder
  width : Nat
  entry : Nat
  phdrs : List Phdr
  sections : List RelocSection
  symbols : List (String × Nat)

def ptLoad : Nat := 1

def findProgramSegment (elf : Executable) : Option Phdr :=
  match elf.phdrs.filter fun phdr => phdr.type = ptLoad with
  | [phdr] => some phdr
  | _ => none

def filterRelocationSection (phdr : Phdr) (relocSection : RelocSection) : Option (List Rela) :=
  if relocSection.debug then some []
  else if ¬ relocSection.progbits then some []
  else if relocSection.addr < phdr.vaddr ∨
      (relocSection.addr + relocSection.size) % 18446744073709551616 >
        (phdr.vaddr + phdr.memsz) % 18446744073709551616 then none
  else some relocSection.relocs

/-- `filter_relocation_sections`: all relocations that are kept. -/
def filterRelocationSections (phdr : Phdr) : List RelocSection → Option (List Rela)
  | [] => some []
  | relocSection :: rest =>
    (filterRelocationSection phdr relocSection).bind fun own =>
      (filterRelocationSections phdr rest).map fun others => own ++ others

/-- `for_each_reloc`: the emitted offsets and their number. -/
def forEachReloc (ops : ArchOps) (doEmit : Bool) :
    List Rela → List Nat → Nat → Option (List Nat × Nat)
  | [], emitted, nrelocs => some (emitted, nrelocs)
  | rela :: rest, emitted, nrelocs =>
    if ¬ ops.validType rela.type then none
    else if ops.shouldEmit rela.type then
      forEachReloc ops doEmit rest
        (if doEmit then emitted ++ [rela.offset] else emitted) (nrelocs + 1)
    else forEachReloc ops doEmit rest emitted nrelocs

/-- `rmodule_collect_relocations`: a counting pass, an emitting pass and a sort. -/
def rmoduleCollectRelocations (ops : ArchOps) (relocs : List Rela) : Option (List Nat) :=
  (forEachReloc ops false relocs [] 0).bind fun (_, nrelocs) =>
    if nrelocs = 0 then some []
    else
      (forEachReloc ops true relocs [] 0).bind fun (emitted, count) =>
        if count ≠ nrelocs then none
        else some (emitted.insertionSort fun first second => first ≤ second)

def populateSym (symbols : List (String × Nat)) (name : String) : Option Nat :=
  (symbols.find? fun symbol => symbol.1 = name).map Prod.snd

/-- `struct rmod_context`, as far as it is written. -/
structure Context where
  order : ByteOrder
  width : Nat
  program : List Byte
  vaddr : Nat
  memsz : Nat
  entry : Nat
  parametersBegin : Nat
  parametersEnd : Nat
  bssBegin : Nat
  bssEnd : Nat
  relocs : List Nat

/-- `rmodule_create` before it writes the file. -/
def rmoduleCreate (elf : Executable) : Option Context :=
  (findProgramSegment elf).bind fun phdr =>
    (filterRelocationSections phdr elf.sections).bind fun kept =>
      (rmoduleCollectRelocations elf.ops kept).bind fun relocs =>
        (populateSym elf.symbols "_bss").bind fun bssBegin =>
          (populateSym elf.symbols "_ebss").map fun bssEnd =>
            ⟨elf.order, elf.width, phdr.program, phdr.vaddr, phdr.memsz,
              elf.entry, (populateSym elf.symbols "_rmodule_params").getD 0,
              (populateSym elf.symbols "_ermodule_params").getD 0, bssBegin,
              bssEnd, relocs⟩

def sizeofHeader : Nat := 64

namespace Context

def filesz (ctx : Context) : Nat := ctx.program.length

def relocsSize (ctx : Context) : Nat := ctx.relocs.length * ctx.width

def headerFields (ctx : Context) : List (Nat × Nat) :=
  [(2, rmoduleMagic.toNat), (1, rmoduleVersion1.toNat), (1, 0),
    (4, sizeofHeader), (4, sizeofHeader + ctx.filesz),
    (4, sizeofHeader + ctx.filesz),
    (4, sizeofHeader + ctx.filesz + ctx.relocsSize), (4, ctx.vaddr),
    (4, ctx.memsz), (4, ctx.entry), (4, ctx.parametersBegin),
    (4, ctx.parametersEnd), (4, ctx.bssBegin), (4, ctx.bssEnd), (4, 0),
    (4, 0), (4, 0), (4, 0)]

def headerBytes (ctx : Context) : List Byte :=
  ctx.headerFields.flatMap fun field => ctx.order.encode field.1 field.2

def relocBytes (ctx : Context) : List Byte := ctx.relocs.flatMap (ctx.order.encode ctx.width)

/-- The bytes of the sections that `write_elf` adds. -/
def image (ctx : Context) : List Byte := ctx.headerBytes ++ (ctx.program ++ ctx.relocBytes)

/-- The size in memory of the sections that `write_elf` adds. -/
def totalSize (ctx : Context) : Nat :=
  sizeofHeader +
    if ctx.relocsSize + ctx.filesz > ctx.memsz then
      ctx.relocsSize + ctx.filesz
    else ctx.memsz

end Context

section Collect

variable {ops : ArchOps}

def absoluteOffsets (ops : ArchOps) (relocs : List Rela) : List Nat :=
  (relocs.filter fun rela => ops.shouldEmit rela.type).map fun rela =>
    rela.offset

theorem forEachReloc_eq (doEmit : Bool) (relocs : List Rela) (emitted : List Nat) (nrelocs : Nat) :
    forEachReloc ops doEmit relocs emitted nrelocs =
      if ∀ rela ∈ relocs, ops.validType rela.type = true then
        some (emitted ++ (if doEmit then absoluteOffsets ops relocs else []),
          nrelocs + (absoluteOffsets ops relocs).length)
      else none := by
  induction relocs generalizing emitted nrelocs with
  | nil => cases doEmit <;> simp [forEachReloc, absoluteOffsets]
  | cons rela rest ih =>
    rw [forEachReloc, ih, ih]
    by_cases valid : ops.validType rela.type = true
    · by_cases emit : ops.shouldEmit rela.type = true
      · cases doEmit <;> simp [valid, emit, absoluteOffsets, Nat.add_assoc, Nat.add_comm]
      · cases doEmit <;> simp [valid, emit, absoluteOffsets]
    · simp [valid]

theorem perm_of_rmoduleCollectRelocations {relocs : List Rela} {offsets : List Nat}
    (collected : rmoduleCollectRelocations ops relocs = some offsets) :
    offsets.Perm (absoluteOffsets ops relocs) := by
  have counting := @forEachReloc_eq ops false relocs [] 0
  have emitting := @forEachReloc_eq ops true relocs [] 0
  rw [Nat.zero_add, List.nil_append] at counting emitting
  by_cases valid : ∀ rela ∈ relocs, ops.validType rela.type = true
  · rw [if_pos valid] at counting emitting
    rw [rmoduleCollectRelocations, counting, emitting] at collected
    dsimp only [Option.bind_some] at collected
    by_cases empty : (absoluteOffsets ops relocs).length = 0
    · rw [if_pos empty] at collected
      cases collected
      rw [List.length_eq_zero_iff.mp empty]
    · rw [if_neg empty, if_neg (not_not.mpr rfl)] at collected
      cases collected
      exact List.perm_insertionSort _ _
  · rw [rmoduleCollectRelocations, counting, if_neg valid] at collected
    cases collected

def programRelocs (elf : Executable) : List Rela :=
  (elf.sections.filter fun relocSection =>
    !relocSection.debug && relocSection.progbits).flatMap fun relocSection =>
      relocSection.relocs

theorem filterRelocationSections_eq {phdr : Phdr} {sections : List RelocSection} {kept : List Rela}
    (filtered : filterRelocationSections phdr sections = some kept) :
    kept = (sections.filter fun relocSection =>
      !relocSection.debug && relocSection.progbits).flatMap
        fun relocSection => relocSection.relocs := by
  induction sections generalizing kept with
  | nil =>
    cases filtered
    rfl
  | cons relocSection rest ih =>
    obtain ⟨own, first, later⟩ := Option.bind_eq_some_iff.mp filtered
    obtain ⟨others, next, rfl⟩ := Option.map_eq_some_iff.mp later
    rw [ih next]
    rw [filterRelocationSection] at first
    by_cases debug : relocSection.debug = true
    · rw [if_pos debug] at first
      cases first
      simp [debug]
    · by_cases progbits : relocSection.progbits = true
      · rw [if_neg debug, if_neg (not_not.mpr progbits)] at first
        split_ifs at first
        cases first
        simp [debug, progbits]
      · rw [if_neg debug, if_pos progbits] at first
        cases first
        simp [progbits]

end Collect

end Coreboot.Rmodule
