import Coreboot.ElfWriter

/-!
# Reading ELF files

The file header says where the tables of headers are.  What is read beyond that
is up to the caller.
-/

namespace Coreboot.ElfHeaders

open ByteMemory

/-- `false` is an error: the bytes are not inside of the file. -/
def checkSize (b : Buffer) (offset size : Nat) : Bool :=
  if size = 0 then true
  else ¬(offset ≥ b.size ∨ (offset + size) % 2 ^ 64 > b.size)

/-- `ELF_PARSE_PHDR` to `ELF_PARSE_SYMTAB`. -/
structure ParseFlags where
  phdr : Bool
  shdr : Bool
  reloc : Bool
  strtab : Bool
  symtab : Bool
deriving DecidableEq

structure Rela where
  offset : Nat
  info : Nat
  addend : Nat
deriving DecidableEq

structure Sym where
  name : Nat
  info : Nat
  other : Nat
  shndx : Nat
  value : Nat
  size : Nat
deriving DecidableEq

structure ParsedElf where
  ehdr : Ehdr
  phdr : List Phdr
  shdr : List Shdr
  relocs : List (List Rela)
  strtabs : List (Option (List Byte))
  syms : List Sym

def phdrRead (b : Buffer) (ehdr : Ehdr) (xdr : Xdr) (bit64 : Bool) : Option (List Phdr) :=
  let phdrs := readTable (elfPhdr xdr bit64) (sizeofPhdr bit64) b.memory
    ehdr.phentsize ehdr.phoff ehdr.phnum
  if checkSize b ehdr.phoff (ehdr.phentsize * ehdr.phnum) ∧
      phdrs.all fun phdr => checkSize b phdr.offset phdr.filesz then
    some phdrs
  else
    none

def shdrRead (b : Buffer) (ehdr : Ehdr) (xdr : Xdr) (bit64 : Bool) : Option (List Shdr) :=
  if checkSize b ehdr.shoff (ehdr.shentsize * ehdr.shnum) then
    some (readTable (elfShdr xdr bit64) (sizeofShdr bit64) b.memory
      ehdr.shentsize ehdr.shoff ehdr.shnum)
  else
    none

/-- `ELF64_R_INFO(ELF32_R_SYM(r_info), ELF32_R_TYPE(r_info))`. -/
def widenInfo (info : Nat) : Nat := info / 256 * 2 ^ 32 + info % 256

def relaSize (bit64 isRela : Bool) : Nat := (if isRela then 3 else 2) * wordSize bit64

def readRela (xdr : Xdr) (bit64 isRela : Bool) (input : List Byte) : Rela :=
  let (offset, input) := xdr.get (wordSize bit64) input
  let (info, input) := xdr.get (wordSize bit64) input
  { offset := offset
    info := if bit64 then info else widenInfo info
    addend := if isRela then (xdr.get (wordSize bit64) input).1 else 0 }

def relocSection (b : Buffer) (ehdr : Ehdr) (xdr : Xdr) (bit64 : Bool)
    (shdr : Shdr) : Option (List Rela) :=
  if shdr.type ≠ shtRel ∧ shdr.type ≠ shtRela then
    some []
  else if shdr.info ≥ ehdr.shnum ∨ shdr.info = 0 then
    none
  else if shdr.entsize = 0 then
    none
  else if checkSize b shdr.offset shdr.size then
    let isRela : Bool := shdr.type = shtRela
    some (readTable (readRela xdr bit64 isRela) (relaSize bit64 isRela)
      b.memory (relaSize bit64 isRela) shdr.offset (shdr.size / shdr.entsize))
  else
    none

def relocRead (b : Buffer) (ehdr : Ehdr) (xdr : Xdr) (bit64 : Bool)
    (shdrs : List Shdr) : Option (List (List Rela)) :=
  shdrs.mapM (relocSection b ehdr xdr bit64)

def strtabSectionRead (b : Buffer) (shdr : Shdr) : Option (Option (List Byte)) :=
  if shdr.type ≠ shtStrtab then
    some none
  else if checkSize b shdr.offset shdr.size then
    some (some (load b.memory shdr.offset shdr.size))
  else
    none

def strtabRead (b : Buffer) (ehdr : Ehdr) (shdrs : List Shdr) :
    Option (List (Option (List Byte))) :=
  if ehdr.shstrndx ≥ ehdr.shnum then
    none
  else
    shdrs.mapM (strtabSectionRead b)

def readSym (xdr : Xdr) (bit64 : Bool) (input : List Byte) : Sym :=
  if bit64 then
    let (name, input) := xdr.get 4 input
    let (info, input) := xdr.get 1 input
    let (other, input) := xdr.get 1 input
    let (shndx, input) := xdr.get 2 input
    let (value, input) := xdr.get 8 input
    let (size, _) := xdr.get 8 input
    { name, info, other, shndx, value, size }
  else
    let (name, input) := xdr.get 4 input
    let (value, input) := xdr.get 4 input
    let (size, input) := xdr.get 4 input
    let (info, input) := xdr.get 1 input
    let (other, input) := xdr.get 1 input
    let (shndx, _) := xdr.get 2 input
    { name, info, other, shndx, value, size }

/-- There has to be exactly one table of symbols.  The symbols are counted in 16
bits, so that the loop over more of them does not end. -/
def symtabRead (b : Buffer) (xdr : Xdr) (bit64 : Bool) (shdrs : List Shdr) : Option (List Sym) :=
  match shdrs.filter fun shdr => shdr.type = shtSymtab with
  | [shdr] =>
    if shdr.entsize ≠ 0 ∧ shdr.size / shdr.entsize < 65536 ∧ checkSize b shdr.offset shdr.size then
      some (readTable (readSym xdr bit64) (sizeofSym bit64) b.memory
        (sizeofSym bit64) shdr.offset (shdr.size / shdr.entsize))
    else
      none
  | _ => none

def optional {α : Type} (asked : Bool) (read : Option (List α)) : Option (List α) :=
  if asked then read else some []

def parseElf (b : Buffer) (flags : ParseFlags) : Option ParsedElf :=
  if load b.memory 0 4 ≠ elfmag then
    none
  else
    let ident := load b.memory 0 eiNident
    let bit64 := isBit64 ident
    let xdr := xdrOf ident
    let ehdr := elfEhdr xdr bit64 ident (load b.memory eiNident (sizeofEhdr bit64 - eiNident))
    let sections := flags.shdr || flags.reloc || flags.strtab || flags.symtab
    (optional flags.phdr (phdrRead b ehdr xdr bit64)).bind fun phdr =>
    (optional sections (shdrRead b ehdr xdr bit64)).bind fun shdr =>
    (optional flags.reloc (relocRead b ehdr xdr bit64 shdr)).bind fun relocs =>
    (optional flags.strtab (strtabRead b ehdr shdr)).bind fun strtabs =>
    (optional flags.symtab (symtabRead b xdr bit64 shdr)).bind fun syms =>
      some { ehdr, phdr, shdr, relocs, strtabs, syms }

def stringAt (table : List Byte) (offset : Nat) : List Byte :=
  (table.drop offset).takeWhile fun byte => byte ≠ 0

def ParsedElf.sectionName (pelf : ParsedElf) (shdr : Shdr) : Option (List Byte) :=
  ((pelf.strtabs[pelf.ehdr.shstrndx]?).bind id).map fun table =>
    stringAt table shdr.name

/-- "The section has no bytes in the file" for `SHT_NOBITS`. -/
def sectionContent (b : Buffer) (shdr : Shdr) : List Byte :=
  if shdr.type = shtNobits then [] else load b.memory shdr.offset shdr.size

/-- The bytes of the file are copied, and the rest is cleared. -/
def loadHeader (b : Buffer) (phdr : Phdr) (m : Memory) : Memory :=
  fill (store m phdr.paddr (load b.memory phdr.offset phdr.filesz))
    (phdr.paddr + phdr.filesz) (phdr.memsz - phdr.filesz) 0

/-- Every `PT_LOAD` header is loaded, one after the other. -/
def loadHeaders (b : Buffer) : List Phdr → Memory → Memory
  | [], m => m
  | phdr :: rest, m =>
    loadHeaders b rest (if phdr.type = ptLoad then loadHeader b phdr m else m)

end Coreboot.ElfHeaders
