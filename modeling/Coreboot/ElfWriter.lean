import Coreboot.ElfRecords

/-!
# Writing ELF files

Sections are collected one after the other.
-/

namespace Coreboot.ElfHeaders

open ByteMemory

def shtNull : Nat := 0
def shtProgbits : Nat := 1
def shtSymtab : Nat := 2
def shtStrtab : Nat := 3
def shtRela : Nat := 4
def shtNobits : Nat := 8
def shtRel : Nat := 9

def shfWrite : Nat := 0x1
def shfAlloc : Nat := 0x2
def shfExecinstr : Nat := 0x4

def ptLoad : Nat := 1
def pfX : Nat := 1
def pfW : Nat := 2
def pfR : Nat := 4

structure WriterSection where
  shdr : Shdr
  content : List Byte
  name : Option (List Byte)
deriving DecidableEq

def WriterSection.alloc (sec : WriterSection) : Bool := sec.shdr.flags &&& shfAlloc ≠ 0

/-- The header after the section, and the sections in the order of their
numbers. -/
structure Writer where
  ehdr : Ehdr
  sections : List WriterSection

def maxSections : Nat := 16

/-- `none` is the failure for too many sections. -/
def elfWriterAddSection (ew : Writer) (shdr : Shdr) (contents : List Byte)
    (name : Option (List Byte)) : Option Writer :=
  if ew.sections.length = maxSections then
    none
  else
    some { ew with
      sections := ew.sections ++
        [{ shdr := { shdr with offset := 0 }, content := contents
           name := name }] }

def emptyShdr : Shdr :=
  { name := 0, type := shtNull, flags := 0, addr := 0, offset := 0, size := 0
    link := 0, info := 0, addralign := 0, entsize := 0 }

def shstrtabName : List Byte := [0x2e, 0x73, 0x68, 0x73, 0x74, 0x72, 0x74, 0x61, 0x62]

def strtabName : List Byte := [0x2e, 0x73, 0x74, 0x72, 0x74, 0x61, 0x62]

def symtabName : List Byte := [0x2e, 0x73, 0x79, 0x6d, 0x74, 0x61, 0x62]

def nullSection : WriterSection := { shdr := emptyShdr, content := [], name := none }

def shstrtabSection : WriterSection :=
  { shdr := { emptyShdr with type := shtStrtab }, content := []
    name := some shstrtabName }

def strtabSection (size : Nat) : WriterSection :=
  { shdr := { emptyShdr with type := shtStrtab, addralign := 1, size := size }
    content := List.replicate size 0
    name := some strtabName }

def sizeofSym (bit64 : Bool) : Nat := if bit64 then 24 else 16

def symtabSection (bit64 : Bool) (maxEntries : Nat) : WriterSection :=
  { shdr := { emptyShdr with
      type := shtSymtab
      entsize := sizeofSym bit64
      addralign := wordSize bit64
      size := sizeofSym bit64 * maxEntries }
    content := List.replicate (sizeofSym bit64 * maxEntries) 0
    name := some symtabName }

def shstrtabIndex : Nat := 1
def symtabIndex : Nat := 3

/-- `none` is a header that is not one of an ELF file. -/
def elfWriterInit (ehdr : Ehdr) : Option Writer :=
  if ehdr.ident.take 4 = elfmag then
    some
      { ehdr := { ehdr with
          phoff := 0, shoff := 0, shnum := 0, phnum := 0
          shstrndx := shstrtabIndex }
        sections := [nullSection, shstrtabSection, strtabSection 4096,
          symtabSection (isBit64 ehdr.ident) 100] }
  else
    none

def prevAlloc : List WriterSection → Option WriterSection
  | [] => none
  | sec :: rest =>
    (prevAlloc rest).or (if sec.alloc then some sec else none)

def sectionConsecutive (before : List WriterSection) (sec : WriterSection) : Bool :=
  match prevAlloc before with
  | none => false
  | some prev =>
    (prev.shdr.addr + prev.shdr.size) % 2 ^ 64 = sec.shdr.addr

/-- The flags a section adds to those of its program header. -/
def addFlags (flags : Nat) (sec : WriterSection) : Nat :=
  let flags :=
    if sec.shdr.flags &&& shfExecinstr ≠ 0 then flags ||| (pfX ||| pfR)
    else flags
  if sec.shdr.flags &&& shfWrite ≠ 0 then flags ||| pfW else flags

def newPhdr (sec : WriterSection) : Phdr :=
  { type := ptLoad
    flags := addFlags 0 sec
    offset := sec.shdr.offset
    vaddr := sec.shdr.addr
    paddr := sec.shdr.addr
    filesz := sec.content.length
    memsz := sec.shdr.size
    align := sec.shdr.addralign }

/-- "Accumulate file size and memsize." -/
def Phdr.accumulate (phdr : Phdr) (sec : WriterSection) : Phdr :=
  { phdr with
    flags := addFlags phdr.flags sec
    filesz := (phdr.filesz + sec.content.length) % 2 ^ 64
    memsz := (phdr.memsz + sec.shdr.size) % 2 ^ 64 }

/-- The headers in the order in which they are written.  The last argument is
the header that has not been written out. -/
def writePhdrs : List WriterSection → List WriterSection → Option Phdr → List Phdr
  | _, [], phdr => phdr.toList
  | before, sec :: rest, phdr =>
    if ¬sec.alloc then
      writePhdrs (before ++ [sec]) rest phdr
    else if ¬sectionConsecutive before sec then
      phdr.toList ++ writePhdrs (before ++ [sec]) rest (some (newPhdr sec))
    else
      writePhdrs (before ++ [sec]) rest (phdr.map fun phdr => phdr.accumulate sec)

/-- The number of program headers, which is found beforehand. -/
def countPhdrs : List WriterSection → List WriterSection → Nat
  | _, [] => 0
  | before, sec :: rest =>
    (if sec.alloc ∧ ¬sectionConsecutive before sec then 1 else 0) +
      countPhdrs (before ++ [sec]) rest

def fixupSymbolTable (sections : List WriterSection) : List WriterSection :=
  sections.modify symtabIndex fun sec =>
    { sec with
      shdr := { sec.shdr with type := shtNull, size := 0 }, content := [] }

def nameBytes (sec : WriterSection) : List Byte :=
  match sec.name with
  | none => []
  | some name => name ++ [0]

def placeNames : Nat → List WriterSection → List WriterSection
  | _, [] => []
  | shstrlen, sec :: rest =>
    match sec.name with
    | none => sec :: placeNames shstrlen rest
    | some name =>
      { sec with shdr := { sec.shdr with name := shstrlen } } ::
        placeNames (shstrlen + (name.length + 1)) rest

/-- The bytes a section adds to those behind the headers. -/
def dataBytes (index : Nat) (sec : WriterSection) : List Byte :=
  if index = 0 ∨ index = shstrtabIndex then [] else sec.content

/-- The offsets of the sections from the number `index` on, when `position` is
the offset of the next content. -/
def placeContents (shstroffset : Nat) : Nat → Nat → List WriterSection → List WriterSection
  | _, _, [] => []
  | index, position, sec :: rest =>
    (if index = shstrtabIndex then
      { sec with shdr := { sec.shdr with offset := shstroffset } }
    else if index ≠ 0 then
      { sec with shdr := { sec.shdr with offset := position } }
    else
      sec) ::
      placeContents shstroffset (index + 1) (position + (dataBytes index sec).length) rest

def allData : Nat → List WriterSection → List Byte
  | _, [] => []
  | index, sec :: rest => dataBytes index sec ++ allData (index + 1) rest

def alignPage (value : Nat) : Nat := (value + 4095) / 4096 * 4096

structure Buffer where
  memory : Memory
  size : Nat

/-- What is known before the buffer is created. -/
structure Layout where
  sections : List WriterSection
  ehdr : Ehdr
  shstroffset : Nat
  shstrlen : Nat
  metadataSize : Nat
  programSize : Nat

def Writer.layout (ew : Writer) : Layout :=
  let sections := placeNames 1 (fixupSymbolTable ew.sections)
  let shstrlen := 1 + (sections.flatMap nameBytes).length
  let phnum := countPhdrs [] sections
  let shstroffset := ew.ehdr.ehsize + sections.length * ew.ehdr.shentsize +
    phnum * ew.ehdr.phentsize
  let metadataSize := alignPage (shstroffset + shstrlen)
  { sections := placeContents shstroffset 0 metadataSize
      (sections.modify shstrtabIndex fun sec =>
        { sec with shdr := { sec.shdr with size := shstrlen } })
    ehdr := { ew.ehdr with
      phnum := phnum
      shnum := sections.length
      shoff := ew.ehdr.ehsize
      phoff := ew.ehdr.ehsize + sections.length * ew.ehdr.shentsize }
    shstroffset := shstroffset
    shstrlen := shstrlen
    metadataSize := metadataSize
    programSize := (sections.map fun sec => sec.content.length).sum }

/-- The buffer is allocated with arbitrary bytes.  `none` is the failure of the
assertion on the number of program headers. -/
def elfWriterSerialize (allocated : Memory) (ew : Writer) : Option Buffer :=
  let layout := ew.layout
  let bit64 := isBit64 ew.ehdr.ident
  let xdr := xdrOf ew.ehdr.ident
  let metadata := ehdrWrite xdr bit64 layout.ehdr ++
    layout.sections.flatMap fun sec => shdrWrite xdr bit64 sec.shdr
  let strtab := 0 :: layout.sections.flatMap nameBytes
  let data := allData 0 layout.sections
  let phdrs := writePhdrs [] layout.sections none
  if phdrs.length = layout.ehdr.phnum then
    some
      { memory := store (store (store (store allocated 0 metadata)
          layout.shstroffset strtab) layout.metadataSize data)
          layout.ehdr.phoff (phdrs.flatMap (phdrWrite xdr bit64))
        size := layout.metadataSize + layout.programSize }
  else
    none

end Coreboot.ElfHeaders
