import Coreboot.ElfParser
import Coreboot.ByteCopies

/-!
# Stages from ELF files

The host tool makes a stage of the segments of an ELF file.
-/

namespace Coreboot.ElfStage

open ByteMemory ElfHeaders

def add64 (first second : Nat) : Nat := (first + second) % 2 ^ 64

def sub64 (first second : Nat) : Nat := (first + 2 ^ 64 - second) % 2 ^ 64

def ptNull : Nat := 0

/-- `is_phdr_ignored`; the tool stops at a section that is only a part of the
segment. -/
def isPhdrIgnored (phdr : Phdr) : Option Shdr → Option Bool
  | none => some false
  | some shdr =>
    let shStart := shdr.addr
    let shEnd := add64 shdr.addr shdr.size
    let phStart := phdr.vaddr
    let phEnd := add64 phdr.vaddr phdr.memsz
    if shStart = phStart ∧ shEnd = phEnd then some true
    else if shStart ≥ phStart ∧ shStart ≤ phEnd ∨ shEnd ≥ phStart ∧ shEnd ≤ phEnd then none
    else some false

/-- `find_ignored_section_header`; without the strings of section names the tool
stops at a null pointer. -/
def findIgnoredSectionHeader (pelf : ParsedElf) : Option (List Byte) → Option (Option Shdr)
  | none => some none
  | some name =>
    ((pelf.strtabs[pelf.ehdr.shstrndx]?).bind id).map fun shstrtab =>
      pelf.shdr.find? fun shdr => stringAt shstrtab shdr.name = name

def stageHeaders (pelf : ParsedElf) (ignoreSection : Option (List Byte)) : Option (List Phdr) :=
  (findIgnoredSectionHeader pelf ignoreSection).bind fun shdr =>
    pelf.phdr.mapM fun phdr => (isPhdrIgnored phdr shdr).map fun ignored =>
      if ignored then { phdr with type := ptNull } else phdr

/-- Empty segments are never interesting. -/
def isLoaded (phdr : Phdr) : Bool := phdr.type = ptLoad ∧ phdr.memsz ≠ 0

structure Bounds where
  dataStart : Nat
  dataEnd : Nat
  memEnd : Nat
  virtToPhys : Nat
deriving DecidableEq

def Bounds.initial : Bounds := ⟨2 ^ 64 - 1, 0, 0, 0⟩

/-- The first loop of `parse_elf_to_stage`. -/
def Bounds.add (bounds : Bounds) (phdr : Phdr) : Bounds :=
  if !isLoaded phdr then bounds
  else
    let start := phdr.paddr
    let mend := add64 start phdr.memsz
    let rend := add64 start phdr.filesz
    { dataStart := if start < bounds.dataStart then start else bounds.dataStart
      dataEnd := if rend > bounds.dataEnd then rend else bounds.dataEnd
      memEnd := if mend > bounds.memEnd then mend else bounds.memEnd
      virtToPhys := if bounds.virtToPhys = 0 then sub64 phdr.paddr phdr.vaddr
        else bounds.virtToPhys }

def boundsOf (headers : List Phdr) : Bounds := headers.foldl Bounds.add .initial

def cutStart (bounds : Bounds) (location : Nat) : Nat :=
  if bounds.dataStart < location then location else bounds.dataStart

def copyOf (location dataStart : Nat) (phdr : Phdr) : Copy :=
  let lOffset := if phdr.paddr < location then sub64 location phdr.paddr else 0
  let lStart := if phdr.paddr < location then location else phdr.paddr
  { source := add64 phdr.offset lOffset
    dest := sub64 lStart dataStart
    length := sub64 phdr.filesz lOffset }

/-- The second loop of `parse_elf_to_stage`. -/
def copiesOf (input : Buffer) (location dataStart : Nat) : List Phdr → Option (List Copy)
  | [] => some []
  | phdr :: rest =>
    if !isLoaded phdr then copiesOf input location dataStart rest
    else if phdr.filesz = 0 then copiesOf input location dataStart rest
    else if input.size < add64 phdr.offset phdr.filesz then none
    else (copiesOf input location dataStart rest).map fun copies =>
      copyOf location dataStart phdr :: copies

inductive CompAlgo where
  | none
  | lzma
  | lz4
deriving DecidableEq, Repr

def CompAlgo.number : CompAlgo → Nat
  | .none => 0
  | .lzma => 1
  | .lz4 => 2

/-- The compressors, for a buffer and a length of type `int`, and the
decompression at the end of a buffer of a size.  They may fail. -/
structure Compressors where
  lzmaCompress : Memory → Int → Option (List Byte)
  lz4Compress : Memory → Int → Option (List Byte)
  ulz4fn : List Byte → Nat → Option (List Byte)

/-- A `uint64_t` that is passed as an `int`. -/
def toInt (size : Nat) : Int := Int.bmod size (2 ^ 32)

/-- The bytes of a buffer, for a length that becomes a `size_t`. -/
def keptBytes (buffer : Memory) (length : Int) : List Byte := load buffer 0 (length % 2 ^ 64).toNat

def noneCompress (buffer : Memory) (length : Int) : Option (List Byte) :=
  some (keptBytes buffer length)

def Compressors.compress (compressors : Compressors) : CompAlgo → Memory → Int → Option (List Byte)
  | .none => noneCompress
  | .lzma => compressors.lzmaCompress
  | .lz4 => compressors.lz4Compress

/-- The data of the stage, compressed unless that fails or makes it bigger. -/
def compressData (compressors : Compressors) (algo : CompAlgo)
    (buffer : Memory) (size : Nat) : CompAlgo × List Byte :=
  match compressors.compress algo buffer (toInt size) with
  | none => (.none, keptBytes buffer (toInt size))
  | some output =>
    if output.length % 2 ^ 32 > size then
      (.none, keptBytes buffer (toInt size))
    else (algo, output)

def fitsInPlace (compressors : Compressors) (algo : CompAlgo) (buffer : Memory)
    (size memlen : Nat) (data : List Byte) : Bool :=
  decide (algo = .lz4 → compressors.ulz4fn data memlen = some (load buffer 0 size))

structure Stage where
  compression : Nat
  entry : Nat
  load : Nat
  len : Nat
  memlen : Nat
deriving DecidableEq

/-- What `parse_elf_to_stage` leaves, with the size of the intermediate buffer and
the copies to it. -/
structure Output where
  stage : Stage
  data : List Byte
  location : Nat
  size : Nat
  copies : List Copy

def sizeofStage : Nat := 28

/-- `fill_cbfs_stage`, whose last parameters are `uint32_t`. -/
def fillCbfsStage (algo : CompAlgo) (entry loadaddr filesize memsize : Nat) : Stage :=
  ⟨algo.number, entry, loadaddr, filesize % 2 ^ 32, memsize % 2 ^ 32⟩

/-- `parse_elf_to_stage`, behind the headers. -/
def makeStage (input : Buffer) (compressors : Compressors) (algo : CompAlgo)
    (location entry : Nat) (headers : List Phdr) : Option Output :=
  let bounds := boundsOf headers
  let dataStart := cutStart bounds location
  if bounds.dataEnd ≤ dataStart then none
  -- No object is larger than `PTRDIFF_MAX`, and `calloc` fails.
  else if 2 ^ 63 ≤ bounds.dataEnd - dataStart then none
  else
    let size := bounds.dataEnd - dataStart
    let memlen := sub64 bounds.memEnd dataStart
    (copiesOf input location dataStart headers).bind fun copies =>
      let buffer := Copy.applyAll input.memory copies fun _ => 0
      let (algo, data) := compressData compressors algo buffer size
      if fitsInPlace compressors algo buffer size memlen data then
        some {
          stage := fillCbfsStage algo (add64 entry bounds.virtToPhys) dataStart data.length memlen
          data
          location := if location ≠ 0 then
            (location + 2 ^ 32 - sizeofStage) % 2 ^ 32 else location
          size
          copies }
      else none

/-- `ELF_PARSE_PHDR | ELF_PARSE_SHDR | ELF_PARSE_STRTAB`. -/
def stageFlags : ParseFlags := ⟨true, true, false, true, false⟩

def parseElfToStage (input : Buffer) (compressors : Compressors)
    (algo : CompAlgo) (location : Nat) (ignoreSection : Option (List Byte)) :
    Option Output :=
  (parseElf input stageFlags).bind fun pelf =>
    (stageHeaders pelf ignoreSection).bind fun headers =>
      makeStage input compressors algo location pelf.ehdr.entry headers

end Coreboot.ElfStage
