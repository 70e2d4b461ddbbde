import Coreboot.ByteMemory

/-!
# The records of an ELF file

In the file the numbers of the headers have either byte order, and addresses and sizes are words of
32 or 64 bits.
-/

namespace Coreboot.ElfHeaders

open ByteMemory

/-- `xdr_le` and `xdr_be`. -/
inductive Xdr
  | le
  | be
deriving DecidableEq

def Xdr.put (xdr : Xdr) (width number : Nat) : List Byte :=
  match xdr with
  | .le => encodeLE width number
  | .be => encodeBE width number

/-- The first number, and the bytes behind it. -/
def Xdr.get (xdr : Xdr) (width : Nat) (input : List Byte) : Nat × List Byte :=
  match xdr with
  | .le => (decodeLE (input.take width), input.drop width)
  | .be => (decodeBE (input.take width), input.drop width)

@[simp]
theorem Xdr.length_put (xdr : Xdr) (width number : Nat) :
    (xdr.put width number).length = width := by
  cases xdr with
  | le => exact length_encodeLE width number
  | be => exact length_encodeBE width number

theorem Xdr.get_put (xdr : Xdr) (width number : Nat) (rest : List Byte) :
    xdr.get width (xdr.put width number ++ rest) = (number % 256 ^ width, rest) := by
  cases xdr with
  | le =>
    rw [Xdr.get, Xdr.put, List.take_left' (length_encodeLE width number),
      List.drop_left' (length_encodeLE width number), decodeLE_encodeLE]
  | be =>
    rw [Xdr.get, Xdr.put, List.take_left' (length_encodeBE width number),
      List.drop_left' (length_encodeBE width number), decodeBE_encodeBE]

def wordSize (bit64 : Bool) : Nat := if bit64 then 8 else 4

structure Ehdr where
  ident : List Byte
  type : Nat
  machine : Nat
  version : Nat
  entry : Nat
  phoff : Nat
  shoff : Nat
  flags : Nat
  ehsize : Nat
  phentsize : Nat
  phnum : Nat
  shentsize : Nat
  shnum : Nat
  shstrndx : Nat
deriving DecidableEq

def eiNident : Nat := 16

def elfmag : List Byte := [0x7f, 0x45, 0x4c, 0x46]

/-- `ELFCLASS64` at `EI_CLASS`. -/
def isBit64 (ident : List Byte) : Bool := ident.getD 4 0 = 2

/-- `ELFDATA2MSB` at `EI_DATA`, and little endian otherwise. -/
def xdrOf (ident : List Byte) : Xdr := if ident.getD 5 0 = 2 then .be else .le

def sizeofEhdr (bit64 : Bool) : Nat := if bit64 then 64 else 52

def sizeofPhdr (bit64 : Bool) : Nat := if bit64 then 56 else 32

def sizeofShdr (bit64 : Bool) : Nat := if bit64 then 64 else 40

def elfInitEheader (machine : Nat) (nbits endian : Byte) : Ehdr :=
  let bit64 : Bool := nbits = 2
  { ident := elfmag ++ [nbits, endian, 1] ++ List.replicate 9 0
    type := 2
    machine := machine
    version := 1
    entry := 0
    phoff := 0
    shoff := 0
    flags := 0
    ehsize := sizeofEhdr bit64
    phentsize := sizeofPhdr bit64
    phnum := 0
    shentsize := sizeofShdr bit64
    shnum := 0
    shstrndx := 0 }

/-- The file header after its first 16 bytes. -/
def ehdrWrite (xdr : Xdr) (bit64 : Bool) (ehdr : Ehdr) : List Byte :=
  ehdr.ident ++ (xdr.put 2 ehdr.type ++ (xdr.put 2 ehdr.machine ++
    (xdr.put 4 ehdr.version ++ (xdr.put (wordSize bit64) ehdr.entry ++
    (xdr.put (wordSize bit64) ehdr.phoff ++
    (xdr.put (wordSize bit64) ehdr.shoff ++ (xdr.put 4 ehdr.flags ++
    (xdr.put 2 ehdr.ehsize ++ (xdr.put 2 ehdr.phentsize ++
    (xdr.put 2 ehdr.phnum ++ (xdr.put 2 ehdr.shentsize ++
    (xdr.put 2 ehdr.shnum ++ xdr.put 2 ehdr.shstrndx))))))))))))

def elfEhdr (xdr : Xdr) (bit64 : Bool) (ident input : List Byte) : Ehdr :=
  let (type, input) := xdr.get 2 input
  let (machine, input) := xdr.get 2 input
  let (version, input) := xdr.get 4 input
  let (entry, input) := xdr.get (wordSize bit64) input
  let (phoff, input) := xdr.get (wordSize bit64) input
  let (shoff, input) := xdr.get (wordSize bit64) input
  let (flags, input) := xdr.get 4 input
  let (ehsize, input) := xdr.get 2 input
  let (phentsize, input) := xdr.get 2 input
  let (phnum, input) := xdr.get 2 input
  let (shentsize, input) := xdr.get 2 input
  let (shnum, input) := xdr.get 2 input
  let (shstrndx, _) := xdr.get 2 input
  { ident, type, machine, version, entry, phoff, shoff, flags, ehsize,
    phentsize, phnum, shentsize, shnum, shstrndx }

/-- The header as it is read back. -/
def Ehdr.truncated (bit64 : Bool) (ehdr : Ehdr) : Ehdr :=
  { ident := ehdr.ident
    type := ehdr.type % 256 ^ 2
    machine := ehdr.machine % 256 ^ 2
    version := ehdr.version % 256 ^ 4
    entry := ehdr.entry % 256 ^ wordSize bit64
    phoff := ehdr.phoff % 256 ^ wordSize bit64
    shoff := ehdr.shoff % 256 ^ wordSize bit64
    flags := ehdr.flags % 256 ^ 4
    ehsize := ehdr.ehsize % 256 ^ 2
    phentsize := ehdr.phentsize % 256 ^ 2
    phnum := ehdr.phnum % 256 ^ 2
    shentsize := ehdr.shentsize % 256 ^ 2
    shnum := ehdr.shnum % 256 ^ 2
    shstrndx := ehdr.shstrndx % 256 ^ 2 }

theorem length_ehdrWrite {xdr : Xdr} {bit64 : Bool} {ehdr : Ehdr}
    (whole : ehdr.ident.length = eiNident) :
    (ehdrWrite xdr bit64 ehdr).length = sizeofEhdr bit64 := by
  simp only [ehdrWrite, List.length_append, Xdr.length_put, whole]
  cases bit64 with
  | false => rfl
  | true => rfl

theorem elfEhdr_ehdrWrite (xdr : Xdr) (bit64 : Bool) (ehdr : Ehdr)
    (whole : ehdr.ident.length = eiNident) :
    elfEhdr xdr bit64 ehdr.ident ((ehdrWrite xdr bit64 ehdr).drop eiNident) =
      ehdr.truncated bit64 := by
  have last := Xdr.get_put xdr 2 ehdr.shstrndx []
  rw [List.append_nil] at last
  rw [ehdrWrite, List.drop_left' whole]
  simp only [elfEhdr, Xdr.get_put, last]
  rfl

structure Phdr where
  type : Nat
  flags : Nat
  offset : Nat
  vaddr : Nat
  paddr : Nat
  filesz : Nat
  memsz : Nat
  align : Nat
deriving DecidableEq

def phdrWrite (xdr : Xdr) (bit64 : Bool) (phdr : Phdr) : List Byte :=
  if bit64 then
    xdr.put 4 phdr.type ++ (xdr.put 4 phdr.flags ++
      (xdr.put 8 phdr.offset ++ (xdr.put 8 phdr.vaddr ++
      (xdr.put 8 phdr.paddr ++ (xdr.put 8 phdr.filesz ++
      (xdr.put 8 phdr.memsz ++ xdr.put 8 phdr.align))))))
  else
    xdr.put 4 phdr.type ++ (xdr.put 4 phdr.offset ++
      (xdr.put 4 phdr.vaddr ++ (xdr.put 4 phdr.paddr ++
      (xdr.put 4 phdr.filesz ++ (xdr.put 4 phdr.memsz ++
      (xdr.put 4 phdr.flags ++ xdr.put 4 phdr.align))))))

def elfPhdr (xdr : Xdr) (bit64 : Bool) (input : List Byte) : Phdr :=
  if bit64 then
    let (type, input) := xdr.get 4 input
    let (flags, input) := xdr.get 4 input
    let (offset, input) := xdr.get 8 input
    let (vaddr, input) := xdr.get 8 input
    let (paddr, input) := xdr.get 8 input
    let (filesz, input) := xdr.get 8 input
    let (memsz, input) := xdr.get 8 input
    let (align, _) := xdr.get 8 input
    { type, flags, offset, vaddr, paddr, filesz, memsz, align }
  else
    let (type, input) := xdr.get 4 input
    let (offset, input) := xdr.get 4 input
    let (vaddr, input) := xdr.get 4 input
    let (paddr, input) := xdr.get 4 input
    let (filesz, input) := xdr.get 4 input
    let (memsz, input) := xdr.get 4 input
    let (flags, input) := xdr.get 4 input
    let (align, _) := xdr.get 4 input
    { type, flags, offset, vaddr, paddr, filesz, memsz, align }

/-- The numbers of the header have places in the file. -/
structure Phdr.Fits (bit64 : Bool) (phdr : Phdr) : Prop where
  type : phdr.type < 256 ^ 4
  flags : phdr.flags < 256 ^ 4
  offset : phdr.offset < 256 ^ wordSize bit64
  vaddr : phdr.vaddr < 256 ^ wordSize bit64
  paddr : phdr.paddr < 256 ^ wordSize bit64
  filesz : phdr.filesz < 256 ^ wordSize bit64
  memsz : phdr.memsz < 256 ^ wordSize bit64
  align : phdr.align < 256 ^ wordSize bit64

theorem length_phdrWrite (xdr : Xdr) (bit64 : Bool) (phdr : Phdr) :
    (phdrWrite xdr bit64 phdr).length = sizeofPhdr bit64 := by
  cases bit64 with
  | false => simp [phdrWrite, sizeofPhdr]
  | true => simp [phdrWrite, sizeofPhdr]

theorem elfPhdr_phdrWrite {bit64 : Bool} {phdr : Phdr} (xdr : Xdr) (fits : phdr.Fits bit64) :
    elfPhdr xdr bit64 (phdrWrite xdr bit64 phdr) = phdr := by
  obtain ⟨type, flags, offset, vaddr, paddr, filesz, memsz, align⟩ := fits
  cases bit64 with
  | false =>
    change _ < 256 ^ 4 at offset vaddr paddr filesz memsz align
    have last := Xdr.get_put xdr 4 phdr.align []
    rw [List.append_nil] at last
    simp only [phdrWrite, elfPhdr, Bool.false_eq_true, if_false, Xdr.get_put, last,
      Nat.mod_eq_of_lt type, Nat.mod_eq_of_lt flags, Nat.mod_eq_of_lt offset,
      Nat.mod_eq_of_lt vaddr, Nat.mod_eq_of_lt paddr, Nat.mod_eq_of_lt filesz,
      Nat.mod_eq_of_lt memsz, Nat.mod_eq_of_lt align]
  | true =>
    change _ < 256 ^ 8 at offset vaddr paddr filesz memsz align
    have last := Xdr.get_put xdr 8 phdr.align []
    rw [List.append_nil] at last
    simp only [phdrWrite, elfPhdr, if_true, Xdr.get_put, last, Nat.mod_eq_of_lt type,
      Nat.mod_eq_of_lt flags, Nat.mod_eq_of_lt offset, Nat.mod_eq_of_lt vaddr,
      Nat.mod_eq_of_lt paddr, Nat.mod_eq_of_lt filesz, Nat.mod_eq_of_lt memsz,
      Nat.mod_eq_of_lt align]

structure Shdr where
  name : Nat
  type : Nat
  flags : Nat
  addr : Nat
  offset : Nat
  size : Nat
  link : Nat
  info : Nat
  addralign : Nat
  entsize : Nat
deriving DecidableEq

def shdrWrite (xdr : Xdr) (bit64 : Bool) (shdr : Shdr) : List Byte :=
  xdr.put 4 shdr.name ++ (xdr.put 4 shdr.type ++
    (xdr.put (wordSize bit64) shdr.flags ++
    (xdr.put (wordSize bit64) shdr.addr ++
    (xdr.put (wordSize bit64) shdr.offset ++
    (xdr.put (wordSize bit64) shdr.size ++ (xdr.put 4 shdr.link ++
    (xdr.put 4 shdr.info ++ (xdr.put (wordSize bit64) shdr.addralign ++
    xdr.put (wordSize bit64) shdr.entsize))))))))

def elfShdr (xdr : Xdr) (bit64 : Bool) (input : List Byte) : Shdr :=
  let (name, input) := xdr.get 4 input
  let (type, input) := xdr.get 4 input
  let (flags, input) := xdr.get (wordSize bit64) input
  let (addr, input) := xdr.get (wordSize bit64) input
  let (offset, input) := xdr.get (wordSize bit64) input
  let (size, input) := xdr.get (wordSize bit64) input
  let (link, input) := xdr.get 4 input
  let (info, input) := xdr.get 4 input
  let (addralign, input) := xdr.get (wordSize bit64) input
  let (entsize, _) := xdr.get (wordSize bit64) input
  { name, type, flags, addr, offset, size, link, info, addralign, entsize }

structure Shdr.Fits (bit64 : Bool) (shdr : Shdr) : Prop where
  name : shdr.name < 256 ^ 4
  type : shdr.type < 256 ^ 4
  flags : shdr.flags < 256 ^ wordSize bit64
  addr : shdr.addr < 256 ^ wordSize bit64
  offset : shdr.offset < 256 ^ wordSize bit64
  size : shdr.size < 256 ^ wordSize bit64
  link : shdr.link < 256 ^ 4
  info : shdr.info < 256 ^ 4
  addralign : shdr.addralign < 256 ^ wordSize bit64
  entsize : shdr.entsize < 256 ^ wordSize bit64

instance (bit64 : Bool) (shdr : Shdr) : Decidable (shdr.Fits bit64) :=
  decidable_of_iff
    (shdr.name < 256 ^ 4 ∧ shdr.type < 256 ^ 4 ∧
      shdr.flags < 256 ^ wordSize bit64 ∧ shdr.addr < 256 ^ wordSize bit64 ∧
      shdr.offset < 256 ^ wordSize bit64 ∧ shdr.size < 256 ^ wordSize bit64 ∧
      shdr.link < 256 ^ 4 ∧ shdr.info < 256 ^ 4 ∧
      shdr.addralign < 256 ^ wordSize bit64 ∧
      shdr.entsize < 256 ^ wordSize bit64)
    ⟨fun ⟨a, b, c, d, e, f, g, h, i, j⟩ => ⟨a, b, c, d, e, f, g, h, i, j⟩,
      fun ⟨a, b, c, d, e, f, g, h, i, j⟩ => ⟨a, b, c, d, e, f, g, h, i, j⟩⟩

theorem length_shdrWrite (xdr : Xdr) (bit64 : Bool) (shdr : Shdr) :
    (shdrWrite xdr bit64 shdr).length = sizeofShdr bit64 := by
  simp only [shdrWrite, List.length_append, Xdr.length_put]
  cases bit64 with
  | false => rfl
  | true => rfl

theorem elfShdr_shdrWrite {bit64 : Bool} {shdr : Shdr} (xdr : Xdr) (fits : shdr.Fits bit64) :
    elfShdr xdr bit64 (shdrWrite xdr bit64 shdr) = shdr := by
  have last := Xdr.get_put xdr (wordSize bit64) shdr.entsize []
  rw [List.append_nil] at last
  simp only [shdrWrite, elfShdr, Xdr.get_put, last, Nat.mod_eq_of_lt fits.name,
    Nat.mod_eq_of_lt fits.type, Nat.mod_eq_of_lt fits.flags, Nat.mod_eq_of_lt fits.addr,
    Nat.mod_eq_of_lt fits.offset, Nat.mod_eq_of_lt fits.size, Nat.mod_eq_of_lt fits.link,
    Nat.mod_eq_of_lt fits.info, Nat.mod_eq_of_lt fits.addralign, Nat.mod_eq_of_lt fits.entsize]

def readTable {α : Type} (read : List Byte → α) (recordSize : Nat)
    (memory : Memory) (entsize : Nat) : Nat → Nat → List α
  | _, 0 => []
  | base, count + 1 =>
    read (load memory base recordSize) ::
      readTable read recordSize memory entsize (base + entsize) count

theorem readTable_eq {α : Type} {read : List Byte → α} {write : α → List Byte} {size : Nat}
    {records : List α} (length : ∀ record, (write record).length = size)
    (inverts : ∀ record ∈ records, read (write record) = record) {memory : Memory} {base : Nat}
    (stored : load memory base (size * records.length) = records.flatMap write) :
    readTable read size memory size base records.length = records := by
  induction records generalizing base with
  | nil => rfl
  | cons record rest ih =>
    rw [List.length_cons, Nat.mul_succ, Nat.add_comm, load_append, List.flatMap_cons] at stored
    obtain ⟨first, later⟩ := List.append_inj stored (by
      rw [length_load, length])
    rw [List.length_cons, readTable, first, inverts record List.mem_cons_self,
      ih (List.forall_mem_cons.mp inverts).2 later]

end Coreboot.ElfHeaders
