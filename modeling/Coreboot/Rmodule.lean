import Mathlib.Data.List.Basic
import Mathlib.Tactic.Common

/-!
# Relocatable modules

A relocatable module is a header, a program and its relocations.  The header
describes the program by its link addresses.
-/

namespace Coreboot.Rmodule

def rmoduleMagic : BitVec 16 := 0xf8fe
def rmoduleVersion1 : BitVec 8 := 1

/-- `struct rmodule_header`, without its padding. -/
structure Header where
  magic : BitVec 16
  version : BitVec 8
  type : BitVec 8
  payloadBeginOffset : BitVec 32
  payloadEndOffset : BitVec 32
  relocationsBeginOffset : BitVec 32
  relocationsEndOffset : BitVec 32
  moduleLinkStartAddress : BitVec 32
  moduleProgramSize : BitVec 32
  moduleEntryPoint : BitVec 32
  parametersBegin : BitVec 32
  parametersEnd : BitVec 32
  bssBegin : BitVec 32
  bssEnd : BitVec 32
deriving DecidableEq, Repr

namespace Header

/-- The test of `rmodule_parse`. -/
def Parses (header : Header) : Prop :=
  header.magic = rmoduleMagic ∧ header.version = rmoduleVersion1

instance (header : Header) : Decidable header.Parses := inferInstanceAs (Decidable (_ ∧ _))

/-- `rmodule_memory_size`, an `int`. -/
def memorySize (header : Header) : Int := header.moduleProgramSize.toInt

/-- `rmodule_entry_offset`, an `int`. -/
def entryOffset (header : Header) : Int :=
  (header.moduleEntryPoint - header.moduleLinkStartAddress).toInt

/-- `rmodule_load_addr`, for a module that is loaded at an address. -/
def loadAddr (header : Header) (location : Int) (blobAddr : BitVec 32) : Int :=
  location + (blobAddr - header.moduleLinkStartAddress).toNat

def entry (header : Header) (location : Int) : Int :=
  header.loadAddr location header.moduleEntryPoint

def parameters (header : Header) (location : Int) : Option Int :=
  if header.parametersBegin = header.parametersEnd then none
  else some (header.loadAddr location header.parametersBegin)

def EntryInside (header : Header) : Prop :=
  (header.moduleEntryPoint - header.moduleLinkStartAddress).toNat < header.moduleProgramSize.toNat

instance (header : Header) : Decidable header.EntryInside := inferInstanceAs (Decidable (_ < _))

end Header

def rmoduleLoadAlignment : Int := 4096

end Coreboot.Rmodule
