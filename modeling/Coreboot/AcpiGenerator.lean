import Coreboot.AmlGrammar

/-!
# Generating tables

The generator writes at `gencurrent` and keeps, on a stack, where the lengths of the open packages
are to be stored.
-/

namespace Coreboot.Acpigen

open Aml ByteMemory

def zeroOp : Byte := 0x00
def oneOp : Byte := 0x01
def nameOp : Byte := 0x08
def scopeOp : Byte := 0x10
def bufferOp : Byte := 0x11
def bytePrefix : Byte := 0x0a
def wordPrefix : Byte := 0x0b
def dwordPrefix : Byte := 0x0c
def stringPrefix : Byte := 0x0d
def qwordPrefix : Byte := 0x0e
def packageOp : Byte := 0x12
def methodOp : Byte := 0x14
def dualNamePrefix : Byte := 0x2e
def multiNamePrefix : Byte := 0x2f
def extOpPrefix : Byte := 0x5b
def sleepOp : Byte := 0x22
def debugOp : Byte := 0x31
def deviceOp : Byte := 0x82
def storeOp : Byte := 0x70
def andOp : Byte := 0x7b
def orOp : Byte := 0x7d
def notOp : Byte := 0x80
def lequalOp : Byte := 0x93
def toBufferOp : Byte := 0x96
def toIntegerOp : Byte := 0x99
def ifOp : Byte := 0xa0
def elseOp : Byte := 0xa1
def returnOp : Byte := 0xa4
def onesOp : Byte := 0xff

def acpigenLenstackSize : Nat := 10

def acpigenMaxlen : Nat := 0xfffff

/-- The bytes written up to `gencurrent`, and the stack of positions. -/
structure Generator where
  output : List Byte
  lenStack : List Nat

def Generator.append (g : Generator) (bytes : List Byte) : Generator :=
  { g with
    output := g.output ++ bytes }

def emitByte (b : Byte) (g : Generator) : Generator :=
  { g with
    output := g.output ++ [b] }

/-- `ltop` is the length of the stack; `none` is a failed assertion. -/
def writeLenF (g : Generator) : Option Generator :=
  if g.lenStack.length < acpigenLenstackSize - 1 then
    some (emitByte 0 (emitByte 0 (emitByte 0
      { g with
        lenStack := g.output.length :: g.lenStack })))
  else
    none

def popLen (g : Generator) : Option Generator :=
  match g.lenStack with
  | [] => none
  | p :: lenStack =>
    let len := g.output.length - p
    if len ≤ acpigenMaxlen then
      some
        { output :=
            ((g.output.set p (BitVec.ofNat 8 (0x80 ||| len &&& 0xf))).set
              (p + 1) (BitVec.ofNat 8 (len >>> 4 &&& 0xff))).set
              (p + 2) (BitVec.ofNat 8 (len >>> 12 &&& 0xff))
          lenStack := lenStack }
    else
      none

def emitExtOp (op : Byte) (g : Generator) : Generator := emitByte op (emitByte extOpPrefix g)

def emitWord (data : BitVec 32) (g : Generator) : Generator :=
  emitByte ((data >>> 8 &&& 0xff#32).setWidth 8) (emitByte ((data &&& 0xff#32).setWidth 8) g)

def emitDword (data : BitVec 32) (g : Generator) : Generator :=
  emitByte ((data >>> 24 &&& 0xff#32).setWidth 8)
    (emitByte ((data >>> 16 &&& 0xff#32).setWidth 8)
      (emitByte ((data >>> 8 &&& 0xff#32).setWidth 8) (emitByte ((data &&& 0xff#32).setWidth 8) g)))

def writePackage (nrEl : BitVec 32) (g : Generator) : Option Generator := do
  let g ← writeLenF (emitByte packageOp g)
  some (emitByte (nrEl.setWidth 8) g)

def writeByte (data : BitVec 32) (g : Generator) : Generator :=
  emitByte ((data &&& 0xff#32).setWidth 8) (emitByte bytePrefix g)

def writeWord (data : BitVec 32) (g : Generator) : Generator :=
  emitWord data (emitByte wordPrefix g)

def writeDword (data : BitVec 32) (g : Generator) : Generator :=
  emitDword data (emitByte dwordPrefix g)

def writeQword (data : BitVec 64) (g : Generator) : Generator :=
  emitDword ((data >>> 32 &&& 0xffffffff#64).setWidth 32)
    (emitDword ((data &&& 0xffffffff#64).setWidth 32) (emitByte qwordPrefix g))

def writeZero (g : Generator) : Generator := emitByte zeroOp g

def writeOne (g : Generator) : Generator := emitByte oneOp g

def writeOnes (g : Generator) : Generator := emitByte onesOp g

def writeInteger (data : BitVec 64) (g : Generator) : Generator :=
  if data = 0 then
    writeZero g
  else if data = 1 then
    writeOne g
  else if data ≤ 0xff#64 then
    writeByte ((data.setWidth 8).setWidth 32) g
  else if data ≤ 0xffff#64 then
    writeWord (data.setWidth 32) g
  else if data ≤ 0xffffffff#64 then
    writeDword (data.setWidth 32) g
  else
    writeQword data g

def emitStream (data : List Byte) (g : Generator) : Generator :=
  data.foldl (fun g byte => emitByte byte g) g

/-- A C string is given without its terminator; `none` is the null pointer. -/
def emitString (string : Option (List Byte)) (g : Generator) : Generator :=
  emitByte 0 (emitStream (string.getD []) g)

def writeString (string : Option (List Byte)) (g : Generator) : Generator :=
  emitString string (emitByte stringPrefix g)

def emitSimpleNamestringFrom : Nat → List Byte → Generator → Generator
  | 0, _, g => g
  | left + 1, [], g => emitStream (List.replicate (left + 1) 0x5f) g
  | left + 1, c :: name, g =>
    if c = 0x2e then
      emitStream (List.replicate (left + 1) 0x5f) g
    else
      emitSimpleNamestringFrom left name (emitByte c g)

def emitSimpleNamestring (name : List Byte) (g : Generator) : Generator :=
  emitSimpleNamestringFrom 4 name g

def emitDoubleNamestring (name : List Byte) (dotpos : Nat) (g : Generator) : Generator :=
  emitSimpleNamestring (name.drop (dotpos + 1))
    (emitSimpleNamestring name (emitByte dualNamePrefix g))

/-- The rest of the path after the end of an entity. -/
def nextEntity : List Byte → List Byte
  | [] => []
  | c :: name => if c = 0x2e then name else nextEntity name

theorem length_nextEntity (c : Byte) (name : List Byte) :
    (nextEntity (c :: name)).length ≤ name.length := by
  induction name generalizing c with
  | nil => rw [nextEntity]; split <;> simp [nextEntity]
  | cons d name ih =>
    rw [nextEntity]
    split
    · exact Nat.le_refl _
    · exact Nat.le_succ_of_le (ih d)

def emitEntities (count : Nat) (g : Generator) : List Byte → Generator × Nat
  | [] => (g, count)
  | c :: name =>
    have := length_nextEntity c name
    emitEntities (count + 1) (emitSimpleNamestring (c :: name) g) (nextEntity (c :: name))
termination_by name => name.length
decreasing_by simp only [List.length_cons]; omega

def emitMultiNamestring (name : List Byte) (g : Generator) : Generator :=
  let g := emitByte zeroOp (emitByte multiNamePrefix g)
  let pathlen := g.output.length - 1
  let (g, count) := emitEntities 0 g name
  { g with
    output := g.output.set pathlen (BitVec.ofNat 8 count) }

/-- The number of dots and the position of the last one. -/
def countDots : List Byte → Nat → Nat × Nat → Nat × Nat
  | [], _, dots => dots
  | c :: name, i, dots =>
    countDots name (i + 1) (if c = 0x2e then (dots.1 + 1, i) else dots)

def skipParents : List Byte → Generator → List Byte × Generator
  | [], g => ([], g)
  | c :: name, g =>
    if c = 0x5e then skipParents name (emitByte 0x5e g) else (c :: name, g)

def emitNamepath (namepath : List Byte) (g : Generator) : Generator :=
  let (namepath, g) := skipParents namepath g
  if namepath = [] then
    emitByte zeroOp g
  else
    let (dotcount, dotpos) := countDots namepath 0 (0, 0)
    if dotcount = 0 then
      emitSimpleNamestring namepath g
    else if dotcount = 1 then
      emitDoubleNamestring namepath dotpos g
    else
      emitMultiNamestring namepath g

def emitNamestring (namepath : List Byte) (g : Generator) : Generator :=
  if namepath.head? = some 0x5c then
    emitNamepath namepath.tail (emitByte 0x5c g)
  else
    emitNamepath namepath g

def writeName (name : List Byte) (g : Generator) : Generator :=
  emitNamestring name (emitByte nameOp g)

def writeNameZero (name : List Byte) (g : Generator) : Generator := writeOne (writeName name g)

def writeNameOne (name : List Byte) (g : Generator) : Generator := writeZero (writeName name g)

def writeNameByte (name : List Byte) (val : Byte) (g : Generator) : Generator :=
  writeByte (val.setWidth 32) (writeName name g)

def writeNameDword (name : List Byte) (val : BitVec 32) (g : Generator) : Generator :=
  writeDword val (writeName name g)

def writeNameQword (name : List Byte) (val : BitVec 64) (g : Generator) : Generator :=
  writeQword val (writeName name g)

def writeNameInteger (name : List Byte) (val : BitVec 64) (g : Generator) : Generator :=
  writeInteger val (writeName name g)

def writeNameString (name : List Byte) (string : Option (List Byte)) (g : Generator) : Generator :=
  writeString string (writeName name g)

def writeScope (name : List Byte) (g : Generator) : Option Generator := do
  let g ← writeLenF (emitByte scopeOp g)
  some (emitNamestring name g)

def writeMethodFlags (name : List Byte) (flags : Byte) (g : Generator) : Option Generator := do
  let g ← writeLenF (emitByte methodOp g)
  some (emitByte flags (emitNamestring name g))

def writeMethod (name : List Byte) (nargs : BitVec 32) (g : Generator) : Option Generator :=
  writeMethodFlags name ((nargs &&& 7#32).setWidth 8) g

def writeMethodSerialized (name : List Byte) (nargs : BitVec 32)
    (g : Generator) : Option Generator :=
  writeMethodFlags name ((nargs &&& 7#32 ||| 1#32 <<< 3).setWidth 8) g

def writeDevice (name : List Byte) (g : Generator) : Option Generator := do
  let g ← writeLenF (emitExtOp deviceOp g)
  some (emitNamestring name g)

def writeIf (g : Generator) : Option Generator := writeLenF (emitByte ifOp g)

def writeIfAnd (arg1 arg2 : Byte) (g : Generator) : Option Generator := do
  let g ← writeIf g
  some (emitByte arg2 (emitByte arg1 (emitByte andOp g)))

def writeIfLequalOpInt (op : Byte) (val : BitVec 64) (g : Generator) : Option Generator := do
  let g ← writeIf g
  some (writeInteger val (emitByte op (emitByte lequalOp g)))

def writeElse (g : Generator) : Option Generator := writeLenF (emitByte elseOp g)

def writeByteBuffer (arr : List Byte) (size : Byte) (g : Generator) : Option Generator := do
  let g ← writeLenF (emitByte bufferOp g)
  popLen (emitStream (arr.take size.toNat) (writeByte (size.setWidth 32) g))

/-- The second position is pushed without an assertion; `none` is a write behind
the end of the stack. -/
def writeResourcetemplateHeader (g : Generator) : Option Generator := do
  let g ← writeLenF (emitByte bufferOp g)
  let g := emitByte wordPrefix g
  if g.lenStack.length < acpigenLenstackSize then
    some (emitByte 0x00 (emitByte 0x00
      { g with
        lenStack := g.output.length :: g.lenStack }))
  else
    none

def writeResourcetemplateFooter (g : Generator) : Option Generator :=
  match g.lenStack with
  | [] => none
  | p :: lenStack =>
    let g := emitByte 0x00 (emitByte 0x79
      { g with
        lenStack := lenStack })
    let len := g.output.length - p
    popLen
      { g with
        output := (g.output.set p (BitVec.ofNat 8 (len &&& 0xff))).set (p + 1)
          (BitVec.ofNat 8 (len >>> 8 &&& 0xff)) }

def writeMem32fixed (readwrite base size : BitVec 32) (g : Generator) : Generator :=
  emitDword size (emitDword base
    (emitByte (if readwrite ≠ 0 then 0x01 else 0x00)
      (emitByte 0x00 (emitByte 0x09 (emitByte 0x86 g)))))

structure AcpiAddr where
  spaceId : Byte
  bitWidth : Byte
  bitOffset : Byte
  resv : Byte
  addrl : BitVec 32
  addrh : BitVec 32

def writeRegister (addr : AcpiAddr) (g : Generator) : Generator :=
  emitDword addr.addrh (emitDword addr.addrl
    (emitByte addr.resv (emitByte addr.bitOffset (emitByte addr.bitWidth
      (emitByte addr.spaceId (emitByte 0x00 (emitByte 0x0c (emitByte 0x82 g))))))))

def writeIrq (mask : BitVec 16) (g : Generator) : Generator :=
  emitByte ((mask >>> 8 &&& 0xff#16).setWidth 8)
    (emitByte ((mask &&& 0xff#16).setWidth 8) (emitByte 0x22 g))

def writeIo16 (min max : BitVec 16) (align len decode16 : Byte) (g : Generator) : Generator :=
  let g := emitByte (if decode16 ≠ 0 then 0x01 else 0x00) (emitByte 0x47 g)
  let g := emitByte ((min >>> 8 &&& 0xff#16).setWidth 8) (emitByte ((min &&& 0xff#16).setWidth 8) g)
  let g := emitByte ((max >>> 8 &&& 0xff#16).setWidth 8) (emitByte ((max &&& 0xff#16).setWidth 8) g)
  emitByte (len &&& 0xff#8) (emitByte (align &&& 0xff#8) g)

def writeSleep (sleepMs : BitVec 64) (g : Generator) : Generator :=
  writeInteger sleepMs (emitExtOp sleepOp g)

def writeStore (g : Generator) : Generator := emitByte storeOp g

def writeStoreOps (src dst : Byte) (g : Generator) : Generator :=
  emitByte dst (emitByte src (writeStore g))

def writeOr (arg1 arg2 res : Byte) (g : Generator) : Generator :=
  emitByte res (emitByte arg2 (emitByte arg1 (emitByte orOp g)))

def writeAnd (arg1 arg2 res : Byte) (g : Generator) : Generator :=
  emitByte res (emitByte arg2 (emitByte arg1 (emitByte andOp g)))

def writeNot (arg res : Byte) (g : Generator) : Generator :=
  emitByte res (emitByte arg (emitByte notOp g))

def writeDebugString (str : Option (List Byte)) (g : Generator) : Generator :=
  emitExtOp debugOp (writeString str (writeStore g))

def writeDebugInteger (val : BitVec 64) (g : Generator) : Generator :=
  emitExtOp debugOp (writeInteger val (writeStore g))

def writeDebugOp (op : Byte) (g : Generator) : Generator :=
  emitExtOp debugOp (emitByte op (writeStore g))

def writeToBuffer (src dst : Byte) (g : Generator) : Generator :=
  emitByte dst (emitByte src (emitByte toBufferOp g))

def writeToInteger (src dst : Byte) (g : Generator) : Generator :=
  emitByte dst (emitByte src (emitByte toIntegerOp g))

def writeReturnByteBuffer (arr : List Byte) (size : Byte) (g : Generator) : Option Generator :=
  writeByteBuffer arr size (emitByte returnOp g)

def writeReturnSingletonBuffer (arg : Byte) (g : Generator) : Option Generator :=
  writeReturnByteBuffer [arg] 1 g

def writeReturnByte (arg : Byte) (g : Generator) : Generator :=
  writeByte (arg.setWidth 32) (emitByte returnOp g)

def writeReturnInteger (arg : BitVec 64) (g : Generator) : Generator :=
  writeInteger arg (emitByte returnOp g)

def writeReturnString (arg : Option (List Byte)) (g : Generator) : Generator :=
  writeString arg (emitByte returnOp g)

inductive Call
  | writeZero
  | writeOne
  | writeOnes
  | writeByte (data : BitVec 32)
  | writeWord (data : BitVec 32)
  | writeDword (data : BitVec 32)
  | writeQword (data : BitVec 64)
  | writeInteger (data : BitVec 64)
  | writeString (string : Option (List Byte))
  | emitNamestring (namepath : List Byte)
  | writeByteBuffer (arr : List Byte) (size : Byte)
  | writeResourcetemplateHeader
  | writeResourcetemplateFooter
  | writeMem32fixed (readwrite base size : BitVec 32)
  | writeRegister (addr : AcpiAddr)
  | writeIrq (mask : BitVec 16)
  | writeIo16 (min max : BitVec 16) (align len decode16 : Byte)
  | writePackage (nrEl : BitVec 32)
  | popLen
  | writeName (name : List Byte)
  | writeNameZero (name : List Byte)
  | writeNameOne (name : List Byte)
  | writeNameByte (name : List Byte) (val : Byte)
  | writeNameDword (name : List Byte) (val : BitVec 32)
  | writeNameQword (name : List Byte) (val : BitVec 64)
  | writeNameInteger (name : List Byte) (val : BitVec 64)
  | writeNameString (name : List Byte) (string : Option (List Byte))
  | writeScope (name : List Byte)
  | writeDevice (name : List Byte)
  | writeMethod (name : List Byte) (nargs : BitVec 32)
  | writeMethodSerialized (name : List Byte) (nargs : BitVec 32)
  | writeIf
  | writeIfAnd (arg1 arg2 : Byte)
  | writeIfLequalOpInt (op : Byte) (val : BitVec 64)
  | writeElse
  | writeSleep (sleepMs : BitVec 64)
  | writeStoreOps (src dst : Byte)
  | writeOr (arg1 arg2 res : Byte)
  | writeAnd (arg1 arg2 res : Byte)
  | writeNot (arg res : Byte)
  | writeToBuffer (src dst : Byte)
  | writeToInteger (src dst : Byte)
  | writeDebugString (str : Option (List Byte))
  | writeDebugInteger (val : BitVec 64)
  | writeDebugOp (op : Byte)
  | writeReturnByteBuffer (arr : List Byte) (size : Byte)
  | writeReturnSingletonBuffer (arg : Byte)
  | writeReturnByte (arg : Byte)
  | writeReturnInteger (arg : BitVec 64)
  | writeReturnString (arg : Option (List Byte))

def Call.run : Call → Generator → Option Generator
  | .writeZero, g => some (Acpigen.writeZero g)
  | .writeOne, g => some (Acpigen.writeOne g)
  | .writeOnes, g => some (Acpigen.writeOnes g)
  | .writeByte data, g => some (Acpigen.writeByte data g)
  | .writeWord data, g => some (Acpigen.writeWord data g)
  | .writeDword data, g => some (Acpigen.writeDword data g)
  | .writeQword data, g => some (Acpigen.writeQword data g)
  | .writeInteger data, g => some (Acpigen.writeInteger data g)
  | .writeString string, g => some (Acpigen.writeString string g)
  | .emitNamestring namepath, g => some (Acpigen.emitNamestring namepath g)
  | .writeByteBuffer arr size, g => Acpigen.writeByteBuffer arr size g
  | .writeResourcetemplateHeader, g => Acpigen.writeResourcetemplateHeader g
  | .writeResourcetemplateFooter, g => Acpigen.writeResourcetemplateFooter g
  | .writeMem32fixed readwrite base size, g =>
    some (Acpigen.writeMem32fixed readwrite base size g)
  | .writeRegister addr, g => some (Acpigen.writeRegister addr g)
  | .writeIrq mask, g => some (Acpigen.writeIrq mask g)
  | .writeIo16 min max align len decode16, g =>
    some (Acpigen.writeIo16 min max align len decode16 g)
  | .writePackage nrEl, g => Acpigen.writePackage nrEl g
  | .popLen, g => Acpigen.popLen g
  | .writeName name, g => some (Acpigen.writeName name g)
  | .writeNameZero name, g => some (Acpigen.writeNameZero name g)
  | .writeNameOne name, g => some (Acpigen.writeNameOne name g)
  | .writeNameByte name val, g => some (Acpigen.writeNameByte name val g)
  | .writeNameDword name val, g => some (Acpigen.writeNameDword name val g)
  | .writeNameQword name val, g => some (Acpigen.writeNameQword name val g)
  | .writeNameInteger name val, g =>
    some (Acpigen.writeNameInteger name val g)
  | .writeNameString name string, g =>
    some (Acpigen.writeNameString name string g)
  | .writeScope name, g => Acpigen.writeScope name g
  | .writeDevice name, g => Acpigen.writeDevice name g
  | .writeMethod name nargs, g => Acpigen.writeMethod name nargs g
  | .writeMethodSerialized name nargs, g =>
    Acpigen.writeMethodSerialized name nargs g
  | .writeIf, g => Acpigen.writeIf g
  | .writeIfAnd arg1 arg2, g => Acpigen.writeIfAnd arg1 arg2 g
  | .writeIfLequalOpInt op val, g => Acpigen.writeIfLequalOpInt op val g
  | .writeElse, g => Acpigen.writeElse g
  | .writeSleep sleepMs, g => some (Acpigen.writeSleep sleepMs g)
  | .writeStoreOps src dst, g => some (Acpigen.writeStoreOps src dst g)
  | .writeOr arg1 arg2 res, g => some (Acpigen.writeOr arg1 arg2 res g)
  | .writeAnd arg1 arg2 res, g => some (Acpigen.writeAnd arg1 arg2 res g)
  | .writeNot arg res, g => some (Acpigen.writeNot arg res g)
  | .writeToBuffer src dst, g => some (Acpigen.writeToBuffer src dst g)
  | .writeToInteger src dst, g => some (Acpigen.writeToInteger src dst g)
  | .writeDebugString str, g => some (Acpigen.writeDebugString str g)
  | .writeDebugInteger val, g => some (Acpigen.writeDebugInteger val g)
  | .writeDebugOp op, g => some (Acpigen.writeDebugOp op g)
  | .writeReturnByteBuffer arr size, g =>
    Acpigen.writeReturnByteBuffer arr size g
  | .writeReturnSingletonBuffer arg, g =>
    Acpigen.writeReturnSingletonBuffer arg g
  | .writeReturnByte arg, g => some (Acpigen.writeReturnByte arg g)
  | .writeReturnInteger arg, g => some (Acpigen.writeReturnInteger arg g)
  | .writeReturnString arg, g => some (Acpigen.writeReturnString arg g)

def run : List Call → Generator → Option Generator
  | [], g => some g
  | call :: calls, g => (call.run g).bind (run calls)

end Coreboot.Acpigen
