import Coreboot.AcpiGeneratorBytes

/-!
# Bracketed sequences of calls

A program is a sequence of calls in which every package that is opened is closed again.
-/

namespace Coreboot.Acpigen

open Aml ByteMemory

inductive Item
  | mem32fixed (readwrite base size : BitVec 32)
  | register (addr : AcpiAddr)
  | irq (mask : BitVec 16)
  | io16 (min max : BitVec 16) (align len decode16 : Byte)

def Item.call : Item → Call
  | .mem32fixed readwrite base size => .writeMem32fixed readwrite base size
  | .register addr => .writeRegister addr
  | .irq mask => .writeIrq mask
  | .io16 min max align len decode16 => .writeIo16 min max align len decode16

/-- A call that writes a whole object. -/
inductive Leaf
  | zero
  | one
  | ones
  | byte (data : BitVec 32)
  | word (data : BitVec 32)
  | dword (data : BitVec 32)
  | qword (data : BitVec 64)
  | integer (data : BitVec 64)
  | string (string : Option (List Byte))
  | namestring (path : Path)
  | byteBuffer (arr : List Byte)

def Leaf.call : Leaf → Call
  | .zero => .writeZero
  | .one => .writeOne
  | .ones => .writeOnes
  | .byte data => .writeByte data
  | .word data => .writeWord data
  | .dword data => .writeDword data
  | .qword data => .writeQword data
  | .integer data => .writeInteger data
  | .string str => .writeString str
  | .namestring path => .emitNamestring path.text
  | .byteBuffer arr => .writeByteBuffer arr (BitVec.ofNat 8 arr.length)

/-- An object: one call, or calls that are closed by a footer or a pop. -/
inductive Value
  | leaf (leaf : Leaf)
  | resourceTemplate (items : List Item)
  | package (nrEl : BitVec 32) (elements : List Value)

mutual

def Value.calls : Value → List Call
  | .leaf object => [object.call]
  | .resourceTemplate items =>
    .writeResourcetemplateHeader :: (items.map Item.call ++ [.writeResourcetemplateFooter])
  | .package nrEl elements =>
    .writePackage nrEl :: (Value.listCalls elements ++ [.popLen])

def Value.listCalls : List Value → List Call
  | [] => []
  | value :: values => value.calls ++ Value.listCalls values

end

/-- A call that writes a whole statement. -/
inductive Simple
  | nameZero (path : Path)
  | nameOne (path : Path)
  | nameByte (path : Path) (val : Byte)
  | nameDword (path : Path) (val : BitVec 32)
  | nameQword (path : Path) (val : BitVec 64)
  | nameInteger (path : Path) (val : BitVec 64)
  | nameString (path : Path) (string : Option (List Byte))
  | sleep (sleepMs : BitVec 64)
  | storeOps (src dst : Byte)
  | or (arg1 arg2 res : Byte)
  | and (arg1 arg2 res : Byte)
  | not (arg res : Byte)
  | toBuffer (src dst : Byte)
  | toInteger (src dst : Byte)
  | debugString (str : Option (List Byte))
  | debugInteger (val : BitVec 64)
  | debugOp (op : Byte)
  | returnByteBuffer (arr : List Byte)
  | returnSingletonBuffer (arg : Byte)
  | returnByte (arg : Byte)
  | returnInteger (arg : BitVec 64)
  | returnString (arg : Option (List Byte))

def Simple.call : Simple → Call
  | .nameZero path => .writeNameZero path.text
  | .nameOne path => .writeNameOne path.text
  | .nameByte path val => .writeNameByte path.text val
  | .nameDword path val => .writeNameDword path.text val
  | .nameQword path val => .writeNameQword path.text val
  | .nameInteger path val => .writeNameInteger path.text val
  | .nameString path string => .writeNameString path.text string
  | .sleep sleepMs => .writeSleep sleepMs
  | .storeOps src dst => .writeStoreOps src dst
  | .or arg1 arg2 res => .writeOr arg1 arg2 res
  | .and arg1 arg2 res => .writeAnd arg1 arg2 res
  | .not arg res => .writeNot arg res
  | .toBuffer src dst => .writeToBuffer src dst
  | .toInteger src dst => .writeToInteger src dst
  | .debugString str => .writeDebugString str
  | .debugInteger val => .writeDebugInteger val
  | .debugOp op => .writeDebugOp op
  | .returnByteBuffer arr =>
    .writeReturnByteBuffer arr (BitVec.ofNat 8 arr.length)
  | .returnSingletonBuffer arg => .writeReturnSingletonBuffer arg
  | .returnByte arg => .writeReturnByte arg
  | .returnInteger arg => .writeReturnInteger arg
  | .returnString arg => .writeReturnString arg

/-- What an `if` tests: the object written next, or the helper's comparison. -/
inductive Condition
  | value (value : Value)
  | and (arg1 arg2 : Byte)
  | lequal (op : Byte) (val : BitVec 64)

def Condition.calls : Condition → List Call
  | .value object => .writeIf :: object.calls
  | .and arg1 arg2 => [.writeIfAnd arg1 arg2]
  | .lequal op val => [.writeIfLequalOpInt op val]

inductive Statement
  | simple (simple : Simple)
  | name (path : Path) (value : Value)
  | scope (path : Path) (body : List Statement)
  | device (path : Path) (body : List Statement)
  | method (path : Path) (nargs : BitVec 32) (body : List Statement)
  | methodSerialized (path : Path) (nargs : BitVec 32) (body : List Statement)
  | ifThen (condition : Condition) (body : List Statement)
  | ifElse (condition : Condition) (body otherwise : List Statement)

mutual

def Statement.calls : Statement → List Call
  | .simple statement => [statement.call]
  | .name path value => .writeName path.text :: value.calls
  | .scope path body =>
    .writeScope path.text :: (Statement.listCalls body ++ [.popLen])
  | .device path body =>
    .writeDevice path.text :: (Statement.listCalls body ++ [.popLen])
  | .method path nargs body =>
    .writeMethod path.text nargs :: (Statement.listCalls body ++ [.popLen])
  | .methodSerialized path nargs body =>
    .writeMethodSerialized path.text nargs :: (Statement.listCalls body ++ [.popLen])
  | .ifThen condition body =>
    condition.calls ++ (Statement.listCalls body ++ [.popLen])
  | .ifElse condition body otherwise =>
    condition.calls ++ (Statement.listCalls body ++ (.popLen :: .writeElse ::
      (Statement.listCalls otherwise ++ [.popLen])))

def Statement.listCalls : List Statement → List Call
  | [] => []
  | statement :: statements =>
    statement.calls ++ Statement.listCalls statements

end

def block (op content : List Byte) : List Byte := op ++ (pkgLength (content.length + 3) ++ content)

def Item.bytes : Item → List Byte
  | .mem32fixed readwrite base size =>
    [0x86, 0x09, 0x00, if readwrite ≠ 0 then 0x01 else 0x00] ++
      (encodeLE 4 base.toNat ++ encodeLE 4 size.toNat)
  | .register addr =>
    [0x82, 0x0c, 0x00, addr.spaceId, addr.bitWidth, addr.bitOffset,
      addr.resv] ++ (encodeLE 4 addr.addrl.toNat ++
      encodeLE 4 addr.addrh.toNat)
  | .irq mask => 0x22 :: encodeLE 2 mask.toNat
  | .io16 min max align len decode16 =>
    [0x47, if decode16 ≠ 0 then 0x01 else 0x00] ++ (encodeLE 2 min.toNat ++
      (encodeLE 2 max.toNat ++ [align, len]))

def bufferBytes (arr : List Byte) : List Byte :=
  block [bufferOp] (bytePrefix :: (encodeLE 1 arr.length ++ arr))

def Leaf.bytes : Leaf → List Byte
  | .zero => [zeroOp]
  | .one => [oneOp]
  | .ones => [onesOp]
  | .byte data => bytePrefix :: encodeLE 1 data.toNat
  | .word data => wordPrefix :: encodeLE 2 data.toNat
  | .dword data => dwordPrefix :: encodeLE 4 data.toNat
  | .qword data => qwordPrefix :: encodeLE 8 data.toNat
  | .integer data => integerBytes data
  | .string str => stringBytes str
  | .namestring path => path.name.bytes
  | .byteBuffer arr => bufferBytes arr

mutual

/-- The length word of a resource template counts its own two bytes. -/
def Value.bytes : Value → List Byte
  | .leaf object => object.bytes
  | .resourceTemplate items =>
    block [bufferOp] (wordPrefix ::
      (encodeLE 2 ((items.flatMap Item.bytes).length + 4) ++
        (items.flatMap Item.bytes ++ [0x79, 0x00])))
  | .package nrEl elements =>
    block [packageOp] (nrEl.setWidth 8 :: Value.listBytes elements)

def Value.listBytes : List Value → List Byte
  | [] => []
  | value :: values => value.bytes ++ Value.listBytes values

end

def nameBytes (path : Path) (value : List Byte) : List Byte := nameOp :: (path.name.bytes ++ value)

def Simple.bytes : Simple → List Byte
  | .nameZero path => nameBytes path [oneOp]
  | .nameOne path => nameBytes path [zeroOp]
  | .nameByte path val => nameBytes path (bytePrefix :: encodeLE 1 val.toNat)
  | .nameDword path val => nameBytes path (dwordPrefix :: encodeLE 4 val.toNat)
  | .nameQword path val => nameBytes path (qwordPrefix :: encodeLE 8 val.toNat)
  | .nameInteger path val => nameBytes path (integerBytes val)
  | .nameString path string => nameBytes path (stringBytes string)
  | .sleep sleepMs => extOpPrefix :: sleepOp :: integerBytes sleepMs
  | .storeOps src dst => [storeOp, src, dst]
  | .or arg1 arg2 res => [orOp, arg1, arg2, res]
  | .and arg1 arg2 res => [andOp, arg1, arg2, res]
  | .not arg res => [notOp, arg, res]
  | .toBuffer src dst => [toBufferOp, src, dst]
  | .toInteger src dst => [toIntegerOp, src, dst]
  | .debugString str => storeOp :: (stringBytes str ++ [extOpPrefix, Acpigen.debugOp])
  | .debugInteger val =>
    storeOp :: (integerBytes val ++ [extOpPrefix, Acpigen.debugOp])
  | .debugOp op => [storeOp, op, extOpPrefix, Acpigen.debugOp]
  | .returnByteBuffer arr => returnOp :: bufferBytes arr
  | .returnSingletonBuffer arg => returnOp :: bufferBytes [arg]
  | .returnByte arg => returnOp :: bytePrefix :: encodeLE 1 arg.toNat
  | .returnInteger arg => returnOp :: integerBytes arg
  | .returnString arg => returnOp :: stringBytes arg

def Condition.bytes : Condition → List Byte
  | .value object => object.bytes
  | .and arg1 arg2 => [andOp, arg1, arg2]
  | .lequal op val => lequalOp :: op :: integerBytes val

def methodFlags (nargs : BitVec 32) : Byte := (nargs &&& 7#32).setWidth 8

def serializedFlags (nargs : BitVec 32) : Byte := (nargs &&& 7#32 ||| 1#32 <<< 3).setWidth 8

mutual

def Statement.bytes : Statement → List Byte
  | .simple statement => statement.bytes
  | .name path value => nameBytes path value.bytes
  | .scope path body =>
    block [scopeOp] (path.name.bytes ++ Statement.listBytes body)
  | .device path body =>
    block [extOpPrefix, deviceOp] (path.name.bytes ++ Statement.listBytes body)
  | .method path nargs body =>
    block [methodOp] (path.name.bytes ++ (methodFlags nargs :: Statement.listBytes body))
  | .methodSerialized path nargs body =>
    block [methodOp] (path.name.bytes ++ (serializedFlags nargs :: Statement.listBytes body))
  | .ifThen condition body =>
    block [ifOp] (condition.bytes ++ Statement.listBytes body)
  | .ifElse condition body otherwise =>
    block [ifOp] (condition.bytes ++ Statement.listBytes body) ++
      block [elseOp] (Statement.listBytes otherwise)

def Statement.listBytes : List Statement → List Byte
  | [] => []
  | statement :: statements =>
    statement.bytes ++ Statement.listBytes statements

end

def Fits (content : List Byte) : Prop := content.length + 3 < 2 ^ 20

def Ascii (string : Option (List Byte)) : Prop := ∀ c ∈ string.getD [], c ≠ 0 ∧ c < 0x80

/-- A byte that is an operand: a constant, or a local or argument object. -/
def IsOperand (op : Byte) : Prop := op = zeroOp ∨ op = oneOp ∨ op = onesOp ∨ IsObject op

def IsTarget (op : Byte) : Prop := op = zeroOp ∨ IsObject op

def Leaf.WellFormed : Leaf → Prop
  | .string str => Ascii str
  | .namestring path => path.Valid ∧ path.text ≠ []
  | .byteBuffer arr => arr.length < 256
  | _ => True

mutual

def Value.WellFormed : Value → Prop
  | .leaf object => object.WellFormed
  | .resourceTemplate items =>
    Fits (wordPrefix ::
      (encodeLE 2 ((items.flatMap Item.bytes).length + 4) ++
        (items.flatMap Item.bytes ++ [0x79, 0x00])))
  | .package nrEl elements =>
    elements.length ≤ nrEl.toNat ∧ nrEl.toNat < 256 ∧
      Fits (nrEl.setWidth 8 :: Value.listBytes elements) ∧
      Value.ListWellFormed elements

def Value.ListWellFormed : List Value → Prop
  | [] => True
  | value :: values => value.WellFormed ∧ Value.ListWellFormed values

end

def Simple.WellFormed : Simple → Prop
  | .nameZero path | .nameOne path | .nameByte path _ | .nameDword path _
  | .nameQword path _ | .nameInteger path _ => path.Valid
  | .nameString path string => path.Valid ∧ Ascii string
  | .storeOps src dst => IsOperand src ∧ IsObject dst
  | .or arg1 arg2 res | .and arg1 arg2 res =>
    IsOperand arg1 ∧ IsOperand arg2 ∧ IsTarget res
  | .not arg res | .toBuffer arg res | .toInteger arg res =>
    IsOperand arg ∧ IsTarget res
  | .debugString string | .returnString string => Ascii string
  | .debugOp op => IsOperand op
  | .returnByteBuffer arr => arr.length < 256
  | _ => True

def Condition.WellFormed : Condition → Prop
  | .value object => object.WellFormed
  | .and arg1 arg2 => IsOperand arg1 ∧ IsOperand arg2
  | .lequal op _ => IsOperand op

mutual

def Statement.WellFormed : Statement → Prop
  | .simple statement => statement.WellFormed
  | .name path value => path.Valid ∧ value.WellFormed
  | .scope path body | .device path body =>
    path.Valid ∧ Fits (path.name.bytes ++ Statement.listBytes body) ∧ Statement.ListWellFormed body
  | .method path nargs body =>
    path.Valid ∧
      Fits (path.name.bytes ++ (methodFlags nargs :: Statement.listBytes body)) ∧
      Statement.ListWellFormed body
  | .methodSerialized path nargs body =>
    path.Valid ∧
      Fits (path.name.bytes ++ (serializedFlags nargs :: Statement.listBytes body)) ∧
      Statement.ListWellFormed body
  | .ifThen condition body =>
    condition.WellFormed ∧
      Fits (condition.bytes ++ Statement.listBytes body) ∧
      Statement.ListWellFormed body
  | .ifElse condition body otherwise =>
    condition.WellFormed ∧
      Fits (condition.bytes ++ Statement.listBytes body) ∧
      Statement.ListWellFormed body ∧
      Fits (Statement.listBytes otherwise) ∧
      Statement.ListWellFormed otherwise

def Statement.ListWellFormed : List Statement → Prop
  | [] => True
  | statement :: statements =>
    statement.WellFormed ∧ Statement.ListWellFormed statements

end

def Leaf.depth : Leaf → Nat
  | .byteBuffer _ => 1
  | _ => 0

mutual

/-- The number of lengths that are open at once. -/
def Value.depth : Value → Nat
  | .leaf object => object.depth
  | .resourceTemplate _ => 1
  | .package _ elements => Value.listDepth elements + 1

def Value.listDepth : List Value → Nat
  | [] => 0
  | value :: values => max value.depth (Value.listDepth values)

end

def Simple.depth : Simple → Nat
  | .returnByteBuffer _ | .returnSingletonBuffer _ => 1
  | _ => 0

def Condition.depth : Condition → Nat
  | .value object => object.depth
  | _ => 0

mutual

def Statement.depth : Statement → Nat
  | .simple statement => statement.depth
  | .name _ value => value.depth
  | .scope _ body | .device _ body | .method _ _ body
  | .methodSerialized _ _ body => Statement.listDepth body + 1
  | .ifThen condition body =>
    max condition.depth (Statement.listDepth body) + 1
  | .ifElse condition body otherwise =>
    max (max condition.depth (Statement.listDepth body)) (Statement.listDepth otherwise) + 1

def Statement.listDepth : List Statement → Nat
  | [] => 0
  | statement :: statements =>
    max statement.depth (Statement.listDepth statements)

end

@[simp]
theorem run_append (first second : List Call) (g : Generator) :
    run (first ++ second) g = (run first g).bind (run second) := by
  induction first generalizing g with
  | nil => rfl
  | cons call calls ih =>
    rw [List.cons_append, run, run, Option.bind_assoc]
    exact congrArg _ (funext ih)

theorem run_singleton (call : Call) (g : Generator) : run [call] g = call.run g :=
  Option.bind_fun_some (call.run g)

def Generator.opened (g : Generator) : Generator :=
  { output := g.output ++ [0, 0, 0]
    lenStack := g.output.length :: g.lenStack }

variable {g : Generator} {path : Path}

theorem writeLenF_eq (room : g.lenStack.length < 9) : writeLenF g = some g.opened := by
  rw [writeLenF, if_pos (show g.lenStack.length < acpigenLenstackSize - 1 from room)]
  simp [Generator.opened, Generator.append]

theorem ofNat_masked (number : Nat) : BitVec.ofNat 8 (number &&& 0xff) = BitVec.ofNat 8 number := by
  apply BitVec.eq_of_toNat_eq
  have mask : number &&& 0xff = number % 2 ^ 8 := Nat.and_two_pow_sub_one_eq_mod number 8
  rw [BitVec.toNat_ofNat, BitVec.toNat_ofNat, mask, Nat.mod_mod]

theorem stored_pkgLength (len : Nat) :
    [BitVec.ofNat 8 (0x80 ||| len &&& 0xf),
      BitVec.ofNat 8 (len >>> 4 &&& 0xff),
      BitVec.ofNat 8 (len >>> 12 &&& 0xff)] = pkgLength len := by
  have low : len &&& 0xf = len % 16 := Nat.and_two_pow_sub_one_eq_mod len 4
  have lead : (0x80 ||| len % 16) = 128 + len % 16 :=
    (Nat.two_pow_add_eq_or_of_lt (i := 7) (show len % 16 < 2 ^ 7 by omega) 1).symm
  rw [low, lead, ofNat_masked, ofNat_masked, Nat.shiftRight_eq_div_pow, Nat.shiftRight_eq_div_pow]
  rfl

theorem popLen_opened {content : List Byte} (fits : Fits content) :
    popLen (g.opened.append content) =
      some (g.append (pkgLength (content.length + 3) ++ content)) := by
  have len : (g.output ++ [0, 0, 0] ++ content).length - g.output.length = content.length + 3 := by
    simp only [List.length_append, List.length_cons, List.length_nil]
    omega
  have small : content.length + 3 ≤ acpigenMaxlen := by
    rw [Fits] at fits
    rw [acpigenMaxlen]
    omega
  have patched (a b c : Byte) :
      (((g.output ++ [0, 0, 0] ++ content).set g.output.length a).set
        (g.output.length + 1) b).set (g.output.length + 2) c =
      g.output ++ ([a, b, c] ++ content) := by
    rw [List.append_assoc, List.set_append_right _ _ (Nat.le_refl _),
      List.set_append_right _ _ (Nat.le_add_right _ _),
      List.set_append_right _ _ (Nat.le_add_right _ _), Nat.sub_self,
      Nat.add_sub_cancel_left, Nat.add_sub_cancel_left]
    rfl
  have closed : popLen (g.opened.append content) =
      if (g.output ++ [0, 0, 0] ++ content).length - g.output.length ≤ acpigenMaxlen then
        some
          { output :=
              (((g.output ++ [0, 0, 0] ++ content).set g.output.length
                (BitVec.ofNat 8 (0x80 ||| ((g.output ++ [0, 0, 0] ++
                  content).length - g.output.length) &&& 0xf))).set
                (g.output.length + 1)
                (BitVec.ofNat 8 (((g.output ++ [0, 0, 0] ++ content).length -
                  g.output.length) >>> 4 &&& 0xff))).set (g.output.length + 2)
                (BitVec.ofNat 8 (((g.output ++ [0, 0, 0] ++ content).length -
                  g.output.length) >>> 12 &&& 0xff))
            lenStack := g.lenStack }
      else
        none :=
    rfl
  rw [closed, len, if_pos small, patched, stored_pkgLength]
  rfl

def Generator.inside (g : Generator) (op content : List Byte) : Generator :=
  (g.append op).opened.append content

theorem Generator.inside_append (g : Generator) (op first second : List Byte) :
    (g.inside op first).append second = g.inside op (first ++ second) :=
  Generator.append_append _ _ _

theorem Generator.inside_lenStack (g : Generator) (op content : List Byte) :
    (g.inside op content).lenStack.length = g.lenStack.length + 1 :=
  rfl

theorem Generator.inside_nil (g : Generator) (op : List Byte) :
    g.inside op [] = (g.append op).opened :=
  Generator.append_nil _

theorem writeLenF_inside (room : g.lenStack.length < 9) (op : List Byte) :
    writeLenF (g.append op) = some (g.inside op []) := by
  rw [Generator.inside_nil]
  exact writeLenF_eq room

theorem run_popLen {op content : List Byte} (fits : Fits content) :
    run [.popLen] (g.inside op content) = some (g.append (block op content)) := by
  rw [run_singleton, Call.run, Generator.inside, popLen_opened fits, Generator.append_append]
  rfl

theorem Item.run (item : Item) (g : Generator) : item.call.run g = some (g.append item.bytes) := by
  cases item with
  | mem32fixed readwrite base size =>
    simp [Item.call, Call.run, writeMem32fixed, Item.bytes]
  | register addr => simp [Item.call, Call.run, writeRegister, Item.bytes]
  | irq mask =>
    simp only [Item.call, Call.run, writeIrq, emitByte_eq, Generator.append_append, Item.bytes]
    rw [low_byte mask (by decide), shifted_byte mask 8 (by decide)]
    rfl
  | io16 min max align len decode16 =>
    have whole (b : Byte) : b &&& 0xff#8 = b := BitVec.and_allOnes
    simp only [Item.call, Call.run, writeIo16, emitByte_eq,
      Generator.append_append, Item.bytes, whole]
    rw [low_byte min (by decide), shifted_byte min 8 (by decide),
      low_byte max (by decide), shifted_byte max 8 (by decide)]
    rfl

theorem Item.run_list (items : List Item) (g : Generator) :
    Acpigen.run (items.map Item.call) g = some (g.append (items.flatMap Item.bytes)) := by
  induction items generalizing g with
  | nil => exact congrArg some g.append_nil.symm
  | cons item items ih =>
    rw [List.map_cons, Acpigen.run, item.run, Option.bind_some, ih,
      Generator.append_append, List.flatMap_cons]

theorem writeByteBuffer_eq {arr : List Byte} (short : arr.length < 256)
    {g : Generator} (room : g.lenStack.length < 9) :
    writeByteBuffer arr (BitVec.ofNat 8 arr.length) g = some (g.append (bufferBytes arr)) := by
  have size : (BitVec.ofNat 8 arr.length).toNat = arr.length := by
    rw [BitVec.toNat_ofNat]
    exact Nat.mod_eq_of_lt short
  have wide : ((BitVec.ofNat 8 arr.length).setWidth 32).toNat = arr.length := by
    rw [BitVec.toNat_setWidth, size]
    exact Nat.mod_eq_of_lt (by omega)
  rw [writeByteBuffer, emitByte_eq, writeLenF_eq (g := g.append [bufferOp]) room]
  dsimp only [bind, Option.bind]
  rw [size, List.take_length, writeByte_eq, emitStream_eq,
    Generator.append_append, wide, popLen_opened, Generator.append_append]
  · rfl
  · simp only [Fits, List.length_append, List.length_cons, length_encodeLE]
    omega

theorem Leaf.run {leaf : Leaf} (valid : leaf.WellFormed)
    (room : g.lenStack.length + leaf.depth ≤ 9) :
    leaf.call.run g = some (g.append leaf.bytes) := by
  cases leaf with
  | namestring path => exact congrArg some (valid.1.emitNamestring g)
  | byteBuffer arr => exact writeByteBuffer_eq valid room
  | _ =>
    simp [Leaf.call, Call.run, Leaf.bytes, Acpigen.writeZero, Acpigen.writeOne, Acpigen.writeOnes]

theorem writeResourcetemplateFooter_eq {items : List Byte}
    (fits : Fits (wordPrefix :: (encodeLE 2 (items.length + 4) ++ (items ++ [0x79, 0x00])))) :
    writeResourcetemplateFooter
      { output := g.opened.output ++ ([wordPrefix, 0, 0] ++ items)
        lenStack := (g.opened.output.length + 1) :: g.opened.lenStack } =
      some (g.append (pkgLength ((wordPrefix ::
        (encodeLE 2 (items.length + 4) ++ (items ++ [0x79, 0x00]))).length +
          3) ++ (wordPrefix :: (encodeLE 2 (items.length + 4) ++
        (items ++ [0x79, 0x00]))))) := by
  rw [← popLen_opened fits]
  simp only [writeResourcetemplateFooter, emitByte_eq, Generator.append_append]
  congr 1
  have len : (g.opened.output ++ ([wordPrefix, 0, 0] ++ items) ++
      [0x79, 0x00]).length - (g.opened.output.length + 1) =
      items.length + 4 := by
    simp only [List.length_append, List.length_cons, List.length_nil]
    omega
  simp only [Generator.append]
  have joined : ([0x79] ++ [0x00] : List Byte) = [0x79, 0x00] := rfl
  rw [joined, len, ofNat_masked, ofNat_masked, Nat.shiftRight_eq_div_pow]
  congr 1
  rw [List.append_assoc, List.set_append_right _ _ (Nat.le_add_right _ _),
    List.set_append_right _ _ (by omega), Nat.add_sub_cancel_left,
    Nat.add_assoc, Nat.add_sub_cancel_left]
  rfl

mutual

theorem Value.run : ∀ {value : Value}, value.WellFormed →
    ∀ {g : Generator}, g.lenStack.length + value.depth ≤ 9 →
      Acpigen.run value.calls g = some (g.append value.bytes)
  | .leaf object, valid, g, room => by
    rw [Value.calls, run_singleton]
    exact Leaf.run valid room
  | .resourceTemplate items, valid, g, room => by
    rw [Value.depth] at room
    have few : (g.append [bufferOp]).lenStack.length < 9 := by
      rw [Generator.append_lenStack]
      omega
    rw [Value.calls, Acpigen.run, Call.run, writeResourcetemplateHeader,
      emitByte_eq, writeLenF_eq few]
    dsimp only [bind, Option.bind]
    rw [if_pos (by
      rw [emitByte_eq, Generator.append_lenStack, acpigenLenstackSize,
        Generator.opened, List.length_cons]
      omega)]
    dsimp only
    rw [run_append, Item.run_list, Option.bind_some, run_singleton, Call.run]
    have footer := writeResourcetemplateFooter_eq (g := g.append [bufferOp]) valid
    simp only [emitByte_eq, Generator.append, List.append_assoc,
      List.length_append, List.length_singleton] at footer ⊢
    rw [Value.bytes, block]
    exact footer
  | .package nrEl elements, valid, g, room => by
    rw [Value.WellFormed] at valid
    rw [Value.depth] at room
    have few : (g.append [packageOp]).lenStack.length < 9 := by
      rw [Generator.append_lenStack]
      omega
    have inner : ((g.append [packageOp]).opened.append
        [nrEl.setWidth 8]).lenStack.length +
        Value.listDepth elements ≤ 9 := by
      rw [Generator.append_lenStack, Generator.opened, List.length_cons, Generator.append_lenStack]
      omega
    rw [Value.calls, Acpigen.run, Call.run, Acpigen.writePackage, emitByte_eq, writeLenF_eq few]
    dsimp only [bind, Option.bind]
    rw [emitByte_eq, run_append, Value.run_list valid.2.2.2 inner, Option.bind_some, run_singleton,
      Call.run, Generator.append_append, List.singleton_append, popLen_opened valid.2.2.1,
      Generator.append_append]
    rfl

theorem Value.run_list : ∀ {values : List Value},
    Value.ListWellFormed values →
    ∀ {g : Generator}, g.lenStack.length + Value.listDepth values ≤ 9 →
      Acpigen.run (Value.listCalls values) g = some (g.append (Value.listBytes values))
  | [], _, g, _ => congrArg some g.append_nil.symm
  | value :: values, valid, g, room => by
    rw [Value.ListWellFormed] at valid
    rw [Value.listDepth] at room
    rw [Value.listCalls, run_append, Value.run valid.1 (by omega),
      Option.bind_some, Value.run_list valid.2 (by
        rw [Generator.append_lenStack]; omega),
      Generator.append_append, Value.listBytes]

end

theorem Simple.run {statement : Simple} (valid : statement.WellFormed)
    (room : g.lenStack.length + statement.depth ≤ 9) :
    statement.call.run g = some (g.append statement.bytes) := by
  have whole (b : Byte) : b.toNat % 4294967296 = b.toNat :=
    Nat.mod_eq_of_lt (Nat.lt_trans b.isLt (by decide))
  cases statement with
  | nameZero path | nameOne path | nameByte path val | nameDword path val
  | nameQword path val | nameInteger path val =>
    have path : path.Valid := valid
    simp [Simple.call, Call.run, Simple.bytes, nameBytes, Acpigen.writeNameZero,
      Acpigen.writeNameOne, Acpigen.writeNameByte, Acpigen.writeNameDword,
      Acpigen.writeNameQword, Acpigen.writeNameInteger, Acpigen.writeName,
      Acpigen.writeOne, Acpigen.writeZero, path.emitNamestring, whole]
  | nameString path string =>
    have path : path.Valid := valid.1
    simp [Simple.call, Call.run, Simple.bytes, nameBytes,
      Acpigen.writeNameString, Acpigen.writeName, path.emitNamestring]
  | returnByteBuffer arr =>
    have written := writeByteBuffer_eq (g := g.append [returnOp]) valid room
    rw [Generator.append_append] at written
    exact written
  | returnSingletonBuffer arg =>
    have written := @writeByteBuffer_eq [arg] (by decide : 1 < 256) (g.append [returnOp]) room
    rw [Generator.append_append] at written
    exact written
  | _ =>
    simp [Simple.call, Call.run, Simple.bytes, Acpigen.writeSleep, Acpigen.writeStoreOps,
      Acpigen.writeStore, Acpigen.writeOr, Acpigen.writeAnd, Acpigen.writeNot,
      Acpigen.writeToBuffer, Acpigen.writeToInteger, Acpigen.writeDebugString,
      Acpigen.writeDebugInteger, Acpigen.writeDebugOp, Acpigen.writeReturnByte,
      Acpigen.writeReturnInteger, Acpigen.writeReturnString, whole]

theorem Condition.run {condition : Condition} (valid : condition.WellFormed)
    (room : g.lenStack.length + condition.depth < 9) :
    Acpigen.run condition.calls g = some (g.inside [ifOp] condition.bytes) := by
  have opened : Acpigen.writeIf g = some (g.inside [ifOp] []) := writeLenF_inside (by omega) [ifOp]
  cases condition with
  | value object =>
    rw [Condition.calls, Acpigen.run, Call.run, opened, Option.bind_some,
      Value.run valid (by
        rw [Condition.depth] at room
        rw [Generator.inside_lenStack]
        omega), Generator.inside_append]
    rfl
  | and arg1 arg2 =>
    rw [Condition.calls, run_singleton, Call.run, Acpigen.writeIfAnd, opened]
    simp [Generator.inside, Condition.bytes]
  | lequal op val =>
    rw [Condition.calls, run_singleton, Call.run, Acpigen.writeIfLequalOpInt, opened]
    simp [Generator.inside, Condition.bytes]

theorem run_block {first body : List Call} {g : Generator} {op head bytes : List Byte}
    (fits : Fits (head ++ bytes)) (opens : run first g = some (g.inside op head))
    (writes : run body (g.inside op head) = some ((g.inside op head).append bytes)) :
    run (first ++ (body ++ [.popLen])) g = some (g.append (block op (head ++ bytes))) := by
  rw [run_append, opens, Option.bind_some, run_append, writes,
    Option.bind_some, Generator.inside_append, run_popLen fits]

theorem writeScope_eq (valid : path.Valid) (room : g.lenStack.length < 9) :
    run [.writeScope path.text] g = some (g.inside [scopeOp] path.name.bytes) := by
  rw [run_singleton, Call.run, Acpigen.writeScope, emitByte_eq, writeLenF_inside room]
  dsimp only [bind, Option.bind]
  rw [valid.emitNamestring, Generator.inside_append, List.nil_append]

theorem writeDevice_eq (valid : path.Valid) (room : g.lenStack.length < 9) :
    run [.writeDevice path.text] g = some (g.inside [extOpPrefix, deviceOp] path.name.bytes) := by
  rw [run_singleton, Call.run, Acpigen.writeDevice, emitExtOp_eq, writeLenF_inside room]
  dsimp only [bind, Option.bind]
  rw [valid.emitNamestring, Generator.inside_append, List.nil_append]

theorem writeMethodFlags_eq (valid : path.Valid) (flags : Byte) (room : g.lenStack.length < 9) :
    writeMethodFlags path.text flags g =
      some (g.inside [methodOp] (path.name.bytes ++ [flags])) := by
  rw [writeMethodFlags, emitByte_eq, writeLenF_inside room]
  dsimp only [bind, Option.bind]
  rw [valid.emitNamestring, emitByte_eq, Generator.inside_append,
    Generator.inside_append, List.nil_append]

mutual

theorem Statement.run : ∀ {statement : Statement}, statement.WellFormed →
    ∀ {g : Generator}, g.lenStack.length + statement.depth ≤ 9 →
      Acpigen.run statement.calls g = some (g.append statement.bytes)
  | .simple statement, valid, g, room => by
    rw [Statement.calls, run_singleton]
    exact Simple.run valid room
  | .name path value, valid, g, room => by
    have written : Acpigen.writeName path.text g = g.append ([nameOp] ++ path.name.bytes) := by
      rw [Acpigen.writeName, valid.1.emitNamestring, emitByte_eq, Generator.append_append]
    rw [Statement.calls, Acpigen.run, Call.run, written, Option.bind_some,
      Value.run (g := g.append ([nameOp] ++ path.name.bytes)) valid.2 room, Generator.append_append,
      Statement.bytes, nameBytes, List.append_assoc, List.singleton_append]
  | .scope path body, valid, g, room => by
    rw [Statement.depth] at room
    exact @run_block [.writeScope path.text] _ _ _ _ _ valid.2.1
      (writeScope_eq valid.1 (by omega))
      (Statement.run_list valid.2.2 (by
        rw [Generator.inside_lenStack]; omega))
  | .device path body, valid, g, room => by
    rw [Statement.depth] at room
    exact @run_block [.writeDevice path.text] _ _ _ _ _ valid.2.1
      (writeDevice_eq valid.1 (by omega))
      (Statement.run_list valid.2.2 (by
        rw [Generator.inside_lenStack]; omega))
  | .method path nargs body, valid, g, room => by
    rw [Statement.depth] at room
    have fits := valid.2.1
    rw [List.append_cons] at fits
    have written := @run_block [.writeMethod path.text nargs] _ _ _ _ _ fits
      ((run_singleton _ g).trans (writeMethodFlags_eq valid.1 (methodFlags nargs) (by omega)))
      (Statement.run_list valid.2.2 (by
        rw [Generator.inside_lenStack]; omega))
    rw [← List.append_cons] at written
    exact written
  | .methodSerialized path nargs body, valid, g, room => by
    rw [Statement.depth] at room
    have fits := valid.2.1
    rw [List.append_cons] at fits
    have written := @run_block [.writeMethodSerialized path.text nargs]
      _ _ _ _ _ fits
      ((run_singleton _ g).trans (writeMethodFlags_eq valid.1 (serializedFlags nargs) (by omega)))
      (Statement.run_list valid.2.2 (by
        rw [Generator.inside_lenStack]; omega))
    rw [← List.append_cons] at written
    exact written
  | .ifThen condition body, valid, g, room => by
    rw [Statement.depth] at room
    exact run_block valid.2.1 (condition.run valid.1 (by omega))
      (Statement.run_list valid.2.2 (by
        rw [Generator.inside_lenStack]; omega))
  | .ifElse condition body otherwise, valid, g, room => by
    rw [Statement.depth] at room
    obtain ⟨tested, fits, inner, fitsElse, innerElse⟩ := valid
    have thenPart := run_block fits (condition.run tested (by omega))
      (Statement.run_list inner (g := g.inside [ifOp] condition.bytes) (by
        rw [Generator.inside_lenStack]; omega))
    have opens : Acpigen.run [.writeElse] (g.append (block [ifOp]
        (condition.bytes ++ Statement.listBytes body))) =
        some ((g.append (block [ifOp] (condition.bytes ++
          Statement.listBytes body))).inside [elseOp] []) := by
      rw [run_singleton]
      exact writeLenF_inside (by
        rw [Generator.append_lenStack]; omega) [elseOp]
    have elsePart := @run_block _ _ _ _ [] _ fitsElse opens
      (Statement.run_list innerElse (by
        rw [Generator.inside_lenStack, Generator.append_lenStack]; omega))
    have split : (Statement.ifElse condition body otherwise).calls =
        (condition.calls ++ (Statement.listCalls body ++ [.popLen])) ++
          ([.writeElse] ++ (Statement.listCalls otherwise ++ [.popLen])) := by
      rw [Statement.calls]
      simp only [List.append_assoc, List.cons_append, List.nil_append]
    rw [split, run_append, thenPart, Option.bind_some, elsePart, Generator.append_append]
    rfl

theorem Statement.run_list : ∀ {statements : List Statement},
    Statement.ListWellFormed statements →
    ∀ {g : Generator},
      g.lenStack.length + Statement.listDepth statements ≤ 9 →
      Acpigen.run (Statement.listCalls statements) g =
        some (g.append (Statement.listBytes statements))
  | [], _, g, _ => congrArg some g.append_nil.symm
  | statement :: statements, valid, g, room => by
    rw [Statement.ListWellFormed] at valid
    rw [Statement.listDepth] at room
    rw [Statement.listCalls, run_append, Statement.run valid.1 (by omega),
      Option.bind_some, Statement.run_list valid.2 (by
        rw [Generator.append_lenStack]; omega),
      Generator.append_append, Statement.listBytes]

end

end Coreboot.Acpigen
