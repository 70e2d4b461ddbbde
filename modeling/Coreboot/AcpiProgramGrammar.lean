import Coreboot.AcpiProgram

/-!
# Generated tables are parsed

The parser of the grammar reads back what the calls of a program were given,
exactly when none of its calls is one whose bytes say something else.
-/

namespace Coreboot.Acpigen

open Aml ByteMemory

def operand (op : Byte) : Data :=
  if op = zeroOp then .integer 0
  else if op = oneOp then .integer 1
  else if op = onesOp then .integer (BitVec.allOnes 64)
  else .object op

def target (op : Byte) : Target := if op = zeroOp then .null else .object op

def bufferData (arr : List Byte) : Data := .buffer (BitVec.ofNat 64 arr.length) arr

def Leaf.data : Leaf → Data
  | .zero => .integer 0
  | .one => .integer 1
  | .ones => .integer (BitVec.allOnes 64)
  | .byte data | .word data | .dword data => .integer (data.setWidth 64)
  | .qword data | .integer data => .integer data
  | .string str => .string (str.getD [])
  | .namestring path => .reference path.name
  | .byteBuffer arr => bufferData arr

mutual

def Value.data : Value → Data
  | .leaf object => object.data
  | .resourceTemplate items =>
    bufferData (items.flatMap Item.bytes ++ [0x79, 0x00])
  | .package nrEl elements =>
    .package (nrEl.setWidth 8) (Value.listData elements)

def Value.listData : List Value → List Data
  | [] => []
  | value :: values => value.data :: Value.listData values

end

def Simple.term : Simple → Term
  | .nameZero path => .name path.name (.integer 0)
  | .nameOne path => .name path.name (.integer 1)
  | .nameByte path val => .name path.name (.integer (val.setWidth 64))
  | .nameDword path val => .name path.name (.integer (val.setWidth 64))
  | .nameQword path val => .name path.name (.integer val)
  | .nameInteger path val => .name path.name (.integer val)
  | .nameString path str => .name path.name (.string (str.getD []))
  | .sleep sleepMs => .sleep (.integer sleepMs)
  | .storeOps src dst => .operation ⟨.store, [operand src], some (.object dst)⟩
  | .or arg1 arg2 res =>
    .operation ⟨.or, [operand arg1, operand arg2], some (target res)⟩
  | .and arg1 arg2 res =>
    .operation ⟨.and, [operand arg1, operand arg2], some (target res)⟩
  | .not arg res => .operation ⟨.not, [operand arg], some (target res)⟩
  | .toBuffer src dst =>
    .operation ⟨.toBuffer, [operand src], some (target dst)⟩
  | .toInteger src dst =>
    .operation ⟨.toInteger, [operand src], some (target dst)⟩
  | .debugString str =>
    .operation ⟨.store, [.string (str.getD [])], some .debug⟩
  | .debugInteger val => .operation ⟨.store, [.integer val], some .debug⟩
  | .debugOp op => .operation ⟨.store, [operand op], some .debug⟩
  | .returnByteBuffer arr => .ret (bufferData arr)
  | .returnSingletonBuffer arg => .ret (bufferData [arg])
  | .returnByte arg => .ret (.integer (arg.setWidth 64))
  | .returnInteger arg => .ret (.integer arg)
  | .returnString arg => .ret (.string (arg.getD []))

/-- "If (And (arg1, arg2))" has no target. -/
def Condition.predicate : Condition → Predicate
  | .value object => .data object.data
  | .and arg1 arg2 =>
    .operation ⟨.and, [operand arg1, operand arg2], some .null⟩
  | .lequal op val =>
    .operation ⟨.lequal, [operand op, .integer val], none⟩

mutual

def Statement.term : Statement → Term
  | .simple statement => statement.term
  | .name path value => .name path.name value.data
  | .scope path body => .scope path.name (Statement.listTerms body)
  | .device path body => .device path.name (Statement.listTerms body)
  | .method path nargs body =>
    .method path.name (methodFlags nargs) (Statement.listTerms body)
  | .methodSerialized path nargs body =>
    .method path.name (serializedFlags nargs) (Statement.listTerms body)
  | .ifThen condition body =>
    .ifThen condition.predicate (Statement.listTerms body)
  | .ifElse condition body otherwise =>
    .ifElse condition.predicate (Statement.listTerms body) (Statement.listTerms otherwise)

def Statement.listTerms : List Statement → List Term
  | [] => []
  | statement :: statements =>
    statement.term :: Statement.listTerms statements

end

def Leaf.Careful : Leaf → Prop
  | .byte data => data.toNat < 2 ^ 8
  | .word data => data.toNat < 2 ^ 16
  | _ => True

mutual

/-- No resource template, and no number wider than its writer. -/
def Value.Careful : Value → Prop
  | .leaf object => object.Careful
  | .resourceTemplate _ => False
  | .package _ elements => Value.ListCareful elements

def Value.ListCareful : List Value → Prop
  | [] => True
  | value :: values => value.Careful ∧ Value.ListCareful values

end

def Simple.Careful : Simple → Prop
  | .nameZero _ | .nameOne _ => False
  | _ => True

def Condition.Careful : Condition → Prop
  | .value object => object.Careful
  | .and _ _ => False
  | .lequal _ _ => True

mutual

/-- Neither `acpigen_write_name_zero`, `acpigen_write_name_one` nor
`acpigen_write_if_and` is called, and the objects are careful. -/
def Statement.Careful : Statement → Prop
  | .simple statement => statement.Careful
  | .name _ value => value.Careful
  | .scope _ body | .device _ body | .method _ _ body
  | .methodSerialized _ _ body => Statement.ListCareful body
  | .ifThen condition body =>
    condition.Careful ∧ Statement.ListCareful body
  | .ifElse condition body otherwise =>
    condition.Careful ∧ Statement.ListCareful body ∧ Statement.ListCareful otherwise

def Statement.ListCareful : List Statement → Prop
  | [] => True
  | statement :: statements =>
    statement.Careful ∧ Statement.ListCareful statements

end

theorem Value.listBytes_eq : ∀ values : List Value,
    Value.listBytes values = values.flatMap Value.bytes
  | [] => rfl
  | _ :: values => congrArg _ (Value.listBytes_eq values)

theorem Value.listData_eq : ∀ values : List Value, Value.listData values = values.map Value.data
  | [] => rfl
  | _ :: values => congrArg _ (Value.listData_eq values)

theorem Value.listCareful_iff : ∀ values : List Value,
    Value.ListCareful values ↔ ∀ value ∈ values, value.Careful
  | [] => by simp [Value.ListCareful]
  | value :: values => by
    rw [Value.ListCareful, Value.listCareful_iff values, List.forall_mem_cons]

theorem Statement.listBytes_eq : ∀ statements : List Statement,
    Statement.listBytes statements = statements.flatMap Statement.bytes
  | [] => rfl
  | _ :: statements =>
    congrArg _ (Statement.listBytes_eq statements)

theorem Statement.listTerms_eq : ∀ statements : List Statement,
    Statement.listTerms statements = statements.map Statement.term
  | [] => rfl
  | _ :: statements =>
    congrArg _ (Statement.listTerms_eq statements)

theorem Statement.listCareful_iff : ∀ statements : List Statement,
    Statement.ListCareful statements ↔ ∀ statement ∈ statements, statement.Careful
  | [] => by simp [Statement.ListCareful]
  | statement :: statements => by
    rw [Statement.ListCareful, Statement.listCareful_iff statements, List.forall_mem_cons]

/-- Nothing is asked of the bytes behind an object. -/
abbrev Anything : List Byte → Prop := fun _ => True

variable {read : Parser Data} {lead op res : Byte}
  {rest remaining bytes body : List Byte} {fuel : Nat} {path : Path}
  {value : Data} {good : Prop} {operator : Operator} {condition : Condition}
  {terms : List Term}

theorem reads_fixed (width : Nat) (unfolds : ∀ rest, read (lead :: rest) = parseInteger width rest)
    (data : BitVec 32) :
    Reads read Anything (lead :: encodeLE width data.toNat)
      (.integer (data.setWidth 64)) (data.toNat < 256 ^ width) := by
  have parsed (rest : List Byte) :
      read (lead :: encodeLE width data.toNat ++ rest) =
        some (.integer (BitVec.ofNat 64 (data.toNat % 256 ^ width)), rest) := by
    rw [List.cons_append, unfolds, parseInteger_encodeLE]
  exact
    { exact := by
        intro small rest _
        rw [parsed, Nat.mod_eq_of_lt small, BitVec.ofNat_toNat]
      differs := by
        intro large rest _ found remaining got same
        rw [parsed, same] at got
        have equal := congrArg BitVec.toNat (Data.integer.inj (Prod.mk.inj (Option.some.inj got)).1)
        have below := data.isLt
        have reduced := Nat.mod_le data.toNat (256 ^ width)
        have left : data.toNat % 256 ^ width % 2 ^ 64 = data.toNat % 256 ^ width :=
          Nat.mod_eq_of_lt (by omega)
        have right : data.toNat % 2 ^ 64 = data.toNat := Nat.mod_eq_of_lt (by omega)
        rw [BitVec.toNat_ofNat, BitVec.toNat_setWidth, left, right] at equal
        exact large (equal ▸ Nat.mod_lt _ (Nat.pow_pos (show 0 < 256 by decide))) }

theorem parse_dword (data : BitVec 32) (fuel : Nat) (rest : List Byte) :
    parseData (fuel + 1) (dwordPrefix :: encodeLE 4 data.toNat ++ rest) =
      some (.integer (data.setWidth 64), rest) :=
  parseInteger_of_lt (show data.toNat < 256 ^ 4 from data.isLt) rest

theorem parse_qword (data : BitVec 64) (fuel : Nat) (rest : List Byte) :
    parseData (fuel + 1) (qwordPrefix :: encodeLE 8 data.toNat ++ rest) =
      some (.integer data, rest) := by
  have parsed := parseInteger_of_lt (show data.toNat < 256 ^ 8 from data.isLt) rest
  rw [BitVec.setWidth_eq] at parsed
  exact parsed

theorem parse_integer (data : BitVec 64) (fuel : Nat) (rest : List Byte) :
    parseData (fuel + 1) (integerBytes data ++ rest) = some (.integer data, rest) := by
  have short {width : Nat} (below : data.toNat < 256 ^ width) :
      parseInteger width (encodeLE width data.toNat ++ rest) = some (.integer data, rest) := by
    rw [parseInteger_of_lt below, BitVec.setWidth_eq]
  rw [integerBytes]
  split_ifs with zero one byte word dword
  · rw [zero]; rfl
  · rw [one]; rfl
  · exact @short 1 (Nat.lt_succ_of_le (BitVec.le_def.mp byte))
  · exact @short 2 (Nat.lt_succ_of_le (BitVec.le_def.mp word))
  · exact @short 4 (Nat.lt_succ_of_le (BitVec.le_def.mp dword))
  · exact @short 8 data.isLt

theorem parse_string {string : Option (List Byte)} (ascii : Ascii string)
    (fuel : Nat) (rest : List Byte) :
    parseData (fuel + 1) (stringBytes string ++ rest) = some (.string (string.getD []), rest) := by
  have parsed := parseString_append ascii rest
  have unfolded : parseData (fuel + 1) (stringBytes string ++ rest) =
      (parseString (string.getD [] ++ [0] ++ rest)).map
        fun read => (.string read.1, read.2) :=
    rfl
  rw [unfolded, List.append_assoc, List.singleton_append, parsed]
  rfl

theorem parse_operand (isOperand : IsOperand op) (fuel : Nat) (rest : List Byte) :
    parseData (fuel + 1) (op :: rest) = some (operand op, rest) := by
  rcases isOperand with rfl | rfl | rfl | isObject
  · rfl
  · rfl
  · rfl
  · have ne (other : Byte) (outside : ¬IsObject other) : op ≠ other := by
      rintro rfl
      exact outside isObject
    rw [parseData]
    iterate 10 rw [if_neg (ne _ (by decide))]
    rw [if_pos isObject, operand]
    iterate 3 rw [if_neg (ne _ (by decide))]

theorem parse_target (isTarget : IsTarget op) (rest : List Byte) :
    parseTarget (op :: rest) = some (target op, rest) := by
  rcases isTarget with rfl | isObject
  · rfl
  · have ne : op ≠ 0x00 := by
      rintro rfl
      revert isObject
      decide
    have object : target op = .object op := if_neg ne
    rw [parseTarget, if_neg ne, parseSuperName, if_pos isObject, object]

theorem parse_superName (isObject : IsObject op) (rest : List Byte) :
    parseSuperName (op :: rest) = some (.object op, rest) :=
  if_pos isObject

def NameLead (lead : Byte) : Prop :=
  lead = 0x5c ∨ lead = 0x5e ∨ lead = 0x2e ∨ lead = 0x2f ∨ LeadNameChar lead

theorem Path.Valid.head {path : Path} (valid : path.Valid) (nonempty : path.text ≠ []) :
    ∃ lead more, path.name.bytes = lead :: more ∧ NameLead lead := by
  obtain ⟨root, parents, segments⟩ := path
  cases root with
  | true => exact ⟨_, _, rfl, .inl rfl⟩
  | false =>
    cases parents with
    | succ parents => exact ⟨_, _, rfl, .inr (.inl rfl)⟩
    | zero =>
      match segments, valid.segments with
      | [], _ => exact absurd rfl nonempty
      | [segment], valid =>
        match segment, valid segment (.head _) with
        | lead :: more, segment =>
          exact ⟨lead, _, rfl, .inr (.inr (.inr (.inr segment.1)))⟩
      | [first, second], _ => exact ⟨_, _, rfl, .inr (.inr (.inl rfl))⟩
      | first :: second :: third :: more, _ =>
        exact ⟨_, _, rfl, .inr (.inr (.inr (.inl rfl)))⟩

theorem NameLead.parseData (isLead : NameLead lead) (fuel : Nat) (rest : List Byte) :
    parseData (fuel + 1) (lead :: rest) = parseReference (lead :: rest) := by
  have outside : (0x20 ≤ lead ∧ lead < 0x60) := by
    rcases isLead with rfl | rfl | rfl | rfl | rfl | ⟨low, high⟩
    any_goals decide
    exact ⟨by bv_omega, by bv_omega⟩
  have ne (other : Byte) (beyond : other < 0x20 ∨ 0x60 ≤ other) : lead ≠ other := by
    rintro rfl
    bv_omega
  rw [Aml.parseData]
  iterate 10 rw [if_neg (ne _ (by decide))]
  rw [if_neg]
  rintro ⟨low, _⟩
  bv_omega

theorem parse_buffer {arr : List Byte} (short : arr.length < 256) (fuel : Nat) (rest : List Byte) :
    parseData (fuel + 2) (bufferBytes arr ++ rest) = some (bufferData arr, rest) := by
  have content := @parseInteger_encodeLE 1 arr.length arr
  rw [Nat.mod_eq_of_lt (show arr.length < 256 ^ 1 from short)] at content
  have inner : parseData (fuel + 1)
      (bytePrefix :: (encodeLE 1 arr.length ++ arr)) =
      some (.integer (BitVec.ofNat 64 arr.length), arr) :=
    content
  have outer := @parsePackage_pkgLength
    (bytePrefix :: (encodeLE 1 arr.length ++ arr)) (by
      simp only [List.length_cons, List.length_append, length_encodeLE]
      omega) rest
  have unfolded : parseData (fuel + 2) (bufferBytes arr ++ rest) =
      parseBuffer (parseData (fuel + 1)) (pkgLength ((bytePrefix ::
        (encodeLE 1 arr.length ++ arr)).length + 3) ++ (bytePrefix ::
        (encodeLE 1 arr.length ++ arr)) ++ rest) :=
    rfl
  rw [unfolded, parseBuffer, outer]
  dsimp only [bind, Option.bind]
  rw [inner]
  rfl

theorem Leaf.reads {leaf : Leaf} (valid : leaf.WellFormed) (fuel : Nat) :
    Reads (parseData (fuel + 2)) Anything leaf.bytes leaf.data leaf.Careful := by
  cases leaf with
  | byte data => exact reads_fixed 1 (fun _ => rfl) data
  | word data => exact reads_fixed 2 (fun _ => rfl) data
  | dword data => exact .of_exact fun rest _ => parse_dword data _ rest
  | qword data => exact .of_exact fun rest _ => parse_qword data _ rest
  | integer data => exact .of_exact fun rest _ => parse_integer data _ rest
  | string str => exact .of_exact fun rest _ => parse_string valid _ rest
  | byteBuffer arr => exact .of_exact fun rest _ => parse_buffer valid _ rest
  | namestring path =>
    refine .of_exact fun rest _ => ?_
    obtain ⟨lead, more, shape, isLead⟩ := valid.1.head valid.2
    have read := valid.1.name.parse rest
    rw [Leaf.bytes]
    rw [shape, List.cons_append] at read ⊢
    rw [isLead.parseData, parseReference, read]
    rfl
  | _ => exact .of_exact fun _ _ => rfl

theorem integerBytes_head (data : BitVec 64) :
    ∃ lead more, integerBytes data = lead :: more ∧ Operator.ofOpcode lead = none := by
  rw [integerBytes]
  split_ifs
  all_goals exact ⟨_, _, rfl, rfl⟩

theorem NameLead.ofOpcode (isLead : NameLead lead) : Operator.ofOpcode lead = none := by
  have below : lead < 0x60 := by
    rcases isLead with rfl | rfl | rfl | rfl | rfl | ⟨low, high⟩
    any_goals decide
    bv_omega
  have ne (other : Byte) (beyond : 0x60 ≤ other) : lead ≠ other := by
    rintro rfl
    bv_omega
  rw [Operator.ofOpcode]
  iterate 7 rw [if_neg (ne _ (by decide))]

theorem Leaf.head {leaf : Leaf} (valid : leaf.WellFormed) :
    ∃ lead more, leaf.bytes = lead :: more ∧ Operator.ofOpcode lead = none := by
  cases leaf with
  | integer data => exact integerBytes_head data
  | namestring path =>
    obtain ⟨lead, more, shape, isLead⟩ := valid.1.head valid.2
    exact ⟨lead, more, shape, isLead.ofOpcode⟩
  | _ => exact ⟨_, _, rfl, rfl⟩

theorem Value.head {value : Value} (valid : value.WellFormed) :
    ∃ lead more, value.bytes = lead :: more ∧ Operator.ofOpcode lead = none := by
  cases value with
  | leaf object => exact Leaf.head valid
  | resourceTemplate items => exact ⟨_, _, rfl, rfl⟩
  | package nrEl elements => exact ⟨_, _, rfl, rfl⟩

theorem Value.bytes_ne_nil {value : Value} (valid : value.WellFormed) : value.bytes ≠ [] := by
  obtain ⟨lead, more, shape, _⟩ := Value.head valid
  rw [shape]
  exact List.cons_ne_nil _ _

theorem resourceTemplate_differs {items : List Item}
    (fits : (Value.resourceTemplate items).WellFormed) (fuel : Nat)
    {found : Data} (got : parseData (fuel + 2)
      ((Value.resourceTemplate items).bytes ++ rest) = some (found, remaining)) :
    found ≠ (Value.resourceTemplate items).data := by
  have word := @parseInteger_encodeLE 2
    ((items.flatMap Item.bytes).length + 4)
    (items.flatMap Item.bytes ++ [0x79, 0x00])
  have unfolded : parseData (fuel + 2)
      ((Value.resourceTemplate items).bytes ++ rest) =
      parseBuffer (parseData (fuel + 1)) (pkgLength ((wordPrefix ::
        (encodeLE 2 ((items.flatMap Item.bytes).length + 4) ++
          (items.flatMap Item.bytes ++ [0x79, 0x00]))).length + 3) ++
        (wordPrefix :: (encodeLE 2 ((items.flatMap Item.bytes).length + 4) ++
          (items.flatMap Item.bytes ++ [0x79, 0x00]))) ++ rest) :=
    rfl
  have inner : parseData (fuel + 1) (wordPrefix ::
      (encodeLE 2 ((items.flatMap Item.bytes).length + 4) ++
        (items.flatMap Item.bytes ++ [0x79, 0x00]))) =
      some (.integer (BitVec.ofNat 64
        (((items.flatMap Item.bytes).length + 4) % 256 ^ 2)),
        items.flatMap Item.bytes ++ [0x79, 0x00]) :=
    word
  rw [unfolded, parseBuffer, parsePackage_pkgLength fits] at got
  dsimp only [bind, Option.bind] at got
  rw [inner] at got
  cases got
  intro same
  have sizes := congrArg BitVec.toNat (Data.buffer.inj same).1
  rw [Value.WellFormed, Fits] at fits
  simp only [List.length_cons, List.length_append, length_encodeLE, List.length_nil] at fits
  rw [BitVec.toNat_ofNat, BitVec.toNat_ofNat, List.length_append] at sizes
  simp only [List.length_cons, List.length_nil] at sizes
  omega

theorem Value.parseElements_iff {values : List Value}
    (reads : ∀ value ∈ values, Reads (parseData fuel) Anything value.bytes value.data value.Careful)
    (nonempty : ∀ value ∈ values, value.bytes ≠ []) :
    parseList (parseData fuel) (Value.listBytes values).length
        (Value.listBytes values) = some (Value.listData values) ↔
      Value.ListCareful values := by
  rw [Value.listBytes_eq, Value.listData_eq, Value.listCareful_iff]
  exact parseList_iff reads nonempty (fun _ _ _ => trivial) trivial le_rfl

theorem Value.reads_package {nrEl : BitVec 32} {elements : List Value}
    (valid : (Value.package nrEl elements).WellFormed)
    (inner : parseList (parseData fuel) (Value.listBytes elements).length
        (Value.listBytes elements) = some (Value.listData elements) ↔
      Value.ListCareful elements) :
    Reads (parseData (fuel + 1)) Anything (Value.package nrEl elements).bytes
      (Value.package nrEl elements).data
      (Value.package nrEl elements).Careful := by
  rw [Value.WellFormed] at valid
  obtain ⟨enough, small, fits, -⟩ := valid
  have count : (nrEl.setWidth 8).toNat = nrEl.toNat := by
    rw [BitVec.toNat_setWidth]
    exact Nat.mod_eq_of_lt small
  have unfolded (rest : List Byte) :
      parseData (fuel + 1) ((Value.package nrEl elements).bytes ++ rest) =
        (parseList (parseData fuel) (Value.listBytes elements).length
          (Value.listBytes elements)).bind fun values =>
            if values.length ≤ nrEl.toNat then
              some (.package (nrEl.setWidth 8) values, rest)
            else
              none := by
    have step : parseData (fuel + 1)
        ((Value.package nrEl elements).bytes ++ rest) =
        parsePackageData (parseData fuel) (pkgLength
          ((nrEl.setWidth 8 :: Value.listBytes elements).length + 3) ++
            (nrEl.setWidth 8 :: Value.listBytes elements) ++ rest) :=
      rfl
    rw [step, parsePackageData, parsePackage_pkgLength fits]
    dsimp only [bind, Option.bind]
    rw [count]
  rw [Value.Careful]
  exact
    { exact := by
        intro careful rest _
        have length : (Value.listData elements).length ≤ nrEl.toNat := by
          rw [Value.listData_eq, List.length_map]
          exact enough
        rw [unfolded, inner.mpr careful, Option.bind_some, if_pos length]
        rfl
      differs := by
        intro careless rest _ found remaining got same
        rw [unfolded] at got
        obtain ⟨values, parsed, shape⟩ := Option.bind_eq_some_iff.mp got
        split_ifs at shape
        cases shape
        exact careless (inner.mp (parsed.trans (congrArg some (Data.package.inj same).2))) }

theorem block_length (op content : List Byte) :
    (block op content).length = op.length + 3 + content.length := by
  simp only [block, pkgLength, List.length_append, List.length_cons, List.length_nil]
  omega

mutual

theorem Value.reads : ∀ {value : Value}, value.WellFormed →
    ∀ {fuel : Nat}, value.bytes.length < fuel →
      Reads (parseData fuel) Anything value.bytes value.data value.Careful
  | .leaf object, valid, fuel, enough => by
    have positive := List.length_pos_of_ne_nil (Value.bytes_ne_nil valid)
    obtain ⟨fuel, rfl⟩ : ∃ less, fuel = less + 2 := ⟨fuel - 2, by omega⟩
    exact Leaf.reads valid fuel
  | .resourceTemplate items, valid, fuel, enough => by
    rw [Value.bytes, block_length] at enough
    obtain ⟨fuel, rfl⟩ : ∃ less, fuel = less + 2 := ⟨fuel - 2, by omega⟩
    exact
      { exact := fun careful => careful.elim
        differs := fun _ _ _ _ _ got =>
          resourceTemplate_differs valid fuel got }
  | .package nrEl elements, valid, fuel, enough => by
    rw [Value.bytes, block_length] at enough
    simp only [List.length_cons] at enough
    rcases fuel with _ | fuel
    · omega
    have inner := Value.reads_list valid.2.2.2
      (show (Value.listBytes elements).length < fuel by omega)
    exact Value.reads_package valid (Value.parseElements_iff
      (fun value member => (inner value member).1)
      (fun value member => (inner value member).2))

theorem Value.reads_list : ∀ {values : List Value},
    Value.ListWellFormed values →
    ∀ {fuel : Nat}, (Value.listBytes values).length < fuel →
      ∀ value ∈ values,
        Reads (parseData fuel) Anything value.bytes value.data value.Careful ∧ value.bytes ≠ []
  | [], _, _, _ => by simp
  | value :: values, valid, fuel, enough => by
    rw [Value.ListWellFormed] at valid
    rw [Value.listBytes, List.length_append] at enough
    rw [List.forall_mem_cons]
    exact ⟨⟨Value.reads valid.1 (by omega), Value.bytes_ne_nil valid.1⟩,
      Value.reads_list valid.2 (by omega)⟩

end

theorem parse_byte (data : Byte) (fuel : Nat) (rest : List Byte) :
    parseData (fuel + 1) (bytePrefix :: encodeLE 1 data.toNat ++ rest) =
      some (.integer (data.setWidth 64), rest) :=
  parseInteger_of_lt (show data.toNat < 256 ^ 1 from data.isLt) rest

theorem reads_name (valid : path.Valid) (reads : Reads (parseData fuel) Anything bytes value good) :
    Reads (parseTerm (fuel + 1)) Anything (nameBytes path bytes) (.name path.name value) good := by
  refine @Reads.map _ _ _ _ _ (nameOp :: path.name.bytes) _ _ _ _ reads
    (fun _ same => (Term.name.inj same).2) fun rest => ?_
  have unfolded : parseTerm (fuel + 1) (nameOp :: path.name.bytes ++ rest) =
      (parseNameString (path.name.bytes ++ rest)).bind fun found =>
        (parseData fuel found.2).bind fun value =>
          some (.name found.1 value.1, value.2) :=
    rfl
  rw [unfolded, valid.name.parse, Option.bind_some, Option.map_eq_bind]
  rfl

theorem reads_return (reads : Reads (parseData fuel) Anything bytes value good) :
    Reads (parseTerm (fuel + 1)) Anything (returnOp :: bytes) (.ret value) good := by
  refine @Reads.map _ _ _ _ _ [returnOp] _ _ _ _ reads
    (fun _ same => Term.ret.inj same) fun rest => ?_
  rw [Option.map_eq_bind]
  rfl

theorem parseOperands_one (first : read bytes = some (value, rest)) :
    parseOperands read 1 bytes = some ([value], rest) := by
  rw [parseOperands, first]
  rfl

theorem parseOperands_two {middle : List Byte} {other : Data}
    (first : read bytes = some (value, middle)) (second : read middle = some (other, rest)) :
    parseOperands read 2 bytes = some ([value, other], rest) := by
  rw [parseOperands, first]
  dsimp only [bind, Option.bind]
  rw [parseOperands_one second]

theorem parseOperation_eq {operands : List Data} {target : Option Target}
    (code : Operator.ofOpcode op = some operator)
    (arguments : parseOperands read operator.arity bytes = some (operands, rest))
    (stored : operator.parseTarget rest = some (target, remaining)) :
    parseOperation read (op :: bytes) = some (⟨operator, operands, target⟩, remaining) := by
  rw [parseOperation, code]
  dsimp only [bind, Option.bind]
  rw [arguments]
  dsimp only
  rw [stored]

theorem parse_debug (rest : List Byte) :
    parseSuperName (extOpPrefix :: debugOp :: rest) = some (.debug, rest) :=
  rfl

theorem parse_store {fuel : Nat} {bytes target rest : List Byte} {value : Data} {place : Target}
    (read : parseData fuel (bytes ++ (target ++ rest)) = some (value, target ++ rest))
    (stored : parseSuperName (target ++ rest) = some (place, rest)) :
    parseTerm (fuel + 1) (storeOp :: (bytes ++ target) ++ rest) =
      some (.operation ⟨.store, [value], some place⟩, rest) := by
  have unfolded : parseTerm (fuel + 1) (storeOp :: (bytes ++ target) ++ rest) =
      (parseOperation (parseData fuel)
        (storeOp :: (bytes ++ target ++ rest))).map
          fun read => (.operation read.1, read.2) :=
    rfl
  have place : Operator.store.parseTarget (target ++ rest) = some (some place, rest) := by
    rw [Operator.parseTarget, stored]
    rfl
  rw [unfolded, List.append_assoc, parseOperation_eq rfl (parseOperands_one read) place]
  rfl

theorem parse_result (notStore : operator ≠ .store) (notLequal : operator ≠ .lequal)
    (isTarget : IsTarget res) (rest : List Byte) :
    operator.parseTarget (res :: rest) = some (some (target res), rest) := by
  have unfolded : operator.parseTarget (res :: rest) =
      (parseTarget (res :: rest)).map fun found => (some found.1, found.2) := by
    cases operator with
    | store => cases notStore rfl
    | lequal => cases notLequal rfl
    | _ => rfl
  rw [unfolded, parse_target isTarget]
  rfl

theorem parse_unary {arg : Byte} (code : Operator.ofOpcode op = some operator)
    (unary : operator.arity = 1) (notStore : operator ≠ .store)
    (isOperand : IsOperand arg) (isTarget : IsTarget res) (rest : List Byte) :
    parseOperation (parseData (fuel + 1)) (op :: arg :: res :: rest) =
      some (⟨operator, [operand arg], some (target res)⟩, rest) := by
  have notLequal : operator ≠ .lequal := by
    rintro rfl
    cases unary
  refine parseOperation_eq code ?_ (parse_result notStore notLequal isTarget rest)
  rw [unary]
  exact parseOperands_one (parse_operand isOperand fuel _)

theorem parse_binary {arg1 arg2 : Byte} (code : Operator.ofOpcode op = some operator)
    (binary : operator.arity = 2) (notLequal : operator ≠ .lequal) (first : IsOperand arg1)
    (second : IsOperand arg2) (isTarget : IsTarget res) (rest : List Byte) :
    parseOperation (parseData (fuel + 1)) (op :: arg1 :: arg2 :: res :: rest) =
      some (⟨operator, [operand arg1, operand arg2], some (target res)⟩, rest) := by
  have notStore : operator ≠ .store := by
    rintro rfl
    cases binary
  refine parseOperation_eq code ?_ (parse_result notStore notLequal isTarget rest)
  rw [binary]
  exact parseOperands_two (parse_operand first fuel _) (parse_operand second fuel _)

theorem Simple.reads {statement : Simple} (valid : statement.WellFormed) (fuel : Nat) :
    Reads (parseTerm (fuel + 3)) Anything statement.bytes statement.term statement.Careful := by
  have other {number : BitVec 64} {byte : Byte} (parsed : ∀ rest,
      parseData (fuel + 2) ([byte] ++ rest) = some (.integer number, rest))
      {wanted : BitVec 64} (ne : number ≠ wanted) :
      Reads (parseData (fuel + 2)) Anything [byte] (.integer wanted) False :=
    { exact := fun careful => careful.elim
      differs := by
        intro _ rest _ found remaining got same
        rw [parsed, same] at got
        exact ne (Data.integer.inj (Prod.mk.inj (Option.some.inj got)).1) }
  cases statement with
  | nameZero path =>
    exact reads_name valid (other (fun _ => rfl) (by decide))
  | nameOne path =>
    exact reads_name valid (other (fun _ => rfl) (by decide))
  | nameByte path val =>
    exact reads_name valid (.of_exact fun rest _ => parse_byte val _ rest)
  | nameDword path val =>
    exact reads_name valid (.of_exact fun rest _ => parse_dword val _ rest)
  | nameQword path val =>
    exact reads_name valid (.of_exact fun rest _ => parse_qword val _ rest)
  | nameInteger path val =>
    exact reads_name valid (.of_exact fun rest _ => parse_integer val _ rest)
  | nameString path str =>
    exact reads_name valid.1 (.of_exact fun rest _ => parse_string valid.2 _ rest)
  | sleep sleepMs =>
    refine .of_exact fun rest _ => ?_
    have parsed := parse_integer sleepMs (fuel + 1) rest
    have unfolded : parseTerm (fuel + 3)
        ((Simple.sleep sleepMs).bytes ++ rest) =
        (parseData (fuel + 2) (integerBytes sleepMs ++ rest)).bind
          fun found => some (.sleep found.1, found.2) :=
      rfl
    rw [unfolded, parsed]
    rfl
  | storeOps src dst =>
    exact .of_exact fun rest _ => @parse_store _ [src] _ _ _ _
      (parse_operand valid.1 _ _) (parse_superName valid.2 rest)
  | or arg1 arg2 res =>
    refine .of_exact fun rest _ => ?_
    have parsed : parseOperation (parseData (fuel + 2))
        (orOp :: arg1 :: arg2 :: res :: rest) =
        some (⟨.or, [operand arg1, operand arg2], some (target res)⟩, rest) :=
      parse_binary rfl rfl (by decide) valid.1 valid.2.1 valid.2.2 rest
    exact congrArg (Option.map _) parsed
  | and arg1 arg2 res =>
    refine .of_exact fun rest _ => ?_
    have parsed : parseOperation (parseData (fuel + 2))
        (andOp :: arg1 :: arg2 :: res :: rest) =
        some (⟨.and, [operand arg1, operand arg2], some (target res)⟩, rest) :=
      parse_binary rfl rfl (by decide) valid.1 valid.2.1 valid.2.2 rest
    exact congrArg (Option.map _) parsed
  | not arg res =>
    refine .of_exact fun rest _ => ?_
    have parsed : parseOperation (parseData (fuel + 2))
        (notOp :: arg :: res :: rest) =
        some (⟨.not, [operand arg], some (target res)⟩, rest) :=
      parse_unary rfl rfl (by decide) valid.1 valid.2 rest
    exact congrArg (Option.map _) parsed
  | toBuffer arg res =>
    refine .of_exact fun rest _ => ?_
    have parsed : parseOperation (parseData (fuel + 2))
        (toBufferOp :: arg :: res :: rest) =
        some (⟨.toBuffer, [operand arg], some (target res)⟩, rest) :=
      parse_unary rfl rfl (by decide) valid.1 valid.2 rest
    exact congrArg (Option.map _) parsed
  | toInteger arg res =>
    refine .of_exact fun rest _ => ?_
    have parsed : parseOperation (parseData (fuel + 2))
        (toIntegerOp :: arg :: res :: rest) =
        some (⟨.toInteger, [operand arg], some (target res)⟩, rest) :=
      parse_unary rfl rfl (by decide) valid.1 valid.2 rest
    exact congrArg (Option.map _) parsed
  | debugString str =>
    exact .of_exact fun rest _ =>
      parse_store (parse_string valid _ _) (parse_debug rest)
  | debugInteger val =>
    exact .of_exact fun rest _ =>
      parse_store (parse_integer val _ _) (parse_debug rest)
  | debugOp op =>
    exact .of_exact fun rest _ => @parse_store _ [op] _ _ _ _
      (parse_operand valid _ _) (parse_debug rest)
  | returnByteBuffer arr =>
    exact reads_return (.of_exact fun rest _ => parse_buffer valid _ rest)
  | returnSingletonBuffer arg =>
    exact reads_return (.of_exact fun rest _ =>
      @parse_buffer [arg] (by decide : 1 < 256) _ rest)
  | returnByte arg =>
    exact reads_return (.of_exact fun rest _ => parse_byte arg _ rest)
  | returnInteger arg =>
    exact reads_return (.of_exact fun rest _ => parse_integer arg _ rest)
  | returnString arg =>
    exact reads_return (.of_exact fun rest _ => parse_string valid _ rest)

/-- What follows is not the null target. -/
def NoTarget (rest : List Byte) : Prop := rest.head? ≠ some 0x00

theorem parseTarget_ne_null {found : Target} (noTarget : NoTarget rest)
    (got : parseTarget rest = some (found, remaining)) : found ≠ .null := by
  rintro rfl
  cases rest with
  | nil => cases got
  | cons op rest =>
    have ne : op ≠ 0x00 := fun same => noTarget (by rw [same]; rfl)
    rw [parseTarget, if_neg ne, parseSuperName] at got
    split_ifs at got
    · cases got
    · cases got

theorem Condition.reads (valid : condition.WellFormed) (enough : condition.bytes.length < fuel) :
    Reads (parsePredicate (parseData fuel)) NoTarget condition.bytes
      condition.predicate condition.Careful := by
  cases condition with
  | value object =>
    have reads := Value.reads valid enough
    obtain ⟨lead, more, shape, notOperation⟩ := Value.head valid
    have unfolded (rest : List Byte) :
        parsePredicate (parseData fuel) (object.bytes ++ rest) =
          (parseData fuel (object.bytes ++ rest)).map fun found => (.data found.1, found.2) := by
      rw [parsePredicate, if_neg]
      rw [shape, List.cons_append, List.head?_cons, Option.bind_some, notOperation]
      exact nofun
    exact
      { exact := by
          intro careful rest _
          rw [Condition.bytes, unfolded, reads.exact careful rest trivial]
          rfl
        differs := by
          intro careless rest _ found remaining got same
          rw [Condition.bytes, unfolded] at got
          obtain ⟨inner, read, pair⟩ := Option.map_eq_some_iff.mp got
          obtain ⟨wrapped, -⟩ := Prod.mk.inj pair
          exact reads.differs careless rest trivial inner.1 inner.2 read
            (Predicate.data.inj (wrapped.trans same)) }
  | and arg1 arg2 =>
    rcases fuel with _ | fuel
    · omega
    exact
      { exact := fun careful => careful.elim
        differs := by
          intro _ rest noTarget found remaining got same
          -- The bytes of the block are taken for the target.
          have unfolded : parsePredicate (parseData (fuel + 1))
              ((Condition.and arg1 arg2).bytes ++ rest) =
              (parseOperands (parseData (fuel + 1)) 2
                (arg1 :: arg2 :: rest)).bind fun operands =>
                  (Operator.and.parseTarget operands.2).map fun target =>
                    (.operation ⟨.and, operands.1, target.1⟩, target.2) := by
            have step : parsePredicate (parseData (fuel + 1))
                ((Condition.and arg1 arg2).bytes ++ rest) =
                (parseOperation (parseData (fuel + 1))
                  (andOp :: arg1 :: arg2 :: rest)).map fun found =>
                    (.operation found.1, found.2) :=
              rfl
            have code : Operator.ofOpcode andOp = some .and := rfl
            rw [step, parseOperation, code]
            dsimp only [bind, Option.bind]
            rw [Operator.arity]
            cases parseOperands (parseData (fuel + 1)) 2 (arg1 :: arg2 :: rest) with
            | none => rfl
            | some operands =>
              dsimp only
              cases Operator.and.parseTarget operands.2 with
              | none => rfl
              | some target => rfl
          rw [unfolded, parseOperands_two (parse_operand valid.1 fuel _)
            (parse_operand valid.2 fuel _), Option.bind_some] at got
          obtain ⟨place, stored, pair⟩ := Option.map_eq_some_iff.mp got
          obtain ⟨inner, read, wrapped⟩ := Option.map_eq_some_iff.mp stored
          cases wrapped
          obtain ⟨made, -⟩ := Prod.mk.inj pair
          have places := (Operation.mk.inj (Predicate.operation.inj (made.trans same))).2.2
          exact parseTarget_ne_null noTarget read (Option.some.inj places) }
  | lequal op val =>
    rcases fuel with _ | fuel
    · omega
    refine .of_exact fun rest _ => ?_
    have parsed : parseOperation (parseData (fuel + 1))
        (lequalOp :: (op :: integerBytes val ++ rest)) =
        some (⟨.lequal, [operand op, .integer val], none⟩, rest) :=
      parseOperation_eq rfl
        (parseOperands_two (parse_operand valid fuel _) (parse_integer val fuel rest)) rfl
    exact congrArg (Option.map _) parsed

/-- What follows is not the second block of an `if`. -/
def NotElse (rest : List Byte) : Prop := rest.head? ≠ some 0xa1

theorem Statement.head (statement : Statement) :
    ∃ lead more, statement.bytes = lead :: more ∧ lead ≠ 0x00 ∧ lead ≠ 0xa1 := by
  cases statement with
  | simple statement =>
    cases statement <;> exact ⟨_, _, rfl, by decide, by decide⟩
  | _ => exact ⟨_, _, rfl, by decide, by decide⟩

theorem Statement.notElse (statement : Statement) (rest : List Byte) :
    NotElse (statement.bytes ++ rest) := by
  obtain ⟨lead, more, shape, -, ne⟩ := statement.head
  rw [shape]
  exact fun same => ne (Option.some.inj same)

theorem Statement.noTarget (statements : List Statement) :
    NoTarget (Statement.listBytes statements) := by
  cases statements with
  | nil => exact nofun
  | cons statement statements =>
    obtain ⟨lead, more, shape, ne, -⟩ := statement.head
    rw [Statement.listBytes, shape]
    exact fun same => ne (Option.some.inj same)

theorem Statement.parseBody_iff {statements : List Statement} (reads : ∀ statement ∈ statements,
      Reads (parseTerm fuel) NotElse statement.bytes statement.term statement.Careful) :
    parseBody (parseTerm fuel) (Statement.listBytes statements) =
        some (Statement.listTerms statements) ↔
      Statement.ListCareful statements := by
  rw [parseBody, Statement.listBytes_eq, Statement.listTerms_eq, Statement.listCareful_iff]
  refine parseList_iff reads (fun statement _ => ?_)
    (fun statement _ => statement.notElse) nofun le_rfl
  obtain ⟨lead, more, shape, -, -⟩ := statement.head
  rw [shape]
  exact List.cons_ne_nil _ _

theorem reads_block {outer : Parser Term} {body : Option (List Term)} {wrap : List Term → Term}
    (unfolds : ∀ rest, outer (bytes ++ rest) = body.map fun found => (wrap found, rest))
    (inner : body = some terms ↔ good)
    (injective : ∀ found, wrap found = wrap terms → found = terms) :
    Reads outer NotElse bytes (wrap terms) good :=
  { exact := by
      intro careful rest _
      rw [unfolds, inner.mpr careful]
      rfl
    differs := by
      intro careless rest _ found remaining got same
      rw [unfolds] at got
      obtain ⟨values, parsed, pair⟩ := Option.map_eq_some_iff.mp got
      obtain ⟨wrapped, -⟩ := Prod.mk.inj pair
      have equal := injective values (wrapped.trans same)
      exact careless (inner.mp (parsed.trans (congrArg some equal))) }

theorem parse_named (valid : path.Valid) {content : List Byte}
    (fits : Fits (path.name.bytes ++ content)) (rest : List Byte) {α : Type}
    (next : NameString → List Byte → List Byte → Option α) :
    ((parsePackage (pkgLength ((path.name.bytes ++ content).length + 3) ++
      (path.name.bytes ++ content) ++ rest)).bind fun found =>
        (parseNameString found.1).bind fun name =>
          next name.1 name.2 found.2) = next path.name content rest := by
  rw [parsePackage_pkgLength fits, Option.bind_some, valid.name.parse, Option.bind_some]

theorem reads_scope (valid : path.Valid) (fits : Fits (path.name.bytes ++ body))
    (inner : parseBody (parseTerm fuel) body = some terms ↔ good) :
    Reads (parseTerm (fuel + 1)) NotElse
      (block [scopeOp] (path.name.bytes ++ body)) (.scope path.name terms)
      good := by
  refine reads_block (fun rest => ?_) inner fun _ same => (Term.scope.inj same).2
  rw [Option.map_eq_bind]
  exact parse_named valid fits rest fun name content rest =>
    (parseBody (parseTerm fuel) content).bind fun body =>
      some (Term.scope name body, rest)

theorem reads_device (valid : path.Valid) (fits : Fits (path.name.bytes ++ body))
    (inner : parseBody (parseTerm fuel) body = some terms ↔ good) :
    Reads (parseTerm (fuel + 1)) NotElse
      (block [extOpPrefix, deviceOp] (path.name.bytes ++ body))
      (.device path.name terms) good := by
  refine reads_block (fun rest => ?_) inner fun _ same => (Term.device.inj same).2
  rw [Option.map_eq_bind]
  exact parse_named valid fits rest fun name content rest =>
    (parseBody (parseTerm fuel) content).bind fun body =>
      some (Term.device name body, rest)

theorem reads_method (valid : path.Valid) {flags : Byte}
    (fits : Fits (path.name.bytes ++ (flags :: body)))
    (inner : parseBody (parseTerm fuel) body = some terms ↔ good) :
    Reads (parseTerm (fuel + 1)) NotElse
      (block [methodOp] (path.name.bytes ++ (flags :: body)))
      (.method path.name flags terms) good := by
  refine reads_block (fun rest => ?_) inner fun _ same => (Term.method.inj same).2.2
  rw [Option.map_eq_bind]
  exact parse_named valid fits rest fun name content rest =>
    (parseFlags content).bind fun flags =>
      (parseBody (parseTerm fuel) flags.2).bind fun body =>
        some (Term.method name flags.1 body, rest)

section

variable (fits : Fits (condition.bytes ++ body))
include fits

/-- The condition and the first block of an `if`, before what follows. -/
theorem parse_if (fuel : Nat) (rest : List Byte) :
    parseTerm (fuel + 1) (block [ifOp] (condition.bytes ++ body) ++ rest) =
      (parsePredicate (parseData fuel) (condition.bytes ++ body)).bind
        fun found =>
          (parseBody (parseTerm fuel) found.2).bind fun terms =>
            if rest.head? = some 0xa1 then
              (parsePackage rest.tail).bind fun package =>
                (parseBody (parseTerm fuel) package.1).bind fun otherwise =>
                  some (.ifElse found.1 terms otherwise, package.2)
            else
              some (.ifThen found.1 terms, rest) := by
  have unfolded : parseTerm (fuel + 1)
      (block [ifOp] (condition.bytes ++ body) ++ rest) =
      (parsePackage (pkgLength ((condition.bytes ++ body).length + 3) ++
        (condition.bytes ++ body) ++ rest)).bind fun outer =>
          (parsePredicate (parseData fuel) outer.1).bind fun found =>
            (parseBody (parseTerm fuel) found.2).bind fun terms =>
              if outer.2.head? = some 0xa1 then
                (parsePackage outer.2.tail).bind fun package =>
                  (parseBody (parseTerm fuel) package.1).bind fun otherwise =>
                    some (.ifElse found.1 terms otherwise, package.2)
              else
                some (.ifThen found.1 terms, outer.2) :=
    rfl
  rw [unfolded, parsePackage_pkgLength fits, Option.bind_some]

theorem reads_ifThen (noTarget : NoTarget body)
    (tests : Reads (parsePredicate (parseData fuel)) NoTarget condition.bytes
      condition.predicate condition.Careful)
    (inner : parseBody (parseTerm fuel) body = some terms ↔ good) :
    Reads (parseTerm (fuel + 1)) NotElse
      (block [ifOp] (condition.bytes ++ body))
      (.ifThen condition.predicate terms) (condition.Careful ∧ good) :=
  { exact := by
      rintro ⟨careful, isGood⟩ rest notElse
      rw [parse_if fits, tests.exact careful body noTarget, Option.bind_some,
        inner.mpr isGood, Option.bind_some, if_neg notElse]
    differs := by
      intro careless rest notElse found remaining got same
      rw [parse_if fits] at got
      obtain ⟨predicate, tested, got⟩ := Option.bind_eq_some_iff.mp got
      obtain ⟨values, parsed, got⟩ := Option.bind_eq_some_iff.mp got
      rw [if_neg notElse] at got
      cases got
      obtain ⟨samePredicate, sameTerms⟩ := Term.ifThen.inj same
      by_cases careful : condition.Careful
      · rw [tests.exact careful body noTarget] at tested
        cases tested
        rw [sameTerms] at parsed
        exact careless ⟨careful, inner.mp parsed⟩
      · exact tests.differs careful body noTarget predicate.1 predicate.2 tested samePredicate }

theorem reads_ifElse {otherwise : List Byte} (fitsElse : Fits otherwise) (noTarget : NoTarget body)
    (tests : Reads (parsePredicate (parseData fuel)) NoTarget condition.bytes
      condition.predicate condition.Careful) {others : List Term} {goodElse : Prop}
    (inner : parseBody (parseTerm fuel) body = some terms ↔ good)
    (innerElse : parseBody (parseTerm fuel) otherwise = some others ↔ goodElse) :
    Reads (parseTerm (fuel + 1)) NotElse
      (block [ifOp] (condition.bytes ++ body) ++ block [elseOp] otherwise)
      (.ifElse condition.predicate terms others)
      (condition.Careful ∧ good ∧ goodElse) := by
  have unfolded (rest : List Byte) :
      parseTerm (fuel + 1) (block [ifOp] (condition.bytes ++ body) ++
        block [elseOp] otherwise ++ rest) =
      (parsePredicate (parseData fuel) (condition.bytes ++ body)).bind
        fun found =>
          (parseBody (parseTerm fuel) found.2).bind fun terms =>
            (parseBody (parseTerm fuel) otherwise).bind fun others =>
              some (.ifElse found.1 terms others, rest) := by
    have isElse : (block [elseOp] otherwise ++ rest).head? = some 0xa1 := rfl
    have tail : (block [elseOp] otherwise ++ rest).tail =
        pkgLength (otherwise.length + 3) ++ otherwise ++ rest :=
      rfl
    rw [List.append_assoc, parse_if fits]
    simp only [if_pos isElse, tail, parsePackage_pkgLength fitsElse, Option.bind_some]
  exact
    { exact := by
        rintro ⟨careful, isGood, isGoodElse⟩ rest _
        rw [unfolded, tests.exact careful body noTarget, Option.bind_some, inner.mpr isGood,
          Option.bind_some, innerElse.mpr isGoodElse, Option.bind_some]
      differs := by
        intro careless rest _ found remaining got same
        rw [unfolded] at got
        obtain ⟨predicate, tested, got⟩ := Option.bind_eq_some_iff.mp got
        obtain ⟨values, parsed, got⟩ := Option.bind_eq_some_iff.mp got
        obtain ⟨more, parsedElse, got⟩ := Option.bind_eq_some_iff.mp got
        cases got
        obtain ⟨samePredicate, sameTerms, sameOthers⟩ := Term.ifElse.inj same
        by_cases careful : condition.Careful
        · rw [tests.exact careful body noTarget] at tested
          cases tested
          rw [sameTerms] at parsed
          rw [sameOthers] at parsedElse
          exact careless ⟨careful, inner.mp parsed, innerElse.mp parsedElse⟩
        · exact tests.differs careful body noTarget predicate.1 predicate.2 tested samePredicate }

end

theorem Simple.bytes_length (statement : Simple) : 2 ≤ statement.bytes.length := by
  have integer (data : BitVec 64) : 0 < (integerBytes data).length := by
    obtain ⟨lead, more, shape, -⟩ := integerBytes_head data
    rw [shape]
    exact Nat.succ_pos _
  cases statement with
  | returnInteger arg => exact Nat.succ_le_succ (integer arg)
  | nameInteger path val =>
    have positive := integer val
    rw [Simple.bytes, nameBytes, List.length_cons, List.length_append]
    omega
  | _ =>
    simp only [Simple.bytes, nameBytes, bufferBytes, block, stringBytes,
      List.length_cons, List.length_append]
    omega

mutual

theorem Statement.reads : ∀ {statement : Statement}, statement.WellFormed →
    ∀ {fuel : Nat}, statement.bytes.length < fuel →
      Reads (parseTerm fuel) NotElse statement.bytes statement.term statement.Careful
  | .simple statement, valid, fuel, enough => by
    have long := statement.bytes_length
    rw [Statement.bytes] at enough
    obtain ⟨fuel, rfl⟩ : ∃ less, fuel = less + 3 := ⟨fuel - 3, by omega⟩
    have reads := Simple.reads valid fuel
    exact
      { exact := fun careful rest _ => reads.exact careful rest trivial
        differs := fun careless rest _ =>
          reads.differs careless rest trivial }
  | .name path value, valid, fuel, enough => by
    rw [Statement.bytes, nameBytes, List.length_cons, List.length_append] at enough
    rcases fuel with _ | fuel
    · omega
    have reads := reads_name valid.1 (Value.reads valid.2 (show value.bytes.length < fuel by omega))
    exact
      { exact := fun careful rest _ => reads.exact careful rest trivial
        differs := fun careless rest _ =>
          reads.differs careless rest trivial }
  | .scope path body, valid, fuel, enough => by
    rw [Statement.bytes, block_length, List.length_append] at enough
    rcases fuel with _ | fuel
    · omega
    exact reads_scope valid.1 valid.2.1 (Statement.parseBody_iff
      (Statement.reads_list valid.2.2 (by omega)))
  | .device path body, valid, fuel, enough => by
    rw [Statement.bytes, block_length, List.length_append] at enough
    rcases fuel with _ | fuel
    · omega
    exact reads_device valid.1 valid.2.1 (Statement.parseBody_iff
      (Statement.reads_list valid.2.2 (by omega)))
  | .method path nargs body, valid, fuel, enough => by
    rw [Statement.bytes, block_length, List.length_append] at enough
    simp only [List.length_cons] at enough
    rcases fuel with _ | fuel
    · omega
    exact reads_method valid.1 valid.2.1 (Statement.parseBody_iff
      (Statement.reads_list valid.2.2 (by omega)))
  | .methodSerialized path nargs body, valid, fuel, enough => by
    rw [Statement.bytes, block_length, List.length_append] at enough
    simp only [List.length_cons] at enough
    rcases fuel with _ | fuel
    · omega
    exact reads_method valid.1 valid.2.1 (Statement.parseBody_iff
      (Statement.reads_list valid.2.2 (by omega)))
  | .ifThen condition body, valid, fuel, enough => by
    rw [Statement.bytes, block_length, List.length_append] at enough
    rcases fuel with _ | fuel
    · omega
    exact reads_ifThen valid.2.1 (Statement.noTarget body)
      (Condition.reads valid.1 (by omega))
      (Statement.parseBody_iff (Statement.reads_list valid.2.2 (by omega)))
  | .ifElse condition body otherwise, valid, fuel, enough => by
    rw [Statement.bytes, List.length_append, block_length, block_length,
      List.length_append] at enough
    rcases fuel with _ | fuel
    · omega
    exact reads_ifElse valid.2.1 valid.2.2.2.1 (Statement.noTarget body)
      (Condition.reads valid.1 (by omega))
      (Statement.parseBody_iff (Statement.reads_list valid.2.2.1 (by omega)))
      (Statement.parseBody_iff (Statement.reads_list valid.2.2.2.2 (by omega)))

theorem Statement.reads_list : ∀ {statements : List Statement},
    Statement.ListWellFormed statements →
    ∀ {fuel : Nat}, (Statement.listBytes statements).length < fuel →
      ∀ statement ∈ statements,
        Reads (parseTerm fuel) NotElse statement.bytes statement.term statement.Careful
  | [], _, _, _ => by simp
  | statement :: statements, valid, fuel, enough => by
    rw [Statement.ListWellFormed] at valid
    rw [Statement.listBytes, List.length_append] at enough
    rw [List.forall_mem_cons]
    exact ⟨Statement.reads valid.1 (by omega), Statement.reads_list valid.2 (by omega)⟩

end

theorem parse_iff {program : List Statement} (valid : Statement.ListWellFormed program) :
    parse (Statement.listBytes program) = some (Statement.listTerms program) ↔
      Statement.ListCareful program :=
  Statement.parseBody_iff (Statement.reads_list valid (Nat.lt_succ_self _))

/-- A bracketed sequence of calls that stays inside the length stack closes all
its packages, and what it has written is parsed as the terms its calls were given
exactly when no call of it is one of those that write something else. -/
theorem parse_iff_careful_of_run (program : List Statement)
    (valid : Statement.ListWellFormed program) (g : Generator)
    (idle : g.lenStack = []) (nested : Statement.listDepth program ≤ 9) :
    ∃ bytes, run (Statement.listCalls program) g = some (g.append bytes) ∧
      (parse bytes = some (Statement.listTerms program) ↔ Statement.ListCareful program) := by
  refine ⟨Statement.listBytes program, ?_, parse_iff valid⟩
  exact Statement.run_list valid (by
    rw [idle, List.length_nil]
    omega)

def Generator.start : Generator :=
  { output := []
    lenStack := [] }

def Path.single (segment : List Byte) : Path :=
  { root := false
    parents := 0
    segments := [segment] }

theorem Path.single_valid {segment : List Byte} (valid : Segment segment) :
    (Path.single segment).Valid :=
  { parents := nofun
    count := by
      change 1 < 256
      decide
    segments := by
      intro other member
      rw [List.mem_singleton.mp member]
      exact valid }

/-- "_SB" and "P0". -/
def busScope : List Byte := [0x5f, 0x53, 0x42]
def hostBridge : List Byte := [0x50, 0x30]

theorem busScope_segment : Segment busScope := ⟨by decide, by decide, by decide⟩

theorem hostBridge_segment : Segment hostBridge := ⟨by decide, by decide, by decide⟩

def deviceInScope : List Statement :=
  [.scope (.single busScope) [.device (.single hostBridge)
    [.name (.single hostBridge) (.package 2 [.leaf (.integer 0x12345), .leaf (.byte 7)])]]]

theorem parse_deviceInScope : ∃ bytes,
    run (Statement.listCalls deviceInScope) .start = some (Generator.start.append bytes) ∧
      parse bytes = some (Statement.listTerms deviceInScope) := by
  have scope := Path.single_valid busScope_segment
  have bridge := Path.single_valid hostBridge_segment
  have package : Value.WellFormed (.package 2 [.leaf (.integer 0x12345), .leaf (.byte 7)]) :=
    ⟨by decide, by decide, by rw [Fits]; decide, trivial, trivial, trivial⟩
  have valid : Statement.ListWellFormed deviceInScope :=
    ⟨⟨scope, by rw [Fits]; decide, ⟨bridge, by rw [Fits]; decide,
      ⟨bridge, package⟩, trivial⟩, trivial⟩, trivial⟩
  obtain ⟨bytes, written, parsed⟩ :=
    parse_iff_careful_of_run deviceInScope valid .start rfl (by decide)
  refine ⟨bytes, written, parsed.mpr ?_⟩
  exact ⟨⟨⟨⟨trivial, (by decide : 7 < 2 ^ 8), trivial⟩, trivial⟩, trivial⟩, trivial⟩

/-- `acpigen_write_name_zero("P0")`. -/
def zeroName : List Statement := [.simple (.nameZero (.single hostBridge))]

/-- A name that is to be zero is read back as one. -/
theorem not_parse_zeroName :
    Statement.ListWellFormed zeroName ∧ Statement.listDepth zeroName ≤ 9 ∧
      ∃ bytes, run (Statement.listCalls zeroName) .start = some (Generator.start.append bytes) ∧
        parse bytes = some [.name (Path.single hostBridge).name (.integer 1)] ∧
        parse bytes ≠ some (Statement.listTerms zeroName) := by
  have read : parse [nameOp, 0x50, 0x30, 0x5f, 0x5f, oneOp] =
      some [.name (Path.single hostBridge).name (.integer 1)] := rfl
  refine ⟨⟨Path.single_valid hostBridge_segment, trivial⟩, by decide,
    [nameOp, 0x50, 0x30, 0x5f, 0x5f, oneOp], rfl, read, ?_⟩
  rw [read]
  intro same
  have terms := (List.cons.inj (Option.some.inj same)).1
  have values := Data.integer.inj (Term.name.inj terms).2
  revert values
  decide

end Coreboot.Acpigen
