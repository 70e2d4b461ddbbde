import Mathlib.Tactic.Common
import Coreboot.ByteMemory

/-!
# The grammar of the ACPI machine language

Terms of the language and a parser of them. A package length counts its own bytes and delimits the
contents of the term exactly.
-/

namespace Coreboot.Aml

open ByteMemory

/-- A namespace path: where it starts, and its segments of four characters. -/
structure NameString where
  root : Bool
  parents : Nat
  segments : List (List Byte)
deriving DecidableEq

/-- Data objects, and the objects an operand can name. -/
inductive Data
  | integer (value : BitVec 64)
  | string (characters : List Byte)
  | buffer (size : BitVec 64) (bytes : List Byte)
  | package (count : Byte) (elements : List Data)
  | reference (name : NameString)
  | object (op : Byte)

inductive Target
  | null
  | object (op : Byte)
  | debug

inductive Operator
  | store
  | and
  | or
  | not
  | lequal
  | toBuffer
  | toInteger
deriving DecidableEq

structure Operation where
  operator : Operator
  operands : List Data
  target : Option Target

inductive Predicate
  | data (value : Data)
  | operation (operation : Operation)

inductive Term
  | name (name : NameString) (value : Data)
  | scope (name : NameString) (body : List Term)
  | device (name : NameString) (body : List Term)
  | method (name : NameString) (flags : Byte) (body : List Term)
  | ifThen (predicate : Predicate) (body : List Term)
  | ifElse (predicate : Predicate) (body otherwise : List Term)
  | operation (operation : Operation)
  | ret (value : Data)
  | sleep (time : Data)

/-- A parser returns what follows the value it has read. -/
abbrev Parser (α : Type) := List Byte → Option (α × List Byte)

def parseList {α : Type} (read : Parser α) : Nat → List Byte → Option (List α)
  | _, [] => some []
  | 0, _ :: _ => none
  | fuel + 1, byte :: bytes => do
      let (value, rest) ← read (byte :: bytes)
      let values ← parseList read fuel rest
      some (value :: values)

def LeadNameChar (c : Byte) : Prop := c = 0x5f ∨ (0x41 ≤ c ∧ c ≤ 0x5a)

def NameChar (c : Byte) : Prop := LeadNameChar c ∨ (0x30 ≤ c ∧ c ≤ 0x39)

instance : DecidablePred LeadNameChar := fun _ =>
  inferInstanceAs (Decidable (_ ∨ _))

instance : DecidablePred NameChar := fun _ =>
  inferInstanceAs (Decidable (_ ∨ _))

def parseNameSeg : Parser (List Byte)
  | a :: b :: c :: d :: rest =>
    if LeadNameChar a ∧ NameChar b ∧ NameChar c ∧ NameChar d then
      some ([a, b, c, d], rest)
    else
      none
  | _ => none

def parseNameSegs : Nat → Parser (List (List Byte))
  | 0, bytes => some ([], bytes)
  | count + 1, bytes => do
      let (segment, rest) ← parseNameSeg bytes
      let (segments, rest) ← parseNameSegs count rest
      some (segment :: segments, rest)

def parseMultiName : Parser (List (List Byte))
  | [] => none
  | count :: rest =>
    if count = 0 then none else parseNameSegs count.toNat rest

def parseNamePath : Parser (List (List Byte))
  | [] => none
  | lead :: rest =>
    if lead = 0x00 then
      some ([], rest)
    else if lead = 0x2e then
      parseNameSegs 2 rest
    else if lead = 0x2f then
      parseMultiName rest
    else
      parseNameSegs 1 (lead :: rest)

def parseParents : List Byte → Nat × List Byte
  | [] => (0, [])
  | lead :: rest =>
    if lead = 0x5e then
      ((parseParents rest).1 + 1, (parseParents rest).2)
    else
      (0, lead :: rest)

def parseNameString : Parser NameString
  | [] => none
  | lead :: rest =>
    if lead = 0x5c then do
      let (segments, rest) ← parseNamePath rest
      some (⟨true, 0, segments⟩, rest)
    else do
      let (parents, path) := parseParents (lead :: rest)
      let (segments, rest) ← parseNamePath path
      some (⟨false, parents, segments⟩, rest)

/-- The number a package length stands for, and the number of its bytes. -/
def parsePkgLength : List Byte → Option (Nat × Nat)
  | [] => none
  | lead :: rest =>
    if lead.toNat / 64 = 0 then
      some (lead.toNat, 1)
    else if rest.length < lead.toNat / 64 ∨ lead.toNat / 16 % 4 ≠ 0 then
      none
    else
      some (lead.toNat % 16 + 16 * decodeLE (rest.take (lead.toNat / 64)), lead.toNat / 64 + 1)

def parsePackage : Parser (List Byte) := fun bytes => do
  let (length, own) ← parsePkgLength bytes
  if own ≤ length ∧ length ≤ bytes.length then
    some ((bytes.take length).drop own, bytes.drop length)
  else
    none

def parseInteger (width : Nat) : Parser Data := fun bytes =>
  if width ≤ bytes.length then
    some (.integer (BitVec.ofNat 64 (decodeLE (bytes.take width))), bytes.drop width)
  else
    none

def parseString : Parser (List Byte)
  | [] => none
  | c :: rest =>
    if c = 0 then
      some ([], rest)
    else if c < 0x80 then do
      let (characters, rest) ← parseString rest
      some (c :: characters, rest)
    else
      none

def IsObject (op : Byte) : Prop := 0x60 ≤ op ∧ op ≤ 0x6e

instance : DecidablePred IsObject := fun _ =>
  inferInstanceAs (Decidable (_ ∧ _))

def parseBuffer (read : Parser Data) : Parser Data := fun bytes => do
  let (content, rest) ← parsePackage bytes
  match ← read content with
  | (.integer size, bytes) => some (.buffer size bytes, rest)
  | _ => none

def parsePackageData (read : Parser Data) : Parser Data := fun bytes => do
  match ← parsePackage bytes with
  | ([], _) => none
  | (count :: content, rest) =>
    let elements ← parseList read content.length content
    if elements.length ≤ count.toNat then
      some (.package count elements, rest)
    else
      none

def parseReference : Parser Data := fun bytes => do
  let (name, rest) ← parseNameString bytes
  some (.reference name, rest)

def parseData : Nat → Parser Data
  | 0, _ => none
  | _ + 1, [] => none
  | fuel + 1, op :: rest =>
    if op = 0x00 then some (.integer 0, rest)
    else if op = 0x01 then some (.integer 1, rest)
    else if op = 0xff then some (.integer (BitVec.allOnes 64), rest)
    else if op = 0x0a then parseInteger 1 rest
    else if op = 0x0b then parseInteger 2 rest
    else if op = 0x0c then parseInteger 4 rest
    else if op = 0x0e then parseInteger 8 rest
    else if op = 0x0d then
      (parseString rest).map fun (characters, rest) =>
        (.string characters, rest)
    else if op = 0x11 then parseBuffer (parseData fuel) rest
    else if op = 0x12 then parsePackageData (parseData fuel) rest
    else if IsObject op then some (.object op, rest)
    else parseReference (op :: rest)

def Operator.ofOpcode (op : Byte) : Option Operator :=
  if op = 0x70 then some .store
  else if op = 0x7b then some .and
  else if op = 0x7d then some .or
  else if op = 0x80 then some .not
  else if op = 0x93 then some .lequal
  else if op = 0x96 then some .toBuffer
  else if op = 0x99 then some .toInteger
  else none

def Operator.arity : Operator → Nat
  | .and | .or | .lequal => 2
  | .store | .not | .toBuffer | .toInteger => 1

def parseSuperName : Parser Target
  | [] => none
  | op :: rest =>
    if IsObject op then
      some (.object op, rest)
    else if op = 0x5b ∧ rest.head? = some 0x31 then
      some (.debug, rest.tail)
    else
      none

def parseTarget : Parser Target
  | [] => none
  | op :: rest =>
    if op = 0x00 then some (.null, rest) else parseSuperName (op :: rest)

def Operator.parseTarget : Operator → Parser (Option Target)
  | .lequal, bytes => some (none, bytes)
  | .store, bytes =>
    (parseSuperName bytes).map fun (target, rest) => (some target, rest)
  | _, bytes =>
    (Aml.parseTarget bytes).map fun (target, rest) => (some target, rest)

def parseOperands (read : Parser Data) : Nat → Parser (List Data)
  | 0, bytes => some ([], bytes)
  | count + 1, bytes => do
      let (operand, rest) ← read bytes
      let (operands, rest) ← parseOperands read count rest
      some (operand :: operands, rest)

def parseOperation (read : Parser Data) : Parser Operation
  | [] => none
  | op :: rest => do
      let operator ← Operator.ofOpcode op
      let (operands, rest) ← parseOperands read operator.arity rest
      let (target, rest) ← operator.parseTarget rest
      some (⟨operator, operands, target⟩, rest)

def parsePredicate (read : Parser Data) : Parser Predicate := fun bytes =>
  if (bytes.head?.bind Operator.ofOpcode).isSome then
    (parseOperation read bytes).map fun (operation, rest) =>
      (.operation operation, rest)
  else
    (read bytes).map fun (value, rest) => (.data value, rest)

def parseFlags : Parser Byte
  | [] => none
  | flags :: rest => some (flags, rest)

def parseBody (read : Parser Term) (content : List Byte) : Option (List Term) :=
  parseList read content.length content

def parseTerm : Nat → Parser Term
  | 0, _ => none
  | _ + 1, [] => none
  | fuel + 1, op :: rest =>
    if op = 0x08 then do
      let (name, rest) ← parseNameString rest
      let (value, rest) ← parseData fuel rest
      some (.name name value, rest)
    else if op = 0x10 then do
      let (content, rest) ← parsePackage rest
      let (name, content) ← parseNameString content
      let body ← parseBody (parseTerm fuel) content
      some (.scope name body, rest)
    else if op = 0x14 then do
      let (content, rest) ← parsePackage rest
      let (name, content) ← parseNameString content
      let (flags, content) ← parseFlags content
      let body ← parseBody (parseTerm fuel) content
      some (.method name flags body, rest)
    else if op = 0x5b ∧ rest.head? = some 0x82 then do
      let (content, rest) ← parsePackage rest.tail
      let (name, content) ← parseNameString content
      let body ← parseBody (parseTerm fuel) content
      some (.device name body, rest)
    else if op = 0x5b ∧ rest.head? = some 0x22 then do
      let (time, rest) ← parseData fuel rest.tail
      some (.sleep time, rest)
    else if op = 0xa0 then do
      let (content, rest) ← parsePackage rest
      let (predicate, content) ← parsePredicate (parseData fuel) content
      let body ← parseBody (parseTerm fuel) content
      if rest.head? = some 0xa1 then do
        let (content, rest) ← parsePackage rest.tail
        let otherwise ← parseBody (parseTerm fuel) content
        some (.ifElse predicate body otherwise, rest)
      else
        some (.ifThen predicate body, rest)
    else if op = 0xa4 then do
      let (value, rest) ← parseData fuel rest
      some (.ret value, rest)
    else
      (parseOperation (parseData fuel) (op :: rest)).map
        fun (operation, rest) => (.operation operation, rest)

/-- The terms of a table's definition block. -/
def parse (bytes : List Byte) : Option (List Term) := parseBody (parseTerm (bytes.length + 1)) bytes

/-- A byte string is read as a value, or it is never read as that value. -/
structure Reads {α : Type} (read : Parser α) (follows : List Byte → Prop)
    (bytes : List Byte) (value : α) (good : Prop) : Prop where
  exact : good → ∀ rest, follows rest → read (bytes ++ rest) = some (value, rest)
  differs : ¬good → ∀ rest, follows rest → ∀ found remaining,
    read (bytes ++ rest) = some (found, remaining) → found ≠ value

variable {follows : List Byte → Prop}

theorem Reads.of_exact {α : Type} {read : Parser α} {bytes : List Byte}
    {value : α} (exact : ∀ rest, follows rest → read (bytes ++ rest) = some (value, rest)) :
    Reads read follows bytes value True :=
  { exact := fun _ => exact
    differs := fun bad => absurd trivial bad }

theorem Reads.map {α β : Type} {read : Parser α} {outer : Parser β}
    {lead bytes : List Byte} {value : α}
    {good : Prop} {wrap : α → β} (reads : Reads read follows bytes value good)
    (injective : ∀ found, wrap found = wrap value → found = value)
    (unfolds : ∀ rest, outer (lead ++ rest) =
      (read rest).map fun found => (wrap found.1, found.2)) :
    Reads outer follows (lead ++ bytes) (wrap value) good :=
  { exact := by
      intro isGood rest following
      rw [List.append_assoc, unfolds, reads.exact isGood rest following]
      rfl
    differs := by
      intro isBad rest following found remaining got same
      rw [List.append_assoc, unfolds] at got
      obtain ⟨inner, read, shape⟩ := Option.map_eq_some_iff.mp got
      obtain ⟨wrapped, -⟩ := Prod.mk.inj shape
      exact reads.differs isBad rest following inner.1 inner.2 read
        (injective _ (wrapped.trans same)) }

theorem parseList_cons {α : Type} (read : Parser α) (fuel : Nat) (byte : Byte) (bytes : List Byte) :
    parseList read (fuel + 1) (byte :: bytes) =
      (read (byte :: bytes)).bind fun found =>
        (parseList read fuel found.2).map fun values =>
          found.1 :: values := by
  rw [parseList]
  cases read (byte :: bytes) with
  | none => rfl
  | some found =>
    dsimp only [bind, Option.bind]
    cases parseList read fuel found.2 with
    | none => rfl
    | some values => rfl

theorem parseList_iff {ι α : Type} {read : Parser α}
    {bytes : ι → List Byte} {value : ι → α} {good : ι → Prop} {items : List ι}
    (reads : ∀ item ∈ items, Reads read follows (bytes item) (value item) (good item))
    (nonempty : ∀ item ∈ items, bytes item ≠ [])
    (followed : ∀ item ∈ items, ∀ rest, follows (bytes item ++ rest)) (ended : follows [])
    {fuel : Nat} (enough : (items.flatMap bytes).length ≤ fuel) :
    parseList read fuel (items.flatMap bytes) = some (items.map value) ↔
      ∀ item ∈ items, good item := by
  induction items generalizing fuel with
  | nil => simp [parseList]
  | cons item items ih =>
    have tail := fun fuel => @ih (List.forall_mem_cons.mp reads).2
      (List.forall_mem_cons.mp nonempty).2 (List.forall_mem_cons.mp followed).2
      fuel
    have reads := reads item (.head _)
    have follows : follows (items.flatMap bytes) := by
      cases items with
      | nil => exact ended
      | cons next rest =>
        exact followed next (.tail _ (.head _)) _
    rw [List.flatMap_cons, List.length_append] at enough
    obtain ⟨byte, more, shape⟩ := List.exists_cons_of_ne_nil (nonempty item (.head _))
    rw [shape, List.length_cons] at enough
    rcases fuel with _ | fuel
    · omega
    have unfolded : parseList read (fuel + 1)
        (bytes item ++ items.flatMap bytes) =
        (read (bytes item ++ items.flatMap bytes)).bind fun found =>
          (parseList read fuel found.2).map fun values =>
            found.1 :: values := by
      rw [shape, List.cons_append, parseList_cons]
    rw [List.flatMap_cons, unfolded, List.map_cons, List.forall_mem_cons]
    by_cases good : good item
    · rw [reads.exact good _ follows]
      simp only [Option.bind_some, Option.map_eq_some_iff, List.cons.injEq,
        true_and, exists_eq_right]
      rw [tail fuel (by omega)]
      exact ⟨fun all => ⟨good, all⟩, fun all => all.2⟩
    · refine iff_of_false (fun parsed => ?_) fun all => good all.1
      obtain ⟨found, got, rest⟩ := Option.bind_eq_some_iff.mp parsed
      obtain ⟨values, _, same⟩ := Option.map_eq_some_iff.mp rest
      exact reads.differs good _ follows found.1 found.2 got (List.cons.inj same).1

def pkgLength (length : Nat) : List Byte :=
  [BitVec.ofNat 8 (128 + length % 16), BitVec.ofNat 8 (length / 16), BitVec.ofNat 8 (length / 4096)]

theorem parsePackage_pkgLength {content : List Byte}
    (fits : content.length + 3 < 2 ^ 20) (rest : List Byte) :
    parsePackage (pkgLength (content.length + 3) ++ content ++ rest) = some (content, rest) := by
  have lead : (BitVec.ofNat 8 (128 + (content.length + 3) % 16)).toNat =
      128 + (content.length + 3) % 16 := by
    rw [BitVec.toNat_ofNat]
    exact Nat.mod_eq_of_lt (by omega)
  have read : parsePkgLength
      (pkgLength (content.length + 3) ++ content ++ rest) =
      some (content.length + 3, 3) := by
    have quotient : (128 + (content.length + 3) % 16) / 64 = 2 := by omega
    have reserved : (128 + (content.length + 3) % 16) / 16 % 4 = 0 := by omega
    simp only [pkgLength, List.cons_append, List.nil_append, parsePkgLength, lead, quotient,
      reserved, List.length_cons, List.take_succ_cons, List.take_zero, decodeLE, BitVec.toNat_ofNat]
    rw [if_neg (by decide), if_neg (by omega)]
    congr 2
    omega
  rw [parsePackage, read]
  dsimp only [bind, Option.bind]
  have split : (pkgLength (content.length + 3) ++ content ++ rest).take
        (content.length + 3) = pkgLength (content.length + 3) ++ content ∧
      (pkgLength (content.length + 3) ++ content ++ rest).drop (content.length + 3) = rest := by
    have size : (pkgLength (content.length + 3) ++ content).length = content.length + 3 := by
      simp only [pkgLength, List.length_append, List.length_cons, List.length_nil]
      omega
    exact ⟨List.take_left' size, List.drop_left' size⟩
  rw [split.1, split.2, if_pos]
  · rfl
  · simp only [pkgLength, List.length_append, List.length_cons, List.length_nil]
    omega

theorem parseInteger_encodeLE {width number : Nat} (rest : List Byte) :
    parseInteger width (encodeLE width number ++ rest) =
      some (.integer (BitVec.ofNat 64 (number % 256 ^ width)), rest) := by
  have size := length_encodeLE width number
  rw [parseInteger, if_pos (by rw [List.length_append]; omega),
    List.take_left' size, List.drop_left' size, decodeLE_encodeLE]

theorem parseInteger_of_lt {width bits : Nat} {data : BitVec bits}
    (small : data.toNat < 256 ^ width) (rest : List Byte) :
    parseInteger width (encodeLE width data.toNat ++ rest) =
      some (.integer (data.setWidth 64), rest) := by
  rw [parseInteger_encodeLE, Nat.mod_eq_of_lt small, BitVec.ofNat_toNat]

theorem parseString_append {characters : List Byte} (ascii : ∀ c ∈ characters, c ≠ 0 ∧ c < 0x80)
    (rest : List Byte) : parseString (characters ++ 0 :: rest) = some (characters, rest) := by
  induction characters with
  | nil => rfl
  | cons c characters ih =>
    rw [List.forall_mem_cons] at ascii
    rw [List.cons_append, parseString, if_neg ascii.1.1, if_pos ascii.1.2, ih ascii.2]
    rfl

def NameSeg : List Byte → Prop
  | [a, b, c, d] => LeadNameChar a ∧ NameChar b ∧ NameChar c ∧ NameChar d
  | _ => False

structure NameString.Valid (name : NameString) : Prop where
  parents : name.root = true → name.parents = 0
  count : name.segments.length < 256
  segments : ∀ segment ∈ name.segments, NameSeg segment

def pathBytes : List (List Byte) → List Byte
  | [] => [0x00]
  | [segment] => segment
  | [first, second] => 0x2e :: (first ++ second)
  | segments => 0x2f :: BitVec.ofNat 8 segments.length :: segments.flatten

def NameString.bytes (name : NameString) : List Byte :=
  (if name.root then [0x5c] else []) ++
    (List.replicate name.parents 0x5e ++ pathBytes name.segments)

theorem parseNameSeg_append {segment : List Byte} (valid : NameSeg segment) (rest : List Byte) :
    parseNameSeg (segment ++ rest) = some (segment, rest) := by
  match segment, valid with
  | [a, b, c, d], valid => exact if_pos valid

variable {segments : List (List Byte)}

section

variable (valid : ∀ segment ∈ segments, NameSeg segment)
include valid

theorem parseNameSegs_flatten (rest : List Byte) :
    parseNameSegs segments.length (segments.flatten ++ rest) = some (segments, rest) := by
  induction segments with
  | nil => rfl
  | cons segment segments ih =>
    rw [List.forall_mem_cons] at valid
    rw [List.length_cons, parseNameSegs, List.flatten_cons,
      List.append_assoc, parseNameSeg_append valid.1]
    dsimp only [bind, Option.bind]
    rw [ih valid.2]

omit valid in
theorem NameChar.ne {c : Byte} (char : NameChar c) :
    c ≠ 0x00 ∧ c ≠ 0x2e ∧ c ≠ 0x2f ∧ c ≠ 0x5c ∧ c ≠ 0x5e := by
  refine ⟨?_, ?_, ?_, ?_, ?_⟩
  all_goals
    rintro rfl
    revert char
    decide

omit valid in
theorem LeadNameChar.ne {c : Byte} (lead : LeadNameChar c) :
    c ≠ 0x00 ∧ c ≠ 0x2e ∧ c ≠ 0x2f ∧ c ≠ 0x5c ∧ c ≠ 0x5e :=
  NameChar.ne (.inl lead)

theorem parseNamePath_pathBytes (count : segments.length < 256) (rest : List Byte) :
    parseNamePath (pathBytes segments ++ rest) = some (segments, rest) := by
  match segments with
  | [] => rfl
  | [segment] =>
    have read := parseNameSegs_flatten valid rest
    match segment, valid segment (.head _) with
    | [a, b, c, d], segment =>
      have ne := segment.1.ne
      rw [pathBytes, List.cons_append, parseNamePath, if_neg ne.1, if_neg ne.2.1, if_neg ne.2.2.1]
      exact read
  | [first, second] =>
    have read := parseNameSegs_flatten valid rest
    rw [List.flatten_cons, List.flatten_cons, List.flatten_nil, List.append_nil] at read
    rw [pathBytes, List.cons_append, parseNamePath, if_neg (by decide), if_pos rfl]
    exact read
  | first :: second :: third :: more =>
    have read := parseNameSegs_flatten valid rest
    have size : (BitVec.ofNat 8
        (first :: second :: third :: more).length).toNat =
        (first :: second :: third :: more).length := by
      rw [BitVec.toNat_ofNat]
      exact Nat.mod_eq_of_lt count
    rw [pathBytes, List.cons_append, List.cons_append, parseNamePath,
      if_neg (by decide), if_neg (by decide), if_pos rfl, parseMultiName,
      if_neg, size]
    · exact read
    · intro zero
      rw [zero] at size
      cases size
    · simp
    · simp
    · simp

theorem pathBytes_head :
    ∃ lead more, pathBytes segments = lead :: more ∧ lead ≠ 0x5c ∧ lead ≠ 0x5e := by
  match segments with
  | [] => exact ⟨_, _, rfl, by decide, by decide⟩
  | [segment] =>
    match segment, valid segment (.head _) with
    | [a, b, c, d], segment =>
      exact ⟨a, [b, c, d], rfl, segment.1.ne.2.2.2.1, segment.1.ne.2.2.2.2⟩
  | [first, second] => exact ⟨_, _, rfl, by decide, by decide⟩
  | first :: second :: third :: more =>
    exact ⟨_, _, rfl, by decide, by decide⟩

end

theorem parseParents_replicate {lead : Byte} (ne : lead ≠ 0x5e) (count : Nat) (more : List Byte) :
    parseParents (List.replicate count 0x5e ++ lead :: more) = (count, lead :: more) := by
  induction count with
  | zero => exact if_neg ne
  | succ count ih =>
    rw [List.replicate_succ, List.cons_append, parseParents, if_pos rfl, ih]

theorem NameString.Valid.parse {name : NameString} (valid : name.Valid) (rest : List Byte) :
    parseNameString (name.bytes ++ rest) = some (name, rest) := by
  obtain ⟨root, parents, segments⟩ := name
  obtain ⟨lead, more, shape, notRoot, notParent⟩ := pathBytes_head valid.segments
  have path := parseNamePath_pathBytes valid.segments valid.count rest
  cases root with
  | true =>
    have none := valid.parents rfl
    dsimp only at none
    rw [NameString.bytes, none]
    rw [if_pos rfl, List.replicate_zero, List.nil_append, List.singleton_append,
      List.cons_append, parseNameString, if_pos rfl, path]
    rfl
  | false =>
    have prefixes := parseParents_replicate notParent parents (more ++ rest)
    have unfolded : NameString.bytes ⟨false, parents, segments⟩ ++ rest =
        List.replicate parents 0x5e ++ lead :: (more ++ rest) := by
      rw [NameString.bytes]
      simp [shape]
    rw [shape, List.cons_append] at path
    rw [unfolded]
    cases parents with
    | zero =>
      rw [List.replicate_zero, List.nil_append] at prefixes ⊢
      rw [parseNameString, if_neg notRoot, prefixes]
      dsimp only
      rw [path]
      rfl
    | succ parents =>
      rw [List.replicate_succ, List.cons_append] at prefixes ⊢
      rw [parseNameString, if_neg (by decide), prefixes]
      dsimp only
      rw [path]
      rfl

end Coreboot.Aml
