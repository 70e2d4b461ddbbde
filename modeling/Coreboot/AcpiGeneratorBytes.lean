import Mathlib.Algebra.Order.Ring.Nat
import Coreboot.AcpiGenerator

/-!
# What the generator's functions write

The functions that open no package append an integer's prefix and bytes, a string, or a path of
padded segments.
-/

namespace Coreboot.Acpigen

open Aml ByteMemory

@[simp]
theorem Generator.append_nil (g : Generator) : g.append [] = g := by
  rw [Generator.append, List.append_nil]

@[simp]
theorem Generator.append_append (g : Generator) (first second : List Byte) :
    (g.append first).append second = g.append (first ++ second) := by
  simp only [Generator.append, List.append_assoc]

@[simp]
theorem Generator.append_lenStack (g : Generator) (bytes : List Byte) :
    (g.append bytes).lenStack = g.lenStack :=
  rfl

@[simp]
theorem emitByte_eq (b : Byte) (g : Generator) : emitByte b g = g.append [b] := rfl

@[simp]
theorem emitExtOp_eq (op : Byte) (g : Generator) : emitExtOp op g = g.append [extOpPrefix, op] := by
  rw [emitExtOp, emitByte_eq, emitByte_eq, Generator.append_append]
  rfl

@[simp]
theorem emitStream_eq (data : List Byte) (g : Generator) : emitStream data g = g.append data := by
  induction data generalizing g with
  | nil => exact g.append_nil.symm
  | cons byte data ih =>
    have step : emitStream (byte :: data) g = emitStream data (emitByte byte g) := rfl
    rw [step, ih, emitByte_eq, Generator.append_append]
    rfl

theorem shifted_byte {width : Nat} (data : BitVec width) (shift : Nat) (wide : 8 ≤ width) :
    (data >>> shift &&& BitVec.ofNat width 0xff).setWidth 8 =
      BitVec.ofNat 8 (data.toNat / 2 ^ shift) := by
  apply BitVec.eq_of_toNat_eq
  have power : 2 ^ 8 ≤ 2 ^ width := Nat.pow_le_pow_right Nat.two_pos wide
  have mask : 0xff % 2 ^ width = 2 ^ 8 - 1 := Nat.mod_eq_of_lt (by omega)
  rw [BitVec.toNat_setWidth, BitVec.toNat_and, BitVec.toNat_ushiftRight,
    BitVec.toNat_ofNat, BitVec.toNat_ofNat, mask, Nat.and_two_pow_sub_one_eq_mod,
    Nat.shiftRight_eq_div_pow, Nat.mod_mod]

theorem low_byte {width : Nat} (data : BitVec width) (wide : 8 ≤ width) :
    (data &&& BitVec.ofNat width 0xff).setWidth 8 = BitVec.ofNat 8 data.toNat := by
  have shifted := shifted_byte data 0 wide
  rwa [BitVec.ushiftRight_zero, pow_zero, Nat.div_one] at shifted

section

variable (data : BitVec 32)
include data

@[simp]
theorem emitWord_eq (g : Generator) : emitWord data g = g.append (encodeLE 2 data.toNat) := by
  rw [emitWord, emitByte_eq, emitByte_eq, Generator.append_append,
    low_byte data (by decide), shifted_byte data 8 (by decide)]
  rfl

@[simp]
theorem emitDword_eq (g : Generator) : emitDword data g = g.append (encodeLE 4 data.toNat) := by
  simp only [emitDword, emitByte_eq, Generator.append_append]
  rw [low_byte data (by decide), shifted_byte data 8 (by decide),
    shifted_byte data 16 (by decide), shifted_byte data 24 (by decide)]
  simp only [encodeLE, Nat.div_div_eq_div_mul]
  rfl

@[simp]
theorem writeByte_eq (g : Generator) :
    writeByte data g = g.append (bytePrefix :: encodeLE 1 data.toNat) := by
  rw [writeByte, emitByte_eq, emitByte_eq, Generator.append_append, low_byte data (by decide)]
  rfl

@[simp]
theorem writeWord_eq (g : Generator) :
    writeWord data g = g.append (wordPrefix :: encodeLE 2 data.toNat) := by
  rw [writeWord, emitWord_eq, emitByte_eq, Generator.append_append]
  rfl

@[simp]
theorem writeDword_eq (g : Generator) :
    writeDword data g = g.append (dwordPrefix :: encodeLE 4 data.toNat) := by
  rw [writeDword, emitDword_eq, emitByte_eq, Generator.append_append]
  rfl

end

theorem encodeLE_append (first second number : Nat) :
    encodeLE first number ++ encodeLE second (number / 256 ^ first) =
      encodeLE (first + second) number := by
  induction first generalizing number with
  | zero => rw [pow_zero, Nat.div_one, Nat.zero_add]; rfl
  | succ first ih =>
    rw [Nat.succ_add, encodeLE, encodeLE, List.cons_append, pow_succ,
      Nat.mul_comm, ← Nat.div_div_eq_div_mul, ih]

@[simp]
theorem writeQword_eq (data : BitVec 64) (g : Generator) :
    writeQword data g = g.append (qwordPrefix :: encodeLE 8 data.toNat) := by
  have low : ((data &&& 0xffffffff#64).setWidth 32).toNat = data.toNat % 256 ^ 4 := by
    rw [BitVec.toNat_setWidth, BitVec.toNat_and]
    have mask : (0xffffffff#64).toNat = 2 ^ 32 - 1 := rfl
    rw [mask, Nat.and_two_pow_sub_one_eq_mod, Nat.mod_mod]
    rfl
  have high : ((data >>> 32 &&& 0xffffffff#64).setWidth 32).toNat = data.toNat / 256 ^ 4 := by
    have below := data.isLt
    rw [BitVec.toNat_setWidth, BitVec.toNat_and, BitVec.toNat_ushiftRight,
      Nat.shiftRight_eq_div_pow]
    have mask : (0xffffffff#64).toNat = 2 ^ 32 - 1 := rfl
    rw [mask, Nat.and_two_pow_sub_one_eq_mod, Nat.mod_mod]
    exact Nat.mod_eq_of_lt (by omega)
  rw [writeQword, emitDword_eq, emitDword_eq, emitByte_eq, Generator.append_append,
    Generator.append_append, low, high, encodeLE_mod, encodeLE_append]
  rfl

def integerBytes (data : BitVec 64) : List Byte :=
  if data = 0 then [zeroOp]
  else if data = 1 then [oneOp]
  else if data ≤ 0xff#64 then bytePrefix :: encodeLE 1 data.toNat
  else if data ≤ 0xffff#64 then wordPrefix :: encodeLE 2 data.toNat
  else if data ≤ 0xffffffff#64 then dwordPrefix :: encodeLE 4 data.toNat
  else qwordPrefix :: encodeLE 8 data.toNat

@[simp]
theorem writeInteger_eq (data : BitVec 64) (g : Generator) :
    writeInteger data g = g.append (integerBytes data) := by
  simp only [writeInteger, integerBytes, writeZero, writeOne, emitByte_eq,
    writeByte_eq, writeWord_eq, writeDword_eq, writeQword_eq, ← apply_ite]
  congr 1
  split_ifs with zero one byte word dword
  · rfl
  · rfl
  · rw [BitVec.le_def] at byte
    have below : data.toNat ≤ 0xff := byte
    rw [BitVec.toNat_setWidth, BitVec.toNat_setWidth,
      Nat.mod_eq_of_lt (a := data.toNat) (by omega),
      Nat.mod_eq_of_lt (by omega)]
  · rw [BitVec.le_def] at word
    have below : data.toNat ≤ 0xffff := word
    rw [BitVec.toNat_setWidth, Nat.mod_eq_of_lt (by omega)]
  · rw [BitVec.le_def] at dword
    have below : data.toNat ≤ 0xffffffff := dword
    rw [BitVec.toNat_setWidth, Nat.mod_eq_of_lt (by omega)]
  · rfl

def stringBytes (string : Option (List Byte)) : List Byte := stringPrefix :: (string.getD [] ++ [0])

@[simp]
theorem writeString_eq (string : Option (List Byte)) (g : Generator) :
    writeString string g = g.append (stringBytes string) := by
  simp only [writeString, emitString, emitByte_eq, emitStream_eq, Generator.append_append]
  rfl

def Segment : List Byte → Prop
  | [] => False
  | lead :: more =>
    LeadNameChar lead ∧ more.length ≤ 3 ∧ ∀ c ∈ more, NameChar c

structure Path where
  root : Bool
  parents : Nat
  segments : List (List Byte)

structure Path.Valid (path : Path) : Prop where
  parents : path.root = true → path.parents = 0
  count : path.segments.length < 256
  segments : ∀ segment ∈ path.segments, Segment segment

def joinDots : List (List Byte) → List Byte
  | [] => []
  | [segment] => segment
  | segment :: next :: more => segment ++ 0x2e :: joinDots (next :: more)

def Path.text (path : Path) : List Byte :=
  (if path.root then [0x5c] else []) ++ (List.replicate path.parents 0x5e ++ joinDots path.segments)

/-- "An ASL compiler pads a name shorter than 4 characters" with underscores. -/
def pad (segment : List Byte) : List Byte := segment ++ List.replicate (4 - segment.length) 0x5f

def Path.name (path : Path) : NameString :=
  { root := path.root
    parents := path.parents
    segments := path.segments.map pad }

structure Unpadded (segment : List Byte) : Prop where
  nonempty : segment ≠ []
  short : segment.length ≤ 4
  chars : ∀ c ∈ segment, NameChar c

variable {segment rest : List Byte} {segments : List (List Byte)} {path : Path}

theorem Unpadded.noDot (unpadded : Unpadded segment) : ∀ c ∈ segment, c ≠ 0x2e :=
  fun c member => (unpadded.chars c member).ne.2.1

theorem Segment.unpadded (valid : Segment segment) : Unpadded segment := by
  match segment, valid with
  | lead :: more, valid =>
    exact
      { nonempty := List.cons_ne_nil _ _
        short := Nat.succ_le_succ valid.2.1
        chars := List.forall_mem_cons.mpr ⟨.inl valid.1, valid.2.2⟩ }

theorem Segment.nameSeg (valid : Segment segment) : NameSeg (pad segment) := by
  have underscore : NameChar 0x5f := .inl (.inl rfl)
  match segment, valid with
  | [_], ⟨lead, _, _⟩ => exact ⟨lead, underscore, underscore, underscore⟩
  | [_, b], ⟨lead, _, chars⟩ =>
    exact ⟨lead, chars b (by simp), underscore, underscore⟩
  | [_, b, c], ⟨lead, _, chars⟩ =>
    exact ⟨lead, chars b (by simp), chars c (by simp), underscore⟩
  | [_, b, c, d], ⟨lead, _, chars⟩ =>
    exact ⟨lead, chars b (by simp), chars c (by simp), chars d (by simp)⟩

theorem Path.Valid.name (valid : path.Valid) : path.name.Valid :=
  { parents := valid.parents
    count := by
      rw [Path.name, List.length_map]
      exact valid.count
    segments := by
      intro segment member
      obtain ⟨other, inside, rfl⟩ := List.mem_map.mp member
      exact (valid.segments other inside).nameSeg }

theorem emitSimpleNamestringFrom_append (noDot : ∀ c ∈ segment, c ≠ 0x2e)
    (ends : rest = [] ∨ rest.head? = some 0x2e) {left : Nat}
    (short : segment.length ≤ left) (g : Generator) :
    emitSimpleNamestringFrom left (segment ++ rest) g =
      g.append (segment ++ List.replicate (left - segment.length) 0x5f) := by
  induction segment generalizing left g with
  | nil =>
    cases left with
    | zero => exact g.append_nil.symm
    | succ left =>
      rcases ends with rfl | ends
      · exact emitStream_eq _ g
      · obtain ⟨more, rfl⟩ : ∃ more, rest = 0x2e :: more := by
          cases rest with
          | nil => cases ends
          | cons c more => exact ⟨more, by rw [← Option.some.inj ends]⟩
        rw [List.nil_append, emitSimpleNamestringFrom, if_pos rfl]
        exact emitStream_eq _ g
  | cons c segment ih =>
    rw [List.forall_mem_cons] at noDot
    rw [List.length_cons] at short
    rcases left with _ | left
    · omega
    rw [List.cons_append, emitSimpleNamestringFrom, if_neg noDot.1,
      ih noDot.2 (by omega), emitByte_eq, Generator.append_append,
      List.length_cons, Nat.add_sub_add_right]
    rfl

theorem emitSimpleNamestring_append (valid : Unpadded segment)
    (ends : rest = [] ∨ rest.head? = some 0x2e) (g : Generator) :
    emitSimpleNamestring (segment ++ rest) g = g.append (pad segment) :=
  emitSimpleNamestringFrom_append valid.noDot ends valid.short g

theorem nextEntity_append (noDot : ∀ c ∈ segment, c ≠ 0x2e) (rest : List Byte) :
    nextEntity (segment ++ 0x2e :: rest) = rest ∧ nextEntity segment = [] := by
  induction segment with
  | nil => exact ⟨if_pos rfl, rfl⟩
  | cons c segment ih =>
    rw [List.forall_mem_cons] at noDot
    rw [List.cons_append, nextEntity, nextEntity, if_neg noDot.1, if_neg noDot.1]
    exact ih noDot.2

theorem emitEntities_of_ne_nil {name : List Byte} (nonempty : name ≠ [])
    (count : Nat) (g : Generator) :
    emitEntities count g name =
      emitEntities (count + 1) (emitSimpleNamestring name g) (nextEntity name) := by
  cases name with
  | nil => cases nonempty rfl
  | cons c name => rw [emitEntities]

section

variable (valid : ∀ segment ∈ segments, Unpadded segment)
include valid

theorem emitEntities_joinDots (count : Nat) (g : Generator) :
    emitEntities count g (joinDots segments) =
      (g.append (segments.map pad).flatten, count + segments.length) := by
  induction segments generalizing count g with
  | nil => rw [joinDots, emitEntities]; simp
  | cons segment segments ih =>
    have first := valid segment (.head _)
    have later := ih (List.forall_mem_cons.mp valid).2
    cases segments with
    | nil =>
      have read := emitSimpleNamestring_append first (.inl rfl) g
      rw [List.append_nil] at read
      rw [joinDots, emitEntities_of_ne_nil first.nonempty, read,
        (nextEntity_append first.noDot []).2, emitEntities]
      simp
    | cons next more =>
      rw [joinDots, emitEntities_of_ne_nil (by simp),
        emitSimpleNamestring_append first (.inr rfl),
        (nextEntity_append first.noDot _).1, later,
        Generator.append_append]
      simp only [List.map_cons, List.flatten_cons, List.length_cons]
      congr 1
      omega

theorem emitMultiNamestring_joinDots (g : Generator) :
    emitMultiNamestring (joinDots segments) g =
      g.append (multiNamePrefix :: BitVec.ofNat 8 segments.length ::
        (segments.map pad).flatten) := by
  rw [emitMultiNamestring]
  simp only [emitByte_eq, Generator.append_append, emitEntities_joinDots valid]
  simp only [Generator.append, List.length_append, List.length_cons, List.length_nil, Nat.zero_add]
  have position : g.output.length + (1 + 1) - 1 = g.output.length + 1 := rfl
  rw [position, List.append_assoc, List.set_append_right _ _ (by omega)]
  simp

omit valid in
theorem countDots_append (noDot : ∀ c ∈ segment, c ≠ 0x2e) (rest : List Byte)
    (i : Nat) (dots : Nat × Nat) :
    countDots (segment ++ rest) i dots = countDots rest (i + segment.length) dots := by
  induction segment generalizing i with
  | nil => rfl
  | cons c segment ih =>
    rw [List.forall_mem_cons] at noDot
    rw [List.cons_append, countDots, if_neg noDot.1, ih noDot.2, List.length_cons]
    congr 1
    omega

omit valid in
theorem countDots_joinDots (valid : ∀ s ∈ segment :: segments, Unpadded s)
    (i : Nat) (dots : Nat × Nat) :
    (countDots (joinDots (segment :: segments)) i dots).1 = dots.1 + segments.length := by
  induction segments generalizing segment i dots with
  | nil =>
    have scanned := countDots_append (valid segment (.head _)).noDot [] i dots
    rw [List.append_nil] at scanned
    rw [joinDots, scanned]
    rfl
  | cons next more ih =>
    rw [joinDots, countDots_append (valid segment (.head _)).noDot, countDots, if_pos rfl,
      ih (List.forall_mem_cons.mp valid).2]
    simp only [List.length_cons]
    omega

omit valid in
theorem skipParents_replicate (notParent : rest.head? ≠ some 0x5e) (count : Nat) (g : Generator) :
    skipParents (List.replicate count 0x5e ++ rest) g =
      (rest, g.append (List.replicate count 0x5e)) := by
  induction count generalizing g with
  | zero =>
    cases rest with
    | nil => simp [skipParents]
    | cons c rest =>
      have ne : c ≠ 0x5e := fun same => notParent (by rw [same]; rfl)
      rw [List.replicate_zero, List.nil_append, skipParents, if_neg ne, Generator.append_nil]
  | succ count ih =>
    rw [List.replicate_succ, List.cons_append, skipParents, if_pos rfl, ih,
      emitByte_eq, Generator.append_append]
    rfl

theorem joinDots_head :
    joinDots segments = [] ∧ segments = [] ∨
      ∃ lead more, joinDots segments = lead :: more ∧ NameChar lead := by
  match segments with
  | [] => exact .inl ⟨rfl, rfl⟩
  | [segment] =>
    match segment, valid segment (.head _) with
    | [], segment => exact absurd rfl segment.nonempty
    | lead :: more, segment =>
      exact .inr ⟨lead, more, rfl, segment.chars lead (.head _)⟩
  | segment :: next :: others =>
    match segment, valid segment (.head _) with
    | [], segment => exact absurd rfl segment.nonempty
    | lead :: more, segment =>
      exact .inr ⟨lead, _, rfl, segment.chars lead (.head _)⟩

theorem emitNamepath_joinDots (parents : Nat) (g : Generator) :
    emitNamepath (List.replicate parents 0x5e ++ joinDots segments) g =
      g.append (List.replicate parents 0x5e ++ pathBytes (segments.map pad)) := by
  have notParent : (joinDots segments).head? ≠ some 0x5e := by
    rcases joinDots_head valid with ⟨empty, _⟩ | ⟨lead, more, shape, char⟩
    · rw [empty]; exact nofun
    · rw [shape, List.head?_cons]
      exact fun same => char.ne.2.2.2.2 (Option.some.inj same)
  rw [emitNamepath, skipParents_replicate notParent]
  dsimp only
  rcases joinDots_head valid with ⟨empty, rfl⟩ | ⟨lead, more, shape, _⟩
  · rw [if_pos empty, emitByte_eq, Generator.append_append]
    rfl
  · rw [if_neg (by rw [shape]; exact List.cons_ne_nil _ _)]
    match segments with
    | [] => cases shape
    | [segment] =>
      have dots : (countDots (joinDots [segment]) 0 (0, 0)).1 = 0 :=
        countDots_joinDots valid 0 (0, 0)
      have read := emitSimpleNamestring_append
        (valid segment (.head _)) (.inl rfl)
        (g.append (List.replicate parents 0x5e))
      rw [List.append_nil] at read
      rw [if_pos dots, joinDots, read, Generator.append_append]
      rfl
    | [first, second] =>
      have dots : (countDots (joinDots [first, second]) 0 (0, 0)).1 = 1 :=
        countDots_joinDots valid 0 (0, 0)
      have one := valid first (.head _)
      have two := valid second (by simp)
      have last : (countDots (joinDots [first, second]) 0 (0, 0)).2 = first.length := by
        have scanned := countDots_append two.noDot [] (first.length + 1) (1, first.length)
        rw [List.append_nil] at scanned
        rw [joinDots, joinDots, countDots_append one.noDot, countDots,
          if_pos rfl, Nat.zero_add, Nat.zero_add, scanned]
        rfl
      have read := emitSimpleNamestring_append two (.inl rfl)
        (((g.append (List.replicate parents 0x5e)).append [dualNamePrefix]).append (pad first))
      rw [List.append_nil] at read
      rw [if_neg (by rw [dots]; decide), if_pos dots, last,
        emitDoubleNamestring, joinDots, joinDots,
        emitSimpleNamestring_append one (.inr rfl), emitByte_eq,
        List.drop_append, Nat.add_sub_cancel_left,
        List.drop_eq_nil_of_le (Nat.le_succ _), List.nil_append,
        List.drop_succ_cons, List.drop_zero, read]
      simp only [Generator.append_append]
      congr 1
      simp [pathBytes, dualNamePrefix]
    | first :: second :: third :: others =>
      have dots := countDots_joinDots valid 0 (0, 0)
      rw [if_neg (by rw [dots]; simp), if_neg (by rw [dots]; simp),
        emitMultiNamestring_joinDots valid, Generator.append_append]
      congr 1
      simp [pathBytes, multiNamePrefix]

end

theorem emitNamestring_text (unpadded : ∀ segment ∈ path.segments, Unpadded segment)
    (g : Generator) : emitNamestring path.text g = g.append path.name.bytes := by
  obtain ⟨root, parents, segments⟩ := path
  have emitted := emitNamepath_joinDots unpadded parents
  rw [Acpigen.emitNamestring]
  cases root with
  | true =>
    rw [if_pos (show (Path.text ⟨true, parents, segments⟩).head? = some 0x5c from rfl)]
    have tail : (Path.text ⟨true, parents, segments⟩).tail =
        List.replicate parents 0x5e ++ joinDots segments :=
      rfl
    rw [tail, emitted, emitByte_eq, Generator.append_append]
    rfl
  | false =>
    have text : Path.text ⟨false, parents, segments⟩ =
        List.replicate parents 0x5e ++ joinDots segments :=
      rfl
    rw [text, if_neg, emitted]
    · rfl
    · cases parents with
      | succ parents => exact nofun
      | zero =>
        rcases joinDots_head unpadded with ⟨empty, _⟩ | ⟨lead, more, shape, char⟩
        · rw [List.replicate_zero, List.nil_append]
          rw [empty]
          exact nofun
        · rw [List.replicate_zero, List.nil_append]
          rw [shape]
          exact fun same => char.ne.2.2.2.1 (Option.some.inj same)

@[simp]
theorem Path.Valid.emitNamestring (valid : path.Valid) (g : Generator) :
    emitNamestring path.text g = g.append path.name.bytes :=
  emitNamestring_text (fun segment member => (valid.segments segment member).unpadded) g

end Coreboot.Acpigen
