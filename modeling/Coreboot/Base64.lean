import Coreboot.ByteMemory

/-!
# Decoding of base64

The decoder collects the bits of the characters in an accumulator, from which a
byte is taken as soon as eight bits are there.  Padding and line breaks are passed
over wherever they stand.
-/

namespace Coreboot.Base64

def cd64 : List Char :=
  "|$$$\x7drstuvwxyz\x7b$$$$$$$>?@ABCDEFGHIJKLMNOPQRSTUVW$$$$$$XYZ[\\]^_`abcdefghijklmnopq".toList

def isSkipped (c : Byte) : Bool := c = 0x3d || c = 0xa || c = 0xd

def isalnum (c : Byte) : Bool :=
  (0x61 ≤ c && c ≤ 0x7a) || (0x41 ≤ c && c ≤ 0x5a) || (0x30 ≤ c && c ≤ 0x39)

def isBase64 (c : Byte) : Bool := isalnum c || c = 0x2b || c = 0x2f

def getNextChar : List Byte → Int × List Byte
  | [] => (0, [])
  | c :: rest =>
    if isSkipped c then getNextChar rest
    else if !isBase64 c then (-1, rest)
    else (c.toNat, rest)

/-- The six bits of a character, in an `int`. -/
def translate (v : Int) : BitVec 32 :=
  BitVec.ofInt 32 (((cd64[(v - 43).toNat]?.getD '$').toNat : Int) - 62)

/-- The accumulator, the number of its bits that are not in the output, and the
output. -/
structure Decoder where
  interim : BitVec 32
  bitCount : Nat
  output : List Byte

def Decoder.add (decoder : Decoder) (v : BitVec 32) : Decoder :=
  if decoder.bitCount ≥ 2 then
    let remainingBits := 8 - decoder.bitCount
    let interim := decoder.interim <<< remainingBits ||| v >>> (6 - remainingBits)
    { interim := v
      bitCount := decoder.bitCount - 2
      output := decoder.output ++ [interim.setWidth 8] }
  else
    { decoder with
      interim := decoder.interim <<< 6 ||| v
      bitCount := decoder.bitCount + 6 }

structure Decoded where
  returned : Nat
  written : List Byte
deriving DecidableEq, Repr

theorem length_getNextChar_lt {input : List Byte} (found : (getNextChar input).1 ≠ 0) :
    (getNextChar input).2.length < input.length := by
  induction input with
  | nil => exact absurd rfl found
  | cons c rest ih =>
    rw [getNextChar] at found ⊢
    split_ifs at found ⊢ with skipped bad
    · exact Nat.lt_succ_of_lt (ih found)
    · exact Nat.lt_succ_self _
    · exact Nat.lt_succ_self _

def b64Loop (input : List Byte) (decoder : Decoder) : Decoded :=
  if (getNextChar input).1 < 0 then ⟨0, decoder.output⟩
  else if _ : (getNextChar input).1 = 0 then
    ⟨decoder.output.length, decoder.output⟩
  else
    b64Loop (getNextChar input).2 (decoder.add (translate (getNextChar input).1))
termination_by input.length
decreasing_by exact length_getNextChar_lt ‹_›

def b64Decode (inputData : List Byte) : Decoded := b64Loop inputData ⟨0, 0, []⟩

/-- The characters of the six-bit numbers: capital letters, small letters, digits,
`+` and `/`. -/
def alphabet (number : BitVec 6) : Byte :=
  if number < 26 then 0x41 + number.setWidth 8
  else if number < 52 then 0x61 + (number.setWidth 8 - 26)
  else if number < 62 then 0x30 + (number.setWidth 8 - 52)
  else if number = 62 then 0x2b
  else 0x2f

def pad : Byte := 0x3d

/-- The characters of three bytes, and of the one or two bytes at the end. -/
def encode : List Byte → List Byte
  | [] => []
  | [first] =>
    [alphabet (first.extractLsb' 2 6), alphabet (first.extractLsb' 0 2 ++ 0#4), pad, pad]
  | [first, second] =>
    [alphabet (first.extractLsb' 2 6),
      alphabet (first.extractLsb' 0 2 ++ second.extractLsb' 4 4),
      alphabet (second.extractLsb' 0 4 ++ 0#2), pad]
  | first :: second :: third :: rest =>
    alphabet (first.extractLsb' 2 6) ::
      alphabet (first.extractLsb' 0 2 ++ second.extractLsb' 4 4) ::
      alphabet (second.extractLsb' 0 4 ++ third.extractLsb' 6 2) ::
      alphabet (third.extractLsb' 0 6) :: encode rest

/-- A text with padding and line breaks inserted anywhere, and with or without its
own padding. -/
inductive Spread : List Byte → List Byte → Prop
  | done : Spread [] []
  | keep (c : Byte) {encoded text : List Byte} (rest : Spread encoded text) :
      Spread (c :: encoded) (c :: text)
  | insert {c : Byte} (skipped : isSkipped c = true)
      {encoded text : List Byte} (rest : Spread encoded text) :
      Spread encoded (c :: text)
  | drop {encoded text : List Byte} (rest : Spread encoded text) :
      Spread (pad :: encoded) text

/-- The decoder inverts the encoding, writes the whole bytes that there are bits
for, and refuses other characters. -/
structure Correct (text : List Byte) : Prop where
  inverts : ∀ bytes, Spread (encode bytes) text → b64Decode text = ⟨bytes.length, bytes⟩
  counts : (∀ c ∈ text, isBase64 c = true ∨ isSkipped c = true) →
    (b64Decode text).returned = 6 * text.countP isBase64 / 8 ∧
      (b64Decode text).written.length = 6 * text.countP isBase64 / 8
  rejects : (∃ c ∈ text, isBase64 c = false ∧ isSkipped c = false) → (b64Decode text).returned = 0

section Characters

theorem isBase64_of_isSkipped {c : Byte} (skipped : isSkipped c = true) : isBase64 c = false := by
  revert skipped
  revert c
  decide

theorem isBase64_alphabet : ∀ number : BitVec 6, isBase64 (alphabet number) = true := by
  decide

theorem isSkipped_of_isBase64 {c : Byte} (valid : isBase64 c = true) : isSkipped c = false := by
  cases skipped : isSkipped c with
  | false => rfl
  | true => exact absurd (isBase64_of_isSkipped skipped) (by simp [valid])

def bitsOf (c : Byte) : BitVec 6 := (translate c.toNat).setWidth 6

theorem translate_of_isBase64 : ∀ {c : Byte}, isBase64 c = true →
    translate c.toNat = (bitsOf c).setWidth 32 := by
  decide

theorem bitsOf_alphabet : ∀ number : BitVec 6, bitsOf (alphabet number) = number := by
  decide

end Characters

variable {text : List Byte}

section Loop

variable {c : Byte} {rest : List Byte} (decoder : Decoder)

theorem getNextChar_of_isSkipped (skipped : isSkipped c = true)
    (rest : List Byte) : getNextChar (c :: rest) = getNextChar rest :=
  if_pos skipped

theorem getNextChar_of_isBase64 (valid : isBase64 c = true) (rest : List Byte) :
    getNextChar (c :: rest) = ((c.toNat : Int), rest) := by
  rw [getNextChar, isSkipped_of_isBase64 valid, valid]
  rfl

theorem getNextChar_of_other (other : isBase64 c = false) (skipped : isSkipped c = false)
    (rest : List Byte) : getNextChar (c :: rest) = (-1, rest) := by
  rw [getNextChar, skipped, other]
  rfl

theorem toNat_ne_zero_of_isBase64 (valid : isBase64 c = true) : c.toNat ≠ 0 := by
  revert valid
  revert c
  decide

theorem b64Loop_nil : b64Loop [] decoder = ⟨decoder.output.length, decoder.output⟩ := by
  rw [b64Loop]
  rfl

theorem b64Loop_skip (skipped : isSkipped c = true) :
    b64Loop (c :: rest) decoder = b64Loop rest decoder := by
  rw [b64Loop, getNextChar_of_isSkipped skipped, ← b64Loop]

theorem b64Loop_base64 (valid : isBase64 c = true) :
    b64Loop (c :: rest) decoder = b64Loop rest (decoder.add ((bitsOf c).setWidth 32)) := by
  have number : (c.toNat : Int) ≠ 0 := Int.ofNat_ne_zero.mpr (toNat_ne_zero_of_isBase64 valid)
  rw [b64Loop, getNextChar_of_isBase64 valid, if_neg (by dsimp only; omega),
    dif_neg number, translate_of_isBase64 valid]

theorem b64Loop_other (other : isBase64 c = false) (skipped : isSkipped c = false) :
    b64Loop (c :: rest) decoder = ⟨0, decoder.output⟩ := by
  rw [b64Loop, getNextChar_of_other other skipped]
  rfl

def sextets (text : List Byte) : List (BitVec 6) := (text.filter isBase64).map bitsOf

theorem b64Loop_eq (valid : ∀ c ∈ text, isBase64 c = true ∨ isSkipped c = true) :
    b64Loop text decoder =
      let final := ((sextets text).map (BitVec.setWidth 32)).foldl Decoder.add decoder
      ⟨final.output.length, final.output⟩ := by
  induction text generalizing decoder with
  | nil => exact b64Loop_nil decoder
  | cons c rest ih =>
    have later : ∀ c ∈ rest, isBase64 c = true ∨ isSkipped c = true :=
      (List.forall_mem_cons.mp valid).2
    rcases valid c (.head _) with base64 | skipped
    · rw [b64Loop_base64 decoder base64, ih _ later, sextets, sextets,
        List.filter_cons_of_pos base64]
      rfl
    · rw [b64Loop_skip decoder skipped, ih _ later, sextets, sextets,
        List.filter_cons_of_neg (by simp [isBase64_of_isSkipped skipped])]

theorem b64Loop_of_other (other : ∃ c ∈ text, isBase64 c = false ∧ isSkipped c = false) :
    (b64Loop text decoder).returned = 0 := by
  obtain ⟨bad, member, refused⟩ := other
  induction text generalizing decoder with
  | nil => cases member
  | cons c rest ih =>
    cases skipped : isSkipped c with
    | true =>
      rcases List.mem_cons.mp member with rfl | later
      · exact absurd skipped (by simp [refused.2])
      · rw [b64Loop_skip decoder skipped]
        exact ih decoder later
    | false =>
      cases base64 : isBase64 c with
      | false => rw [b64Loop_other decoder base64 skipped]
      | true =>
        rcases List.mem_cons.mp member with rfl | later
        · exact absurd base64 (by simp [refused.1])
        · rw [b64Loop_base64 decoder base64]
          exact ih _ later

end Loop

section Regroup

/-- The first byte of a group, and those across the middle and the end of it. -/
def firstByte (a b : BitVec 6) : Byte := a ++ b.extractLsb' 4 2

def secondByte (b c : BitVec 6) : Byte := b.extractLsb' 0 4 ++ c.extractLsb' 2 4

def thirdByte (c d : BitVec 6) : Byte := c.extractLsb' 0 2 ++ d

/-- The whole bytes in a stream of six-bit numbers. -/
def regroup : List (BitVec 6) → List Byte
  | [] => []
  | [_] => []
  | [a, b] => [firstByte a b]
  | [a, b, c] => [firstByte a b, secondByte b c]
  | a :: b :: c :: d :: rest =>
    firstByte a b :: secondByte b c :: thirdByte c d :: regroup rest

theorem length_regroup (numbers : List (BitVec 6)) :
    (regroup numbers).length = 6 * numbers.length / 8 := by
  induction numbers using regroup.induct with
  | case1 => rfl
  | case2 a => rw [regroup, List.length_singleton, List.length_nil]
  | case3 a b => simp [regroup]
  | case4 a b c => simp [regroup]
  | case5 a b c d rest ih =>
    simp only [regroup, List.length_cons, ih]
    omega

theorem setWidth_firstByte (interim : BitVec 32) (a b : BitVec 6) :
    ((interim <<< 6 ||| a.setWidth 32) <<< 2 ||| b.setWidth 32 >>> 4).setWidth
      8 = firstByte a b := by
  rw [firstByte]
  ext i below
  simp
  grind

theorem setWidth_secondByte (b c : BitVec 6) :
    (b.setWidth 32 <<< 4 ||| c.setWidth 32 >>> 2).setWidth 8 = secondByte b c := by
  rw [secondByte]
  ext i below
  simp
  grind

theorem setWidth_thirdByte (c d : BitVec 6) :
    (c.setWidth 32 <<< 6 ||| d.setWidth 32 >>> 0).setWidth 8 = thirdByte c d := by
  rw [thirdByte]
  ext i below
  simp
  grind

/-- From a whole number of bytes on, the loop appends the bytes of the stream,
whatever the accumulator holds. -/
theorem output_foldl_add (numbers : List (BitVec 6)) (interim : BitVec 32) (output : List Byte) :
    ((numbers.map (BitVec.setWidth 32)).foldl Decoder.add
      ⟨interim, 0, output⟩).output = output ++ regroup numbers := by
  induction numbers using regroup.induct generalizing interim output with
  | case1 => exact (List.append_nil output).symm
  | case2 a => exact (List.append_nil output).symm
  | case3 a b =>
    rw [regroup, ← setWidth_firstByte interim]
    rfl
  | case4 a b c =>
    rw [regroup, ← setWidth_firstByte interim, ← setWidth_secondByte]
    exact List.append_assoc output [_] [_]
  | case5 a b c d rest ih =>
    have group : ((a :: b :: c :: d :: rest).map (BitVec.setWidth 32)).foldl
        Decoder.add ⟨interim, 0, output⟩ =
        (rest.map (BitVec.setWidth 32)).foldl Decoder.add
          ⟨d.setWidth 32, 0, output ++ [firstByte a b] ++ [secondByte b c] ++ [thirdByte c d]⟩ := by
      rw [← setWidth_firstByte interim, ← setWidth_secondByte, ← setWidth_thirdByte]
      rfl
    rw [group, ih, regroup]
    simp only [List.append_assoc, List.cons_append, List.nil_append]

theorem b64Decode_eq (valid : ∀ c ∈ text, isBase64 c = true ∨ isSkipped c = true) :
    b64Decode text = ⟨(regroup (sextets text)).length, regroup (sextets text)⟩ := by
  rw [b64Decode, b64Loop_eq _ valid]
  dsimp only
  rw [output_foldl_add, List.nil_append]

end Regroup

section Encoding

def numbersOf : List Byte → List (BitVec 6)
  | [] => []
  | [first] => [first.extractLsb' 2 6, first.extractLsb' 0 2 ++ 0#4]
  | [first, second] =>
    [first.extractLsb' 2 6, first.extractLsb' 0 2 ++ second.extractLsb' 4 4,
      second.extractLsb' 0 4 ++ 0#2]
  | first :: second :: third :: rest =>
    first.extractLsb' 2 6 ::
      (first.extractLsb' 0 2 ++ second.extractLsb' 4 4) ::
      (second.extractLsb' 0 4 ++ third.extractLsb' 6 2) ::
      third.extractLsb' 0 6 :: numbersOf rest

theorem firstByte_eq (first : Byte) (more : BitVec 4) :
    firstByte (first.extractLsb' 2 6) (first.extractLsb' 0 2 ++ more) = first := by
  rw [firstByte]
  ext i below
  simp
  grind

theorem secondByte_eq (top : BitVec 2) (second : Byte) (more : BitVec 2) :
    secondByte (top ++ second.extractLsb' 4 4) (second.extractLsb' 0 4 ++ more) = second := by
  rw [secondByte]
  ext i below
  simp
  grind

theorem thirdByte_eq (top : BitVec 4) (third : Byte) :
    thirdByte (top ++ third.extractLsb' 6 2) (third.extractLsb' 0 6) = third := by
  rw [thirdByte]
  ext i below
  simp
  grind

theorem regroup_numbersOf (bytes : List Byte) : regroup (numbersOf bytes) = bytes := by
  induction bytes using numbersOf.induct with
  | case1 => rfl
  | case2 first => rw [numbersOf, regroup, firstByte_eq]
  | case3 first second =>
    rw [numbersOf, regroup, firstByte_eq, secondByte_eq]
  | case4 first second third rest ih =>
    rw [numbersOf, regroup, firstByte_eq, secondByte_eq, thirdByte_eq, ih]

theorem sextets_alphabet (number : BitVec 6) (text : List Byte) :
    sextets (alphabet number :: text) = number :: sextets text := by
  rw [sextets, List.filter_cons_of_pos (isBase64_alphabet number), List.map_cons,
    bitsOf_alphabet, sextets]

theorem sextets_skipped {c : Byte} (skipped : isSkipped c = true)
    (text : List Byte) : sextets (c :: text) = sextets text := by
  rw [sextets, List.filter_cons_of_neg (by simp [isBase64_of_isSkipped skipped]), sextets]

theorem sextets_encode (bytes : List Byte) : sextets (encode bytes) = numbersOf bytes := by
  have padding : ∀ text, sextets (pad :: text) = sextets text := sextets_skipped rfl
  induction bytes using numbersOf.induct with
  | case1 => rfl
  | case2 first =>
    rw [encode, sextets_alphabet, sextets_alphabet, padding, padding]
    rfl
  | case3 first second =>
    rw [encode, sextets_alphabet, sextets_alphabet, sextets_alphabet, padding]
    rfl
  | case4 first second third rest ih =>
    rw [encode, sextets_alphabet, sextets_alphabet, sextets_alphabet,
      sextets_alphabet, ih, numbersOf]

theorem valid_encode (bytes : List Byte) :
    ∀ c ∈ encode bytes, isBase64 c = true ∨ isSkipped c = true := by
  induction bytes using numbersOf.induct with
  | case1 => exact List.forall_mem_nil _
  | case2 first => simp [encode, isBase64_alphabet, isSkipped, pad]
  | case3 first second => simp [encode, isBase64_alphabet, isSkipped, pad]
  | case4 first second third rest ih =>
    simp only [encode, List.forall_mem_cons, isBase64_alphabet, true_or, true_and]
    exact ih

theorem Spread.sextets_eq {encoded text : List Byte}
    (spread : Spread encoded text) : sextets text = sextets encoded := by
  induction spread with
  | done => rfl
  | keep c rest ih =>
    by_cases base64 : isBase64 c = true
    · rw [sextets, sextets, List.filter_cons_of_pos base64,
        List.filter_cons_of_pos base64, List.map_cons, List.map_cons]
      exact congrArg (bitsOf c :: ·) ih
    · rw [sextets, sextets, List.filter_cons_of_neg base64, List.filter_cons_of_neg base64]
      exact ih
  | insert skipped rest ih => rw [sextets_skipped skipped, ih]
  | drop rest ih => rw [sextets_skipped rfl, ih]

theorem Spread.valid {encoded text : List Byte} (spread : Spread encoded text)
    (valid : ∀ c ∈ encoded, isBase64 c = true ∨ isSkipped c = true) :
    ∀ c ∈ text, isBase64 c = true ∨ isSkipped c = true := by
  induction spread with
  | done => exact valid
  | keep c rest ih =>
    rw [List.forall_mem_cons] at valid ⊢
    exact ⟨valid.1, ih valid.2⟩
  | insert skipped rest ih =>
    exact List.forall_mem_cons.mpr ⟨.inr skipped, ih valid⟩
  | drop rest ih => exact ih (List.forall_mem_cons.mp valid).2

end Encoding

theorem b64Decode_correct (text : List Byte) : Correct text where
  inverts := by
    intro bytes spread
    rw [b64Decode_eq (spread.valid (valid_encode bytes)), spread.sextets_eq,
      sextets_encode, regroup_numbersOf]
  counts := by
    intro valid
    rw [b64Decode_eq valid, length_regroup, sextets, List.length_map, List.countP_eq_length_filter]
    exact ⟨rfl, rfl⟩
  rejects := b64Loop_of_other _

/-- A line break in the encoding of three letters, without the padding. -/
example : Spread (encode [0x6d, 0x61]) [0x62, 0xa, 0x57, 0x45] :=
  .keep _ (.insert rfl (.keep _ (.keep _ (.drop .done))))

end Coreboot.Base64
