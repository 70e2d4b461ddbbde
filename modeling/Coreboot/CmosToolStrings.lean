import Coreboot.CmosTool

/-!
# String entries of the CMOS tool

A string is transferred through the 64-bit words of its buffer.  A chunk that
goes from one word to the next is cut off, and the last word can be wider than
what is left of the buffer.
-/

namespace Coreboot.Cmos

open BitMemory

/-- The bytes of a buffer, as the host reads them in words of 64 bits. -/
structure Text where
  words : Nat → BitVec 64
  size : Nat

namespace Text

def bit (text : Text) (i : Nat) : Bool := (text.words (i / 64)).getLsbD (i % 64)

/-- `none` is an access behind the end of the buffer. -/
def word (text : Text) (index : Nat) : Option (BitVec 64) :=
  if 8 * index + 8 ≤ text.size then some (text.words index) else none

def setWord (text : Text) (index : Nat) (value : BitVec 64) : Text where
  words k := if k = index then value else text.words k
  size := text.size

def cleared (size : Nat) : Text := ⟨fun _ => 0, size⟩

end Text

/-- `verify_cmos_op` for a string; the sum is one of unsigned integers. -/
def verifyCmosStringOp (bit length : Nat) : Bool :=
  ¬(bit ≥ 8 * cmosSize ∨ (bit + length) % 2 ^ 32 > 8 * cmosSize) ∧ ¬bit < 8 * cmosRtcAreaSize

def stringStrategy (bit bitsLeft : Nat) : Nat :=
  cmosBitOpStrategy bit (if bitsLeft > 64 then 64 else bitsLeft)

@[simp]
theorem stringStrategy_eq (bit bitsLeft : Nat) :
    stringStrategy bit bitsLeft = cmosBitOpStrategy bit bitsLeft := by
  rw [stringStrategy, cmosBitOpStrategy, cmosBitOpStrategy]
  split_ifs
  all_goals omega

def cmosWriteStringLoop (data : Text) (bit nextBit bitsLeft : Nat) (m : Memory) : Option Memory :=
  if some : bitsLeft = 0 then
    Option.some m
  else
    let nrBits := stringStrategy (bit + nextBit) bitsLeft
    have := cmosBitOpStrategy_pos (bit + nextBit) some
    (data.word (nextBit / 64)).bind fun value =>
      (cmosWriteBits m ((bit + nextBit) / 8) ((bit + nextBit) % 8) nrBits
        (getBits value (nextBit % 64) nrBits)).bind
          (cmosWriteStringLoop data bit (nextBit + nrBits) (bitsLeft - nrBits))
termination_by bitsLeft
decreasing_by rw [stringStrategy_eq]; omega

def cmosWriteString (bit length : Nat) (data : Text) (m : Memory) : Option Memory :=
  if verifyCmosStringOp bit length then
    cmosWriteStringLoop data bit 0 length m
  else
    none

def cmosReadStringLoop (m : Memory) (bit nextBit bitsLeft : Nat) (newstring : Text) : Option Text :=
  if some : bitsLeft = 0 then
    Option.some newstring
  else
    let nrBits := stringStrategy (bit + nextBit) bitsLeft
    have := cmosBitOpStrategy_pos (bit + nextBit) some
    let value := cmosReadBits m ((bit + nextBit) / 8) ((bit + nextBit) % 8) nrBits
    (newstring.word (nextBit / 64)).bind fun word =>
      cmosReadStringLoop m bit (nextBit + nrBits) (bitsLeft - nrBits)
        (newstring.setWord (nextBit / 64) (putBits value (nextBit % 64) nrBits word))
termination_by bitsLeft
decreasing_by rw [stringStrategy_eq]; omega

/-- Without a bit to read, the result stays the null pointer. -/
def cmosReadString (bit length : Nat) (m : Memory) : Option (Option Text) :=
  if verifyCmosStringOp bit length then
    (cmosReadStringLoop m bit 0 length
      (.cleared ((length + 7) % 2 ^ 32 / 8 + 1))).map fun newstring =>
        if length = 0 then none else some newstring
  else
    none

inductive AnyEntry
  | number (e : Entry)
  | string (bit length : Nat)
deriving DecidableEq

namespace AnyEntry

def bit : AnyEntry → Nat
  | .number e => e.bit
  | .string bit _ => bit

def length : AnyEntry → Nat
  | .number e => e.length
  | .string _ length => length

def Verified : AnyEntry → Prop
  | .number e => verifyCmosOp e.bit e.length = true
  | .string bit length => verifyCmosStringOp bit length = true

/-- What `cmos_write` is given, and `cmos_read` returns. -/
abbrev Value : AnyEntry → Type
  | .number _ => BitVec 64
  | .string _ _ => Text

/-- "(length + 7) / 8 + 1" bytes hold a string. -/
def Fits : (a : AnyEntry) → a.Value → Prop
  | .number _, _ => True
  | .string _ length, data => data.size = (length + 7) / 8 + 1

def write : (a : AnyEntry) → a.Value → Memory → Option Memory
  | .number e, value, m => cmosWrite m e value
  | .string bit length, data, m => cmosWriteString bit length data m

def ReadsBack : (a : AnyEntry) → a.Value → Memory → Prop
  | .number e, value, m => ∃ found, cmosRead m e = some found ∧
      found.toNat = value.toNat % 2 ^ e.length
  | .string bit length, data, m => ∃ found,
      cmosReadString bit length m = some found ∧
        ∀ i < length, found.map (Text.bit · i) = some (data.bit i)

structure Sound (a : AnyEntry) : Prop where
  stores : ∀ value, a.Fits value → ∀ m, ∃ next,
    a.write value m = some next ∧ a.ReadsBack value next ∧
      ∀ k, ¬(a.bit ≤ k ∧ k < a.bit + a.length) → bitAt next k = bitAt m k
  commutes : ∀ b : AnyEntry, b.Verified →
    a.bit + a.length ≤ b.bit ∨ b.bit + b.length ≤ a.bit →
    ∀ value other m, (a.write value m).bind (b.write other) = (b.write other m).bind (a.write value)

/-- A string is inside of the CMOS memory, begins with a byte or is no longer
than a word, and its last word ends with its buffer. -/
def Whole : AnyEntry → Prop
  | .number _ => True
  | .string bit length => bit + length ≤ 8 * cmosSize ∧
      (bit % 8 = 0 ∨ length ≤ 64) ∧
      ((length + 7) / 8 % 8 = 0 ∨ (length + 7) / 8 % 8 = 7)

end AnyEntry

/-- No chunk from here on goes from one word to the next. -/
def Apart (bit nextBit bitsLeft : Nat) : Prop :=
  bitsLeft = 0 ∨ bit % 8 = 0 ∧ nextBit % 8 = 0 ∨ nextBit + bitsLeft ≤ 64

variable {bit nextBit bitsLeft : Nat} {data : Text} {m next : Memory}

theorem Apart.chunk (apart : Apart bit nextBit bitsLeft) (some : bitsLeft ≠ 0) :
    let nrBits := cmosBitOpStrategy (bit + nextBit) bitsLeft
    nextBit % 64 + nrBits ≤ 64 ∧ Apart bit (nextBit + nrBits) (bitsLeft - nrBits) := by
  dsimp only
  rw [Apart] at apart ⊢
  rw [cmosBitOpStrategy]
  split
  · omega
  · omega

/-- A write stops wherever it is made, or always stores the same bits. -/
def Stores (write : Memory → Option Memory) (bit length : Nat) : Prop :=
  (∀ m, write m = none) ∨
    ∃ value, ∀ m, ∃ next, write m = some next ∧ Replaced m next bit length value

theorem Stores.commute {first second : Memory → Option Memory} {bit length at_ width : Nat}
    (one : Stores first bit length) (two : Stores second at_ width)
    (apart : bit + length ≤ at_ ∨ at_ + width ≤ bit) (m : Memory) :
    (first m).bind second = (second m).bind first := by
  rcases one with stop | ⟨value, one⟩
  · rw [stop m, Option.bind_none]
    cases second m with
    | none => rfl
    | some next => exact (stop next).symm
  rcases two with stop | ⟨other, two⟩
  · rw [stop m, Option.bind_none]
    cases first m with
    | none => rfl
    | some next => exact stop next
  obtain ⟨left, wrote, leftBits⟩ := one m
  obtain ⟨right, wroteOther, rightBits⟩ := two m
  obtain ⟨leftThen, thenOther, thenBits⟩ := two left
  obtain ⟨rightThen, thenFirst, otherBits⟩ := one right
  rw [wrote, wroteOther, Option.bind_some, Option.bind_some, thenOther, thenFirst]
  congr 1
  funext index
  refine byte_eq_of_bits fun i small => ?_
  rw [← bitAt_byte small, thenBits, otherBits, leftBits, rightBits]
  split_ifs
  all_goals first | rfl | omega

theorem cmosWriteBits_of_beyond {byteIndex bitOffset nrBits : Nat} {value : Byte}
    (beyond : 256 ≤ byteIndex) : cmosWriteBits m byteIndex bitOffset nrBits value = none := by
  have invalid : verifyCmosByteIndex byteIndex = true := verifyCmosByteIndex_iff.mpr (by omega)
  rw [cmosWriteBits, cmosWriteByte, cmosWriteByte, if_pos invalid, if_pos invalid, ite_self]

theorem cmosWriteStringLoop_of_beyond (some : bitsLeft ≠ 0)
    (beyond : 2048 < bit + nextBit + bitsLeft) (m : Memory) :
    cmosWriteStringLoop data bit nextBit bitsLeft m = none := by
  induction bitsLeft using Nat.strongRecOn generalizing nextBit m with
  | ind bitsLeft ih =>
    have positive := cmosBitOpStrategy_pos (bit + nextBit) some
    have inByte := cmosBitOpStrategy_le (bit + nextBit) bitsLeft
    rw [cmosWriteStringLoop, dif_neg some]
    simp only [stringStrategy_eq]
    cases data.word (nextBit / 64) with
    | none => rfl
    | some value =>
      rw [Option.bind_some]
      by_cases here : 256 ≤ (bit + nextBit) / 8
      · rw [cmosWriteBits_of_beyond here]
        rfl
      · refine Option.bind_eq_none_iff.mpr fun middle _ => ?_
        exact ih _ (by omega) (by omega) (by omega) middle

theorem cmosWriteStringLoop_cases (outside : 112 ≤ bit + nextBit)
    (inside : bit + nextBit + bitsLeft ≤ 2048) :
    ((∀ m, cmosWriteStringLoop data bit nextBit bitsLeft m = none) ∧
      bitsLeft ≠ 0 ∧ data.size < 8 * ((nextBit + bitsLeft - 1) / 64) + 8) ∨
    ∃ value : Nat → Bool,
      (∀ m, ∃ next, cmosWriteStringLoop data bit nextBit bitsLeft m = some next ∧
        Replaced m next (bit + nextBit) bitsLeft value) ∧
      (Apart bit nextBit bitsLeft →
        (∀ i < bitsLeft, value i = data.bit (nextBit + i)) ∧
        (bitsLeft = 0 ∨ 8 * ((nextBit + bitsLeft - 1) / 64) + 8 ≤ data.size)) := by
  induction bitsLeft using Nat.strongRecOn generalizing nextBit with
  | ind bitsLeft ih =>
    by_cases done : bitsLeft = 0
    · subst done
      refine .inr ⟨fun _ => false, fun m => ⟨m, ?_, .refl m _ _⟩, fun _ => ?_⟩
      · rw [cmosWriteStringLoop, dif_pos rfl]
      · exact ⟨nofun, .inl rfl⟩
    have positive := cmosBitOpStrategy_pos (bit + nextBit) done
    have inByte := cmosBitOpStrategy_le (bit + nextBit) bitsLeft
    have chunk := fun apart => @Apart.chunk bit nextBit bitsLeft apart done
    have unfolded := fun m =>
      cmosWriteStringLoop.eq_def data bit nextBit bitsLeft m
    simp only [dif_neg done, stringStrategy_eq] at unfolded
    generalize cmosBitOpStrategy (bit + nextBit) bitsLeft = nrBits at *
    by_cases held : 8 * (nextBit / 64) + 8 ≤ data.size
    case neg =>
      refine .inl ⟨fun m => ?_, done, by omega⟩
      rw [unfolded, Text.word, if_neg held]
      rfl
    rw [Text.word, if_pos held] at unfolded
    have written := fun m => cmosWriteBits_spec m
      (getBits (data.words (nextBit / 64)) (nextBit % 64) nrBits) inByte.2
      (show 14 ≤ (bit + nextBit) / 8 ∧ (bit + nextBit) / 8 < 256 by omega)
    rcases @ih (bitsLeft - nrBits) (by omega) (nextBit + nrBits) (by omega)
      (by omega) with ⟨stops, more, short⟩ | ⟨rest, loops, follows⟩
    · refine .inl ⟨fun m => ?_, done, by
        rwa [show nextBit + nrBits + (bitsLeft - nrBits) - 1 =
          nextBit + bitsLeft - 1 by omega] at short⟩
      obtain ⟨middle, wrote, -⟩ := written m
      rw [unfolded, Option.bind_some, wrote]
      exact stops middle
    · refine .inr ⟨fun i => if i < nrBits then
        (data.words (nextBit / 64)).getLsbD (nextBit % 64 + i)
          else rest (i - nrBits), fun m => ?_, fun apart => ⟨fun i less => ?_, ?_⟩⟩
      · obtain ⟨middle, wrote, bits⟩ := written m
        obtain ⟨next, looped, later⟩ := loops middle
        refine ⟨next, by rw [unfolded, Option.bind_some, wrote]; exact looped, ?_⟩
        intro k
        rw [later k, bits k, Nat.div_add_mod]
        dsimp only
        by_cases here : bit + nextBit ≤ k ∧ k < bit + nextBit + nrBits
        · rw [if_neg (by omega), if_pos here, if_pos (by omega),
            if_pos (by omega), getBits_getLsbD _ _ (by omega),
            decide_eq_true (by omega), Bool.true_and]
        · by_cases behind : bit + nextBit + nrBits ≤ k ∧ k < bit + nextBit + bitsLeft
          · rw [if_pos (by omega), if_pos (by omega), if_neg (by omega)]
            congr 1
            omega
          · rw [if_neg (by omega), if_neg here, if_neg (by omega)]
      · obtain ⟨inWord, apart⟩ := chunk apart
        dsimp only
        by_cases here : i < nrBits
        · rw [if_pos here, Text.bit, show (nextBit + i) / 64 = nextBit / 64 by omega,
            show (nextBit + i) % 64 = nextBit % 64 + i by omega]
        · rw [if_neg here, (follows apart).1 (i - nrBits) (by omega)]
          congr 1
          omega
      · obtain ⟨inWord, apart⟩ := chunk apart
        refine .inr ?_
        rcases (follows apart).2 with last | later
        · rwa [show (nextBit + bitsLeft - 1) / 64 = nextBit / 64 by omega]
        · rwa [show nextBit + nrBits + (bitsLeft - nrBits) - 1 =
            nextBit + bitsLeft - 1 by omega] at later

theorem Text.bit_setWord (text : Text) (index : Nat) (value : BitVec 64) (i : Nat) :
    (text.setWord index value).bit i =
      if i / 64 = index then value.getLsbD (i % 64) else text.bit i := by
  rw [bit, setWord]
  dsimp only
  split
  · rfl
  · rfl

theorem cmosReadStringLoop_spec (m : Memory) {newstring : Text} (apart : Apart bit nextBit bitsLeft)
    (held : bitsLeft = 0 ∨ 8 * ((nextBit + bitsLeft - 1) / 64) + 8 ≤ newstring.size)
    (clear : ∀ i, nextBit ≤ i → newstring.bit i = false) :
    ∃ text, cmosReadStringLoop m bit nextBit bitsLeft newstring = some text ∧
      ∀ i, text.bit i = if nextBit ≤ i ∧ i < nextBit + bitsLeft then
        bitAt m (bit + i) else newstring.bit i := by
  induction bitsLeft using Nat.strongRecOn generalizing nextBit newstring with
  | ind bitsLeft ih =>
    rw [cmosReadStringLoop]
    by_cases done : bitsLeft = 0
    · rw [dif_pos done]
      exact ⟨newstring, rfl, fun i => by rw [if_neg (by omega)]⟩
    rw [dif_neg done]
    have positive := cmosBitOpStrategy_pos (bit + nextBit) done
    have inByte := cmosBitOpStrategy_le (bit + nextBit) bitsLeft
    obtain ⟨inWord, apart⟩ := apart.chunk done
    simp only [stringStrategy_eq]
    generalize cmosBitOpStrategy (bit + nextBit) bitsLeft = nrBits at *
    have word : newstring.word (nextBit / 64) =
        some (newstring.words (nextBit / 64)) := if_pos (by omega)
    have put := @putBits_getLsbD (cmosReadBits m ((bit + nextBit) / 8)
      ((bit + nextBit) % 8) nrBits) (nextBit % 64) nrBits
      (newstring.words (nextBit / 64)) (fun i high => by
        by_cases small : i < 64
        · have later := clear (64 * (nextBit / 64) + i) (by omega)
          rwa [Text.bit, show (64 * (nextBit / 64) + i) / 64 = nextBit / 64 by omega,
            show (64 * (nextBit / 64) + i) % 64 = i by omega] at later
        · exact BitVec.getLsbD_of_ge _ _ (Nat.not_lt.mp small)) (by omega) inWord
    have stored : ∀ i, (newstring.setWord (nextBit / 64)
        (putBits (cmosReadBits m ((bit + nextBit) / 8) ((bit + nextBit) % 8)
          nrBits) (nextBit % 64) nrBits
          (newstring.words (nextBit / 64)))).bit i =
        if nextBit ≤ i ∧ i < nextBit + nrBits then bitAt m (bit + i)
        else newstring.bit i := by
      intro i
      rw [Text.bit_setWord, put]
      by_cases here : nextBit ≤ i ∧ i < nextBit + nrBits
      · rw [if_pos (by omega), if_pos (by omega), if_pos here,
          cmosReadBits_getLsbD m inByte.2, decide_eq_true (by omega),
          Bool.true_and, Nat.div_add_mod]
        congr 1
        omega
      · rw [if_neg here]
        split_ifs with same
        · omega
        · rw [Text.bit, same]
        · rfl
    rw [word, Option.bind_some]
    obtain ⟨text, read, bits⟩ := @ih (bitsLeft - nrBits) (by omega)
      (nextBit + nrBits) (newstring.setWord (nextBit / 64) _) apart (by
        rcases held with zero | held
        · exact absurd zero done
        · refine .inr ?_
          rwa [show nextBit + nrBits + (bitsLeft - nrBits) - 1 =
            nextBit + bitsLeft - 1 by omega]) (fun i high => by
        rw [stored, if_neg (by omega)]
        exact clear i (by omega))
    refine ⟨text, read, fun i => ?_⟩
    rw [bits, stored]
    split_ifs
    all_goals first | rfl | omega

theorem putBits_low (value : Byte) {bit nrBits : Nat} (positive : 0 < bit) (result : BitVec 64) :
    (putBits value bit nrBits result).getLsbD 0 = result.getLsbD 0 := by
  rw [putBits, BitVec.getLsbD_add (by decide), BitVec.getLsbD_shiftLeft]
  simp [positive]

theorem cmosReadStringLoop_bit {newstring text : Text} (unaligned : bit % 8 ≠ 0)
    (start : nextBit = 0 ∨ (bit + nextBit) % 8 = 0 ∨ bitsLeft = 0)
    (read : cmosReadStringLoop m bit nextBit bitsLeft newstring = some text) :
    text.bit 64 = newstring.bit 64 := by
  induction bitsLeft using Nat.strongRecOn generalizing nextBit newstring with
  | ind bitsLeft ih =>
    rw [cmosReadStringLoop] at read
    by_cases done : bitsLeft = 0
    · rw [dif_pos done, Option.some.injEq] at read
      rw [read]
    rw [dif_neg done] at read
    have positive := cmosBitOpStrategy_pos (bit + nextBit) done
    have next : (bit + (nextBit + cmosBitOpStrategy (bit + nextBit) bitsLeft)) %
        8 = 0 ∨ bitsLeft - cmosBitOpStrategy (bit + nextBit) bitsLeft = 0 := by
      rw [cmosBitOpStrategy]
      split
      · omega
      · omega
    simp only [stringStrategy_eq] at read
    generalize cmosBitOpStrategy (bit + nextBit) bitsLeft = nrBits at *
    obtain ⟨word, held, read⟩ := Option.bind_eq_some_iff.mp read
    rw [Text.word] at held
    split at held
    · rw [ih _ (by omega) (.inr next) read, Text.bit_setWord]
      cases held
      split
      · rename_i second
        rw [show 64 % 64 = 0 from rfl, putBits_low _ (by omega), ← second]
        rfl
      · rfl
    · cases held

namespace AnyEntry

instance : (a : AnyEntry) → Decidable a.Verified
  | .number _ => inferInstanceAs (Decidable (_ = true))
  | .string _ _ => inferInstanceAs (Decidable (_ = true))

instance : (a : AnyEntry) → Decidable a.Whole
  | .number _ => instDecidableTrue
  | .string _ _ => inferInstanceAs (Decidable (_ ∧ _))

variable {a : AnyEntry}

theorem inside_of_verified {length : Nat} (verified : verifyCmosStringOp bit length = true) :
    112 ≤ bit ∧ bit < 2048 := by
  rw [verifyCmosStringOp, decide_eq_true_eq, cmosSize, cmosRtcAreaSize] at verified
  omega

theorem Verified.stores (verified : a.Verified) (value : a.Value) :
    Stores (a.write value) a.bit a.length := by
  cases a with
  | number e =>
    exact .inr ⟨_, fun m => cmosWrite_of_verified verified m value⟩
  | string bit length =>
    have unfolded : write (.string bit length) value = cmosWriteStringLoop value bit 0 length := by
      funext m
      exact if_pos verified
    have inside := inside_of_verified verified
    rw [unfolded]
    by_cases fits : bit + length ≤ 2048
    · rcases @cmosWriteStringLoop_cases bit 0 length value inside.1 fits with
        stops | ⟨bits, stores, -⟩
      · exact .inl stops.1
      · exact .inr ⟨bits, stores⟩
    · exact .inl fun m => cmosWriteStringLoop_of_beyond (show length ≠ 0 by omega) (by omega) m

theorem Whole.sound (verified : a.Verified) (whole : a.Whole) : a.Sound where
  commutes b other apart value next m := (verified.stores value).commute (other.stores next) apart m
  stores value fits m := by
    cases a with
    | number e =>
      obtain ⟨next, written, replaced⟩ := cmosWrite_of_verified verified m value
      obtain ⟨found, read, bits⟩ := cmosRead_of_verified verified next
      refine ⟨next, written, ⟨found, read, ?_⟩, fun k outside => ?_⟩
      · refine Nat.eq_of_testBit_eq fun i => ?_
        rw [BitVec.testBit_toNat, bits, Nat.testBit_mod_two_pow, replaced, BitVec.testBit_toNat]
        by_cases less : i < e.length
        · rw [if_pos (by omega), Nat.add_sub_cancel_left]
        · rw [decide_eq_false less, Bool.false_and, Bool.false_and]
      · exact (replaced k).trans (if_neg outside)
    | string bit length =>
      obtain ⟨fitsCmos, start, last⟩ := whole
      have checked : verifyCmosStringOp bit length = true := verified
      have inside := inside_of_verified verified
      rw [cmosSize] at fitsCmos
      have apart : Apart bit 0 length := by rw [Apart]; omega
      have held : length = 0 ∨ 8 * ((0 + length - 1) / 64) + 8 ≤ (length + 7) / 8 + 1 := by omega
      rw [Fits] at fits
      rcases @cmosWriteStringLoop_cases bit 0 length value inside.1 fitsCmos with
        ⟨-, some, short⟩ | ⟨bits, stores, follows⟩
      · omega
      obtain ⟨next, written, replaced⟩ := stores m
      obtain ⟨text, read, readBits⟩ := @cmosReadStringLoop_spec bit 0 length next
        (.cleared ((length + 7) % 2 ^ 32 / 8 + 1)) apart (by
          rwa [Text.cleared, Nat.mod_eq_of_lt (by omega)])
        (fun i _ => BitVec.getLsbD_zero)
      refine ⟨next, (if_pos verified).trans written,
        ⟨if length = 0 then none else some text, ?_, fun i less => ?_⟩,
        fun k outside => ?_⟩
      · rw [cmosReadString, if_pos checked, read]
        rfl
      · rw [if_neg (by omega), Option.map_some, readBits, if_pos (by omega),
          replaced, if_pos (by omega), show bit + i - (bit + 0) = i by omega,
          (follows apart).1 i less, Nat.zero_add]
      · exact (replaced k).trans (if_neg outside)

theorem Sound.whole (verified : a.Verified) (sound : a.Sound) : a.Whole := by
  cases a with
  | number e => exact trivial
  | string bit length =>
    have checked : verifyCmosStringOp bit length = true := verified
    have inside := inside_of_verified verified
    let ones : Text := ⟨fun _ => BitVec.allOnes 64, (length + 7) / 8 + 1⟩
    obtain ⟨next, written, ⟨found, read, same⟩, -⟩ := sound.stores ones rfl fun _ => 0
    have loop : cmosWriteStringLoop ones bit 0 length (fun _ => 0) = some next :=
      (if_pos verified).symm.trans written
    have fits : bit + length ≤ 2048 := by
      by_contra beyond
      rw [cmosWriteStringLoop_of_beyond (by omega) (by omega)] at loop
      cases loop
    have start : bit % 8 = 0 ∨ length ≤ 64 := by
      by_contra straddles
      rw [cmosReadString, if_pos checked] at read
      obtain ⟨text, readLoop, rfl⟩ := Option.map_eq_some_iff.mp read
      rw [if_neg (by omega)] at same
      have kept := cmosReadStringLoop_bit (by omega) (.inl rfl) readLoop
      have claimed := same 64 (by omega)
      rw [Option.map_some, kept] at claimed
      exact absurd claimed (by simp [Text.bit, Text.cleared, ones])
    refine ⟨fits, start, ?_⟩
    rcases @cmosWriteStringLoop_cases bit 0 length ones inside.1 fits with
      ⟨stops, -⟩ | ⟨_, -, follows⟩
    · rw [stops] at loop
      cases loop
    · have last := (follows (by rw [Apart]; omega)).2
      have size : ones.size = (length + 7) / 8 + 1 := rfl
      omega

/-- An entry is sound exactly if its string has neither a chunk that goes from
one word to the next nor a last word behind its buffer. -/
theorem sound_iff (a : AnyEntry) (verified : a.Verified) : a.Sound ↔ a.Whole :=
  ⟨Sound.whole verified, Whole.sound verified⟩

theorem sound_eightBytes : (AnyEntry.string 112 64).Sound :=
  (sound_iff (.string 112 64) (by decide)).mpr (by decide)

/-- The string of fifteen bytes begins with the second bit of a byte. -/
theorem not_sound_unaligned : ¬ ∀ a : AnyEntry, a.Verified → a.Sound := by
  intro claim
  have verified : (AnyEntry.string 113 120).Verified := by decide
  have whole := Sound.whole verified (claim _ verified)
  exact absurd whole (by decide)

/-- A parameter that is to be written. -/
abbrev Item : Type := (a : AnyEntry) × a.Value

def doCmosWrites (ck : ChecksumLayout) (list : List Item) (m : Memory) : Option Memory :=
  (list.foldl (fun m item => m.bind (item.1.write item.2)) (some m)).bind fun m =>
    cmosChecksumWrite ck m (cmosChecksumCompute ck m)

/-- The parameters of a file may be in any order. -/
theorem doCmosWrites_perm {list list' : List Item} (perm : list.Perm list')
    (verified : ∀ item ∈ list, item.1.Verified)
    (apart : list.Pairwise fun p q =>
      p.1.bit + p.1.length ≤ q.1.bit ∨ q.1.bit + q.1.length ≤ p.1.bit)
    (ck : ChecksumLayout) (m : Memory) :
    doCmosWrites ck list m = doCmosWrites ck list' m := by
  rw [doCmosWrites, doCmosWrites, perm.foldl_eq']
  intro p inP q inQ current
  cases current with
  | none => rfl
  | some current =>
    by_cases same : p = q
    · rw [same]
    · have symm : Std.Symm fun p q : Item =>
          p.1.bit + p.1.length ≤ q.1.bit ∨ q.1.bit + q.1.length ≤ p.1.bit := ⟨fun _ _ => Or.symm⟩
      exact ((verified p inP).stores p.2).commute ((verified q inQ).stores q.2)
        (apart.forall inP inQ same) current

/-- Four bits from the lower or the upper half of a byte. -/
def halfByte (bit : Nat) : Item := ⟨.number ⟨bit, 4, .enum, 0, []⟩, 5⟩

theorem doCmosWrites_perm_halves :
    doCmosWrites ⟨50, 51, 52⟩ [halfByte 392, halfByte 396] (fun _ => 0) =
      doCmosWrites ⟨50, 51, 52⟩ [halfByte 396, halfByte 392] (fun _ => 0) :=
  doCmosWrites_perm (.swap _ _ _) (by decide) (by decide) _ _

end AnyEntry

end Coreboot.Cmos
