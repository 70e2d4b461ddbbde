import Mathlib.Data.List.Basic
import Mathlib.Tactic.Common
import Mathlib.Tactic.Ring

/-!
# Byte memory

A memory is a byte at every address. Byte strings are stored and loaded as a whole, and
fixed-width numbers as their little-endian bytes.
-/

namespace Coreboot

abbrev Byte := BitVec 8

/-- The contents of an address space. -/
abbrev Memory := Nat → Byte

namespace ByteMemory

def load (memory : Memory) (base : Nat) : Nat → List Byte
  | 0 => []
  | count + 1 => memory base :: load memory (base + 1) count

def store (memory : Memory) (base : Nat) : List Byte → Memory
  | [] => memory
  | byte :: rest => fun address =>
    if address = base then byte else store memory (base + 1) rest address

def fill (memory : Memory) (base count : Nat) (byte : Byte) : Memory :=
  fun address =>
    if base ≤ address ∧ address < base + count then byte else memory address

theorem load_succ (memory : Memory) (base count : Nat) :
    load memory base (count + 1) = memory base :: load memory (base + 1) count :=
  rfl

@[simp]
theorem length_load (memory : Memory) (base count : Nat) :
    (load memory base count).length = count := by
  induction count generalizing base with
  | zero => rfl
  | succ count ih => rw [load_succ, List.length_cons, ih]

variable {memory first second : Memory}
  {base count address other width number lower upper : Nat} {bytes : List Byte}

theorem getElem?_load {index : Nat} (inside : index < count) :
    (load memory base count)[index]? = some (memory (base + index)) := by
  induction count generalizing base index with
  | zero => exact absurd inside (Nat.not_lt_zero index)
  | succ count ih =>
    cases index with
    | zero => rfl
    | succ index =>
      rw [load_succ, List.getElem?_cons_succ, ih (Nat.lt_of_succ_lt_succ inside),
        Nat.add_assoc, Nat.add_comm 1]

theorem take_drop_load (memory : Memory) (base skip count rest : Nat) :
    ((load memory base (skip + count + rest)).drop skip).take count =
      load memory (base + skip) count := by
  induction skip generalizing base with
  | zero =>
    rw [List.drop_zero, Nat.zero_add, Nat.add_zero]
    induction count generalizing base with
    | zero => rfl
    | succ count ih =>
      rw [Nat.succ_add, load_succ, List.take_succ_cons, load_succ, ih]
  | succ skip ih =>
    rw [Nat.succ_add, Nat.succ_add, load_succ, List.drop_succ_cons, ih, Nat.succ_add_eq_add_succ]

theorem load_congr
    (same : ∀ address, base ≤ address → address < base + count → first address = second address) :
    load first base count = load second base count := by
  induction count generalizing base with
  | zero => rfl
  | succ count ih =>
    rw [load_succ, load_succ, same base (by omega) (by omega), ih]
    exact fun address above below => same address (by omega) (by omega)

theorem store_of_outside (outside : address < base ∨ base + bytes.length ≤ address) :
    store memory base bytes address = memory address := by
  induction bytes generalizing base with
  | nil => rfl
  | cons byte rest ih =>
    rw [List.length_cons] at outside
    have elsewhere : address ≠ base := by omega
    exact (if_neg elsewhere).trans (ih (by omega))

theorem load_store_of_disjoint (disjoint : other + count ≤ base ∨ base + bytes.length ≤ other) :
    load (store memory base bytes) other count = load memory other count :=
  load_congr fun _ _ _ => store_of_outside (by omega)

theorem load_store_self (memory : Memory) (base : Nat) (bytes : List Byte) :
    load (store memory base bytes) base bytes.length = bytes := by
  induction bytes generalizing base with
  | nil => rfl
  | cons byte rest ih =>
    have first : store memory base (byte :: rest) base = byte := if_pos rfl
    have later : load (store memory base (byte :: rest)) (base + 1)
        rest.length = load (store memory (base + 1) rest) (base + 1) rest.length :=
      load_congr fun address above _ => if_neg (by omega)
    rw [List.length_cons, load_succ, first, later, ih]

theorem store_cons_apply (memory : Memory) (base : Nat) (byte : Byte)
    (rest : List Byte) (address : Nat) :
    store memory base (byte :: rest) address =
      if address = base then byte else store memory (base + 1) rest address :=
  rfl

theorem store_apply_congr (same : first address = second address) (base : Nat) (bytes : List Byte) :
    store first base bytes address = store second base bytes address := by
  induction bytes generalizing base with
  | nil => exact same
  | cons byte rest ih =>
    rw [store_cons_apply, store_cons_apply, ih]

theorem store_append (memory : Memory) (base : Nat) (first second : List Byte) :
    store memory base (first ++ second) =
      store (store memory (base + first.length) second) base first := by
  induction first generalizing base with
  | nil => rfl
  | cons byte rest ih =>
    funext address
    rw [List.cons_append, store_cons_apply, store_cons_apply, ih,
      List.length_cons, Nat.add_right_comm, Nat.add_assoc]

theorem store_store_append (memory : Memory) (base : Nat) (first second : List Byte) :
    store (store memory base first) (base + first.length) second =
      store memory base (first ++ second) := by
  induction first generalizing memory base with
  | nil => rfl
  | cons byte rest ih =>
    funext address
    rw [List.cons_append, store_cons_apply, ← ih, List.length_cons]
    by_cases same : address = base
    · rw [if_pos same, store_of_outside (.inl (by omega)), store_cons_apply, if_pos same]
    · rw [if_neg same, Nat.add_comm rest.length, ← Nat.add_assoc]
      apply store_apply_congr
      rw [store_cons_apply, if_neg same]

theorem load_append (memory : Memory) (base first second : Nat) :
    load memory base (first + second) =
      load memory base first ++ load memory (base + first) second := by
  induction first generalizing base with
  | zero =>
    rw [Nat.zero_add, Nat.add_zero]
    rfl
  | succ first ih =>
    rw [Nat.succ_add, load_succ, load_succ, List.cons_append, ih, Nat.succ_add_eq_add_succ]

theorem load_translate (same : ∀ i < count, first (base + i) = second (other + i)) :
    load first base count = load second other count := by
  induction count generalizing base other with
  | zero => rfl
  | succ count ih =>
    have head := same 0 (Nat.succ_pos count)
    rw [Nat.add_zero, Nat.add_zero] at head
    rw [load_succ, load_succ, head]
    congr 1
    apply ih
    intro i below
    have next := same (i + 1) (Nat.succ_lt_succ below)
    rwa [← Nat.succ_add_eq_add_succ, ← Nat.succ_add_eq_add_succ] at next

theorem load_eq_load_iff :
    load first base count = load second other count ↔
      ∀ index < count, first (base + index) = second (other + index) := by
  refine ⟨fun same => ?_, load_translate⟩
  induction count generalizing base other with
  | zero => exact fun index below => absurd below (Nat.not_lt_zero index)
  | succ count ih =>
    obtain ⟨head, tail⟩ := List.cons.inj same
    intro index below
    rcases index with _ | index
    · exact head
    · have next := ih tail index (by omega)
      rwa [Nat.add_right_comm, Nat.add_right_comm other] at next

theorem store_translate (same : ∀ i < count, first (base + i) = second (other + i)) (skip : Nat)
    (bytes : List Byte) :
    ∀ i < count, store first (base + skip) bytes (base + i) =
      store second (other + skip) bytes (other + i) := by
  induction bytes generalizing skip with
  | nil => exact same
  | cons byte rest ih =>
    intro i below
    have later := ih (skip + 1) i below
    by_cases here : i = skip
    · subst here
      exact (if_pos rfl).trans (if_pos rfl).symm
    · exact (if_neg (by omega)).trans (later.trans (if_neg (by omega)).symm)

theorem load_store_load {memory source : Memory} {base count skip part : Nat}
    (inside : skip + part ≤ count) :
    load (store memory base (load source 0 count)) (base + skip) part = load source skip part := by
  obtain ⟨rest, rfl⟩ := Nat.exists_eq_add_of_le inside
  have copied := load_store_self memory base (load source 0 (skip + part + rest))
  rw [length_load] at copied
  rw [← take_drop_load _ base skip part rest, copied,
    take_drop_load source 0 skip part rest, Nat.zero_add]

theorem store_load_apply {memory source : Memory} {base count i : Nat} (inside : i < count) :
    store memory base (load source 0 count) (base + i) = source i :=
  (List.cons.inj (@load_store_load memory source base count i 1 inside)).1

theorem store_load_apply_add {memory source : Memory}
    {base other count i : Nat} (inside : i < count) :
    store memory base (load source other count) (base + i) = source (other + i) := by
  obtain ⟨rest, rfl⟩ := Nat.exists_eq_add_of_le (Nat.succ_le_of_lt inside)
  have copied := load_store_self memory base (load source other (i + 1 + rest))
  rw [length_load] at copied
  have part := take_drop_load (store memory base (load source other (i + 1 + rest))) base i 1 rest
  rw [copied, take_drop_load] at part
  exact (List.cons.inj part).1.symm

theorem load_eq_replicate {byte : Byte}
    (same : ∀ address, base ≤ address → address < base + count → memory address = byte) :
    load memory base count = List.replicate count byte := by
  induction count generalizing base with
  | zero => rfl
  | succ count ih =>
    rw [load_succ, same base le_rfl (by omega), List.replicate_succ, ih]
    exact fun address above below => same address (by omega) (by omega)

def decodeLE : List Byte → Nat
  | [] => 0
  | byte :: rest => byte.toNat + 256 * decodeLE rest

def encodeLE : Nat → Nat → List Byte
  | 0, _ => []
  | width + 1, number => BitVec.ofNat 8 number :: encodeLE width (number / 256)

@[simp]
theorem length_encodeLE (width number : Nat) : (encodeLE width number).length = width := by
  induction width generalizing number with
  | zero => rfl
  | succ width ih => rw [encodeLE, List.length_cons, ih]

theorem decodeLE_lt (bytes : List Byte) : decodeLE bytes < 256 ^ bytes.length := by
  induction bytes with
  | nil => exact Nat.one_pos
  | cons byte rest ih =>
    have low := byte.isLt
    rw [decodeLE, List.length_cons, pow_succ]
    omega

theorem decodeLE_encodeLE (width number : Nat) :
    decodeLE (encodeLE width number) = number % 256 ^ width := by
  induction width generalizing number with
  | zero => rw [pow_zero, Nat.mod_one]; rfl
  | succ width ih =>
    have split : 256 ^ (width + 1) = 256 * 256 ^ width := pow_succ' 256 width
    rw [encodeLE, decodeLE, ih, BitVec.toNat_ofNat, split, Nat.mod_mul]

def readLE (width : Nat) (memory : Memory) (base : Nat) : Nat := decodeLE (load memory base width)

def writeLE (width : Nat) (memory : Memory) (base number : Nat) : Memory :=
  store memory base (encodeLE width number)

theorem readLE_lt (width : Nat) (memory : Memory) (base : Nat) :
    readLE width memory base < 256 ^ width := by
  have bound := decodeLE_lt (load memory base width)
  rwa [length_load] at bound

theorem readLE_store_encodeLE (memory : Memory) (base : Nat) (fits : number < 256 ^ width) :
    readLE width (store memory base (encodeLE width number)) base = number := by
  have loaded := load_store_self memory base (encodeLE width number)
  rw [length_encodeLE] at loaded
  rw [readLE, loaded, decodeLE_encodeLE, Nat.mod_eq_of_lt fits]

theorem readLE_store_of_disjoint (disjoint : other + width ≤ base ∨ base + bytes.length ≤ other) :
    readLE width (store memory base bytes) other = readLE width memory other := by
  rw [readLE, load_store_of_disjoint disjoint, readLE]

theorem readLE_writeLE_self (memory : Memory) (base : Nat) (fits : number < 256 ^ width) :
    readLE width (writeLE width memory base number) base = number :=
  readLE_store_encodeLE memory base fits

def decodeBE (bytes : List Byte) : Nat := decodeLE bytes.reverse

def encodeBE (width number : Nat) : List Byte := (encodeLE width number).reverse

@[simp]
theorem length_encodeBE (width number : Nat) : (encodeBE width number).length = width := by
  rw [encodeBE, List.length_reverse, length_encodeLE]

def readBE (width : Nat) (memory : Memory) (base : Nat) : Nat := decodeBE (load memory base width)

theorem encodeLE_mod (width number : Nat) :
    encodeLE width (number % 256 ^ width) = encodeLE width number := by
  induction width generalizing number with
  | zero => rfl
  | succ width ih =>
    rw [encodeLE, encodeLE, pow_succ, Nat.mul_comm, Nat.mod_mul_right_div_self, ih]
    congr 1
    apply BitVec.eq_of_toNat_eq
    rw [BitVec.toNat_ofNat, BitVec.toNat_ofNat]
    exact Nat.mod_mul_right_mod _ _ _

theorem encodeBE_mod (width number : Nat) :
    encodeBE width (number % 256 ^ width) = encodeBE width number := by
  rw [encodeBE, encodeLE_mod, encodeBE]

theorem decodeBE_encodeBE (width number : Nat) :
    decodeBE (encodeBE width number) = number % 256 ^ width := by
  rw [decodeBE, encodeBE, List.reverse_reverse, decodeLE_encodeLE]

def writeBE (width : Nat) (memory : Memory) (base number : Nat) : Memory :=
  store memory base (encodeBE width number)

theorem readBE_lt (width : Nat) (memory : Memory) (base : Nat) :
    readBE width memory base < 256 ^ width := by
  have bound := decodeLE_lt (load memory base width).reverse
  rwa [List.length_reverse, length_load] at bound

theorem readBE_writeBE_self (width number : Nat) (memory : Memory) (base : Nat) :
    readBE width (writeBE width memory base number) base = number % 256 ^ width := by
  have loaded := load_store_self memory base (encodeBE width number)
  rw [length_encodeBE] at loaded
  rw [readBE, writeBE, loaded, decodeBE, encodeBE, List.reverse_reverse, decodeLE_encodeLE]

/-- The second memory differs from the first one only within a range. -/
def SameOutside (first second : Memory) (lower upper : Nat) : Prop :=
  ∀ address, address < lower ∨ upper ≤ address → second address = first address

theorem SameOutside.refl (memory : Memory) (lower upper : Nat) :
    SameOutside memory memory lower upper :=
  fun _ _ => rfl

theorem SameOutside.symm (change : SameOutside first second lower upper) :
    SameOutside second first lower upper :=
  fun address outside => (change address outside).symm

theorem SameOutside.trans {first second third : Memory} {lower upper : Nat}
    (change : SameOutside first second lower upper) (next : SameOutside second third lower upper) :
    SameOutside first third lower upper :=
  fun address outside => (next address outside).trans (change address outside)

theorem SameOutside.mono (change : SameOutside first second lower upper) {lower' upper' : Nat}
    (below : lower' ≤ lower) (above : upper ≤ upper') : SameOutside first second lower' upper' :=
  fun address outside => change address (by omega)

theorem SameOutside.readLE (change : SameOutside first second lower upper)
    (outside : base + width ≤ lower ∨ upper ≤ base) :
    readLE width second base = ByteMemory.readLE width first base := by
  rw [ByteMemory.readLE, ByteMemory.readLE,
    load_congr fun address above below => change address (by omega)]

theorem sameOutside_writeLE (above : lower ≤ base) (below : base + width ≤ upper) :
    SameOutside memory (writeLE width memory base number) lower upper := by
  intro address outside
  apply store_of_outside
  rw [length_encodeLE]
  omega

theorem SameOutside.readBE (change : SameOutside first second lower upper)
    (outside : base + width ≤ lower ∨ upper ≤ base) :
    readBE width second base = ByteMemory.readBE width first base := by
  rw [ByteMemory.readBE, ByteMemory.readBE,
    load_congr fun address above below => change address (by omega)]

theorem SameOutside.load (change : SameOutside first second lower upper)
    (outside : base + count ≤ lower ∨ upper ≤ base) :
    load second base count = ByteMemory.load first base count :=
  load_congr fun address above below => change address (by omega)

theorem sameOutside_store {memory : Memory} {base : Nat} {bytes : List Byte} {lower upper : Nat}
    (above : lower ≤ base) (below : base + bytes.length ≤ upper) :
    SameOutside memory (store memory base bytes) lower upper :=
  fun _ outside => store_of_outside (by omega)

theorem sameOutside_writeBE {memory : Memory} {width base number : Nat} {lower upper : Nat}
    (above : lower ≤ base) (below : base + width ≤ upper) :
    SameOutside memory (writeBE width memory base number) lower upper :=
  sameOutside_store above (by rwa [length_encodeBE])

theorem sameOutside_fill {memory : Memory} {base count : Nat} {byte : Byte} {lower upper : Nat}
    (above : lower ≤ base) (below : base + count ≤ upper) :
    SameOutside memory (fill memory base count byte) lower upper :=
  fun _ outside => if_neg (by omega)

/-- The memory after bytes have been programmed: bits can only be cleared. -/
def program (memory : Memory) (base : Nat) : List Byte → Memory
  | [] => memory
  | byte :: rest => fun address =>
    if address = base then memory address &&& byte
    else program memory (base + 1) rest address

theorem program_of_outside (outside : address < base ∨ base + bytes.length ≤ address) :
    program memory base bytes address = memory address := by
  induction bytes generalizing base with
  | nil => rfl
  | cons byte rest ih =>
    rw [List.length_cons] at outside
    have elsewhere : address ≠ base := by omega
    exact (if_neg elsewhere).trans (ih (by omega))

theorem load_program_of_disjoint (disjoint : other + count ≤ base ∨ base + bytes.length ≤ other) :
    load (program memory base bytes) other count = load memory other count :=
  load_congr fun _ _ _ => program_of_outside (by omega)

theorem load_program_self (clears : List.Forall₂ (fun current new => current &&& new = new)
      (load memory base bytes.length) bytes) :
    load (program memory base bytes) base bytes.length = bytes := by
  induction bytes generalizing base with
  | nil => rfl
  | cons byte rest ih =>
    rw [List.length_cons, load_succ] at clears
    obtain ⟨head, tail⟩ := List.forall₂_cons.mp clears
    have first : program memory base (byte :: rest) base = byte := (if_pos rfl).trans head
    have later : load (program memory base (byte :: rest)) (base + 1)
        rest.length = load (program memory (base + 1) rest) (base + 1) rest.length :=
      load_congr fun address above _ => if_neg (by omega)
    rw [List.length_cons, load_succ, first, later, ih tail]

end ByteMemory

end Coreboot
