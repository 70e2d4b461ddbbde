import Coreboot.ByteMemory
import Mathlib.Data.List.Nodup
import Mathlib.Data.List.Pairwise
import Mathlib.Data.Nat.ModEq

/-!
# Words that are increased

A number is added to the words at some offsets, one after the other.  Every word is
increased once if and only if no two of them overlap.
-/

namespace Coreboot.WordPatches

open ByteMemory

def addWord (width amount : Nat) (memory : Memory) (offset : Nat) : Memory :=
  writeLE width memory offset (readLE width memory offset + amount)

def addWords (width amount : Nat) (offsets : List Nat) (memory : Memory) : Memory :=
  offsets.foldl (addWord width amount) memory

/-- The words at some offsets are increased, and the other bytes are the same. -/
structure Increased (width amount : Nat) (offsets : List Nat) (before after : Memory) :
    Prop where
  words : ∀ offset ∈ offsets,
    readLE width after offset = (readLE width before offset + amount) % 256 ^ width
  others : ∀ address, (∀ offset ∈ offsets, address < offset ∨ offset + width ≤ address) →
    after address = before address

/-- Two words do not overlap. -/
def Clear (width first second : Nat) : Prop := first + width ≤ second ∨ second + width ≤ first

instance (width : Nat) : Std.Symm (Clear width) := ⟨fun _ _ clear => clear.symm⟩

/-- No two words overlap. -/
def Apart (width : Nat) (offsets : List Nat) : Prop := offsets.Pairwise (Clear width)

section Words

variable {width amount offset : Nat} {memory before after : Memory} {offsets : List Nat}
  {others : List Nat}

theorem Apart.perm (perm : offsets.Perm others) :
    Apart width offsets ↔ Apart width others :=
  perm.pairwise_iff fun clear => clear.symm

theorem Increased.perm (perm : offsets.Perm others)
    (increased : Increased width amount offsets before after) :
    Increased width amount others before after where
  words offset member := increased.words offset (perm.mem_iff.mpr member)
  others address outside := increased.others address fun offset member =>
    outside offset (perm.mem_iff.mp member)

theorem readLE_writeLE (number : Nat) :
    readLE width (writeLE width memory offset number) offset = number % 256 ^ width := by
  have loaded := load_store_self memory offset (encodeLE width number)
  rw [length_encodeLE] at loaded
  rw [readLE, writeLE, loaded, decodeLE_encodeLE]

theorem addWord_of_outside {address : Nat} (outside : address < offset ∨ offset + width ≤ address) :
    addWord width amount memory offset address = memory address :=
  store_of_outside (by rwa [length_encodeLE])

theorem addWords_of_outside {address : Nat}
    (outside : ∀ offset ∈ offsets, address < offset ∨ offset + width ≤ address) :
    addWords width amount offsets memory address = memory address := by
  induction offsets generalizing memory with
  | nil => rfl
  | cons offset rest ih =>
    rw [List.forall_mem_cons] at outside
    obtain ⟨here, later⟩ := outside
    exact (ih later).trans (addWord_of_outside here)

theorem readLE_addWords (apart : ∀ other ∈ offsets, other ≠ offset → Clear width other offset) :
    readLE width (addWords width amount offsets memory) offset % 256 ^ width =
      (readLE width memory offset + offsets.count offset * amount) % 256 ^ width := by
  induction offsets generalizing memory with
  | nil => simp [addWords]
  | cons other rest ih =>
    rw [List.forall_mem_cons] at apart
    obtain ⟨here, later⟩ := apart
    have step := @ih (addWord width amount memory other) later
    rw [addWords, List.foldl_cons, ← addWords, step]
    by_cases same : other = offset
    · subst same
      rw [addWord, readLE_writeLE, List.count_cons_self, Nat.mod_add_mod]
      congr 1
      rw [Nat.succ_mul]
      omega
    · rw [List.count_cons_of_ne same, addWord, writeLE, readLE_store_of_disjoint]
      rw [length_encodeLE]
      exact (here same).symm

theorem increased_of_apart (positive : 0 < width) (apart : Apart width offsets) :
    Increased width amount offsets memory (addWords width amount offsets memory) where
  words := by
    intro offset member
    have nodup : offsets.Nodup := by
      apply apart.imp
      rintro first _ clear rfl
      unfold Clear at clear
      omega
    have others : ∀ other ∈ offsets, other ≠ offset → Clear width other offset :=
      fun other member' different => apart.forall member' member different
    have read := @readLE_addWords width amount offset memory offsets others
    rw [List.count_eq_one_of_mem nodup member, Nat.one_mul] at read
    rw [← read, Nat.mod_eq_of_lt (readLE_lt width _ offset)]
  others := fun _ outside => addWords_of_outside outside

theorem readLE_div_mod {index : Nat} (inside : index < width) :
    readLE width memory offset / 256 ^ index % 256 = (memory (offset + index)).toNat := by
  induction width generalizing offset index with
  | zero => omega
  | succ width ih =>
    have low := (memory offset).isLt
    rw [readLE, load, decodeLE, ← readLE]
    cases index with
    | zero =>
      rw [pow_zero, Nat.div_one, Nat.add_zero offset]
      omega
    | succ index =>
      rw [pow_succ', ← Nat.div_div_eq_div_mul,
        show ((memory offset).toNat + 256 * readLE width memory (offset + 1)) / 256 =
          readLE width memory (offset + 1) by omega,
        ih (by omega), Nat.add_assoc, Nat.add_comm 1]

theorem not_overlap {other : Nat} (above : offset < other) (below : other < offset + width)
    (first : readLE width after offset = (readLE width before offset + 2) % 256 ^ width)
    (second : readLE width after other = (readLE width before other + 2) % 256 ^ width) :
    False := by
  obtain ⟨index, rfl⟩ := Nat.exists_eq_add_of_lt above
  have positive : 0 < 256 ^ (index + 1) := Nat.pow_pos (by decide)
  have large : 256 ≤ 256 ^ (index + 1) := by
    rw [pow_succ]
    have one : 0 < 256 ^ index := Nat.pow_pos (by decide)
    omega
  have inside : index + 1 < width := by omega
  -- The lowest byte of the second word is increased by 2.
  have lowest := @readLE_div_mod width (offset + index + 1) after 0 (by omega)
  have lowest' := @readLE_div_mod width (offset + index + 1) before 0 (by omega)
  rw [pow_zero, Nat.div_one, Nat.add_zero] at lowest lowest'
  have divides : 256 ∣ 256 ^ width := dvd_pow_self 256 (by omega)
  rw [second, Nat.mod_mod_of_dvd _ divides, Nat.add_mod, lowest'] at lowest
  -- In the first word it is increased by no more than 1.
  have byte := @readLE_div_mod width offset after (index + 1) inside
  have byte' := @readLE_div_mod width offset before (index + 1) inside
  obtain ⟨rest, rfl⟩ := Nat.exists_eq_add_of_lt inside
  have split : 256 ^ (index + 1 + rest + 1) = 256 ^ (index + 1) * (256 * 256 ^ rest) := by
    ring
  rw [first, split, Nat.mod_mul_right_div_self, Nat.mod_mul_right_mod, ← Nat.add_assoc] at byte
  rw [← Nat.add_assoc] at byte'
  obtain ⟨value, valueEq⟩ : ∃ value, value = readLE (index + 1 + rest + 1) before offset := ⟨_, rfl⟩
  rw [← valueEq] at byte byte'
  have carry : (value + 2) / 256 ^ (index + 1) = value / 256 ^ (index + 1) ∨
      (value + 2) / 256 ^ (index + 1) = value / 256 ^ (index + 1) + 1 := by
    have split := Nat.div_add_mod value (256 ^ (index + 1))
    have split' := Nat.div_add_mod (value + 2) (256 ^ (index + 1))
    have rest := Nat.mod_lt value positive
    have rest' := Nat.mod_lt (value + 2) positive
    have lower : value / 256 ^ (index + 1) ≤ (value + 2) / 256 ^ (index + 1) :=
      Nat.div_le_div_right (by omega)
    have upper : (value + 2) / 256 ^ (index + 1) ≤
        (value + 256 ^ (index + 1)) / 256 ^ (index + 1) :=
      Nat.div_le_div_right (by omega)
    rw [Nat.add_div_right _ positive] at upper
    omega
  have bound := (after (offset + index + 1)).isLt
  have bound' := (before (offset + index + 1)).isLt
  rcases carry with same | next
  · rw [same, byte'] at byte
    omega
  · rw [next, Nat.add_mod, byte'] at byte
    omega

theorem forall_increased_iff (positive : 0 < width) (short : offsets.length < 256 ^ width) :
    (∀ amount < 256 ^ width, Increased width amount offsets memory
      (addWords width amount offsets memory)) ↔ Apart width offsets := by
  refine ⟨?_, fun apart amount _ => increased_of_apart positive apart⟩
  intro increased
  have large : 256 ≤ 256 ^ width := Nat.le_self_pow (by omega) 256
  have disjoint (first second : Nat) (member : first ∈ offsets) (member' : second ∈ offsets)
      (different : first ≠ second) : Clear width first second := by
    by_contra overlap
    unfold Clear at overlap
    have words := (increased 2 (by omega)).words
    rcases Nat.lt_or_gt_of_ne different with before | behind
    · exact not_overlap before (by omega) (words first member) (words second member')
    · exact not_overlap behind (by omega) (words second member') (words first member)
  have nodup : offsets.Nodup := by
    rw [List.nodup_iff_count_le_one]
    intro offset
    by_cases member : offset ∈ offsets
    · have once := (increased 1 (by omega)).words offset member
      have read := @readLE_addWords width 1 offset memory offsets
        fun other member' different => disjoint other offset member' member different
      have counted := @List.count_le_length _ _ offset offsets
      have listed := List.count_pos_iff.mpr member
      rw [once, Nat.mod_mod, Nat.mul_one] at read
      have same : 1 % 256 ^ width = offsets.count offset % 256 ^ width :=
        Nat.ModEq.add_left_cancel' _ read
      rw [Nat.mod_eq_of_lt (by omega), Nat.mod_eq_of_lt (by omega)] at same
      omega
    · rw [List.count_eq_zero_of_not_mem member]
      exact Nat.zero_le 1
  exact nodup.pairwise_of_forall_ne fun first member second member' different =>
    disjoint first second member member' different

end Words

end Coreboot.WordPatches
