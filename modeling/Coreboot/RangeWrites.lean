import Mathlib.Data.List.Induction
import Mathlib.Logic.Function.Basic

/-!
# Writes to ranges of a table

A table is a function on indices.
-/

namespace Coreboot

variable {β : Type*}

/-- The entries from an index on are written one after the other. -/
def fillRange (value : Nat → β) : Nat → Nat → (Nat → β) → Nat → β
  | _, 0, table => table
  | start, count + 1, table =>
    fillRange value (start + 1) count (Function.update table start (value start))

theorem fillRange_apply (value : Nat → β) (start count : Nat) (table : Nat → β) (index : Nat) :
    fillRange value start count table index =
      if start ≤ index ∧ index < start + count then value index
      else table index := by
  induction count generalizing start table with
  | zero =>
    rw [if_neg (by omega)]
    rfl
  | succ count ih =>
    rw [fillRange, ih]
    by_cases first : index = start
    · subst first
      rw [if_neg (by omega), if_pos (by omega), Function.update_self]
    · rw [Function.update_of_ne first]
      by_cases inside : start + 1 ≤ index ∧ index < start + 1 + count
      · rw [if_pos inside, if_pos (by omega)]
      · rw [if_neg inside, if_neg (by omega)]

/-- A write of one value to the indices from `lower` to `upper`. -/
structure RangeWrite (β : Type*) where
  lower : Nat
  upper : Nat
  value : β

namespace RangeWrite

def covers (write : RangeWrite β) (index : Nat) : Bool := write.lower ≤ index && index < write.upper

def apply (write : RangeWrite β) (table : Nat → β) : Nat → β :=
  fun index => if write.covers index then write.value else table index

variable {write : RangeWrite β}

theorem apply_of_covers {index : Nat} (lower : write.lower ≤ index)
    (upper : index < write.upper) (table : Nat → β) : write.apply table index = write.value := by
  have covered : write.covers index = true := by
    simp [covers, lower, upper]
  rw [apply, if_pos covered]

theorem apply_of_not_covers {index : Nat}
    (outside : index < write.lower ∨ write.upper ≤ index) (table : Nat → β) :
    write.apply table index = table index := by
  have missed : ¬ write.covers index = true := by
    simp only [covers, Bool.and_eq_true, decide_eq_true_eq]
    omega
  rw [apply, if_neg missed]

theorem apply_of_empty (index : Nat) (value : β) (table : Nat → β) :
    apply ⟨index, index, value⟩ table = table := by
  funext other
  exact apply_of_not_covers (Nat.lt_or_ge other index) table

theorem apply_apply {lower middle upper : Nat} (low : lower ≤ middle)
    (high : middle ≤ upper) (value : β) (table : Nat → β) :
    apply ⟨middle, upper, value⟩ (apply ⟨lower, middle, value⟩ table) =
      apply ⟨lower, upper, value⟩ table := by
  funext index
  simp only [apply, covers, Bool.and_eq_true, decide_eq_true_eq]
  split_ifs <;> first | rfl | omega

def applyAll (writes : List (RangeWrite β)) (table : Nat → β) : Nat → β :=
  writes.foldl (fun table write => write.apply table) table

theorem applyAll_append_singleton (writes : List (RangeWrite β))
    (write : RangeWrite β) (table : Nat → β) :
    applyAll (writes ++ [write]) table = write.apply (applyAll writes table) := by
  rw [applyAll, List.foldl_append]
  rfl

def last (writes : List (RangeWrite β)) (index : Nat) : Option β :=
  (writes.reverse.find? fun write => write.covers index).map value

theorem applyAll_eq_last (writes : List (RangeWrite β)) (table : Nat → β) (index : Nat) :
    applyAll writes table index = (last writes index).getD (table index) := by
  induction writes using List.reverseRecOn with
  | nil => rfl
  | append_singleton before write ih =>
    rw [applyAll_append_singleton, last, List.reverse_append,
      List.reverse_singleton, List.singleton_append, List.find?_cons, apply]
    cases covered : write.covers index with
    | true => rfl
    | false =>
      rw [if_neg Bool.false_ne_true]
      exact ih

end RangeWrite

end Coreboot
