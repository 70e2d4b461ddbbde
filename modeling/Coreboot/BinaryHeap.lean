import Mathlib.Data.List.Basic
import Mathlib.Data.List.Nodup
import Mathlib.Data.List.Range
import Mathlib.Data.List.Perm.Basic
import Mathlib.Logic.Equiv.Basic
import Mathlib.Order.Lattice
import Mathlib.Tactic.Common

/-!
# Binary heaps in arrays

The children of position `i` are `2 * i + 1` and `2 * i + 2`.
-/

namespace Coreboot.BinaryHeap

variable {α κ : Type*} [LinearOrder κ] {key : α → κ} {queue : Nat → α} {count : Nat}

def parent (index : Nat) : Nat := (index - 1) / 2

variable {index : Nat} {hole : Nat} {other : Nat → α} {first second : Nat}

theorem parent_lt (positive : 0 < index) : parent index < index := by
  rw [parent]
  omega

def contents (queue : Nat → α) (count : Nat) : List α := (List.range count).map queue

@[simp]
theorem length_contents (queue : Nat → α) (count : Nat) :
    (contents queue count).length = count := by
  simp [contents]

@[simp]
theorem contents_zero (queue : Nat → α) : contents queue 0 = [] := rfl

theorem contents_succ (queue : Nat → α) (count : Nat) :
    contents queue (count + 1) = contents queue count ++ [queue count] := by
  simp [contents, List.range_succ]

theorem contents_congr (same : ∀ index < count, queue index = other index) :
    contents queue count = contents other count := by
  apply List.map_congr_left
  intro index member
  exact same index (List.mem_range.mp member)

theorem mem_contents {element : α} :
    element ∈ contents queue count ↔ ∃ index < count, queue index = element := by
  simp [contents]

def exchange (queue : Nat → α) (first second : Nat) : Nat → α :=
  Function.update (Function.update queue second (queue first)) first (queue second)

theorem exchange_apply (queue : Nat → α) (first second index : Nat) :
    exchange queue first second index = queue (Equiv.swap first second index) := by
  rw [exchange, Equiv.swap_apply_def]
  by_cases isFirst : index = first
  · rw [if_pos isFirst, isFirst, Function.update_self]
  · rw [if_neg isFirst, Function.update_of_ne isFirst]
    by_cases isSecond : index = second
    · rw [if_pos isSecond, isSecond, Function.update_self]
    · rw [if_neg isSecond, Function.update_of_ne isSecond]

@[simp]
theorem exchange_first (queue : Nat → α) (first second : Nat) :
    exchange queue first second first = queue second := by
  simp [exchange_apply]

@[simp]
theorem exchange_second (queue : Nat → α) (first second : Nat) :
    exchange queue first second second = queue first := by
  simp [exchange_apply]

theorem exchange_of_ne (queue : Nat → α) (notFirst : index ≠ first)
    (notSecond : index ≠ second) : exchange queue first second index = queue index := by
  rw [exchange_apply, Equiv.swap_apply_of_ne_of_ne notFirst notSecond]

theorem contents_exchange (queue : Nat → α)
    (firstBelow : first < count) (secondBelow : second < count) :
    (contents (exchange queue first second) count).Perm (contents queue count) := by
  have permuted : ((List.range count).map (Equiv.swap first second)).Perm (List.range count) := by
    apply (List.perm_ext_iff_of_nodup _ List.nodup_range).mpr
    · intro index
      simp only [List.mem_map, List.mem_range]
      constructor
      · rintro ⟨other, below, rfl⟩
        rw [Equiv.swap_apply_def]
        split_ifs <;> omega
      · intro below
        refine ⟨Equiv.swap first second index, ?_, Equiv.swap_apply_self _ _ _⟩
        rw [Equiv.swap_apply_def]
        split_ifs <;> omega
    · exact List.Nodup.map (Equiv.swap first second).injective List.nodup_range
  have mapped := permuted.map queue
  rw [List.map_map] at mapped
  have same : (List.range count).map (exchange queue first second) =
      (List.range count).map (queue ∘ Equiv.swap first second) :=
    List.map_congr_left fun index _ => exchange_apply queue first second index
  rw [contents, same]
  exact mapped

def Ordered (key : α → κ) (queue : Nat → α) (count : Nat) : Prop :=
  ∀ index, 0 < index → index < count → key (queue (parent index)) ≤ key (queue index)

theorem Ordered.root_le (ordered : Ordered key queue count)
    (below : index < count) : key (queue 0) ≤ key (queue index) := by
  induction index using Nat.strong_induction_on with
  | _ index ih =>
    rcases Nat.eq_zero_or_pos index with rfl | positive
    · exact le_refl _
    · have above := parent_lt positive
      exact (ih (parent index) above (by omega)).trans (ordered index positive below)

theorem Ordered.mono (ordered : Ordered key queue (count + 1)) : Ordered key queue count :=
  fun index positive below => ordered index positive (by omega)

theorem Ordered.congr (ordered : Ordered key queue count)
    (same : ∀ index < count, other index = queue index) : Ordered key other count := by
  intro index positive below
  have above := parent_lt positive
  rw [same index below, same (parent index) (by omega)]
  exact ordered index positive below

theorem Ordered.congr_key {other : α → κ} (ordered : Ordered key queue count)
    (same : ∀ element ∈ contents queue count, other element = key element) :
    Ordered other queue count := by
  intro index positive below
  have above := parent_lt positive
  rw [same _ (mem_contents.mpr ⟨index, below, rfl⟩),
    same _ (mem_contents.mpr ⟨parent index, by omega, rfl⟩)]
  exact ordered index positive below

/-- All pairs are in order except that of the hole and its parent, and the
children of the hole are in order with its parent. -/
structure UpOrder (key : α → κ) (queue : Nat → α) (count hole : Nat) :
    Prop where
  others : ∀ index, 0 < index → index < count → index ≠ hole →
    key (queue (parent index)) ≤ key (queue index)
  grand : ∀ index, 0 < index → index < count → parent index = hole →
    0 < hole → key (queue (parent hole)) ≤ key (queue index)

theorem Ordered.upOrder (ordered : Ordered key queue count) :
    UpOrder key queue (count + 1) count where
  others index positive below other := ordered index positive (by omega)
  grand index positive below isParent _ := by
    have above := parent_lt positive
    omega

theorem UpOrder.step (order : UpOrder key queue count hole) (positive : 0 < hole)
    (below : hole < count) (smaller : key (queue hole) < key (queue (parent hole))) :
    UpOrder key (exchange queue (parent hole) hole) count (parent hole) := by
  have above := parent_lt positive
  constructor
  · intro index indexPositive indexBelow other
    by_cases isHole : index = hole
    · subst isHole
      rw [exchange_first, exchange_second]
      exact smaller.le
    · rw [exchange_of_ne queue other isHole]
      by_cases isParent : parent index = hole
      · rw [isParent, exchange_second]
        exact order.grand index indexPositive indexBelow isParent positive
      · by_cases isSibling : parent index = parent hole
        · rw [isSibling, exchange_first]
          have sibling := order.others index indexPositive indexBelow isHole
          rw [isSibling] at sibling
          exact smaller.le.trans sibling
        · rw [exchange_of_ne queue isSibling isParent]
          exact order.others index indexPositive indexBelow isHole
  · intro index indexPositive indexBelow isParent parentPositive
    have upper := parent_lt parentPositive
    rw [exchange_of_ne queue (by omega) (by omega)]
    have grand := order.others (parent hole) parentPositive (by omega) (by omega)
    by_cases isHole : index = hole
    · subst isHole
      rw [exchange_second]
      exact grand
    · have lower := parent_lt indexPositive
      rw [exchange_of_ne queue (by omega) isHole]
      have sibling := order.others index indexPositive indexBelow isHole
      rw [isParent] at sibling
      exact grand.trans sibling

theorem UpOrder.finish (order : UpOrder key queue count hole)
    (inOrder : 0 < hole → key (queue (parent hole)) ≤ key (queue hole)) :
    Ordered key queue count := by
  intro index positive below
  by_cases isHole : index = hole
  · subst isHole
    exact inOrder positive
  · exact order.others index positive below isHole

/-- All pairs are in order except those of the hole and its children, which are
in order with its parent. -/
structure DownOrder (key : α → κ) (queue : Nat → α) (count hole : Nat) :
    Prop where
  others : ∀ index, 0 < index → index < count → parent index ≠ hole →
    key (queue (parent index)) ≤ key (queue index)
  grand : ∀ index, 0 < index → index < count → parent index = hole →
    0 < hole → key (queue (parent hole)) ≤ key (queue index)

theorem Ordered.downOrder (ordered : Ordered key queue count) (element : α) :
    DownOrder key (Function.update queue 0 element) count 0 where
  others index positive below other := by
    rw [Function.update_of_ne other, Function.update_of_ne (by omega)]
    exact ordered index positive below
  grand _ _ _ _ positive := absurd positive (by omega)

theorem DownOrder.step {hole child : Nat} (order : DownOrder key queue count hole)
    (positive : 0 < child) (below : child < count) (isChild : parent child = hole)
    (smallest : ∀ index, 0 < index → index < count → parent index = hole →
      key (queue child) ≤ key (queue index)) (smaller : key (queue child) < key (queue hole)) :
    DownOrder key (exchange queue child hole) count child := by
  have above := parent_lt positive
  constructor
  · intro index indexPositive indexBelow other
    by_cases isHole : parent index = hole
    · rw [isHole, exchange_second]
      by_cases same : index = child
      · subst same
        rw [exchange_first]
        exact smaller.le
      · have lower := parent_lt indexPositive
        rw [exchange_of_ne queue same (by omega)]
        exact smallest index indexPositive indexBelow isHole
    · have notChild : index ≠ child := by
        rintro rfl
        exact isHole isChild
      rw [exchange_of_ne queue other isHole]
      by_cases same : index = hole
      · subst same
        rw [exchange_second]
        have grand := order.grand child positive below isChild indexPositive
        exact grand
      · rw [exchange_of_ne queue notChild same]
        exact order.others index indexPositive indexBelow isHole
  · intro index indexPositive indexBelow isParent _
    have lower := parent_lt indexPositive
    rw [isChild, exchange_second, exchange_of_ne queue (by omega) (by omega)]
    have under := order.others index indexPositive indexBelow (by omega)
    rw [isParent] at under
    exact under

theorem DownOrder.finish (order : DownOrder key queue count hole)
    (inOrder : ∀ index, 0 < index → index < count → parent index = hole →
      key (queue hole) ≤ key (queue index)) : Ordered key queue count := by
  intro index positive below
  by_cases isChild : parent index = hole
  · rw [isChild]
    exact inOrder index positive below isChild
  · exact order.others index positive below isChild

end Coreboot.BinaryHeap
