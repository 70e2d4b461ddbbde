import Mathlib.Data.List.Nodup
import Mathlib.Order.Lattice
import Mathlib.Order.Nat
import Mathlib.Tactic.Common

/-!
# Repeated selection from a list

The elements of a list are ordered by decreasing keys, and elements of equal keys by their
positions.
-/

namespace Coreboot.StableSelection

variable {α κ : Type*} [DecidableEq α] [LinearOrder κ] (list : List α) (key : α → κ)

/-- The first element has a larger key, or the same key and an earlier
position. -/
def Before (first second : α) : Prop :=
  key second < key first ∨ (key first = key second ∧ list.idxOf first < list.idxOf second)

def After (last : Option α) (element : α) : Prop :=
  ∀ previous, last = some previous → Before list key previous element

structure IsNext (allowed : α → Prop) (last : Option α) (element : α) :
    Prop where
  member : element ∈ list
  isAllowed : allowed element
  after : After list key last element
  first : ∀ other ∈ list, allowed other → After list key last other →
    other = element ∨ Before list key element other

/-- Going from each element to the next one until there is none. -/
inductive Walk (allowed : α → Prop) : Option α → List α → Prop
  | done {last : Option α}
      (none : ∀ other ∈ list, allowed other → ¬ After list key last other) :
      Walk allowed last []
  | step {last : Option α} {element : α} {rest : List α}
      (next : IsNext list key allowed last element)
      (later : Walk allowed (some element) rest) :
      Walk allowed last (element :: rest)

variable {list : List α} {key : α → κ} {allowed : α → Prop} {last : Option α}
  {first second third element : α}

theorem not_before_self : ¬ Before list key element element := by
  rintro (smaller | ⟨-, earlier⟩)
  · exact lt_irrefl _ smaller
  · exact lt_irrefl _ earlier

theorem Before.trans (before : Before list key first second)
    (later : Before list key second third) : Before list key first third := by
  rcases before with smaller | ⟨same, earlier⟩
  · rcases later with smaller' | ⟨same', -⟩
    · exact .inl (smaller'.trans smaller)
    · exact .inl (same' ▸ smaller)
  · rcases later with smaller' | ⟨same', earlier'⟩
    · exact .inl (same ▸ smaller')
    · exact .inr ⟨same.trans same', earlier.trans earlier'⟩

theorem idxOf_lt_iff {front back : List α} (nodup : (front ++ second :: back).Nodup)
    (differ : first ≠ second) :
    (front ++ second :: back).idxOf first <
        (front ++ second :: back).idxOf second ↔ first ∈ front := by
  have outside : second ∉ front := fun member =>
    (List.nodup_append.mp nodup).2.2 second member second List.mem_cons_self rfl
  rw [List.idxOf_append_of_notMem outside, List.idxOf_cons_self]
  by_cases member : first ∈ front
  · rw [List.idxOf_append_of_mem member]
    have := List.idxOf_lt_length_of_mem member
    exact iff_of_true (by omega) member
  · rw [List.idxOf_append_of_notMem member, List.idxOf_cons_ne _ differ.symm]
    exact iff_of_false (by omega) member

theorem after_none : After list key none element := fun _ none => nomatch none

theorem after_some : After list key (some first) element ↔ Before list key first element :=
  ⟨fun after => after first rfl, fun before _ same => by
    cases same
    exact before⟩

theorem After.trans (after : After list key last first)
    (before : Before list key first second) : After list key last second :=
  fun previous same => (after previous same).trans before

theorem IsNext.after_iff (next : IsNext list key allowed last element)
    {other : α} (member : other ∈ list) (otherAllowed : allowed other) :
    After list key last other ↔ other = element ∨ After list key (some element) other := by
  rw [after_some]
  constructor
  · exact next.first other member otherAllowed
  · rintro (rfl | before)
    · exact next.after
    · exact next.after.trans before

variable {elements : List α}

section

variable (walk : Walk list key allowed last elements)
include walk

theorem Walk.mem_iff :
    element ∈ elements ↔ element ∈ list ∧ allowed element ∧ After list key last element := by
  induction walk with
  | done none =>
    refine iff_of_false List.not_mem_nil ?_
    rintro ⟨member, isAllowed, after⟩
    exact none element member isAllowed after
  | @step last next rest isNext _ ih =>
    rw [List.mem_cons, ih]
    constructor
    · rintro (rfl | ⟨member, isAllowed, after⟩)
      · exact ⟨isNext.member, isNext.isAllowed, isNext.after⟩
      · exact ⟨member, isAllowed, (isNext.after_iff member isAllowed).mpr (.inr after)⟩
    · rintro ⟨member, isAllowed, after⟩
      exact ((isNext.after_iff member isAllowed).mp after).imp_right
        fun later => ⟨member, isAllowed, later⟩

theorem Walk.pairwise : elements.Pairwise (Before list key) := by
  induction walk with
  | done _ => exact .nil
  | step _ later ih =>
    refine List.pairwise_cons.mpr ⟨fun other member => ?_, ih⟩
    exact after_some.mp (later.mem_iff.mp member).2.2

theorem Walk.nodup : elements.Nodup := by
  change elements.Pairwise (· ≠ ·)
  refine walk.pairwise.imp ?_
  rintro first _ before rfl
  exact not_before_self before

end

open Classical in
noncomputable def remaining (list : List α) (key : α → κ) (allowed : α → Prop)
    (last : Option α) : Nat :=
  list.countP fun other => allowed other ∧ After list key last other

theorem IsNext.remaining_lt (next : IsNext list key allowed last element) :
    remaining list key allowed (some element) < remaining list key allowed last := by
  classical
  rw [remaining, remaining, List.countP_eq_length_filter, List.countP_eq_length_filter]
  have fewer : (list.filter fun other =>
        decide (allowed other ∧ After list key (some element) other)).Sublist
      ((list.filter fun other =>
        decide (allowed other ∧ After list key last other))) := by
    refine List.monotone_filter_right list fun other chosen => ?_
    obtain ⟨isAllowed, after⟩ := of_decide_eq_true chosen
    exact decide_eq_true ⟨isAllowed, next.after.trans (after_some.mp after)⟩
  refine lt_of_le_of_ne fewer.length_le fun same => ?_
  have equal := fewer.eq_of_length same
  have inside : element ∈ list.filter fun other =>
      decide (allowed other ∧ After list key last other) :=
    List.mem_filter.mpr ⟨next.member, decide_eq_true ⟨next.isAllowed, next.after⟩⟩
  rw [← equal] at inside
  have after := (of_decide_eq_true (List.mem_filter.mp inside).2).2
  exact not_before_self (after_some.mp after)

end Coreboot.StableSelection
