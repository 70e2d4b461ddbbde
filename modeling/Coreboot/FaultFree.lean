import Mathlib.Data.List.Range
import Mathlib.Tactic.Common

/-!
# Computations that may stop

A computation gives a value or stops, and is safe if it stops in a harmless way only, like with an
error that is reported.
-/

namespace Coreboot.FaultFree

variable {ε : Type*} {α β : Type} {Harmless : ε → Prop}

def Safe (Harmless : ε → Prop) (run : Except ε α) : Prop :=
  ∀ stop, run = .error stop → Harmless stop

def Passes (run : Except ε α) : Prop := ∃ value, run = .ok value

/-- The computation gives no other value. -/
def Yields (run : Except ε α) (value : α) : Prop := ∀ result, run = .ok result → result = value

@[simp]
theorem safe_ok (value : α) : Safe Harmless (.ok value) := by
  intro stop stopped
  cases stopped

@[simp]
theorem safe_error (stop : ε) : Safe Harmless (.error stop : Except ε α) ↔ Harmless stop := by
  constructor
  · intro safe
    exact safe stop rfl
  · rintro harmless _ ⟨⟩
    exact harmless

@[simp]
theorem passes_ok (value : α) : Passes (.ok value : Except ε α) := ⟨value, rfl⟩

@[simp]
theorem not_passes_error (stop : ε) : ¬ Passes (.error stop : Except ε α) := by
  rintro ⟨value, passed⟩
  cases passed

@[simp]
theorem yields_ok (value result : α) : Yields (.ok value : Except ε α) result ↔ value = result := by
  constructor
  · intro yields
    exact yields value rfl
  · rintro same _ ⟨⟩
    exact same

@[simp]
theorem yields_error (stop : ε) (result : α) : Yields (.error stop : Except ε α) result := by
  intro value passed
  cases passed

variable {run : Except ε α} {value : α} {next : α → Except ε β}

section

variable (yields : Yields run value)
include yields

theorem Yields.eq_ok (passes : Passes run) : run = .ok value := by
  obtain ⟨result, passed⟩ := passes
  rw [passed, yields result passed]

omit yields in
@[simp]
theorem ok_bind (value : α) (next : α → Except ε β) :
    ((.ok value : Except ε α) >>= next) = next value :=
  rfl

theorem safe_bind :
    Safe Harmless (run >>= next) ↔
      Safe Harmless run ∧ (Passes run → Safe Harmless (next value)) := by
  cases run with
  | error stop =>
    change Safe Harmless (.error stop) ↔ _
    simp
  | ok result =>
    obtain rfl := (yields_ok result value).mp yields
    change Safe Harmless (next result) ↔ _
    simp

theorem passes_bind : Passes (run >>= next) ↔ Passes run ∧ Passes (next value) := by
  cases run with
  | error stop =>
    change Passes (.error stop) ↔ _
    simp
  | ok result =>
    obtain rfl := (yields_ok result value).mp yields
    change Passes (next result) ↔ _
    simp

theorem yields_bind {result : β} (later : Yields (next value) result) :
    Yields (run >>= next) result := by
  cases run with
  | error stop => exact yields_error stop result
  | ok found =>
    obtain rfl := (yields_ok found value).mp yields
    exact later

end

def tabulate (turn : Nat → Except ε α) : Nat → Except ε (List α)
  | 0 => .ok []
  | count + 1 => do
      let done ← tabulate turn count
      let value ← turn count
      .ok (done ++ [value])

section Loops

variable {turn : Nat → Except ε α} {value : Nat → α}

variable {count : Nat}

section

variable (yields : ∀ index < count, Yields (turn index) (value index))
include yields

theorem yields_tabulate : Yields (tabulate turn count) ((List.range count).map value) := by
  induction count with
  | zero => exact (yields_ok _ _).mpr rfl
  | succ count ih =>
    apply yields_bind (ih fun index below => yields index (Nat.lt_succ_of_lt below))
    apply yields_bind (yields count (Nat.lt_succ_self count))
    rw [yields_ok, List.range_succ, List.map_append, List.map_singleton]

theorem passes_tabulate : Passes (tabulate turn count) ↔ ∀ index < count, Passes (turn index) := by
  induction count with
  | zero => simp [tabulate]
  | succ count ih =>
    have before : ∀ index < count, Yields (turn index) (value index) :=
      fun index below => yields index (Nat.lt_succ_of_lt below)
    rw [tabulate, passes_bind (yields_tabulate before), ih before,
      passes_bind (yields count (Nat.lt_succ_self count)), Nat.forall_lt_succ_right]
    simp

theorem safe_tabulate :
    Safe Harmless (tabulate turn count) ↔
      ∀ index < count, (∀ earlier < index, Passes (turn earlier)) → Safe Harmless (turn index) := by
  induction count with
  | zero => simp [tabulate]
  | succ count ih =>
    have before : ∀ index < count, Yields (turn index) (value index) :=
      fun index below => yields index (Nat.lt_succ_of_lt below)
    rw [tabulate, safe_bind (yields_tabulate before), ih before,
      safe_bind (yields count (Nat.lt_succ_self count)), passes_tabulate before,
      Nat.forall_lt_succ_right]
    simp

end

end Loops

/-- Turns that are fine if they are reached, with what the earlier ones have to pass
besides. -/
theorem forall_reached_iff {Fine Pass : Nat → Prop} {count : Nat} :
    (∀ index < count, (∀ earlier < index, Fine earlier ∧ Pass earlier) → Fine index) ↔
      ∀ index < count, (∀ earlier < index, Pass earlier) → Fine index := by
  constructor
  · intro reached index
    induction index using Nat.strong_induction_on with
    | _ index ih =>
      intro below passed
      apply reached index below
      intro earlier before
      have here := ih earlier before (before.trans below)
        fun other less => passed other (less.trans before)
      exact ⟨here, passed earlier before⟩
  · intro reached index below passed
    exact reached index below fun earlier before => (passed earlier before).2

end Coreboot.FaultFree
