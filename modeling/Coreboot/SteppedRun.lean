import Mathlib.Logic.Relation
import Mathlib.Tactic.Common

/-!
# Runs of a deterministic step

A step either moves to another state or ends with a result. A run takes steps until there is a
result, with a bound on their number.
-/

namespace Coreboot.SteppedRun

variable {σ ρ : Type*} {step : σ → σ ⊕ ρ}

/-- Take steps until there is a result, and at most `fuel` of them. -/
def run (step : σ → σ ⊕ ρ) : Nat → σ → Option ρ
  | 0, _ => none
  | fuel + 1, state =>
    match step state with
    | .inl next => run step fuel next
    | .inr result => some result

def Moves (step : σ → σ ⊕ ρ) (state next : σ) : Prop := step state = .inl next

def Reaches (step : σ → σ ⊕ ρ) : σ → σ → Prop := Relation.ReflTransGen (Moves step)

def EndsWith (step : σ → σ ⊕ ρ) (state : σ) (result : ρ) : Prop :=
  ∃ last, Reaches step state last ∧ step last = .inr result

theorem Reaches.trans {first second third : σ} (before : Reaches step first second)
    (after : Reaches step second third) : Reaches step first third :=
  Relation.ReflTransGen.trans before after

variable {state next : σ} {result : ρ}

theorem EndsWith.of_moves (moves : step state = .inl next)
    (ends : EndsWith step next result) : EndsWith step state result := by
  obtain ⟨last, reaches, ended⟩ := ends
  exact ⟨last, .head moves reaches, ended⟩

theorem EndsWith.of_reaches (reaches : Reaches step state next)
    (ends : EndsWith step next result) : EndsWith step state result := by
  obtain ⟨last, later, ended⟩ := ends
  exact ⟨last, reaches.trans later, ended⟩

theorem endsWith_iff_of_moves (moves : step state = .inl next) :
    EndsWith step state result ↔ EndsWith step next result := by
  refine ⟨fun ends => ?_, .of_moves moves⟩
  obtain ⟨last, reaches, ended⟩ := ends
  rcases Relation.ReflTransGen.cases_head reaches with rfl | ⟨other, first, rest⟩
  · rw [moves] at ended
    cases ended
  · obtain rfl : next = other := Sum.inl.inj (moves.symm.trans first)
    exact ⟨last, rest, ended⟩

theorem endsWith_iff_of_ended {other : ρ} (ended : step state = .inr result) :
    EndsWith step state other ↔ result = other := by
  constructor
  · rintro ⟨last, reaches, endedLast⟩
    rcases Relation.ReflTransGen.cases_head reaches with rfl | ⟨next, first, -⟩
    · exact Sum.inr.inj (ended.symm.trans endedLast)
    · cases ended.symm.trans first
  · rintro rfl
    exact ⟨state, .refl, ended⟩

theorem exists_run_iff :
    (∃ fuel, run step fuel state = some result) ↔ EndsWith step state result := by
  constructor
  · rintro ⟨fuel, ran⟩
    induction fuel generalizing state with
    | zero => cases ran
    | succ fuel ih =>
      rw [run] at ran
      split at ran
      next next moves => exact .of_moves moves (ih ran)
      next last ended =>
        cases ran
        exact ⟨state, .refl, ended⟩
  · rintro ⟨last, reaches, ended⟩
    induction reaches using Relation.ReflTransGen.head_induction_on with
    | refl => exact ⟨1, by rw [run, ended]⟩
    | head moves _ ih =>
      obtain ⟨fuel, ran⟩ := ih
      refine ⟨fuel + 1, ?_⟩
      rw [run, show step _ = _ from moves]
      exact ran

theorem EndsWith.unique {first second : ρ} (one : EndsWith step state first)
    (other : EndsWith step state second) : first = second := by
  obtain ⟨last, reaches, ended⟩ := one
  induction reaches using Relation.ReflTransGen.head_induction_on with
  | refl => exact (endsWith_iff_of_ended ended).mp other
  | head moves _ ih => exact ih ((endsWith_iff_of_moves moves).mp other)

theorem EndsWith.of_reached (ends : EndsWith step state result)
    (reaches : Reaches step state next) : EndsWith step next result := by
  induction reaches with
  | refl => exact ends
  | tail _ moves ih => exact (endsWith_iff_of_moves moves).mp ih

theorem run_mono {fuel more : Nat} (ran : run step fuel state = some result)
    (le : fuel ≤ more) : run step more state = some result := by
  induction fuel generalizing state more with
  | zero => cases ran
  | succ fuel ih =>
    obtain ⟨more, rfl⟩ : ∃ rest, more = rest + 1 := ⟨more - 1, by omega⟩
    rw [run] at ran ⊢
    split at ran
    next => exact ih ran (by omega)
    next => exact ran

theorem Reaches.invariant (Invariant : σ → Prop) {last : σ} (reaches : Reaches step state last)
    (holds : Invariant state)
    (preserved : ∀ state next, Invariant state → step state = .inl next → Invariant next) :
    Invariant last := by
  induction reaches with
  | refl => exact holds
  | tail _ moves ih => exact preserved _ _ ih moves

theorem exists_endsWith (size : σ → Nat)
    (smaller : ∀ state next, step state = .inl next → size next < size state)
    (state : σ) : ∃ result, EndsWith step state result := by
  induction bound : size state using Nat.strongRecOn generalizing state with
  | _ bound ih =>
    subst bound
    cases taken : step state with
    | inl next =>
      obtain ⟨result, ends⟩ := ih (size next) (smaller state next taken) next rfl
      exact ⟨result, .of_moves taken ends⟩
    | inr result => exact ⟨result, state, .refl, taken⟩

/-- A run has a result if every state that it reaches moves below itself, in a
well-founded order. -/
theorem exists_endsWith_of_wellFounded {τ : Type*} {less : τ → τ → Prop}
    (wellFounded : WellFounded less) (rank : σ → τ)
    (below : ∀ reached next, Reaches step state reached → step reached = .inl next →
      less (rank next) (rank reached)) : ∃ result, EndsWith step state result := by
  induction bound : rank state using wellFounded.induction generalizing state with
  | _ bound ih =>
    subst bound
    cases taken : step state with
    | inl next =>
      obtain ⟨result, ends⟩ := ih (rank next) (below state next .refl taken)
        (fun reached later reaches => below reached later (.head taken reaches)) rfl
      exact ⟨result, .of_moves taken ends⟩
    | inr result => exact ⟨result, state, .refl, taken⟩

end Coreboot.SteppedRun
