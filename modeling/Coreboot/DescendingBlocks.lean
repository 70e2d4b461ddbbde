import Mathlib.Data.List.Basic
import Mathlib.Tactic.Common

/-!
# Blocks that grow downwards

A stack of blocks below an upper bound: every block ends at or below the start of the one
before.
-/

namespace Coreboot.DescendingBlocks

variable {α : Type*} (start : α → Int) (size : α → Nat)

/-- Every block lies below the start of the one before, the first one below the
bound. -/
def DescendsFrom (top : Int) : List α → Prop
  | [] => True
  | block :: rest =>
    start block + size block ≤ top ∧ DescendsFrom (start block) rest

def bottom (top : Int) : List α → Int
  | [] => top
  | block :: rest => bottom (start block) rest

@[simp]
theorem bottom_append_singleton (top : Int) (blocks : List α) (last : α) :
    bottom start top (blocks ++ [last]) = start last := by
  induction blocks generalizing top with
  | nil => rfl
  | cons block rest ih => exact ih (start block)

variable {start size} {top : Int} {blocks : List α}

section

variable (descends : DescendsFrom start size top blocks)
include descends

theorem DescendsFrom.bottom_le : bottom start top blocks ≤ top := by
  induction blocks generalizing top with
  | nil => exact Int.le_refl top
  | cons block rest ih =>
    have below := ih descends.2
    have first := descends.1
    rw [bottom]
    omega

omit descends in
theorem DescendsFrom.append {last : α} (descends : DescendsFrom start size top blocks)
    (below : start last + size last ≤ bottom start top blocks) :
    DescendsFrom start size top (blocks ++ [last]) := by
  induction blocks generalizing top with
  | nil => exact ⟨below, trivial⟩
  | cons block rest ih => exact ⟨descends.1, ih descends.2 below⟩

omit descends in
theorem DescendsFrom.of_append {last : List α}
    (descends : DescendsFrom start size top (blocks ++ last)) :
    DescendsFrom start size top blocks := by
  induction blocks generalizing top with
  | nil => trivial
  | cons block rest ih => exact ⟨descends.1, ih descends.2⟩

omit descends in
theorem DescendsFrom.bottom_append_le {last : List α}
    (descends : DescendsFrom start size top (blocks ++ last)) :
    bottom start top (blocks ++ last) ≤ bottom start top blocks := by
  induction blocks generalizing top with
  | nil => exact descends.bottom_le
  | cons block rest ih => exact ih descends.2

theorem DescendsFrom.end_le {block : α} (member : block ∈ blocks) :
    start block + size block ≤ top := by
  induction blocks generalizing top with
  | nil => cases member
  | cons first rest ih =>
    rcases List.mem_cons.mp member with rfl | later
    · exact descends.1
    · have below := ih descends.2 later
      have above := descends.1
      omega

theorem DescendsFrom.bottom_le_start {block : α} (member : block ∈ blocks) :
    bottom start top blocks ≤ start block := by
  induction blocks generalizing top with
  | nil => cases member
  | cons first rest ih =>
    rcases List.mem_cons.mp member with rfl | later
    · exact descends.2.bottom_le
    · exact ih descends.2 later

theorem DescendsFrom.ordered {first second : Nat} (before : first < second)
    (inList : second < blocks.length) :
    start blocks[second] + size blocks[second] ≤ start blocks[first] := by
  induction blocks generalizing top first second with
  | nil => exact absurd inList (Nat.not_lt_zero _)
  | cons block rest ih =>
    cases second with
    | zero => exact absurd before (Nat.not_lt_zero _)
    | succ second =>
      cases first with
      | zero => exact descends.2.end_le (List.getElem_mem _)
      | succ first => exact ih descends.2 (by omega) (by simpa using inList)

end

end Coreboot.DescendingBlocks
