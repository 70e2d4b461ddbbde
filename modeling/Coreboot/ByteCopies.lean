import Coreboot.ByteMemory

/-!
# Copies

A sequence of copies from one memory to another.  Where the ranges that are
written do not overlap, every byte comes from the copy that reaches it.
-/

namespace Coreboot.ByteMemory

structure Copy where
  source : Nat
  dest : Nat
  length : Nat
deriving DecidableEq, Repr

namespace Copy

def apply (copy : Copy) (input memory : Memory) : Memory :=
  store memory copy.dest (load input copy.source copy.length)

def Misses (copy : Copy) (address : Nat) : Prop :=
  address < copy.dest ∨ copy.dest + copy.length ≤ address

def Apart (first second : Copy) : Prop :=
  first.dest + first.length ≤ second.dest ∨ second.dest + second.length ≤ first.dest

def applyAll (input : Memory) (copies : List Copy) (memory : Memory) : Memory :=
  copies.foldl (fun memory copy => copy.apply input memory) memory

variable {copy : Copy} {copies : List Copy}

theorem apply_of_misses {address : Nat} (misses : copy.Misses address) (input memory : Memory) :
    copy.apply input memory address = memory address := by
  refine store_of_outside ?_
  rw [length_load]
  exact misses

theorem apply_of_inside {index : Nat} (inside : index < copy.length) (input memory : Memory) :
    copy.apply input memory (copy.dest + index) = input (copy.source + index) :=
  store_load_apply_add inside

theorem applyAll_of_misses {address : Nat}
    (misses : ∀ copy ∈ copies, copy.Misses address) (input memory : Memory) :
    applyAll input copies memory address = memory address := by
  induction copies generalizing memory with
  | nil => rfl
  | cons copy rest ih =>
    have later := ih (List.forall_mem_cons.mp misses).2
      (copy.apply input memory)
    exact later.trans (apply_of_misses (misses copy List.mem_cons_self) input memory)

theorem applyAll_of_mem {index : Nat} (apart : copies.Pairwise Apart)
    (member : copy ∈ copies) (inside : index < copy.length) (input memory : Memory) :
    applyAll input copies memory (copy.dest + index) = input (copy.source + index) := by
  induction copies generalizing memory with
  | nil => cases member
  | cons first rest ih =>
    obtain ⟨here, later⟩ := List.pairwise_cons.mp apart
    rcases List.mem_cons.mp member with rfl | member
    · have kept := @applyAll_of_misses rest (copy.dest + index)
        (fun other member => by
          rcases here other member with below | above
          · exact .inl (by omega)
          · exact .inr (by omega)) input (copy.apply input memory)
      exact kept.trans (apply_of_inside inside input memory)
    · exact ih later member (first.apply input memory)

end Copy

end Coreboot.ByteMemory
