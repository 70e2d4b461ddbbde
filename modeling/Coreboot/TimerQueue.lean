import Coreboot.BinaryHeap
import Mathlib.Data.Int.Order.Basic

/-!
# The timer queue

Callbacks wait in an array of 64 slots for their expirations. The array is a binary heap.
-/

namespace Coreboot.Timer

open BinaryHeap

/-- `struct mono_time`, a `long` of microseconds. -/
abbrev MonoTime (w : Nat) := BitVec w

variable {w : Nat} {α : Type} {t1 t2 : MonoTime w}

def monoTimeCmp (t1 t2 : MonoTime w) : Int :=
  if t1 = t2 then 0
  else if t1.toInt < t2.toInt then -1
  else 1

def monoTimeBefore (t1 t2 : MonoTime w) : Bool := monoTimeCmp t1 t2 < 0

def monoTimeAddUsecs (mt us : MonoTime w) : MonoTime w := mt + us

theorem monoTimeCmp_nonpos : monoTimeCmp t1 t2 ≤ 0 ↔ t1.toInt ≤ t2.toInt := by
  rw [monoTimeCmp]
  split_ifs with same before
  · simp [same]
  · simp [before.le]
  · have apart : t1.toInt ≠ t2.toInt := fun equal =>
      same (BitVec.eq_of_toInt_eq equal)
    omega

theorem monoTimeCmp_neg : monoTimeCmp t1 t2 < 0 ↔ t1.toInt < t2.toInt := by
  rw [monoTimeCmp]
  split_ifs with same before
  · simp [same]
  · simp [before]
  · simpa using before

def maxTimerQueueEntries : Nat := 64

/-- `struct timer_queue`, with pointers to callbacks of type `α`. -/
structure TimerQueue (α : Type) where
  numEntries : Nat
  maxEntries : Nat
  queue : Nat → α

def timerQueueEmpty (tq : TimerQueue α) : Bool := tq.numEntries = 0

def timerQueueFull (tq : TimerQueue α) : Bool := tq.numEntries = tq.maxEntries

def timerQueueHead (tq : TimerQueue α) : Option α :=
  if timerQueueEmpty tq then none else some (tq.queue 0)

/-- The loop of `timer_queue_insert`. -/
def insertFrom (expiration : α → MonoTime w) (tocb : α) (index : Nat) (queue : Nat → α) : Nat → α :=
  if zero : index = 0 then queue
  else
    let parentIndex := (index - 1) / 2
    let parent := queue parentIndex
    -- All other ancestors are less than or equal to the current.
    if monoTimeCmp (expiration parent) (expiration tocb) ≤ 0 then queue
    else
      insertFrom expiration tocb parentIndex
        (Function.update (Function.update queue parentIndex tocb) index parent)
termination_by index
decreasing_by omega

def timerQueueInsert (expiration : α → MonoTime w) (tq : TimerQueue α)
    (tocb : α) : Int × TimerQueue α :=
  -- No more slots.
  if timerQueueFull tq then (-1, tq)
  else
    let index := tq.numEntries
    let queue := Function.update tq.queue index tocb
    (0, { tq with
      numEntries := tq.numEntries + 1
      queue := insertFrom expiration tocb index queue })

/-- `timer_queue_min_child_index`, with nothing for -1. -/
def timerQueueMinChildIndex (expiration : α → MonoTime w) (numEntries : Nat)
    (queue : Nat → α) (index : Nat) : Option Nat :=
  let leftChildIndex := 2 * index + 1
  if leftChildIndex ≥ numEntries then none
  else
    let rightChildIndex := leftChildIndex + 1
    if rightChildIndex ≥ numEntries then some leftChildIndex
    else if monoTimeCmp (expiration (queue leftChildIndex))
        (expiration (queue rightChildIndex)) < 0 then some leftChildIndex
    else some rightChildIndex

theorem timerQueueMinChildIndex_bounds {expiration : α → MonoTime w}
    {numEntries index child : Nat} {queue : Nat → α}
    (found : timerQueueMinChildIndex expiration numEntries queue index = some child) :
    index < child ∧ child < numEntries ∧ parent child = index := by
  rw [timerQueueMinChildIndex] at found
  rw [parent]
  dsimp only at found
  split_ifs at found
  all_goals
    obtain rfl := Option.some.inj found
    omega

/-- The loop of `timer_queue_remove_head`. -/
def removeFrom (expiration : α → MonoTime w) (numEntries : Nat) (tocb : α)
    (index : Nat) (queue : Nat → α) : Nat → α :=
  match found : timerQueueMinChildIndex expiration numEntries queue index with
  -- No more entries to compare against.
  | none => queue
  | some minChildIndex =>
    let child := queue minChildIndex
    if monoTimeCmp (expiration tocb) (expiration child) ≤ 0 then queue
    else
      removeFrom expiration numEntries tocb minChildIndex
        (Function.update (Function.update queue minChildIndex tocb) index child)
termination_by numEntries - index
decreasing_by
  have bounds := timerQueueMinChildIndex_bounds found
  omega

def timerQueueRemoveHead (expiration : α → MonoTime w) (tq : TimerQueue α) : TimerQueue α :=
  let numEntries := tq.numEntries - 1
  let tocb := tq.queue numEntries
  let queue := Function.update tq.queue 0 tocb
  { tq with
    numEntries
    queue := removeFrom expiration numEntries tocb 0 queue }

def timerQueueExpired (expiration : α → MonoTime w) (tq : TimerQueue α)
    (currentTime : MonoTime w) : Option (α × TimerQueue α) :=
  match timerQueueHead tq with
  | none => none
  | some tocb =>
    -- The timeout callback hasn't expired yet.
    if monoTimeBefore currentTime (expiration tocb) then none
    else some (tocb, timerQueueRemoveHead expiration tq)

section Heap

variable {expiration : α → MonoTime w} {numEntries : Nat} {queue : Nat → α}

def key (expiration : α → MonoTime w) (tocb : α) : Int := (expiration tocb).toInt

variable {index : Nat}

theorem insertFrom_spec (below : index < numEntries)
    (order : UpOrder (key expiration) queue numEntries index) :
    Ordered (key expiration) (insertFrom expiration (queue index) index queue) numEntries ∧
      (contents (insertFrom expiration (queue index) index queue)
        numEntries).Perm (contents queue numEntries) := by
  induction index using Nat.strong_induction_on generalizing queue with
  | _ index ih =>
    rw [insertFrom]
    dsimp only
    split_ifs with zero inOrder
    · exact ⟨order.finish fun positive => absurd zero positive.ne', .refl _⟩
    · exact ⟨order.finish fun _ => monoTimeCmp_nonpos.mp inOrder, .refl _⟩
    · have positive : 0 < index := Nat.pos_of_ne_zero zero
      have above := parent_lt positive
      have smaller : key expiration (queue index) < key expiration (queue (parent index)) :=
        not_le.mp (mt monoTimeCmp_nonpos.mpr inOrder)
      have exchanged : Function.update
          (Function.update queue ((index - 1) / 2) (queue index)) index (queue ((index - 1) / 2)) =
          exchange queue (parent index) index := by
        rw [exchange, Function.update_comm (by rw [parent] at above; omega)]
        rfl
      have step := order.step positive below smaller
      have later := ih (parent index) above (by omega) step
      rw [exchange_first] at later
      rw [exchanged]
      exact ⟨later.1, later.2.trans (contents_exchange queue (by omega) below)⟩

theorem timerQueueMinChildIndex_smallest {child : Nat}
    (found : timerQueueMinChildIndex expiration numEntries queue index = some child) :
    ∀ other, 0 < other → other < numEntries → parent other = index →
      key expiration (queue child) ≤ key expiration (queue other) := by
  intro other positive below isChild
  rw [parent] at isChild
  have sides : other = 2 * index + 1 ∨ other = 2 * index + 2 := by omega
  rw [timerQueueMinChildIndex] at found
  dsimp only at found
  split_ifs at found with noLeft noRight before
  · obtain rfl := Option.some.inj found
    have same : other = 2 * index + 1 := by omega
    rw [same]
  · obtain rfl := Option.some.inj found
    rcases sides with rfl | rfl
    · exact le_refl _
    · exact (monoTimeCmp_neg.mp before).le
  · obtain rfl := Option.some.inj found
    rcases sides with rfl | rfl
    · exact not_lt.mp (mt monoTimeCmp_neg.mpr before)
    · exact le_refl _

theorem removeFrom_spec (below : index < numEntries)
    (order : DownOrder (key expiration) queue numEntries index) :
    Ordered (key expiration)
        (removeFrom expiration numEntries (queue index) index queue) numEntries ∧
      (contents (removeFrom expiration numEntries (queue index) index queue)
        numEntries).Perm (contents queue numEntries) := by
  induction left : numEntries - index using Nat.strong_induction_on generalizing index queue with
  | _ left ih =>
    rw [removeFrom]
    split
    · rename_i noChild
      refine ⟨order.finish fun child positive childBelow isChild => ?_, .refl _⟩
      rw [timerQueueMinChildIndex] at noChild
      rw [parent] at isChild
      dsimp only at noChild
      split_ifs at noChild with none
      omega
    · rename_i child found
      obtain ⟨after, childBelow, isChild⟩ := timerQueueMinChildIndex_bounds found
      have smallest := timerQueueMinChildIndex_smallest found
      dsimp only
      split_ifs with inOrder
      · refine ⟨order.finish fun other positive otherBelow isOther => ?_, .refl _⟩
        exact (monoTimeCmp_nonpos.mp inOrder).trans (smallest other positive otherBelow isOther)
      · have smaller : key expiration (queue child) < key expiration (queue index) :=
          not_le.mp (mt monoTimeCmp_nonpos.mpr inOrder)
        have exchanged : Function.update
            (Function.update queue child (queue index)) index
              (queue child) = exchange queue child index := by
          rw [exchange, Function.update_comm after.ne']
        have step := order.step (by omega) childBelow isChild smallest smaller
        have later := ih (numEntries - child) (by omega) childBelow step rfl
        rw [exchange_first] at later
        rw [exchanged]
        exact ⟨later.1, later.2.trans (contents_exchange queue childBelow below)⟩

end Heap

def TimerQueue.callbacks (tq : TimerQueue α) : List α := contents tq.queue tq.numEntries

/-- A heap that fits its array. -/
structure TimerQueue.Valid (expiration : α → MonoTime w) (tq : TimerQueue α) :
    Prop where
  ordered : Ordered (key expiration) tq.queue tq.numEntries
  capacity : tq.maxEntries = maxTimerQueueEntries
  bounded : tq.numEntries ≤ maxTimerQueueEntries

variable {expiration : α → MonoTime w} {tq : TimerQueue α}

theorem timerQueueInsert_of_full (full : tq.numEntries = tq.maxEntries)
    (tocb : α) : timerQueueInsert expiration tq tocb = (-1, tq) := by
  rw [timerQueueInsert, if_pos (show timerQueueFull tq = true from decide_eq_true full)]

theorem TimerQueue.Valid.insert (valid : tq.Valid expiration) (tocb : α)
    (room : tq.numEntries ≠ tq.maxEntries) :
    (timerQueueInsert expiration tq tocb).1 = 0 ∧
      (timerQueueInsert expiration tq tocb).2.Valid expiration ∧
        (timerQueueInsert expiration tq tocb).2.callbacks.Perm (tocb :: tq.callbacks) := by
  obtain ⟨ordered, capacity, bounded⟩ := valid
  have notFull : ¬ timerQueueFull tq = true := by
    rw [timerQueueFull, decide_eq_true_eq]
    exact room
  have stored : ∀ index < tq.numEntries,
      Function.update tq.queue tq.numEntries tocb index = tq.queue index :=
    fun index below => Function.update_of_ne below.ne _ _
  have order := (ordered.congr stored).upOrder
  have spec := insertFrom_spec (Nat.lt_succ_self tq.numEntries) order
  rw [Function.update_self] at spec
  have held : (contents (Function.update tq.queue tq.numEntries tocb)
      (tq.numEntries + 1)).Perm (tocb :: tq.callbacks) := by
    rw [contents_succ, Function.update_self, contents_congr stored]
    exact List.perm_append_comm
  rw [timerQueueInsert, if_neg notFull]
  refine ⟨rfl, ⟨spec.1, capacity, ?_⟩, spec.2.trans held⟩
  dsimp only
  omega

theorem TimerQueue.Valid.removeHead (valid : tq.Valid expiration) (filled : 0 < tq.numEntries) :
    (timerQueueRemoveHead expiration tq).Valid expiration ∧
      tq.callbacks.Perm (tq.queue 0 :: (timerQueueRemoveHead expiration tq).callbacks) := by
  obtain ⟨ordered, capacity, bounded⟩ := valid
  obtain ⟨count, counted⟩ := Nat.exists_eq_succ_of_ne_zero filled.ne'
  have last : tq.numEntries - 1 = count := by omega
  have whole : tq.callbacks = contents tq.queue count ++ [tq.queue count] := by
    rw [TimerQueue.callbacks, counted, contents_succ]
  rw [timerQueueRemoveHead, last]
  rw [counted] at ordered
  rcases Nat.eq_zero_or_pos count with rfl | positive
  · refine ⟨⟨fun index indexPositive below => ?_, capacity, ?_⟩, ?_⟩
    · exact absurd below (Nat.not_lt_zero index)
    · exact Nat.zero_le _
    · rw [whole]
      exact .refl _
  · have spec := removeFrom_spec positive (ordered.mono.downOrder (tq.queue count))
    rw [Function.update_self] at spec
    refine ⟨⟨spec.1, capacity, ?_⟩, ?_⟩
    · dsimp only
      omega
    · rw [whole]
      obtain ⟨rest, rfl⟩ := Nat.exists_eq_succ_of_ne_zero positive.ne'
      have shifted (queue : Nat → α) :
          contents queue (rest + 1) = queue 0 :: (List.range rest).map
            fun index => queue (index + 1) := by
        simp [contents, List.range_succ_eq_map, Function.comp_def]
      have moved : (contents (Function.update tq.queue 0
          (tq.queue (rest + 1))) (rest + 1)).Perm
            (tq.queue (rest + 1) :: (List.range rest).map fun index => tq.queue (index + 1)) := by
        rw [shifted, Function.update_self]
        simp
      have final := spec.2.trans moved
      rw [Nat.succ_eq_add_one, shifted]
      refine List.perm_append_comm.trans ?_
      refine (List.Perm.swap _ _ _).trans ?_
      exact List.Perm.cons _ final.symm

theorem timerQueueExpired_eq_some {currentTime : MonoTime w} {tocb : α} {next : TimerQueue α}
    (expired : timerQueueExpired expiration tq currentTime = some (tocb, next)) :
    0 < tq.numEntries ∧ tocb = tq.queue 0 ∧
      next = timerQueueRemoveHead expiration tq ∧ key expiration tocb ≤ currentTime.toInt := by
  rw [timerQueueExpired, timerQueueHead, timerQueueEmpty] at expired
  by_cases empty : tq.numEntries = 0
  · rw [if_pos (by simpa using empty)] at expired
    cases expired
  · rw [if_neg (by simpa using empty)] at expired
    dsimp only at expired
    split_ifs at expired with before
    obtain ⟨rfl, rfl⟩ := Prod.mk.inj (Option.some.inj expired)
    refine ⟨Nat.pos_of_ne_zero empty, rfl, rfl, ?_⟩
    rw [monoTimeBefore, decide_eq_true_eq] at before
    exact not_lt.mp (mt monoTimeCmp_neg.mpr before)

end Coreboot.Timer
