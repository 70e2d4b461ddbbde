import Coreboot.TimerQueue
import Mathlib.Data.List.Perm.Lattice

/-!
# Scheduling and running timers

Callbacks are scheduled from anywhere, also from a callback that is running, and the timers are
run now and then.
-/

namespace Coreboot.Timer

open BinaryHeap

variable {w : Nat} {α : Type} [DecidableEq α]

def globalTimerQueue (null : α) : TimerQueue α where
  numEntries := 0
  maxEntries := maxTimerQueueEntries
  queue := fun _ => null

/-- `timer_sched_callback`: its return value, the expirations and the queue. -/
def timerSchedCallback (expiration : α → MonoTime w) (tq : TimerQueue α)
    (currentTime : MonoTime w) (tocb : α) (us : BitVec w) :
    Int × (α → MonoTime w) × TimerQueue α :=
  if us.toInt < 0 then (-1, expiration, tq)
  else
    let expiration := Function.update expiration tocb (monoTimeAddUsecs currentTime us)
    -- The expiration overflowed.
    if us ≠ 0 ∧ !monoTimeBefore currentTime (expiration tocb) then
      (-1, expiration, tq)
    else
      let inserted := timerQueueInsert expiration tq tocb
      (inserted.1, expiration, inserted.2)

/-- What `timers_run` returns after the callback. -/
def timersRunResult (tq : TimerQueue α) : Int := if timerQueueEmpty tq then 0 else 1

/-- The queue, the expirations in the callbacks, the last time that was read and
the number of calls of `timers_run` that wait for their callback. -/
structure State (α : Type) (w : Nat) where
  queue : TimerQueue α
  expiration : α → MonoTime w
  now : MonoTime w
  running : Nat

/-- A call of `timer_sched_callback`, a callback that is called, and the return
of a call of `timers_run`. -/
inductive Event (α : Type) (w : Nat) where
  | scheduled (tocb : α) (us : BitVec w) (ret : Int)
  | fired (tocb : α)
  | returned (ret : Int)

/-- The steps of a run.  A callback may be scheduled if it is not queued, and
the time does not decrease. -/
inductive Step (state : State α w) : Event α w → State α w → Prop
  | sched (now : MonoTime w) (later : state.now.toInt ≤ now.toInt) (tocb : α)
      (us : BitVec w) (free : tocb ∉ state.queue.callbacks)
      (result : Int × (α → MonoTime w) × TimerQueue α)
      (scheduled : timerSchedCallback state.expiration state.queue now tocb us = result) :
      Step state (.scheduled tocb us result.1) ⟨result.2.2, result.2.1, now, state.running⟩
  | idle (now : MonoTime w) (later : state.now.toInt ≤ now.toInt)
      (expired : timerQueueExpired state.expiration state.queue now = none) :
      Step state (.returned (timersRunResult state.queue)) { state with now }
  | fire (now : MonoTime w) (later : state.now.toInt ≤ now.toInt) (tocb : α)
      (queue : TimerQueue α)
      (expired : timerQueueExpired state.expiration state.queue now = some (tocb, queue)) :
      Step state (.fired tocb) ⟨queue, state.expiration, now, state.running + 1⟩
  | finish (running : Nat) (waits : state.running = running + 1) :
      Step state (.returned (timersRunResult state.queue)) { state with running }

/-- The states that are reached from an empty queue, with the events so far, the
latest one first. -/
inductive Run (null : α) : List (Event α w) → State α w → Prop
  | start (expiration : α → MonoTime w) (now : MonoTime w) :
      Run null [] ⟨globalTimerQueue null, expiration, now, 0⟩
  | step {history : List (Event α w)} {state next : State α w}
      {event : Event α w} (before : Run null history state)
      (steps : Step state event next) : Run null (event :: history) next

/-- The callbacks that have been scheduled with success and not been called
since. -/
def outstanding : List (Event α w) → List α
  | [] => []
  | .scheduled tocb _ ret :: history =>
    if ret = 0 then tocb :: outstanding history else outstanding history
  | .fired tocb :: history => (outstanding history).erase tocb
  | .returned _ :: history => outstanding history

/-- The queue is a heap of the outstanding callbacks, each of them once. -/
structure Sound (history : List (Event α w)) (state : State α w) : Prop where
  ordered : ∀ index, 0 < index → index < state.queue.numEntries →
    (state.expiration (state.queue.queue ((index - 1) / 2))).toInt ≤
      (state.expiration (state.queue.queue index)).toInt
  bounded : state.queue.maxEntries = 64 ∧ state.queue.numEntries ≤ 64
  held : state.queue.callbacks.Perm (outstanding history)
  distinct : state.queue.callbacks.Nodup

/-- A refused callback leaves the queue alone, and a full queue refuses.  A
callback is called when it has expired and none expires earlier.  The return
value tells whether callbacks remain. -/
def Answers (state next : State α w) : Event α w → Prop
  | .scheduled _ _ ret =>
    (ret ≠ 0 → next.queue = state.queue) ∧ (state.queue.numEntries = 64 → ret ≠ 0)
  | .fired tocb =>
    tocb ∈ state.queue.callbacks ∧
      (state.expiration tocb).toInt ≤ next.now.toInt ∧
        ∀ other ∈ state.queue.callbacks,
          (state.expiration tocb).toInt ≤ (state.expiration other).toInt
  | .returned ret => ret ≠ 0 ↔ next.queue.callbacks ≠ []

variable {history : List (Event α w)} {state : State α w} {expiration : α → MonoTime w}
  {tq : TimerQueue α} {event : Event α w}

theorem Sound.valid (sound : Sound history state) : state.queue.Valid state.expiration :=
  ⟨sound.ordered, sound.bounded.1, sound.bounded.2⟩

theorem TimerQueue.Valid.expire
    (valid : tq.Valid expiration) {tocb : α} (free : tocb ∉ tq.callbacks) (time : MonoTime w) :
    tq.Valid (Function.update expiration tocb time) := by
  refine ⟨valid.ordered.congr_key fun element member => ?_, valid.capacity, valid.bounded⟩
  have other : element ≠ tocb := by
    rintro rfl
    exact free member
  rw [key, key, Function.update_of_ne other]

theorem timerSchedCallback_spec
    (valid : tq.Valid expiration) {tocb : α} (free : tocb ∉ tq.callbacks) (now : MonoTime w)
    (us : BitVec w) {result : Int × (α → MonoTime w) × TimerQueue α}
    (scheduled : timerSchedCallback expiration tq now tocb us = result) :
    result.2.2.Valid result.2.1 ∧
      ((result.1 ≠ 0 ∧ result.2.2 = tq) ∨
        (result.1 = 0 ∧ tq.numEntries ≠ tq.maxEntries ∧
          result.2.2.callbacks.Perm (tocb :: tq.callbacks))) := by
  have minusOne : (-1 : Int) ≠ 0 := by decide
  have updated := valid.expire free (monoTimeAddUsecs now us)
  rw [timerSchedCallback] at scheduled
  dsimp only at scheduled
  split_ifs at scheduled
  · subst scheduled
    exact ⟨valid, .inl ⟨minusOne, rfl⟩⟩
  · subst scheduled
    exact ⟨updated, .inl ⟨minusOne, rfl⟩⟩
  · subst scheduled
    by_cases full : tq.numEntries = tq.maxEntries
    · rw [timerQueueInsert_of_full full]
      exact ⟨updated, .inl ⟨minusOne, rfl⟩⟩
    · obtain ⟨accepted, insertedValid, held⟩ := updated.insert tocb full
      exact ⟨insertedValid, .inr ⟨accepted, full, held⟩⟩

omit [DecidableEq α] in
theorem callbacks_ne_nil_iff (tq : TimerQueue α) : timersRunResult tq ≠ 0 ↔ tq.callbacks ≠ [] := by
  rw [timersRunResult, timerQueueEmpty, TimerQueue.callbacks,
    ← List.length_pos_iff, length_contents]
  by_cases empty : tq.numEntries = 0
  · simp [empty]
  · simp [empty, Nat.pos_of_ne_zero empty]

theorem Sound.step {history : List (Event α w)} {state next : State α w}
    (sound : Sound history state)
    (steps : Step state event next) : Sound (event :: history) next := by
  have valid := sound.valid
  cases steps with
  | sched now later tocb us free result scheduled =>
    obtain ⟨nextValid, outcome⟩ := timerSchedCallback_spec valid free now us scheduled
    refine ⟨nextValid.ordered, ⟨nextValid.capacity, nextValid.bounded⟩, ?_, ?_⟩
    · rw [outstanding]
      rcases outcome with ⟨refused, same⟩ | ⟨accepted, -, held⟩
      · rw [if_neg refused]
        rw [same]
        exact sound.held
      · rw [if_pos accepted]
        exact held.trans (sound.held.cons tocb)
    · dsimp only
      rcases outcome with ⟨-, same⟩ | ⟨-, -, held⟩
      · rw [same]
        exact sound.distinct
      · exact held.nodup_iff.mpr (List.nodup_cons.mpr ⟨free, sound.distinct⟩)
  | idle => exact ⟨sound.ordered, sound.bounded, sound.held, sound.distinct⟩
  | fire now later tocb queue expired =>
    obtain ⟨filled, rfl, rfl, -⟩ := timerQueueExpired_eq_some expired
    obtain ⟨nextValid, held⟩ := valid.removeHead filled
    refine ⟨nextValid.ordered, ⟨nextValid.capacity, nextValid.bounded⟩, ?_, ?_⟩
    · have erased := (held.symm.trans sound.held).erase (state.queue.queue 0)
      rw [List.erase_cons_head] at erased
      exact erased
    · exact (List.nodup_cons.mp (held.nodup_iff.mp sound.distinct)).2
  | finish => exact ⟨sound.ordered, sound.bounded, sound.held, sound.distinct⟩

theorem Sound.answers {next : State α w} (sound : Sound history state)
    (steps : Step state event next) : Answers state next event := by
  have valid := sound.valid
  cases steps with
  | sched now later tocb us free result scheduled =>
    obtain ⟨-, outcome⟩ := timerSchedCallback_spec valid free now us scheduled
    rcases outcome with ⟨refused, same⟩ | ⟨accepted, room, -⟩
    · exact ⟨fun _ => same, fun _ => refused⟩
    · refine ⟨fun refused => absurd accepted refused, fun full => ?_⟩
      exact absurd (full.trans sound.bounded.1.symm) room
  | idle => exact callbacks_ne_nil_iff state.queue
  | fire now later tocb queue expired =>
    obtain ⟨filled, rfl, -, due⟩ := timerQueueExpired_eq_some expired
    refine ⟨mem_contents.mpr ⟨0, filled, rfl⟩, due, fun other member => ?_⟩
    obtain ⟨index, below, rfl⟩ := mem_contents.mp member
    exact valid.ordered.root_le below
  | finish => exact callbacks_ne_nil_iff state.queue

theorem Run.sound {null : α} (run : Run null history state) : Sound history state := by
  induction run with
  | start expiration now =>
    exact ⟨fun index _ below => absurd below (Nat.not_lt_zero index),
      ⟨rfl, Nat.zero_le _⟩, .refl _, List.nodup_nil⟩
  | step _ steps ih => exact ih.step steps

/-- In every run the queue is a heap of the outstanding callbacks, and every
step answers as it should. -/
theorem sound_of_run (null : α) (history : List (Event α w))
    (state : State α w) (run : Run null history state) :
    Sound history state ∧ ∀ event next, Step state event next → Answers state next event :=
  ⟨run.sound, fun _ _ steps => run.sound.answers steps⟩

def noExpiration : Nat → MonoTime 64 := Function.update (fun _ => 0) 7 0

def oneCallback : TimerQueue Nat := ⟨1, 64, Function.update (fun _ => 0) 0 7⟩

theorem run_oneCallback : ∃ state : State Nat 64, Run 0 [.fired 7, .scheduled 7 0 0] state := by
  have scheduled : Step (⟨globalTimerQueue 0, fun _ => 0, 0, 0⟩ : State Nat 64)
      (.scheduled 7 0 0) ⟨oneCallback, noExpiration, 0, 0⟩ := by
    refine Step.sched 0 (le_refl _) 7 0 ?_ (0, noExpiration, oneCallback) ?_
    · simp [globalTimerQueue, TimerQueue.callbacks]
    · simp [timerSchedCallback, monoTimeAddUsecs, timerQueueInsert, timerQueueFull,
        globalTimerQueue, maxTimerQueueEntries, insertFrom, noExpiration, oneCallback]
  have expired : timerQueueExpired noExpiration oneCallback 0 =
      some (7, timerQueueRemoveHead noExpiration oneCallback) := by
    simp [timerQueueExpired, timerQueueHead, timerQueueEmpty, monoTimeBefore,
      monoTimeCmp, noExpiration, oneCallback]
  exact ⟨_, .step (.step (.start _ _) scheduled) (.fire 0 (le_refl _) 7 _ expired)⟩

theorem sound_oneCallback : ∃ state : State Nat 64,
    Sound [.fired 7, .scheduled 7 0 0] state ∧
      ∀ event next, Step state event next → Answers state next event := by
  obtain ⟨state, run⟩ := run_oneCallback
  exact ⟨state, sound_of_run 0 _ state run⟩

end Coreboot.Timer
