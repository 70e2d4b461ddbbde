import Coreboot.BootState

/-!
# Cooperative threads

A thread runs until it yields to a timer, starts another thread or ends. The structs of the
others are on the stacks of runnable and of free threads, which share their links, or wait.

Thread `0` walks the boot state machine, and the last thread is the idle one.
-/

namespace Coreboot.CoopThreads

open Boot

/-- `all_threads` with the heads of the two lists, the thread that runs, and the
threads of the callbacks in the timer queue. -/
structure Scheduler where
  next : Nat → Option Nat
  canYield : Nat → Bool
  runnableThreads : Option Nat
  freeThreads : Option Nat
  current : Nat
  queue : List Nat
  /-- `die` has been called. -/
  died : Bool

def pushRunnable (s : Scheduler) (t : Nat) : Scheduler :=
  { s with
    next := Function.update s.next t s.runnableThreads
    runnableThreads := some t }

def getFreeThread (s : Scheduler) : Option (Nat × Scheduler) :=
  match s.freeThreads with
  | none => none
  | some t =>
    some (t, { s with
      freeThreads := s.next t
      next := Function.update s.next t none })

def freeThread (s : Scheduler) (t : Nat) : Scheduler :=
  { s with
    next := Function.update s.next t s.freeThreads
    freeThreads := some t }

def schedule (s : Scheduler) : Option Nat → Scheduler
  | none =>
    match s.runnableThreads with
    | none => { s with died := true }
    | some t =>
      { s with
        runnableThreads := s.next t
        next := Function.update s.next t none
        current := t }
  -- The current thread is still runnable.
  | some t => { pushRunnable s s.current with current := t }

def terminateThread (s : Scheduler) (t : Nat) : Scheduler := schedule (freeThread s t) none

/-- `thread_resume_from_timeout`, for a callback that has been removed from the
timer queue. -/
def threadResumeFromTimeout (s : Scheduler) (waiter : Nat) : Scheduler :=
  schedule { s with queue := s.queue.erase waiter } (some waiter)

/-- `thread_yield_timed_callback`, where `timer_sched_callback` may find no more
slots. -/
def threadYieldTimedCallback (s : Scheduler) (slot : Bool) : Scheduler :=
  if slot then schedule { s with queue := s.current :: s.queue } none else s

def setCanYield (s : Scheduler) (t : Nat) (canYield : Bool) : Scheduler :=
  { s with canYield := Function.update s.canYield t canYield }

def idleThreadInit (s : Scheduler) : Scheduler :=
  match getFreeThread s with
  | none => { s with died := true }
  | some (t, s) =>
    let s := pushRunnable (setCanYield s t true) t
    setCanYield s s.current true

/-- The loop of `threads_initialize` over the threads after the first. -/
def freeThreadsUpTo : Nat → Scheduler → Scheduler
  | 0, s => s
  | n + 1, s => freeThread (freeThreadsUpTo n s) (n + 1)

def threadsInitialize (configNumThreads : Nat) : Scheduler :=
  idleThreadInit (freeThreadsUpTo configNumThreads
    { next := fun _ => none
      canYield := fun _ => false
      runnableThreads := none
      freeThreads := none
      current := 0
      queue := []
      died := false })

/-- What a new thread calls around its function. -/
inductive Wrapper where
  | callWrapper
  | callWrapperBlockCurrent
  | callWrapperBlockState (phase : Phase)
deriving DecidableEq

def Wrapper.phase (current : Phase) : Wrapper → Option Phase
  | .callWrapper => none
  | .callWrapperBlockCurrent => some current
  | .callWrapperBlockState phase => some phase

variable {β : Type} [DecidableEq β]

/-- The scheduler, the boot state machine, and what each thread has been started
with.  For each thread, `blocks` is the phase that it was started to block, when
this was the current phase or a later one, and `explicit` counts the other
blocks that have not been undone. -/
structure System (β : Type) where
  scheduler : Scheduler
  boot : Machine β
  wrapper : Nat → Wrapper
  blocks : Nat → Option Phase
  explicit : Phase → Nat
  /-- The idle thread has begun to run. -/
  idles : Bool

inductive Action (β : Type) where
  | threadRun
  | threadRunUntil (phase : Phase)
  | threadYieldMicroseconds (slot : Bool)
  | threadCooperate
  | threadPreventCoop
  /-- The function of the current thread returns. -/
  | terminate
  /-- The idle thread prevents its own cooperation. -/
  | idle
  /-- `timers_run` calls the callback of a thread. -/
  | timersRun (waiter : Nat)
  /-- A step of the walk, or the return of what it has called. -/
  | walk
  | returns
  | returnState (state : BootState)
  | schedCallback (bscb : β) (phase : Phase)
  | block (phase : Phase)
  | unblock (phase : Phase)
deriving DecidableEq

/-- The current thread runs code that is not its own: the first thread outside
of the walk, the idle thread in its loop, another thread in its function. -/
def runsCode (configNumThreads : Nat) (s : System β) : Bool :=
  !s.scheduler.died &&
    if s.scheduler.current = 0 then decide s.boot.place.External
    else if s.scheduler.current = configNumThreads then s.idles
    else true

def runsTimers (configNumThreads : Nat) (s : System β) : Bool :=
  runsCode configNumThreads s &&
    if s.scheduler.current = 0 then
      s.boot.place = .timers || s.boot.place = .calling
    else s.scheduler.current = configNumThreads

def walks (s : System β) : Bool := !s.scheduler.died && s.scheduler.current = 0

/-- A call of `boot_state_block` would overflow the `int`. -/
def overflows (m : Machine β) (phase : Phase) : Bool :=
  !completed m phase && m.blockers phase = 0x7fffffff

def beginBlock (s : System β) (t : Nat) (phase : Phase) : Option (System β) :=
  if overflows s.boot phase then none
  else
    some { s with
      boot := bootStateBlock s.boot phase
      blocks := Function.update s.blocks t (if completed s.boot phase then none else some phase) }

def callWrapper (s : System β) (t : Nat) : Option (System β) :=
  match (s.wrapper t).phase s.boot.current with
  | none => some s
  | some phase => beginBlock s t phase

/-- `thread_run` and `thread_run_until`, up to the function of the new thread. -/
def threadRun (s : System β) (wrapper : Wrapper) : Option (System β) :=
  if s.scheduler.canYield s.scheduler.current = false then some s
  else
    match getFreeThread s.scheduler with
    | none => some s
    | some (t, scheduler) =>
      callWrapper
        { s with
          scheduler := schedule (setCanYield scheduler t true) (some t)
          wrapper := Function.update s.wrapper t wrapper } t

def terminate (s : System β) : System β :=
  { s with
    boot :=
      match (s.wrapper s.scheduler.current).phase s.boot.current with
      | none => s.boot
      | some phase => bootStateUnblock s.boot phase
    blocks := Function.update s.blocks s.scheduler.current none
    scheduler := terminateThread s.scheduler s.scheduler.current }

def threadYieldMicroseconds (s : System β) (slot : Bool) : System β :=
  if s.scheduler.canYield s.scheduler.current = false then s
  else { s with scheduler := threadYieldTimedCallback s.scheduler slot }

def stepCode (configNumThreads : Nat) (s : System β) : Action β → Option (System β)
  | .threadRun => threadRun s .callWrapperBlockCurrent
  | .threadRunUntil phase => threadRun s (.callWrapperBlockState phase)
  | .threadYieldMicroseconds slot => some (threadYieldMicroseconds s slot)
  | .threadCooperate =>
    -- The idle thread never calls it.
    if s.scheduler.current = configNumThreads then none
    else some { s with
      scheduler := setCanYield s.scheduler s.scheduler.current true }
  | .threadPreventCoop =>
    some { s with
      scheduler := setCanYield s.scheduler s.scheduler.current false }
  | .terminate =>
    -- The functions of the first thread and the idle one do not return.
    if s.scheduler.current = 0 ∨ s.scheduler.current = configNumThreads then
      none
    else some (terminate s)
  | .timersRun waiter =>
    if runsTimers configNumThreads s ∧ waiter ∈ s.scheduler.queue then
      some { s with scheduler := threadResumeFromTimeout s.scheduler waiter }
    else none
  | .schedCallback bscb phase =>
    some { s with boot := bootStateSchedCallback s.boot bscb phase }
  | .block phase =>
    if overflows s.boot phase then none
    else
      some { s with
        boot := bootStateBlock s.boot phase
        explicit :=
          if completed s.boot phase then s.explicit
          else Function.update s.explicit phase (s.explicit phase + 1) }
  | .unblock phase =>
    -- Only a block that has not been undone is undone.
    if s.explicit phase = 0 then none
    else
      some { s with
        boot := bootStateUnblock s.boot phase
        explicit :=
          if completed s.boot phase then s.explicit
          else Function.update s.explicit phase (s.explicit phase - 1) }
  | .idle | .walk | .returns | .returnState _ => none

def step (configNumThreads : Nat) (s : System β) (action : Action β) : Option (System β) :=
  match action with
  | .idle =>
    if s.scheduler.current = configNumThreads ∧ s.idles = false then
      some { s with
        scheduler := setCanYield s.scheduler configNumThreads false
        idles := true }
    else none
  | .walk =>
    if walks s then
      (Boot.step s.boot .walk).map fun boot => { s with boot }
    else none
  | .returns =>
    if walks s then
      (Boot.step s.boot .returns).map fun boot => { s with boot }
    else none
  | .returnState state =>
    if walks s then
      (Boot.step s.boot (.returnState state)).map fun boot => { s with boot }
    else none
  | action =>
    if runsCode configNumThreads s then stepCode configNumThreads s action
    else none

def initial (configNumThreads : Nat) : System β where
  scheduler := threadsInitialize configNumThreads
  boot := Boot.initial
  wrapper := fun _ => .callWrapper
  blocks := fun _ => none
  explicit := fun _ => 0
  idles := false

/-- The systems that are reached after `threads_initialize`. -/
inductive Run (configNumThreads : Nat) : System β → Prop
  | start : Run configNumThreads (initial configNumThreads)
  | step {s next : System β} {action : Action β}
      (before : Run configNumThreads s)
      (steps : step configNumThreads s action = some next) :
      Run configNumThreads next

def execute (configNumThreads : Nat) : List (Action β) → System β → Option (System β)
  | [], s => some s
  | action :: rest, s =>
    (step configNumThreads s action).bind (execute configNumThreads rest)

/-- The number of the threads that were started to block a phase and have not
ended. -/
def workers (configNumThreads : Nat) (s : System β) (phase : Phase) : Nat :=
  ((List.range (configNumThreads + 1)).map s.blocks).count (some phase)

/-- Each thread is in one place, the idle thread runs with nothing to run or is
the last to run, the blockers of the phases to come are the threads that were
started to block them and the explicit blocks, and the walk leaves no phase
that a thread blocks. -/
structure Sound (configNumThreads : Nat) (s : System β) : Prop where
  placed : ∃ runnable free,
    Linked s.scheduler.next s.scheduler.runnableThreads runnable ∧
    Linked s.scheduler.next s.scheduler.freeThreads free ∧
    (∀ t ≤ configNumThreads,
      ([s.scheduler.current] ++ runnable ++ free ++ s.scheduler.queue).count t = 1) ∧
    (s.scheduler.current = configNumThreads ∧ runnable = [] ∨
      ∃ above, runnable = above ++ [configNumThreads]) ∧
    -- A thread that blocks a phase has begun and has not ended.
    (∀ t, s.blocks t ≠ none → t ≠ 0 ∧ t < configNumThreads ∧ t ∉ free) ∧
    -- A thread that has not ended blocks the phase of its wrapper, unless this
    -- is past or the walk has come back to a completed state.
    ∀ t, t ≠ 0 ∧ t < configNumThreads ∧ t ∉ free → ∀ phase,
      (s.wrapper t).phase s.boot.current = some phase →
      completed s.boot phase = false →
      ¬ (s.boot.place.Between ∧ s.boot.complete s.boot.current.1 = true) →
      s.blocks t = some phase
  lives : s.scheduler.died = false
  counted : ∀ phase, completed s.boot phase = false →
    (s.boot.blockers phase).toNat = workers configNumThreads s phase + s.explicit phase
  kept : ∀ action next, step configNumThreads s action = some next →
    next.boot.current ≠ s.boot.current → ∀ t, s.blocks t ≠ some s.boot.current

end Coreboot.CoopThreads
