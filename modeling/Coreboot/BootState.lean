import Mathlib.Algebra.Group.Nat.Defs
import Mathlib.Data.List.Basic
import Mathlib.Data.List.Count
import Mathlib.Logic.Function.Basic
import Mathlib.Tactic.Common

/-!
# The boot state machine

Every state of the boot has callbacks before and after its function, and each of the two phases
can be blocked. While they run, callbacks, timers and state functions may schedule callbacks and
block or unblock phases, in any order.
-/

namespace Coreboot.Boot

inductive BootState where
  | preDevice
  | devInitChips
  | devEnumerate
  | devResources
  | devEnable
  | devInit
  | postDevice
  | osResumeCheck
  | osResume
  | writeTables
  | payloadLoad
  | payloadBoot
deriving DecidableEq, Repr

def BootState.id : BootState → Nat
  | .preDevice => 0
  | .devInitChips => 1
  | .devEnumerate => 2
  | .devResources => 3
  | .devEnable => 4
  | .devInit => 5
  | .postDevice => 6
  | .osResumeCheck => 7
  | .osResume => 8
  | .writeTables => 9
  | .payloadLoad => 10
  | .payloadBoot => 11

inductive Sequence where
  | onEntry
  | onExit
deriving DecidableEq, Repr

def Sequence.id : Sequence → Nat
  | .onEntry => 0
  | .onExit => 1

abbrev Phase := BootState × Sequence

/-- The states that the functions of `boot_states` return. -/
def runStateResults : BootState → List BootState
  | .preDevice => [.devInitChips]
  | .devInitChips => [.devEnumerate]
  | .devEnumerate => [.devResources]
  | .devResources => [.devEnable]
  | .devEnable => [.devInit]
  | .devInit => [.postDevice]
  | .postDevice => [.osResumeCheck]
  | .osResumeCheck => [.osResume, .writeTables]
  | .osResume => [.writeTables]
  | .writeTables => [.payloadLoad]
  | .payloadLoad => [.payloadBoot]
  -- Returning from this state will fail.
  | .payloadBoot => [.payloadBoot]

theorem id_lt_of_mem_runStateResults {state next : BootState}
    (member : next ∈ runStateResults state) : state.id < next.id ∨ next = state := by
  cases state <;> simp [runStateResults] at member <;>
    first
    | (subst member; simp [BootState.id])
    | (rcases member with rfl | rfl <;> simp [BootState.id])

variable {β : Type} [DecidableEq β] {list : List β}

inductive Place where
  /-- The static entries are scheduled. -/
  | static
  /-- The head of the loop of `bs_walk_state_machine`. -/
  | top
  /-- In the timers before a state. -/
  | timers
  /-- The head of the loop of `bs_call_callbacks`. -/
  | callbacks
  /-- In a callback or the timers of that loop. -/
  | calling
  /-- In the function of the state. -/
  | running
  | stopped
deriving DecidableEq, Repr

def Place.External : Place → Prop
  | .static | .timers | .calling | .running => True
  | .top | .callbacks | .stopped => False

instance (place : Place) : Decidable place.External := by
  cases place <;> unfold Place.External <;> infer_instance

/-- What has happened: accepted calls, callbacks that were called from the list
of a phase, state functions that ran, and phases that were left. -/
inductive Event (β : Type) where
  | scheduled (bscb : β) (phase : Phase)
  | called (bscb : β) (phase : Phase)
  | ran (state : BootState)
  | left (phase : Phase)
  | blocked (phase : Phase)
  | unblocked (phase : Phase)
deriving DecidableEq

/-- The states with their phases, the links of the callbacks, the current phase
and the local variable of the walk. -/
structure Machine (β : Type) where
  callbacks : Phase → Option β
  blockers : Phase → BitVec 32
  next : β → Option β
  complete : BootState → Bool
  current : Phase
  nextId : BootState
  place : Place
  history : List (Event β)

/-- A step of the walk, a state function that returns a state, the return of
other external code, and the calls of external code. -/
inductive Action (β : Type) where
  | walk
  | returnState (state : BootState)
  | returns
  | sched (bscb : β) (phase : Phase)
  | block (phase : Phase)
  | unblock (phase : Phase)
deriving DecidableEq

/-- The turn of the loop of `bs_call_callbacks`, and what follows its end. -/
def stepCallbacks (m : Machine β) : Machine β :=
  match m.callbacks m.current with
  | some bscb =>
    -- Remove the first callback.
    { m with
      callbacks := Function.update m.callbacks m.current (m.next bscb)
      next := Function.update m.next bscb none
      place := .calling
      history := .called bscb m.current :: m.history }
  | none =>
    -- A pending timer needs to be run to unblock the state.
    if m.blockers m.current ≠ 0 then { m with place := .calling }
    else
      match m.current.2 with
      | .onEntry =>
        { m with
          current := (m.current.1, .onExit)
          place := .running
          history := .ran m.current.1 :: .left m.current :: m.history }
      | .onExit =>
        { m with
          current := (m.nextId, .onEntry)
          complete := Function.update m.complete m.current.1 true
          place := .top
          history := .left m.current :: m.history }

/-- The comparison of `boot_state_block` and `boot_state_unblock` with the
current phase. -/
def completed (m : Machine β) (phase : Phase) : Bool :=
  m.current.1.id > phase.1.id ∨ (m.current.1 = phase.1 ∧ m.current.2.id > phase.2.id)

def bootStateSchedCallback (m : Machine β) (bscb : β) (phase : Phase) : Machine β :=
  if m.complete phase.1 then m
  else
    { m with
      next := Function.update m.next bscb (m.callbacks phase)
      callbacks := Function.update m.callbacks phase (some bscb)
      history := .scheduled bscb phase :: m.history }

def bootStateBlock (m : Machine β) (phase : Phase) : Machine β :=
  if completed m phase then m
  else
    { m with
      blockers := Function.update m.blockers phase (m.blockers phase + 1)
      history := .blocked phase :: m.history }

def bootStateUnblock (m : Machine β) (phase : Phase) : Machine β :=
  if completed m phase then m
  else if m.blockers phase = 0 then m
  else
    { m with
      blockers := Function.update m.blockers phase (m.blockers phase - 1)
      history := .unblocked phase :: m.history }

def step (m : Machine β) : Action β → Option (Machine β)
  | .walk =>
    match m.place with
    | .top =>
      if m.complete m.current.1 then some { m with place := .stopped }
      else some { m with place := .timers }
    | .callbacks => some (stepCallbacks m)
    | _ => none
  | .returns =>
    match m.place with
    | .static => some { m with place := .top }
    | .timers | .calling => some { m with place := .callbacks }
    | _ => none
  | .returnState state =>
    if m.place = .running ∧ state ∈ runStateResults m.current.1 then
      some { m with nextId := state, place := .callbacks }
    else none
  | .sched bscb phase =>
    if m.place.External then some (bootStateSchedCallback m bscb phase)
    else none
  | .block phase =>
    if m.place.External then some (bootStateBlock m phase) else none
  | .unblock phase =>
    if m.place.External then some (bootStateUnblock m phase) else none

def initial : Machine β where
  callbacks := fun _ => none
  blockers := fun _ => 0
  next := fun _ => none
  complete := fun _ => false
  current := (.preDevice, .onEntry)
  nextId := .preDevice
  place := .static
  history := []

/-- The machines that are reached by steps that meet a condition. -/
inductive Run (allowed : Machine β → Action β → Bool) : Machine β → Prop
  | start : Run allowed initial
  | step {m next : Machine β} {action : Action β} (before : Run allowed m)
      (meets : allowed m action = true) (steps : step m action = some next) :
      Run allowed next

/-- Every state function has run at most once, the callbacks of a completed
state have been called once for each time that they were scheduled, and no
number of blockers is negative. -/
structure Sound (m : Machine β) : Prop where
  once : ∀ state, m.history.count (.ran state) ≤ 1
  called : ∀ phase : Phase, m.complete phase.1 = true → ∀ bscb,
    m.history.count (.called bscb phase) = m.history.count (.scheduled bscb phase)
  blockers : ∀ phase, 0 ≤ (m.blockers phase).toInt

/-- A phase is left when it has no callbacks and no blockers, callbacks are
called in their phase, and a call that blocks or unblocks a phase is accepted
only before the phase is left. -/
def Event.Orderly (m : Machine β) : Event β → Prop
  | .left phase => m.callbacks phase = none ∧ m.blockers phase = 0
  | .called _ phase => phase = m.current
  | .blocked phase | .unblocked phase => .left phase ∉ m.history
  | _ => True

def Orderly (m next : Machine β) : Prop :=
  ∀ news, next.history = news ++ m.history → ∀ event ∈ news, event.Orderly m

def allPhases : List Phase :=
  [.preDevice, .devInitChips, .devEnumerate, .devResources, .devEnable,
    .devInit, .postDevice, .osResumeCheck, .osResume, .writeTables,
    .payloadLoad, .payloadBoot].flatMap fun state => [(state, .onEntry), (state, .onExit)]

theorem mem_allPhases (phase : Phase) : phase ∈ allPhases := by
  obtain ⟨state, seq⟩ := phase
  cases state <;> cases seq <;> decide

def waits (history : List (Event β)) (bscb : β) : Bool :=
  allPhases.any fun phase =>
    history.count (.called bscb phase) ≠ history.count (.scheduled bscb phase)

/-- A callback is scheduled only when it is in no list, and not for the entry of
the state that is being left.  A number of blockers does not overflow. -/
def careful (m : Machine β) : Action β → Bool
  | .sched bscb phase =>
    m.complete phase.1 ||
      (!waits m.history bscb && !(phase = (m.current.1, .onEntry) ∧ m.current.2 = .onExit))
  | .block phase => completed m phase || m.blockers phase ≠ 0x7fffffff
  | _ => true

def Linked (next : β → Option β) : Option β → List β → Prop
  | head, [] => head = none
  | head, bscb :: rest => head = some bscb ∧ Linked next (next bscb) rest

omit [DecidableEq β] in
theorem Linked.head_eq_none {next : β → Option β} (linked : Linked next none list) : list = [] := by
  cases list with
  | nil => rfl
  | cons bscb rest => cases linked.1

variable {bscb : β} {phase : Phase}

omit [DecidableEq β] in
theorem Linked.of_head {next : β → Option β} (linked : Linked next (some bscb) list) :
    ∃ rest, list = bscb :: rest ∧ Linked next (next bscb) rest := by
  cases list with
  | nil => cases linked
  | cons other rest =>
    obtain ⟨same, later⟩ := linked
    cases same
    exact ⟨rest, rfl, later⟩

theorem Linked.update {next : β → Option β} {head : Option β}
    (linked : Linked next head list) {bscb : β} (outside : bscb ∉ list)
    (link : Option β) : Linked (Function.update next bscb link) head list := by
  induction list generalizing head with
  | nil => exact linked
  | cons other rest ih =>
    obtain ⟨same, later⟩ := linked
    have apart : other ≠ bscb := by
      rintro rfl
      exact outside (.head _)
    refine ⟨same, ?_⟩
    rw [Function.update_of_ne apart]
    exact ih later fun member => outside (List.mem_cons_of_mem other member)

/-- The walk is between two states or at its end. -/
def Place.Between : Place → Prop
  | .top | .stopped => True
  | _ => False

def Place.Early : Place → Prop
  | .static | .top | .timers => True
  | _ => False

structure Invariant (m : Machine β) (lists : Phase → List β) : Prop where
  linked : ∀ phase, Linked m.next (m.callbacks phase) (lists phase)
  distinct : ∀ phase, (lists phase).Nodup
  apart : ∀ bscb first second, bscb ∈ lists first → bscb ∈ lists second → first = second
  counted : ∀ phase bscb, m.history.count (.scheduled bscb phase) =
    m.history.count (.called bscb phase) + (lists phase).count bscb
  completed : ∀ phase : Phase, m.complete phase.1 = true → lists phase = []
  entered : m.current.2 = .onExit → lists (m.current.1, .onEntry) = []
  incomplete : ¬ m.place.Between → m.complete m.current.1 = false
  order : ∀ state, m.complete state = true → state.id < m.current.1.id ∨ state = m.current.1
  early : m.place.Early → m.current.2 = .onEntry
  left : ∀ phase : Phase, .left phase ∈ m.history →
    m.complete phase.1 = true ∨ (phase = (m.current.1, .onEntry) ∧ m.current.2 = .onExit)
  ran : ∀ state, .ran state ∈ m.history → m.complete state = true ∨
    (state = m.current.1 ∧ m.current.2 = .onExit)
  once : ∀ state, m.history.count (.ran state) ≤ 1
  blockers : ∀ phase, (m.blockers phase).toNat < 2 ^ 31
  result : m.place = .callbacks ∨ m.place = .calling →
    m.current.2 = .onExit → m.nextId ∈ runStateResults m.current.1

variable {m next : Machine β} {lists : Phase → List β} {action : Action β}

theorem Invariant.initial : Invariant (initial : Machine β) fun _ => [] where
  linked _ := rfl
  distinct _ := List.nodup_nil
  apart _ _ _ := nofun
  counted _ _ := rfl
  completed _ done := nomatch done
  entered _ := rfl
  incomplete _ := rfl
  order _ done := nomatch done
  early _ := rfl
  left _ := nofun
  ran _ := nofun
  once _ := Nat.zero_le 1
  blockers _ := show (0 : BitVec 32).toNat < 2 ^ 31 by decide
  result place := by rcases place with same | same <;> cases same

section

variable (invariant : Invariant m lists)
include invariant

theorem Invariant.move {place : Place} {nextId : BootState}
    (incomplete : ¬ place.Between → m.complete m.current.1 = false)
    (early : place.Early → m.current.2 = .onEntry) (result : place = .callbacks ∨ place = .calling →
      m.current.2 = .onExit → nextId ∈ runStateResults m.current.1) :
    Invariant { m with place, nextId } lists :=
  { invariant with incomplete, early, result }

theorem Invariant.not_mem_of_not_waits
    (free : waits m.history bscb = false) (phase : Phase) : bscb ∉ lists phase := by
  rw [waits, List.any_eq_false] at free
  have same := free phase (mem_allPhases phase)
  rw [decide_eq_true_eq, not_not] at same
  have counted := invariant.counted phase bscb
  rw [← same] at counted
  exact List.count_eq_zero.mp (by omega)

theorem Invariant.sched (meets : careful m (.sched bscb phase) = true) :
    ∃ lists, Invariant (bootStateSchedCallback m bscb phase) lists := by
  rw [bootStateSchedCallback]
  split_ifs with done
  · exact ⟨lists, invariant⟩
  · have allowed : waits m.history bscb = false ∧
        (phase = (m.current.1, .onEntry) → m.current.2 ≠ .onExit) := by
      simpa [careful, done, not_and_or, imp_iff_not_or] using meets
    obtain ⟨free, notLeft⟩ := allowed
    have outside := invariant.not_mem_of_not_waits free
    refine ⟨Function.update lists phase (bscb :: lists phase),
      { linked := fun other => ?_
        distinct := fun other => ?_
        apart := fun element first second inFirst inSecond => ?_
        counted := fun other element => ?_
        completed := fun other otherDone => ?_
        entered := fun exits => ?_
        incomplete := invariant.incomplete
        order := invariant.order
        early := invariant.early
        left := fun other member => ?_
        ran := fun state member => ?_
        once := fun state => ?_
        blockers := invariant.blockers
        result := invariant.result }⟩
    · by_cases same : other = phase
      · subst same
        simp only [Function.update_self]
        refine ⟨rfl, ?_⟩
        rw [Function.update_self]
        exact (invariant.linked other).update (outside other) _
      · simp only [Function.update_of_ne same]
        exact (invariant.linked other).update (outside other) _
    · by_cases same : other = phase
      · subst same
        rw [Function.update_self]
        exact List.nodup_cons.mpr ⟨outside other, invariant.distinct other⟩
      · rw [Function.update_of_ne same]
        exact invariant.distinct other
    · have inside {other : Phase}
          (member : element ∈ Function.update lists phase (bscb :: lists phase) other) :
          (element = bscb ∧ other = phase) ∨ element ∈ lists other := by
        by_cases same : other = phase
        · subst same
          rw [Function.update_self] at member
          exact (List.mem_cons.mp member).imp_left fun is => ⟨is, rfl⟩
        · rw [Function.update_of_ne same] at member
          exact .inr member
      rcases inside inFirst with ⟨new, here⟩ | old
      · rcases inside inSecond with ⟨-, there⟩ | stays
        · exact here.trans there.symm
        · exact absurd (new ▸ stays) (outside second)
      · rcases inside inSecond with ⟨new, -⟩ | stays
        · exact absurd (new ▸ old) (outside first)
        · exact invariant.apart element first second old stays
    · have counted := invariant.counted other element
      simp only [List.count_cons, beq_iff_eq, Event.scheduled.injEq, reduceCtorEq, if_false]
      by_cases same : other = phase
      · subst same
        rw [Function.update_self, List.count_cons]
        simp only [and_true, beq_iff_eq]
        omega
      · rw [Function.update_of_ne same, if_neg fun both => same both.2.symm]
        omega
    · have same : other ≠ phase := by
        rintro rfl
        exact done otherDone
      rw [Function.update_of_ne same]
      exact invariant.completed other otherDone
    · have same : (m.current.1, Sequence.onEntry) ≠ phase := fun is => notLeft is.symm exits
      rw [Function.update_of_ne same]
      exact invariant.entered exits
    · exact invariant.left other (by simpa using member)
    · exact invariant.ran state (by simpa using member)
    · simpa using invariant.once state

theorem Invariant.setBlockers {count : BitVec 32} (bound : count.toNat < 2 ^ 31) {event : Event β}
    (is : event = .blocked phase ∨ event = .unblocked phase) :
    Invariant { m with
      blockers := Function.update m.blockers phase count
      history := event :: m.history } lists := by
  refine { invariant with
    counted := fun other bscb => ?_
    left := fun other member => invariant.left other ?_
    ran := fun state member => invariant.ran state ?_
    once := fun state => ?_
    blockers := fun other => ?_ }
  · rcases is with rfl | rfl <;> simpa using invariant.counted other bscb
  · rcases is with rfl | rfl <;> simpa using member
  · rcases is with rfl | rfl <;> simpa using member
  · rcases is with rfl | rfl <;> simpa using invariant.once state
  · by_cases same : other = phase
    · subst same
      simpa only [Function.update_self] using bound
    · simp only [Function.update_of_ne same]
      exact invariant.blockers other

theorem Invariant.block (meets : careful m (.block phase) = true) :
    Invariant (bootStateBlock m phase) lists := by
  rw [bootStateBlock]
  split_ifs with past
  · exact invariant
  · have room : m.blockers phase ≠ 0x7fffffff := by
      simpa [careful, past] using meets
    have bound := invariant.blockers phase
    exact invariant.setBlockers (by bv_omega) (.inl rfl)

theorem Invariant.unblock (phase : Phase) :
    Invariant (bootStateUnblock m phase) lists := by
  rw [bootStateUnblock]
  split_ifs with past zero
  · exact invariant
  · exact invariant
  · have bound := invariant.blockers phase
    exact invariant.setBlockers (by bv_omega) (.inr rfl)

section

variable (place : m.place = .callbacks)
include place

theorem Invariant.call (head : m.callbacks m.current = some bscb) :
    ∃ lists, Invariant { m with
      callbacks := Function.update m.callbacks m.current (m.next bscb)
      next := Function.update m.next bscb none
      place := .calling
      history := .called bscb m.current :: m.history } lists := by
  have linked := invariant.linked m.current
  rw [head] at linked
  obtain ⟨rest, list, later⟩ := linked.of_head
  have distinct := invariant.distinct m.current
  rw [list, List.nodup_cons] at distinct
  have member : bscb ∈ lists m.current := by
    rw [list]
    exact .head _
  have outside (other : Phase) (different : other ≠ m.current) : bscb ∉ lists other :=
    fun inOther => different (invariant.apart bscb other m.current inOther member)
  have sub (other : Phase) : ∀ element ∈ Function.update lists m.current rest
      other, element ∈ lists other := by
    intro element inside
    by_cases same : other = m.current
    · subst same
      rw [Function.update_self] at inside
      rw [list]
      exact List.mem_cons_of_mem bscb inside
    · rw [Function.update_of_ne same] at inside
      exact inside
  have incomplete : m.complete m.current.1 = false := invariant.incomplete (by rw [place]; exact id)
  refine ⟨Function.update lists m.current rest,
    { linked := fun other => ?_
      distinct := fun other => ?_
      apart := fun element first second inFirst inSecond =>
        invariant.apart element first second (sub first element inFirst)
          (sub second element inSecond)
      counted := fun other element => ?_
      completed := fun other done => ?_
      entered := fun exits => ?_
      incomplete := fun _ => incomplete
      order := invariant.order
      early := fun early => nomatch early
      left := fun other member => ?_
      ran := fun state member => ?_
      once := fun state => ?_
      blockers := invariant.blockers
      result := fun _ => invariant.result (.inl place) }⟩
  · by_cases same : other = m.current
    · subst same
      simp only [Function.update_self]
      exact later.update distinct.1 none
    · simp only [Function.update_of_ne same]
      exact (invariant.linked other).update (outside other same) none
  · by_cases same : other = m.current
    · subst same
      rw [Function.update_self]
      exact distinct.2
    · rw [Function.update_of_ne same]
      exact invariant.distinct other
  · have counted := invariant.counted other element
    simp only [List.count_cons, beq_iff_eq, Event.called.injEq, reduceCtorEq, if_false]
    by_cases same : other = m.current
    · subst same
      rw [list, List.count_cons] at counted
      rw [Function.update_self]
      simp only [and_true, beq_iff_eq] at counted ⊢
      omega
    · rw [Function.update_of_ne same, if_neg fun both => same both.2.symm]
      omega
  · have same : other ≠ m.current := by
      rintro rfl
      rw [incomplete] at done
      cases done
    rw [Function.update_of_ne same]
    exact invariant.completed other done
  · have empty := invariant.entered exits
    refine List.eq_nil_iff_forall_not_mem.mpr fun element inside => ?_
    have before := sub _ element inside
    rw [empty] at before
    exact List.not_mem_nil before
  · exact invariant.left other (by simpa using member)
  · exact invariant.ran state (by simpa using member)
  · simpa using invariant.once state

theorem Invariant.enter (entry : m.current.2 = .onEntry) (none : m.callbacks m.current = none) :
    Invariant { m with
      current := (m.current.1, .onExit)
      place := .running
      history := .ran m.current.1 :: .left m.current :: m.history } lists := by
  have incomplete : m.complete m.current.1 = false := invariant.incomplete (by rw [place]; exact id)
  have linked := invariant.linked m.current
  rw [none] at linked
  have same : (m.current.1, Sequence.onEntry) = m.current := Prod.ext rfl entry.symm
  have notRan : .ran m.current.1 ∉ m.history := by
    intro member
    rcases invariant.ran _ member with done | ⟨-, exits⟩
    · rw [incomplete] at done
      cases done
    · rw [entry] at exits
      cases exits
  refine { invariant with
    counted := fun other bscb => ?_
    entered := fun _ => ?_
    incomplete := fun _ => incomplete
    early := fun early => nomatch early
    left := fun other member => ?_
    ran := fun state member => ?_
    once := fun state => ?_
    result := fun place => ?_ }
  · simpa using invariant.counted other bscb
  · rw [same]
    exact linked.head_eq_none
  · simp only [List.mem_cons, reduceCtorEq, false_or, Event.left.injEq] at member
    rcases member with rfl | member
    · exact .inr ⟨same.symm, rfl⟩
    · refine (invariant.left other member).imp_right fun current => ?_
      rw [entry] at current
      cases current.2
  · simp only [List.mem_cons, reduceCtorEq, false_or, Event.ran.injEq] at member
    rcases member with rfl | member
    · exact .inr ⟨rfl, rfl⟩
    · refine (invariant.ran state member).imp_right fun current => ?_
      rw [entry] at current
      cases current.2
  · have before := invariant.once state
    simp only [List.count_cons, beq_iff_eq, Event.ran.injEq, reduceCtorEq, if_false]
    split_ifs with isCurrent
    · subst isCurrent
      have absent := List.count_eq_zero.mpr notRan
      omega
    · exact before
  · rcases place with same | same <;> cases same

theorem Invariant.exit (exits : m.current.2 = .onExit) (none : m.callbacks m.current = none) :
    Invariant { m with
      current := (m.nextId, .onEntry)
      complete := Function.update m.complete m.current.1 true
      place := .top
      history := .left m.current :: m.history } lists := by
  have linked := invariant.linked m.current
  rw [none] at linked
  have same : (m.current.1, Sequence.onExit) = m.current := Prod.ext rfl exits.symm
  have later := id_lt_of_mem_runStateResults (invariant.result (.inl place) exits)
  have kept {state : BootState} (done : m.complete state = true) :
      Function.update m.complete m.current.1 true state = true := by
    rw [Function.update_apply]
    split_ifs
    · rfl
    · exact done
  refine { invariant with
    counted := fun other bscb => ?_
    completed := fun other done => ?_
    entered := fun entry => nomatch entry
    incomplete := fun between => absurd trivial between
    order := fun state done => ?_
    early := fun _ => rfl
    left := fun other member => ?_
    ran := fun state member => ?_
    once := fun state => ?_
    result := fun place => ?_ }
  · simpa using invariant.counted other bscb
  · by_cases isCurrent : other.1 = m.current.1
    · obtain ⟨state, seq⟩ := other
      subst isCurrent
      cases seq with
      | onEntry => exact invariant.entered exits
      | onExit =>
        rw [same]
        exact linked.head_eq_none
    · dsimp only at done
      rw [Function.update_of_ne isCurrent] at done
      exact invariant.completed other done
  · dsimp only at done ⊢
    by_cases isCurrent : state = m.current.1
    · subst isCurrent
      exact later.imp_right Eq.symm
    · rw [Function.update_of_ne isCurrent] at done
      rcases invariant.order state done with before | current
      · rcases later with after | stays
        · exact .inl (Nat.lt_trans before after)
        · rw [stays]
          exact .inl before
      · exact absurd current isCurrent
  · refine .inl ?_
    simp only [List.mem_cons, Event.left.injEq] at member
    rcases member with rfl | member
    · exact Function.update_self _ _ _
    · rcases invariant.left other member with done | ⟨rfl, -⟩
      · exact kept done
      · exact Function.update_self _ _ _
  · refine .inl ?_
    simp only [List.mem_cons, reduceCtorEq, false_or] at member
    rcases invariant.ran state member with done | ⟨rfl, -⟩
    · exact kept done
    · exact Function.update_self _ _ _
  · simpa using invariant.once state
  · rcases place with same | same <;> cases same

theorem Invariant.stepCallbacks :
    ∃ lists, Invariant (stepCallbacks m) lists := by
  rw [Boot.stepCallbacks]
  cases head : m.callbacks m.current with
  | some bscb => exact invariant.call place head
  | none =>
    split_ifs with blocked
    · exact ⟨lists, invariant.move
        (fun _ => invariant.incomplete (by rw [place]; exact id))
        (fun early => nomatch early) fun _ => invariant.result (.inl place)⟩
    · cases seq : m.current.2 with
      | onEntry => exact ⟨lists, invariant.enter place seq head⟩
      | onExit => exact ⟨lists, invariant.exit place seq head⟩

end

theorem Invariant.walk (steps : step m .walk = some next) : ∃ lists, Invariant next lists := by
  cases place : m.place <;> simp only [step, place, reduceCtorEq] at steps
  case top =>
    have early := invariant.early (by rw [place]; trivial)
    have noResult (exits : m.current.2 = .onExit) : m.nextId ∈ runStateResults m.current.1 := by
      rw [early] at exits
      cases exits
    split_ifs at steps with done
    · cases steps
      exact ⟨lists, invariant.move (fun between => absurd trivial between)
        (fun _ => early) fun _ => noResult⟩
    · cases steps
      exact ⟨lists, invariant.move (fun _ => Bool.eq_false_iff.mpr done)
        (fun _ => early) fun _ => noResult⟩
  case callbacks =>
    cases steps
    exact invariant.stepCallbacks place

theorem Invariant.returns (steps : step m .returns = some next) : Invariant next lists := by
  cases place : m.place <;> simp only [step, place, reduceCtorEq, Option.some.injEq] at steps
  case static =>
    subst steps
    exact invariant.move (fun between => absurd trivial between)
      (fun _ => invariant.early (by rw [place]; trivial))
      fun isCallbacks => by rcases isCallbacks with same | same <;> cases same
  case timers =>
    subst steps
    have entry := invariant.early (by rw [place]; trivial)
    refine invariant.move
      (fun _ => invariant.incomplete (by rw [place]; exact id))
      (fun early => nomatch early) fun _ exits => ?_
    rw [entry] at exits
    cases exits
  case calling =>
    subst steps
    exact invariant.move
      (fun _ => invariant.incomplete (by rw [place]; exact id))
      (fun early => nomatch early) fun _ => invariant.result (.inr place)

theorem Invariant.step (meets : careful m action = true) (steps : step m action = some next) :
    ∃ lists, Invariant next lists := by
  cases action with
  | walk => exact invariant.walk steps
  | returns => exact ⟨lists, invariant.returns steps⟩
  | returnState state =>
    simp only [Boot.step] at steps
    split_ifs at steps with result
    cases steps
    exact ⟨lists, invariant.move
      (fun _ => invariant.incomplete (by rw [result.1]; exact id))
      (fun early => nomatch early) fun _ _ => result.2⟩
  | sched bscb phase =>
    simp only [Boot.step] at steps
    split_ifs at steps
    cases steps
    exact invariant.sched meets
  | block phase =>
    simp only [Boot.step] at steps
    split_ifs at steps
    cases steps
    exact ⟨lists, invariant.block meets⟩
  | unblock phase =>
    simp only [Boot.step] at steps
    split_ifs at steps
    cases steps
    exact ⟨lists, invariant.unblock phase⟩

end

theorem Run.invariant (run : Run careful m) : ∃ lists, Invariant m lists := by
  induction run with
  | start => exact ⟨_, Invariant.initial⟩
  | step _ meets steps ih =>
    obtain ⟨lists, invariant⟩ := ih
    exact invariant.step meets steps

theorem Invariant.sound (invariant : Invariant m lists) : Sound m where
  once := invariant.once
  called phase done bscb := by
    have counted := invariant.counted phase bscb
    rw [invariant.completed phase done, List.count_nil, Nat.add_zero] at counted
    exact counted.symm
  blockers phase := by
    have bound := invariant.blockers phase
    rw [BitVec.toInt_eq_toNat_of_lt (by omega)]
    exact Int.natCast_nonneg _

theorem Invariant.completed_of_left (invariant : Invariant m lists) (external : m.place.External)
    (left : .left phase ∈ m.history) : Boot.completed m phase = true := by
  have incomplete : m.complete m.current.1 = false :=
    invariant.incomplete (by
      intro between
      cases place : m.place <;> rw [place] at external between <;>
        first | exact external | exact between)
  rw [Boot.completed, decide_eq_true_eq]
  rcases invariant.left phase left with done | ⟨rfl, exits⟩
  · rcases invariant.order phase.1 done with before | current
    · exact .inl before
    · rw [current, incomplete] at done
      cases done
  · refine .inr ⟨rfl, ?_⟩
    rw [exits]
    exact Nat.zero_lt_one

omit [DecidableEq β] in
theorem orderly_of_history (events : List (Event β)) (history : next.history = events ++ m.history)
    (orderly : ∀ event ∈ events, event.Orderly m) : Orderly m next := by
  intro news appended
  rw [history] at appended
  rw [← List.append_cancel_right appended]
  exact orderly

omit [DecidableEq β] in
theorem orderly_of_same (same : next.history = m.history) : Orderly m next :=
  orderly_of_history [] same fun _ member =>
    absurd member List.not_mem_nil

theorem stepCallbacks_orderly (m : Machine β) : Orderly m (stepCallbacks m) := by
  rw [stepCallbacks]
  cases head : m.callbacks m.current with
  | some bscb =>
    refine orderly_of_history [.called bscb m.current] rfl ?_
    rintro event member
    rw [List.mem_singleton.mp member]
    exact rfl
  | none =>
    split_ifs with blocked
    · exact orderly_of_same rfl
    · have free : m.callbacks m.current = Option.none ∧
          m.blockers m.current = 0 := ⟨head, not_not.mp blocked⟩
      cases m.current.2 with
      | onEntry =>
        refine orderly_of_history [.ran m.current.1, .left m.current] rfl ?_
        intro event member
        rcases List.mem_pair.mp member with rfl | rfl
        · trivial
        · exact free
      | onExit =>
        refine orderly_of_history [.left m.current] rfl ?_
        intro event member
        rw [List.mem_singleton.mp member]
        exact free

theorem Invariant.orderly (invariant : Invariant m lists)
    (steps : Boot.step m action = some next) : Orderly m next := by
  cases action with
  | walk =>
    cases place : m.place <;> simp only [Boot.step, place, reduceCtorEq] at steps
    case top =>
      split_ifs at steps <;> cases steps <;> exact orderly_of_same rfl
    case callbacks =>
      cases steps
      exact stepCallbacks_orderly m
  | returns =>
    cases place : m.place <;> simp only [Boot.step, place, reduceCtorEq] at steps
    all_goals
      cases steps
      exact orderly_of_same rfl
  | returnState state =>
    simp only [Boot.step] at steps
    split_ifs at steps
    cases steps
    exact orderly_of_same rfl
  | sched bscb phase =>
    simp only [Boot.step] at steps
    split_ifs at steps
    cases steps
    rw [bootStateSchedCallback]
    split_ifs
    · exact orderly_of_same rfl
    · refine orderly_of_history [.scheduled bscb phase] rfl ?_
      intro event member
      rw [List.mem_singleton.mp member]
      trivial
  | block phase =>
    simp only [Boot.step] at steps
    split_ifs at steps with external
    cases steps
    rw [bootStateBlock]
    split_ifs with past
    · exact orderly_of_same rfl
    · refine orderly_of_history [.blocked phase] rfl ?_
      intro event member
      rw [List.mem_singleton.mp member]
      exact fun left => past (invariant.completed_of_left external left)
  | unblock phase =>
    simp only [Boot.step] at steps
    split_ifs at steps with external
    cases steps
    rw [bootStateUnblock]
    split_ifs with past
    · exact orderly_of_same rfl
    · exact orderly_of_same rfl
    · refine orderly_of_history [.unblocked phase] rfl ?_
      intro event member
      rw [List.mem_singleton.mp member]
      exact fun left => past (invariant.completed_of_left external left)

/-- In a run whose calls are careful, every machine is sound and every step is
orderly. -/
theorem sound_of_careful_run (m : Machine β) (run : Run careful m) :
    Sound m ∧ ∀ action next, careful m action = true →
      step m action = some next → Orderly m next := by
  obtain ⟨lists, invariant⟩ := run.invariant
  exact ⟨invariant.sound, fun _ _ _ steps => invariant.orderly steps⟩

def execute (allowed : Machine β → Action β → Bool) :
    List (Action β) → Machine β → Option (Machine β)
  | [], m => some m
  | action :: rest, m =>
    if allowed m action then
      (step m action).bind (execute allowed rest)
    else none

theorem Run.execute {allowed : Machine β → Action β → Bool}
    {actions : List (Action β)} (run : Run allowed m)
    (executed : execute allowed actions m = some next) : Run allowed next := by
  induction actions generalizing m with
  | nil =>
    cases executed
    exact run
  | cons action rest ih =>
    rw [Boot.execute] at executed
    split_ifs at executed with meets
    obtain ⟨middle, steps, later⟩ := Option.bind_eq_some_iff.mp executed
    exact ih (run.step meets steps) later

/-- Callback 1 is scheduled for the exit of the first state while its function
runs. -/
def oneCallback : List (Action Nat) :=
  [.returns, .walk, .returns, .walk, .sched 1 (.preDevice, .onExit),
    .returnState .devInitChips, .walk, .returns, .walk]

theorem sound_exitCallback : ∃ m,
    execute careful oneCallback initial = some m ∧ m.complete .preDevice = true ∧ Sound m := by
  have ends : (execute careful oneCallback initial).map
      (fun m => m.complete .preDevice) = some true := by
    decide
  obtain ⟨m, executed, done⟩ := Option.map_eq_some_iff.mp ends
  exact ⟨m, executed, done, (sound_of_careful_run m (Run.start.execute executed)).1⟩

/-- Callback 1 is scheduled for the entry of the first state while its function
runs. -/
def lateCallback : List (Action Nat) :=
  [.returns, .walk, .returns, .walk, .sched 1 (.preDevice, .onEntry),
    .returnState .devInitChips, .walk]

/-- The call is accepted, and the state is completed without the callback. -/
theorem not_sound_lateCallback : ¬ ∀ m : Machine Nat, Run (fun _ _ => true) m → Sound m := by
  intro sound
  have ends : (execute (fun _ _ => true) lateCallback initial).map
      (fun m => (m.complete .preDevice,
        m.history.count (.called 1 (.preDevice, .onEntry)),
        m.history.count (.scheduled 1 (.preDevice, .onEntry)))) =
      some (true, 0, 1) := by
    decide
  obtain ⟨m, executed, same⟩ := Option.map_eq_some_iff.mp ends
  simp only [Prod.mk.injEq] at same
  obtain ⟨done, called, scheduled⟩ := same
  have counts := (sound m (Run.start.execute executed)).called (.preDevice, .onEntry) done 1
  rw [called, scheduled] at counts
  cases counts

end Coreboot.Boot
