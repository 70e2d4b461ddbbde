import Mathlib.Algebra.Order.Group.Nat
import Mathlib.Data.Finset.Card
import Mathlib.Data.Finset.Range
import Mathlib.Logic.Function.Basic
import Mathlib.Tactic.Common

/-!
# The flight plan of the processors

The bootstrap processor and the application processors walk a list of records. An application
processor enters a record, waits for its barrier, and makes its call.
-/

namespace Coreboot.FlightPlan

variable {α : Type*}

/-- What a record starts with: its barrier, and the calls that are not `NULL`. -/
structure Record (α : Type*) where
  barrier : Nat
  apCall : Option α
  bspCall : Option α
deriving DecidableEq, Repr

def mpFrBlockAps (apFunc bspFunc : Option α) : Record α := ⟨0, apFunc, bspFunc⟩

def mpFrNoblockAps (apFunc bspFunc : Option α) : Record α := ⟨1, apFunc, bspFunc⟩

/-- The plan of `mp_init_with_smm`. -/
def mpSteps (loadSmmHandlers triggerSmmRelocation mpInitializeCpu
    apWaitForInstruction : α) : List (Record α) :=
  [mpFrBlockAps none (some loadSmmHandlers),
    mpFrNoblockAps (some triggerSmmRelocation) (some triggerSmmRelocation),
    mpFrBlockAps (some mpInitializeCpu) (some mpInitializeCpu),
    mpFrBlockAps (some apWaitForInstruction) none]

/-- The application processors wait for the bootstrap processor. -/
def Blocking (plan : List (Record α)) (i : Nat) : Prop :=
  ∃ record, plan[i]? = some record ∧ record.barrier = 0

def apCallAt (plan : List (Record α)) (i : Nat) : Option α := plan[i]?.bind Record.apCall

def bspCallAt (plan : List (Record α)) (i : Nat) : Option α := plan[i]?.bind Record.bspCall

/-- The bootstrap processor at record `i` of `bsp_do_flight_plan`: before the
barrier is read, in `wait_for_aps`, before the call, in it, and before the
release; or after the plan, and after the default area has been restored. -/
inductive Bsp where
  | checking (i : Nat)
  | waiting (i : Nat)
  | calling (i : Nat)
  | inCall (i : Nat)
  | releasing (i : Nat)
  | returned
  | restored
deriving DecidableEq, Repr

/-- An application processor at record `i` of `ap_do_flight_plan`: before it
enters, in `barrier_wait`, before the call, and in it. -/
inductive Ap where
  | entering (i : Nat)
  | waiting (i : Nat)
  | calling (i : Nat)
  | inCall (i : Nat)
deriving DecidableEq, Repr

/-- What can be seen from outside. -/
inductive Event where
  | bspStart (i : Nat)
  | bspReturn (i : Nat)
  | apEnter (ap i : Nat)
  | apStart (ap i : Nat)
  | apReturn (ap i : Nat)
  | timeout (i : Nat)
  | restore
deriving DecidableEq, Repr

structure State where
  barrier : Nat → Nat
  cpusEntered : Nat → Nat
  bsp : Bsp
  /-- What `bsp_do_flight_plan` is going to return. -/
  ret : Int
  aps : Nat → Ap
  trace : List Event

/-- One step of the bootstrap processor; `wait_for_aps` may give up. -/
def stepBsp (plan : List (Record α)) (numAps : Nat) (state : State) (expired : Bool) : State :=
  match state.bsp with
  | .checking i =>
    if i < plan.length then
      if state.barrier i = 0 then { state with bsp := .waiting i }
      else { state with bsp := .calling i }
    else { state with bsp := .returned }
  | .waiting i =>
    if state.cpusEntered i = numAps then { state with bsp := .calling i }
    else if expired then
      { state with
        bsp := .calling i
        ret := -1
        trace := state.trace ++ [.timeout i] }
    else state
  | .calling i =>
    match bspCallAt plan i with
    | none => { state with bsp := .releasing i }
    | some _ =>
      { state with
        bsp := .inCall i
        trace := state.trace ++ [.bspStart i] }
  | .inCall i =>
    { state with
      bsp := .releasing i
      trace := state.trace ++ [.bspReturn i] }
  | .releasing i =>
    { state with
      barrier := Function.update state.barrier i 1
      bsp := .checking (i + 1) }
  | .returned =>
    { state with bsp := .restored, trace := state.trace ++ [.restore] }
  | .restored => state

def stepAp (plan : List (Record α)) (state : State) (ap : Nat) : State :=
  match state.aps ap with
  | .entering i =>
    if i < plan.length then
      { state with
        cpusEntered := Function.update state.cpusEntered i (state.cpusEntered i + 1)
        aps := Function.update state.aps ap (.waiting i)
        trace := state.trace ++ [.apEnter ap i] }
    else state
  | .waiting i =>
    if state.barrier i = 0 then state
    else { state with aps := Function.update state.aps ap (.calling i) }
  | .calling i =>
    match apCallAt plan i with
    | none =>
      { state with aps := Function.update state.aps ap (.entering (i + 1)) }
    | some _ =>
      { state with
        aps := Function.update state.aps ap (.inCall i)
        trace := state.trace ++ [.apStart ap i] }
  | .inCall i =>
    { state with
      aps := Function.update state.aps ap (.entering (i + 1))
      trace := state.trace ++ [.apReturn ap i] }

/-- A step of the bootstrap processor with what its delay says, or of an
application processor. -/
inductive Action where
  | bsp (expired : Bool)
  | ap (i : Nat)
deriving DecidableEq, Repr

def step (plan : List (Record α)) (numAps : Nat) (state : State) : Action → State
  | .bsp expired => stepBsp plan numAps state expired
  | .ap ap => if ap < numAps then stepAp plan state ap else state

def initial (plan : List (Record α)) : State where
  barrier := fun i => (plan[i]?.map Record.barrier).getD 0
  cpusEntered := fun _ => 0
  bsp := .checking 0
  ret := 0
  aps := fun _ => .entering 0
  trace := []

def execute (plan : List (Record α)) (numAps : Nat) (actions : List Action) : State :=
  actions.foldl (step plan numAps) (initial plan)

/-- What an application processor does at a record. -/
def callsAt (plan : List (Record α)) (ap i : Nat) : List Event :=
  match apCallAt plan i with
  | none => []
  | some _ => [.apStart ap i, .apReturn ap i]

/-- What an application processor does at the records before `i`. -/
def callsBefore (plan : List (Record α)) (ap i : Nat) : List Event :=
  (List.range i).flatMap (callsAt plan ap)

def Event.isCallOf (ap : Nat) : Event → Bool
  | .apStart other _ | .apReturn other _ => other = ap
  | _ => false

def Event.isTimeout : Event → Bool
  | .timeout _ => true
  | _ => false

/-- No wait has been given up. -/
def Untimed (trace : List Event) : Prop := ∀ event ∈ trace, event.isTimeout = false

instance (trace : List Event) : Decidable (Untimed trace) :=
  inferInstanceAs (Decidable (∀ _ ∈ _, _))

structure Ordered (plan : List (Record α)) (numAps : Nat) (state : State) :
    Prop where
  /-- The bootstrap processor calls at a blocking record after all the earlier
  calls of the others, and before all their later ones. -/
  blocking : ∀ before after i,
    state.trace = before ++ .bspStart i :: after → Blocking plan i →
      ∀ ap < numAps,
        (∀ j < i, apCallAt plan j ≠ none → .apReturn ap j ∈ before) ∧
          ∀ j ≥ i, .apStart ap j ∉ before
  /-- The others call at a blocking record after the bootstrap processor. -/
  released : ∀ before after ap i,
    state.trace = before ++ .apStart ap i :: after → Blocking plan i →
      bspCallAt plan i ≠ none → .bspReturn i ∈ before
  /-- The calls of a processor are those of the plan, in its order. -/
  inOrder : ∀ ap < numAps,
    state.trace.filter (Event.isCallOf ap) <+: callsBefore plan ap plan.length
  finished : ∀ ap < numAps, state.aps ap = .entering plan.length →
    state.trace.filter (Event.isCallOf ap) = callsBefore plan ap plan.length
  /-- A plan that ends well has been entered by everybody. -/
  entered : state.bsp = .returned → state.ret = 0 →
    ∀ i, Blocking plan i → ∀ ap < numAps, .apEnter ap i ∈ state.trace

/-- The handlers are loaded at record 0 before anybody relocates at record 1,
and the default area is restored when everybody has relocated. -/
structure SmmOrdered (numAps : Nat) (trace : List Event) : Prop where
  bspLoaded : ∀ before after, trace = before ++ .bspStart 1 :: after → .bspReturn 0 ∈ before
  apLoaded : ∀ before after ap, trace = before ++ .apStart ap 1 :: after → .bspReturn 0 ∈ before
  restored : ∀ before after, trace = before ++ .restore :: after →
    .bspReturn 1 ∈ before ∧ ∀ ap < numAps, .apReturn ap 1 ∈ before

/-- The steps of the bootstrap processor, five at a record. -/
def Bsp.progress (length : Nat) : Bsp → Nat
  | .checking i => 5 * i
  | .waiting i => 5 * i + 1
  | .calling i => 5 * i + 2
  | .inCall i => 5 * i + 3
  | .releasing i => 5 * i + 4
  | .returned | .restored => 5 * length

/-- The steps of another processor, four at a record. -/
def Ap.progress : Ap → Nat
  | .entering i => 4 * i
  | .waiting i => 4 * i + 1
  | .calling i => 4 * i + 2
  | .inCall i => 4 * i + 3

/-- The calls a processor has made so far. -/
def Ap.calls (plan : List (Record α)) (ap : Nat) : Ap → List Event
  | .entering i | .waiting i | .calling i => callsBefore plan ap i
  | .inCall i => callsBefore plan ap i ++ [.apStart ap i]

/-- The processors that have entered a record. -/
def enteredBy (numAps : Nat) (aps : Nat → Ap) (i : Nat) : Finset Nat :=
  (Finset.range numAps).filter fun ap => 4 * i + 1 ≤ (aps ap).progress

/-- How the counters, the barriers and the trace tell how far everybody is. -/
structure Invariant (plan : List (Record α)) (numAps : Nat) (state : State) :
    Prop where
  bspInside : state.bsp.progress plan.length ≤ 5 * plan.length
  apInside : ∀ ap < numAps, (state.aps ap).progress ≤ 4 * plan.length
  counted : ∀ i, state.cpusEntered i = (enteredBy numAps state.aps i).card
  opened : ∀ i, Blocking plan i → state.barrier i ≠ 0 →
    5 * (i + 1) ≤ state.bsp.progress plan.length
  passed : ∀ ap < numAps, ∀ i, Blocking plan i →
    4 * i + 2 ≤ (state.aps ap).progress → 5 * (i + 1) ≤ state.bsp.progress plan.length
  gathered : ∀ i, Blocking plan i →
    5 * i + 2 ≤ state.bsp.progress plan.length → ∀ ap < numAps, 4 * i + 1 ≤ (state.aps ap).progress
  bspReturned : ∀ i, bspCallAt plan i ≠ none →
    5 * i + 4 ≤ state.bsp.progress plan.length → .bspReturn i ∈ state.trace
  apEntered : ∀ ap < numAps, ∀ i, 4 * i + 1 ≤ (state.aps ap).progress → .apEnter ap i ∈ state.trace
  apStarted : ∀ ap i, .apStart ap i ∈ state.trace → 4 * i + 3 ≤ (state.aps ap).progress
  apReturned : ∀ ap < numAps, ∀ i, apCallAt plan i ≠ none →
    4 * (i + 1) ≤ (state.aps ap).progress → .apReturn ap i ∈ state.trace
  called : ∀ ap i, state.aps ap = .inCall i → apCallAt plan i ≠ none
  calls : ∀ ap < numAps, state.trace.filter (Event.isCallOf ap) = (state.aps ap).calls plan ap

section

variable {plan : List (Record α)} {numAps : Nat} {state next : State}

variable {i ap : Nat} {trace : List Event}

theorem Blocking.lt (blocking : Blocking plan i) : i < plan.length := by
  obtain ⟨record, found, -⟩ := blocking
  exact (List.getElem?_eq_some_iff.mp found).1

theorem callsBefore_succ (plan : List (Record α)) (ap i : Nat) :
    callsBefore plan ap (i + 1) = callsBefore plan ap i ++ callsAt plan ap i := by
  rw [callsBefore, callsBefore, List.range_succ, List.flatMap_append, List.flatMap_singleton]

theorem callsBefore_startsWith (plan : List (Record α)) (ap : Nat) {j : Nat}
    (le : i ≤ j) : callsBefore plan ap i <+: callsBefore plan ap j := by
  obtain ⟨rest, rfl⟩ := Nat.exists_eq_add_of_le le
  rw [callsBefore, callsBefore, List.range_add, List.flatMap_append]
  exact List.prefix_append _ _

theorem callsAt_of_none (silent : apCallAt plan i = none) : callsAt plan ap i = [] := by
  rw [callsAt, silent]

theorem callsAt_of_some (calls : apCallAt plan i ≠ none) :
    callsAt plan ap i = [.apStart ap i, .apReturn ap i] := by
  obtain ⟨call, found⟩ := Option.ne_none_iff_exists'.mp calls
  rw [callsAt, found]

theorem apCallAt_lt (calls : apCallAt plan i ≠ none) : i < plan.length := by
  by_contra outside
  rw [apCallAt, List.getElem?_eq_none (Nat.le_of_not_lt outside)] at calls
  exact calls rfl

theorem invariant_initial (plan : List (Record α)) (numAps : Nat) :
    Invariant plan numAps (initial plan) where
  bspInside := Nat.zero_le _
  apInside := fun _ _ => Nat.zero_le _
  counted := by
    intro i
    refine (Finset.card_eq_zero.mpr ?_).symm
    rw [enteredBy, Finset.filter_eq_empty_iff]
    intro ap _ entered
    exact absurd entered (Nat.not_succ_le_zero _)
  opened := by
    rintro i ⟨record, found, closed⟩ opened
    refine absurd ?_ opened
    change (plan[i]?.map Record.barrier).getD 0 = 0
    rw [found, Option.map_some, Option.getD_some, closed]
  passed := fun _ _ _ _ entered => absurd entered (Nat.not_succ_le_zero _)
  gathered := fun _ _ reached => absurd reached (Nat.not_succ_le_zero _)
  bspReturned := fun _ _ reached => absurd reached (Nat.not_succ_le_zero _)
  apEntered := fun _ _ _ entered => absurd entered (Nat.not_succ_le_zero _)
  apStarted := fun _ _ => nofun
  apReturned := fun _ _ _ _ entered => absurd entered (Nat.not_succ_le_zero _)
  called := nofun
  calls := fun _ _ => rfl

theorem Invariant.moveBsp (invariant : Invariant plan numAps state) (new : List Event)
    (aps : next.aps = state.aps) (counters : next.cpusEntered = state.cpusEntered)
    (trace : next.trace = state.trace ++ new)
    (silent : ∀ event ∈ new, ∀ ap, event.isCallOf ap = false)
    (later : state.bsp.progress plan.length ≤ next.bsp.progress plan.length)
    (inside : next.bsp.progress plan.length ≤ 5 * plan.length)
    (opened : ∀ i, Blocking plan i → next.barrier i ≠ 0 →
      5 * (i + 1) ≤ next.bsp.progress plan.length) (gathered : ∀ i, Blocking plan i →
      5 * i + 2 ≤ next.bsp.progress plan.length →
        5 * i + 2 ≤ state.bsp.progress plan.length ∨
          ∀ ap < numAps, 4 * i + 1 ≤ (state.aps ap).progress)
    (returned : ∀ i, bspCallAt plan i ≠ none →
      5 * i + 4 ≤ next.bsp.progress plan.length →
        5 * i + 4 ≤ state.bsp.progress plan.length ∨ .bspReturn i ∈ new) :
    Invariant plan numAps next where
  bspInside := inside
  apInside := by
    rw [aps]
    exact invariant.apInside
  counted := by
    rw [aps, counters]
    exact invariant.counted
  opened := opened
  passed := by
    intro ap below i blocking reached
    rw [aps] at reached
    exact (invariant.passed ap below i blocking reached).trans later
  gathered := by
    intro i blocking reached
    rw [aps]
    rcases gathered i blocking reached with before | gathered
    · exact invariant.gathered i blocking before
    · exact gathered
  bspReturned := by
    intro i calls reached
    rw [trace, List.mem_append]
    exact (returned i calls reached).imp (invariant.bspReturned i calls) id
  apEntered := by
    intro ap below i entered
    rw [aps] at entered
    rw [trace]
    exact List.mem_append_left _ (invariant.apEntered ap below i entered)
  apStarted := by
    intro ap i member
    rw [trace, List.mem_append] at member
    rw [aps]
    rcases member with member | member
    · exact invariant.apStarted ap i member
    · have call := silent _ member ap
      simp [Event.isCallOf] at call
  apReturned := by
    intro ap below i calls reached
    rw [aps] at reached
    rw [trace]
    exact List.mem_append_left _ (invariant.apReturned ap below i calls reached)
  called := by
    rw [aps]
    exact invariant.called
  calls := by
    intro ap below
    have none : new.filter (Event.isCallOf ap) = [] := by
      rw [List.filter_eq_nil_iff]
      intro event member
      rw [silent event member ap]
      exact Bool.false_ne_true
    rw [trace, List.filter_append, none, List.append_nil, aps]
    exact invariant.calls ap below

theorem Invariant.moveAp (invariant : Invariant plan numAps state) {phase : Ap} (new : List Event)
    (below : ap < numAps) (bsp : next.bsp = state.bsp) (barrier : next.barrier = state.barrier)
    (aps : next.aps = Function.update state.aps ap phase) (trace : next.trace = state.trace ++ new)
    (others : ∀ event ∈ new, ∀ other ≠ ap, event.isCallOf other = false)
    (later : (state.aps ap).progress ≤ phase.progress) (inside : phase.progress ≤ 4 * plan.length)
    (counted : ∀ i, next.cpusEntered i = (enteredBy numAps next.aps i).card)
    (passed : ∀ i, Blocking plan i → 4 * i + 2 ≤ phase.progress →
      4 * i + 2 ≤ (state.aps ap).progress ∨ state.barrier i ≠ 0)
    (entered : ∀ i, 4 * i + 1 ≤ phase.progress →
      4 * i + 1 ≤ (state.aps ap).progress ∨ .apEnter ap i ∈ new)
    (started : ∀ i, .apStart ap i ∈ new → 4 * i + 3 ≤ phase.progress)
    (returned : ∀ i, apCallAt plan i ≠ none → 4 * (i + 1) ≤ phase.progress →
      4 * (i + 1) ≤ (state.aps ap).progress ∨ .apReturn ap i ∈ new)
    (called : ∀ i, phase = .inCall i → apCallAt plan i ≠ none)
    (calls : (state.aps ap).calls plan ap ++ new.filter (Event.isCallOf ap) = phase.calls plan ap) :
    Invariant plan numAps next where
  bspInside := by
    rw [bsp]
    exact invariant.bspInside
  apInside := by
    intro other small
    rw [aps]
    by_cases same : other = ap
    · rwa [same, Function.update_self]
    · rw [Function.update_of_ne same]
      exact invariant.apInside other small
  counted := counted
  opened := by
    rw [bsp, barrier]
    exact invariant.opened
  passed := by
    intro other small i blocking reached
    rw [bsp]
    rw [aps] at reached
    by_cases same : other = ap
    · rw [same, Function.update_self] at reached
      rcases passed i blocking reached with before | opened
      · exact invariant.passed ap below i blocking before
      · exact invariant.opened i blocking opened
    · rw [Function.update_of_ne same] at reached
      exact invariant.passed other small i blocking reached
  gathered := by
    intro i blocking reached other small
    rw [bsp] at reached
    have before := invariant.gathered i blocking reached other small
    rw [aps]
    by_cases same : other = ap
    · rw [same] at before
      rw [same, Function.update_self]
      exact before.trans later
    · rwa [Function.update_of_ne same]
  bspReturned := by
    intro i calls reached
    rw [bsp] at reached
    rw [trace]
    exact List.mem_append_left _ (invariant.bspReturned i calls reached)
  apEntered := by
    intro other small i reached
    rw [aps] at reached
    rw [trace, List.mem_append]
    by_cases same : other = ap
    · subst same
      rw [Function.update_self] at reached
      exact (entered i reached).imp (invariant.apEntered other small i) id
    · rw [Function.update_of_ne same] at reached
      exact .inl (invariant.apEntered other small i reached)
  apStarted := by
    intro other i member
    rw [trace, List.mem_append] at member
    rw [aps]
    by_cases same : other = ap
    · subst same
      rw [Function.update_self]
      rcases member with member | member
      · exact (invariant.apStarted other i member).trans later
      · exact started i member
    · rw [Function.update_of_ne same]
      rcases member with member | member
      · exact invariant.apStarted other i member
      · have call := others _ member other same
        simp [Event.isCallOf] at call
  apReturned := by
    intro other small i call reached
    rw [aps] at reached
    rw [trace, List.mem_append]
    by_cases same : other = ap
    · subst same
      rw [Function.update_self] at reached
      exact (returned i call reached).imp (invariant.apReturned other small i call) id
    · rw [Function.update_of_ne same] at reached
      exact .inl (invariant.apReturned other small i call reached)
  called := by
    intro other i inCall
    rw [aps] at inCall
    by_cases same : other = ap
    · rw [same, Function.update_self] at inCall
      exact called i inCall
    · rw [Function.update_of_ne same] at inCall
      exact invariant.called other i inCall
  calls := by
    intro other small
    rw [trace, List.filter_append, aps, invariant.calls other small]
    by_cases same : other = ap
    · rw [same, Function.update_self, calls]
    · have none : new.filter (Event.isCallOf other) = [] := by
        rw [List.filter_eq_nil_iff]
        intro event member
        rw [others event member other same]
        exact Bool.false_ne_true
      rw [none, List.append_nil, Function.update_of_ne same]

theorem gathered_of_card {aps : Nat → Ap} (full : (enteredBy numAps aps i).card = numAps) :
    ∀ ap < numAps, 4 * i + 1 ≤ (aps ap).progress := by
  have all : enteredBy numAps aps i = Finset.range numAps := by
    apply Finset.eq_of_subset_of_card_le (Finset.filter_subset _ _)
    exact (Finset.card_range numAps).trans_le full.ge
  intro ap below
  have member : ap ∈ enteredBy numAps aps i := by
    rw [all]
    exact Finset.mem_range.mpr below
  exact (Finset.mem_filter.mp member).2

theorem Invariant.stepBsp (invariant : Invariant plan numAps state) {expired : Bool}
    (untimed : Untimed (stepBsp plan numAps state expired).trace) :
    Invariant plan numAps (stepBsp plan numAps state expired) := by
  have inside := invariant.bspInside
  have opened := invariant.opened
  rw [FlightPlan.stepBsp] at untimed ⊢
  cases bsp : state.bsp with
  | checking i =>
    rw [bsp] at inside opened
    simp only [Bsp.progress] at inside opened
    dsimp only
    split_ifs with more closed
    · refine invariant.moveBsp [] rfl rfl (List.append_nil _).symm nofun ?_ ?_ ?_ ?_ ?_
      all_goals simp only [bsp, Bsp.progress]
      · omega
      · omega
      · exact fun j blocking open' => (opened j blocking open').trans (by omega)
      · exact fun j _ _ => .inl (by omega)
      · exact fun j _ _ => .inl (by omega)
    · refine invariant.moveBsp [] rfl rfl (List.append_nil _).symm nofun ?_ ?_ ?_ ?_ ?_
      all_goals simp only [bsp, Bsp.progress]
      · omega
      · omega
      · exact fun j blocking open' => (opened j blocking open').trans (by omega)
      · intro j blocking reached
        -- a blocking record is still closed when it is looked at
        have other : j ≠ i := by
          rintro rfl
          have late := opened j blocking closed
          omega
        exact .inl (by omega)
      · exact fun j _ _ => .inl (by omega)
    · refine invariant.moveBsp [] rfl rfl (List.append_nil _).symm nofun ?_ ?_ ?_ ?_ ?_
      all_goals simp only [bsp, Bsp.progress]
      · omega
      · omega
      · exact fun j blocking open' => (opened j blocking open').trans (by omega)
      · exact fun j _ _ => .inl (by omega)
      · exact fun j _ _ => .inl (by omega)
  | waiting i =>
    rw [bsp] at inside opened untimed
    simp only [Bsp.progress] at inside opened
    dsimp only at untimed ⊢
    by_cases full : state.cpusEntered i = numAps
    · rw [if_pos full]
      refine invariant.moveBsp [] rfl rfl (List.append_nil _).symm nofun ?_ ?_ ?_ ?_ ?_
      all_goals simp only [bsp, Bsp.progress]
      · omega
      · omega
      · exact fun j blocking open' => (opened j blocking open').trans (by omega)
      · intro j _ reached
        rw [invariant.counted i] at full
        rcases Nat.lt_or_ge j i with earlier | here
        · exact .inl (by omega)
        · obtain rfl : j = i := by omega
          exact .inr (gathered_of_card full)
      · exact fun j _ _ => .inl (by omega)
    · rw [if_neg full] at untimed ⊢
      cases expired with
      | true =>
        have timeout := untimed (.timeout i) (List.mem_append_right _ (.head _))
        exact absurd timeout.symm Bool.false_ne_true
      | false => exact invariant
  | calling i =>
    rw [bsp] at inside opened
    simp only [Bsp.progress] at inside opened
    dsimp only
    cases call : bspCallAt plan i with
    | none =>
      refine invariant.moveBsp [] rfl rfl (List.append_nil _).symm nofun ?_ ?_ ?_ ?_ ?_
      all_goals simp only [bsp, Bsp.progress]
      · omega
      · omega
      · exact fun j blocking open' =>
          (opened j blocking open').trans (by omega)
      · exact fun j _ _ => .inl (by omega)
      · intro j calls reached
        have other : j ≠ i := by
          rintro rfl
          exact calls call
        exact .inl (by omega)
    | some func =>
      refine invariant.moveBsp [.bspStart i] rfl rfl rfl (by simp [Event.isCallOf]) ?_ ?_ ?_ ?_ ?_
      all_goals simp only [bsp, Bsp.progress]
      · omega
      · omega
      · exact fun j blocking open' =>
          (opened j blocking open').trans (by omega)
      · exact fun j _ _ => .inl (by omega)
      · exact fun j _ _ => .inl (by omega)
  | inCall i =>
    rw [bsp] at inside opened
    simp only [Bsp.progress] at inside opened
    refine invariant.moveBsp [.bspReturn i] rfl rfl rfl (by simp [Event.isCallOf]) ?_ ?_ ?_ ?_ ?_
    all_goals simp only [bsp, Bsp.progress]
    · omega
    · omega
    · exact fun j blocking open' => (opened j blocking open').trans (by omega)
    · exact fun j _ _ => .inl (by omega)
    · intro j _ reached
      rcases Nat.lt_or_ge j i with earlier | here
      · exact .inl (by omega)
      · obtain rfl : j = i := by omega
        exact .inr (.head _)
  | releasing i =>
    rw [bsp] at inside opened
    simp only [Bsp.progress] at inside opened
    refine invariant.moveBsp [] rfl rfl (List.append_nil _).symm nofun ?_ ?_ ?_ ?_ ?_
    all_goals simp only [bsp, Bsp.progress]
    · omega
    · omega
    · intro j blocking open'
      by_cases here : j = i
      · rw [here]
      · rw [Function.update_of_ne here] at open'
        exact (opened j blocking open').trans (by omega)
    · exact fun j _ _ => .inl (by omega)
    · exact fun j _ _ => .inl (by omega)
  | returned =>
    rw [bsp] at inside opened
    simp only [Bsp.progress] at inside opened
    refine invariant.moveBsp [.restore] rfl rfl rfl (by simp [Event.isCallOf]) ?_ ?_ ?_ ?_ ?_
    all_goals simp only [bsp, Bsp.progress]
    · exact le_rfl
    · exact le_rfl
    · exact opened
    · exact fun j _ => .inl
    · exact fun j _ => .inl
  | restored => exact invariant

theorem enteredBy_congr {first second : Nat → Ap}
    (same : ∀ ap < numAps, 4 * i + 1 ≤ (first ap).progress ↔ 4 * i + 1 ≤ (second ap).progress) :
    enteredBy numAps first i = enteredBy numAps second i :=
  Finset.filter_congr fun ap member => same ap (Finset.mem_range.mp member)

theorem Invariant.counted_update (invariant : Invariant plan numAps state) {ap : Nat} {phase : Ap}
    (same : ∀ i, 4 * i + 1 ≤ (state.aps ap).progress ↔ 4 * i + 1 ≤ phase.progress) (i : Nat) :
    state.cpusEntered i = (enteredBy numAps (Function.update state.aps ap phase) i).card := by
  rw [invariant.counted i]
  congr 1
  apply enteredBy_congr
  intro other _
  by_cases here : other = ap
  · rw [here, Function.update_self]
    exact same i
  · rw [Function.update_of_ne here]

section

variable (invariant : Invariant plan numAps state)
include invariant

theorem Invariant.counted_enter (below : ap < numAps) (phase : state.aps ap = .entering i) (j : Nat) :
    Function.update state.cpusEntered i (state.cpusEntered i + 1) j =
      (enteredBy numAps (Function.update state.aps ap (.waiting i)) j).card := by
  by_cases here : j = i
  · subst here
    have fresh : ap ∉ enteredBy numAps state.aps j := by
      intro member
      have reached := (Finset.mem_filter.mp member).2
      rw [phase, Ap.progress] at reached
      omega
    rw [Function.update_self, invariant.counted j, ← Finset.card_insert_of_notMem fresh]
    congr 1
    ext other
    by_cases same : other = ap
    · have reached : 4 * j + 1 ≤ (Ap.waiting j).progress := le_rfl
      simp only [same, enteredBy, Finset.mem_insert, true_or, Finset.mem_filter,
        Finset.mem_range, Function.update_self, true_iff]
      exact ⟨below, reached⟩
    · simp [same, enteredBy]
  · rw [Function.update_of_ne here, invariant.counted j]
    congr 1
    apply enteredBy_congr
    intro other _
    by_cases same : other = ap
    · rw [same, Function.update_self, phase, Ap.progress, Ap.progress]
      omega
    · rw [Function.update_of_ne same]

omit invariant in
theorem Invariant.stepAp (invariant : Invariant plan numAps state)
    (below : ap < numAps) : Invariant plan numAps (stepAp plan state ap) := by
  have inside := invariant.apInside ap below
  have counted := @Invariant.counted_update _ _ _ _ invariant ap
  rw [FlightPlan.stepAp]
  cases phase : state.aps ap with
  | entering i =>
    rw [phase, Ap.progress] at inside
    dsimp only
    split_ifs with more
    · refine invariant.moveAp [.apEnter ap i] below rfl rfl rfl rfl
        (by simp [Event.isCallOf]) ?_ ?_
        (invariant.counted_enter below phase) ?_ ?_ (by simp) ?_ nofun
        (by simp [phase, Ap.calls, Event.isCallOf])
      all_goals simp only [phase, Ap.progress]
      · omega
      · omega
      · exact fun j _ _ => .inl (by omega)
      · intro j reached
        rcases Nat.lt_or_ge j i with earlier | here
        · exact .inl (by omega)
        · obtain rfl : j = i := by omega
          exact .inr (.head _)
      · exact fun j _ _ => .inl (by omega)
    · exact invariant
  | waiting i =>
    rw [phase, Ap.progress] at inside
    dsimp only
    split_ifs with closed
    · exact invariant
    · refine invariant.moveAp [] below rfl rfl rfl
        (List.append_nil _).symm nofun ?_ ?_ (counted ?_) ?_ ?_ nofun ?_ nofun
        (by simp [phase, Ap.calls])
      all_goals simp only [phase, Ap.progress]
      · omega
      · omega
      · omega
      · intro j _ reached
        rcases Nat.lt_or_ge j i with earlier | here
        · exact .inl (by omega)
        · obtain rfl : j = i := by omega
          exact .inr closed
      · exact fun j _ => .inl (by omega)
      · exact fun j _ _ => .inl (by omega)
  | calling i =>
    rw [phase, Ap.progress] at inside
    dsimp only
    cases call : apCallAt plan i with
    | none =>
      have calls : callsBefore plan ap (i + 1) = callsBefore plan ap i := by
        rw [callsBefore_succ, callsAt_of_none call, List.append_nil]
      refine invariant.moveAp [] below rfl rfl rfl
        (List.append_nil _).symm nofun ?_ ?_ (counted ?_) ?_ ?_ nofun ?_
        nofun (by simp [phase, Ap.calls, calls])
      all_goals simp only [phase, Ap.progress]
      · omega
      · omega
      · omega
      · exact fun j _ _ => .inl (by omega)
      · exact fun j _ => .inl (by omega)
      · intro j some reached
        have other : j ≠ i := by
          rintro rfl
          exact some call
        exact .inl (by omega)
    | some func =>
      have called : ∀ j, Ap.inCall i = .inCall j → apCallAt plan j ≠ none := by
        intro j same
        obtain rfl := Ap.inCall.inj same
        rw [call]
        exact Option.some_ne_none func
      refine invariant.moveAp [.apStart ap i] below rfl rfl rfl rfl ?_ ?_ ?_
        (counted ?_) ?_ ?_ ?_ ?_ called
        (by simp [phase, Ap.calls, Event.isCallOf])
      · intro event member other different
        rw [List.mem_singleton.mp member]
        exact decide_eq_false different.symm
      all_goals simp only [phase, Ap.progress]
      · omega
      · omega
      · omega
      · exact fun j _ _ => .inl (by omega)
      · exact fun j _ => .inl (by omega)
      · intro j member
        obtain ⟨-, rfl⟩ := Event.apStart.inj (List.mem_singleton.mp member)
        exact le_rfl
      · exact fun j _ _ => .inl (by omega)
  | inCall i =>
    have call := invariant.called ap i phase
    have more := apCallAt_lt call
    have calls : callsBefore plan ap (i + 1) =
        callsBefore plan ap i ++ [.apStart ap i, .apReturn ap i] := by
      rw [callsBefore_succ, callsAt_of_some call]
    refine invariant.moveAp [.apReturn ap i] below rfl rfl rfl rfl ?_ ?_ ?_
      (counted ?_) ?_ ?_ (by simp) ?_ nofun
      (by simp [phase, Ap.calls, calls, Event.isCallOf])
    · intro event member other different
      rw [List.mem_singleton.mp member]
      exact decide_eq_false different.symm
    all_goals simp only [phase, Ap.progress]
    · omega
    · omega
    · omega
    · exact fun j _ _ => .inl (by omega)
    · exact fun j _ => .inl (by omega)
    · intro j _ reached
      rcases Nat.lt_or_ge j i with earlier | here
      · exact .inl (by omega)
      · obtain rfl : j = i := by omega
        exact .inr (.head _)

/-- Every event of a trace stands in a relation to the events before it. -/
def Past (relation : List Event → Event → Prop) (trace : List Event) : Prop :=
  ∀ before event after, trace = before ++ event :: after → relation before event

omit invariant in
theorem Past.append {relation : List Event → Event → Prop}
    (past : Past relation trace) {event : Event}
    (last : relation trace event) : Past relation (trace ++ [event]) := by
  intro before other after split
  rcases List.eq_nil_or_concat' after with rfl | ⟨after, final, rfl⟩
  · obtain ⟨rfl, same⟩ := List.append_inj' split rfl
    rw [← List.head_eq_of_cons_eq same]
    exact last
  · rw [← List.cons_append, ← List.append_assoc] at split
    exact past before other after (List.append_inj_left' split rfl)

def Follows (plan : List (Record α)) (numAps : Nat) (before : List Event) : Event → Prop
  | .bspStart i =>
    (Blocking plan i → ∀ ap < numAps,
      (∀ j < i, apCallAt plan j ≠ none → .apReturn ap j ∈ before) ∧
        ∀ j ≥ i, .apStart ap j ∉ before) ∧
      ∀ j < i, bspCallAt plan j ≠ none → .bspReturn j ∈ before
  | .apStart _ i => ∀ j ≤ i, Blocking plan j → bspCallAt plan j ≠ none →
      .bspReturn j ∈ before
  | .restore =>
    (∀ j, bspCallAt plan j ≠ none → .bspReturn j ∈ before) ∧
      ∀ ap < numAps, ∀ i j, i < j → Blocking plan j →
        apCallAt plan i ≠ none → .apReturn ap i ∈ before
  | _ => True

omit invariant in
theorem bspCallAt_lt (calls : bspCallAt plan i ≠ none) : i < plan.length := by
  by_contra outside
  rw [bspCallAt, List.getElem?_eq_none (Nat.le_of_not_lt outside)] at calls
  exact calls rfl

theorem Invariant.follows_bspStart (calling : state.bsp = .calling i) :
    Follows plan numAps state.trace (.bspStart i) := by
  have progress : state.bsp.progress plan.length = 5 * i + 2 := by
    rw [calling, Bsp.progress]
  refine ⟨fun blocking ap below => ⟨fun j earlier calls => ?_,
    fun j later started => ?_⟩, fun j earlier calls => ?_⟩
  · have entered := invariant.gathered i blocking progress.ge ap below
    exact invariant.apReturned ap below j calls (by omega)
  · have reached := invariant.apStarted ap j started
    have passed := invariant.passed ap below i blocking (by omega)
    omega
  · exact invariant.bspReturned j calls (by omega)

theorem Invariant.follows_apStart (below : ap < numAps) (calling : state.aps ap = .calling i) :
    Follows plan numAps state.trace (.apStart ap i) := by
  intro j le blocking calls
  have progress : (state.aps ap).progress = 4 * i + 2 := by
    rw [calling, Ap.progress]
  have passed := invariant.passed ap below j blocking (by omega)
  exact invariant.bspReturned j calls (by omega)

theorem Invariant.follows_restore (returned : state.bsp = .returned) :
    Follows plan numAps state.trace .restore := by
  have progress : state.bsp.progress plan.length = 5 * plan.length := by
    rw [returned, Bsp.progress]
  refine ⟨fun j calls => ?_, fun ap below i j earlier blocking calls => ?_⟩
  · have inside := bspCallAt_lt calls
    exact invariant.bspReturned j calls (by omega)
  · have inside := blocking.lt
    have entered := invariant.gathered j blocking (by omega) ap below
    exact invariant.apReturned ap below i calls (by omega)

theorem Invariant.past_stepBsp (past : Past (Follows plan numAps) state.trace) (expired : Bool) :
    Past (Follows plan numAps) (FlightPlan.stepBsp plan numAps state expired).trace := by
  rw [FlightPlan.stepBsp]
  cases bsp : state.bsp with
  | checking i =>
    dsimp only
    split_ifs <;> exact past
  | waiting i =>
    dsimp only
    split_ifs
    · exact past
    · exact past.append trivial
    · exact past
  | calling i =>
    dsimp only
    split
    · exact past
    · exact past.append (invariant.follows_bspStart bsp)
  | inCall i => exact past.append trivial
  | releasing i => exact past
  | returned => exact past.append (invariant.follows_restore bsp)
  | restored => exact past

theorem Invariant.past_stepAp (past : Past (Follows plan numAps) state.trace) (below : ap < numAps) :
    Past (Follows plan numAps) (FlightPlan.stepAp plan state ap).trace := by
  rw [FlightPlan.stepAp]
  cases phase : state.aps ap with
  | entering i =>
    dsimp only
    split_ifs
    · exact past.append trivial
    · exact past
  | waiting i =>
    dsimp only
    split_ifs <;> exact past
  | calling i =>
    dsimp only
    split
    · exact past
    · exact past.append (invariant.follows_apStart below phase)
  | inCall i => exact past.append trivial

end

theorem trace_prefix_stepBsp (expired : Bool) :
    state.trace <+: (FlightPlan.stepBsp plan numAps state expired).trace := by
  rw [FlightPlan.stepBsp]
  cases state.bsp with
  | checking i =>
    dsimp only
    split_ifs <;> exact List.prefix_rfl
  | waiting i =>
    dsimp only
    split_ifs
    · exact List.prefix_rfl
    · exact List.prefix_append _ _
    · exact List.prefix_rfl
  | calling i =>
    dsimp only
    split
    · exact List.prefix_rfl
    · exact List.prefix_append _ _
  | inCall i => exact List.prefix_append _ _
  | releasing i => exact List.prefix_rfl
  | returned => exact List.prefix_append _ _
  | restored => exact List.prefix_rfl

theorem trace_prefix_stepAp (ap : Nat) :
    state.trace <+: (FlightPlan.stepAp plan state ap).trace := by
  rw [FlightPlan.stepAp]
  cases state.aps ap with
  | entering i =>
    dsimp only
    split_ifs
    · exact List.prefix_append _ _
    · exact List.prefix_rfl
  | waiting i =>
    dsimp only
    split_ifs <;> exact List.prefix_rfl
  | calling i =>
    dsimp only
    split
    · exact List.prefix_rfl
    · exact List.prefix_append _ _
  | inCall i => exact List.prefix_append _ _

theorem trace_prefix_step (action : Action) :
    state.trace <+: (step plan numAps state action).trace := by
  cases action with
  | bsp expired => exact trace_prefix_stepBsp expired
  | ap ap =>
    rw [step]
    split_ifs
    · exact trace_prefix_stepAp ap
    · exact List.prefix_rfl

theorem execute_append (plan : List (Record α)) (numAps : Nat)
    (actions : List Action) (action : Action) :
    execute plan numAps (actions ++ [action]) =
      step plan numAps (execute plan numAps actions) action := by
  rw [execute, List.foldl_append]
  rfl

theorem invariant_execute (plan : List (Record α)) (numAps : Nat) (actions : List Action)
    (untimed : Untimed (execute plan numAps actions).trace) :
    Invariant plan numAps (execute plan numAps actions) ∧
      Past (Follows plan numAps) (execute plan numAps actions).trace := by
  induction actions using List.reverseRecOn with
  | nil =>
    refine ⟨invariant_initial plan numAps, fun before event after split => ?_⟩
    exact absurd split.symm (List.append_ne_nil_of_right_ne_nil _ nofun)
  | append_singleton actions action ih =>
    rw [execute_append] at untimed ⊢
    obtain ⟨invariant, past⟩ := ih fun event member =>
      untimed event ((trace_prefix_step action).subset member)
    cases action with
    | bsp expired =>
      exact ⟨invariant.stepBsp untimed, invariant.past_stepBsp past expired⟩
    | ap ap =>
      rw [step]
      split_ifs with below
      · exact ⟨invariant.stepAp below, invariant.past_stepAp past below⟩
      · exact ⟨invariant, past⟩

theorem Ap.calls_startWith {phase : Ap} (called : ∀ i, phase = .inCall i → apCallAt plan i ≠ none)
    (inside : phase.progress ≤ 4 * plan.length) :
    phase.calls plan ap <+: callsBefore plan ap plan.length := by
  cases phase with
  | inCall i =>
    have call := called i rfl
    have more : callsBefore plan ap i ++ [.apStart ap i] <+: callsBefore plan ap (i + 1) := by
      rw [callsBefore_succ, callsAt_of_some call]
      exact ⟨[.apReturn ap i], List.append_assoc _ _ _⟩
    exact more.trans (callsBefore_startsWith plan ap (apCallAt_lt call))
  | entering i | waiting i | calling i =>
    rw [Ap.progress] at inside
    exact callsBefore_startsWith plan ap (by omega)

theorem Invariant.ordered (invariant : Invariant plan numAps state)
    (past : Past (Follows plan numAps) state.trace) :
    Ordered plan numAps state where
  blocking := fun before after i split blocking =>
    (past before _ after split).1 blocking
  released := fun before after _ i split blocking calls =>
    past before _ after split i (Nat.le_refl i) blocking calls
  inOrder := by
    intro ap below
    rw [invariant.calls ap below]
    exact Ap.calls_startWith (invariant.called ap) (invariant.apInside ap below)
  finished := by
    intro ap below ends
    rw [invariant.calls ap below, ends, Ap.calls]
  entered := by
    intro returned _ i blocking ap below
    have inside := blocking.lt
    have progress : state.bsp.progress plan.length = 5 * plan.length := by
      rw [returned, Bsp.progress]
    exact invariant.apEntered ap below i (invariant.gathered i blocking (by omega) ap below)

theorem smmOrdered_of_past
    {loadSmmHandlers triggerSmmRelocation mpInitializeCpu apWaitForInstruction : α}
    (past : Past (Follows (mpSteps loadSmmHandlers triggerSmmRelocation
      mpInitializeCpu apWaitForInstruction) numAps) trace) :
    SmmOrdered numAps trace where
  bspLoaded := fun before after split =>
    (past before _ after split).2 0 Nat.zero_lt_one nofun
  apLoaded := fun before after _ split =>
    past before _ after split 0 (Nat.zero_le 1) ⟨_, rfl, rfl⟩ nofun
  restored := fun before after split =>
    ⟨(past before _ after split).1 1 nofun, fun ap below =>
      (past before _ after split).2 ap below 1 2 Nat.one_lt_two ⟨_, rfl, rfl⟩ nofun⟩

end

/-- In every run without a timeout the calls are in the order of the plan, and
the plan of `mp_init_with_smm` relocates between the load of the handlers and
the restoration of the default area. -/
theorem ordered_of_execute (plan : List (Record α)) (numAps : Nat) (actions : List Action)
    (untimed : Untimed (execute plan numAps actions).trace) :
    Ordered plan numAps (execute plan numAps actions) ∧
      ∀ loadSmmHandlers triggerSmmRelocation mpInitializeCpu apWaitForInstruction,
        plan = mpSteps loadSmmHandlers triggerSmmRelocation mpInitializeCpu apWaitForInstruction →
          SmmOrdered numAps (execute plan numAps actions).trace := by
  obtain ⟨invariant, past⟩ := invariant_execute plan numAps actions untimed
  refine ⟨invariant.ordered past, ?_⟩
  rintro load trigger cpu wait rfl
  exact smmOrdered_of_past past

/-- One processor next to the bootstrap processor, which is ahead of it at the
first record and behind it at the second one. -/
def oneAp : List Action :=
  [.bsp false, .bsp false, .ap 0, .bsp false, .bsp false, .bsp false,
    .bsp false, .ap 0, .ap 0, .ap 0, .ap 0, .ap 0, .bsp false, .bsp false,
    .bsp false, .bsp false, .ap 0, .bsp false, .ap 0, .bsp false, .bsp false,
    .bsp false, .bsp false, .bsp false, .ap 0, .ap 0, .ap 0, .ap 0, .bsp false,
    .bsp false, .bsp false, .bsp false, .bsp false, .bsp false, .bsp false,
    .ap 0, .ap 0]

theorem ordered_oneAp :
    (execute (mpSteps 1 2 3 4) 1 oneAp).bsp = .restored ∧
      Ordered (mpSteps 1 2 3 4) 1 (execute (mpSteps 1 2 3 4) 1 oneAp) ∧
        SmmOrdered 1 (execute (mpSteps 1 2 3 4) 1 oneAp).trace := by
  obtain ⟨ordered, smm⟩ := ordered_of_execute (mpSteps 1 2 3 4) 1 oneAp (by decide)
  exact ⟨by decide, ordered, smm 1 2 3 4 rfl⟩

end Coreboot.FlightPlan
