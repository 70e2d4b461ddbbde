import Mathlib.Data.List.Basic
import Mathlib.Logic.Function.Basic
import Mathlib.Tactic.Common

/-!
# Work for the application processors

Processor 0 posts a function into the slot of every other processor and waits until the slots
are empty again. An application processor reads its slot, clears it in a second step, and calls
the function. Every post carries the number of its call.
-/

namespace Coreboot.ApWork

variable {α : Type}

/-- A function in a slot, with the number of the call that posted it. -/
structure Post (α : Type) where
  call : Nat
  func : α
deriving DecidableEq, Repr

/-- An application processor in `ap_wait_for_instruction`: it looks at its slot,
it has read a function, or it calls the function. -/
inductive Ap (α : Type) where
  | waiting
  | read (post : Post α)
  | running (post : Post α)
deriving DecidableEq, Repr

/-- The bootstrap processor in `run_ap_work`: in the loop that posts the
function, before the stopwatch is looked at, in the loop that counts the empty
slots, or after the return. -/
inductive Bsp where
  | posting (i : Nat)
  | waiting
  | counting (i cpusAccepted : Nat)
  | returned (ret : Int)
deriving DecidableEq, Repr

structure State (α : Type) where
  apCallbacks : Nat → Option (Post α)
  aps : Nat → Ap α
  bsp : Bsp
  /-- The function of the current call, with its number. -/
  current : Post α
  /-- What every processor has taken out of its slot, and what has returned. -/
  taken : Nat → List (Post α)
  ran : Nat → List (Post α)

/-- `CONFIG_MAX_CPUS` and `global_num_aps`. -/
structure Config where
  maxCpus : Nat
  globalNumAps : Nat
  fits : globalNumAps + 1 ≤ maxCpus

/-- Processor `i` waits in `ap_wait_for_instruction`. -/
def Config.IsAp (config : Config) (i : Nat) : Prop := 0 < i ∧ i ≤ config.globalNumAps

instance (config : Config) (i : Nat) : Decidable (config.IsAp i) :=
  inferInstanceAs (Decidable (_ ∧ _))

/-- A call of `run_ap_work`, a step of the bootstrap processor with what its
stopwatch says, or a step of an application processor. -/
inductive Action (α : Type) where
  | call (func : α)
  | bsp (expired : Bool)
  | ap (i : Nat)
deriving DecidableEq, Repr

def stepBsp (config : Config) (state : State α) (expired : Bool) : Option (State α) :=
  match state.bsp with
  | .posting i =>
    if i < config.maxCpus then
      -- Signal to all the APs to run the func.
      some { state with
        apCallbacks :=
          if i = 0 then state.apCallbacks
          else Function.update state.apCallbacks i (some state.current)
        bsp := .posting (i + 1) }
    else some { state with bsp := .waiting }
  | .waiting =>
    if expired then some { state with bsp := .returned (-1) }
    else some { state with bsp := .counting 0 0 }
  | .counting i cpusAccepted =>
    if i < config.maxCpus then
      some { state with
        bsp := .counting (i + 1)
          (if i = 0 then cpusAccepted
          else
            match state.apCallbacks i with
            | none => cpusAccepted + 1
            | some _ => cpusAccepted) }
    else if cpusAccepted = config.globalNumAps then
      some { state with bsp := .returned 0 }
    else some { state with bsp := .waiting }
  | .returned _ => none

def stepAp (state : State α) (i : Nat) : State α :=
  match state.aps i with
  | .waiting =>
    match state.apCallbacks i with
    | none => state
    | some post =>
      { state with aps := Function.update state.aps i (.read post) }
  | .read post =>
    { state with
      apCallbacks := Function.update state.apCallbacks i none
      aps := Function.update state.aps i (.running post)
      taken := Function.update state.taken i (post :: state.taken i) }
  | .running post =>
    { state with
      aps := Function.update state.aps i .waiting
      ran := Function.update state.ran i (post :: state.ran i) }

/-- One read or write.  The next call starts after the return of the one
before. -/
def step (config : Config) (state : State α) : Action α → Option (State α)
  | .call func =>
    match state.bsp with
    | .returned _ =>
      some { state with
        bsp := .posting 0
        current := ⟨state.current.call + 1, func⟩ }
    | _ => none
  | .bsp expired => stepBsp config state expired
  | .ap i => if config.IsAp i then some (stepAp state i) else none

def initial (func : α) : State α where
  apCallbacks := fun _ => none
  aps := fun _ => .waiting
  bsp := .returned 0
  current := ⟨0, func⟩
  taken := fun _ => []
  ran := fun _ => []

/-- The states reached by steps that meet a condition. -/
inductive Run (config : Config) (func : α)
    (allowed : State α → Action α → Bool) : State α → Prop
  | start : Run config func allowed (initial func)
  | step {state next : State α} {action : Action α}
      (before : Run config func allowed state)
      (meets : allowed state action = true)
      (steps : step config state action = some next) :
      Run config func allowed next

/-- When a call has returned 0, every processor has taken its function, and
calls it before it looks at its slot again.  Nothing is taken twice. -/
structure Handed (config : Config) (state : State α) : Prop where
  taken : state.bsp = .returned 0 → 0 < state.current.call →
    ∀ i, config.IsAp i → state.current ∈ state.taken i
  called : ∀ i, config.IsAp i → state.taken i = state.ran i ∨
    ∃ post, state.aps i = .running post ∧ state.taken i = post :: state.ran i
  once : ∀ i, config.IsAp i → (state.taken i).Nodup

/-- No function is posted to a processor between its read and its clear. -/
def undisturbed (config : Config) (state : State α) : Action α → Bool
  | .bsp _ =>
    match state.bsp with
    | .posting i =>
      match state.aps i with
      | .read _ => !(config.IsAp i)
      | _ => true
    | _ => true
  | _ => true

/-- The current function has been posted to a processor. -/
def Bsp.Posted (i : Nat) : Bsp → Prop
  | .posting j => i < j
  | _ => True

/-- The slot of an application processor: before the post of the call everything
is older, and after it the function is in the slot or has been taken. -/
structure SlotInvariant (state : State α) (i : Nat) : Prop where
  fresh : ∀ post, state.apCallbacks i = some post → post ∉ state.taken i
  reading : ∀ post, state.aps i = .read post → state.apCallbacks i = some post
  older : ¬ state.bsp.Posted i →
    (∀ post, state.apCallbacks i = some post → post.call < state.current.call) ∧
      ∀ post ∈ state.taken i, post.call < state.current.call
  bounded : ∀ post ∈ state.taken i, post.call ≤ state.current.call
  posted : state.bsp.Posted i → 0 < state.current.call →
    state.apCallbacks i = some state.current ∨
      (state.apCallbacks i = none ∧ state.current ∈ state.taken i)
  held : ∀ post, state.apCallbacks i = some post → post.call ≤ state.current.call
  once : (state.taken i).Nodup
  called : (state.taken i = state.ran i ∧ ∀ post, state.aps i ≠ .running post) ∨
    ∃ post, state.aps i = .running post ∧ state.taken i = post :: state.ran i

/-- What the count of empty slots says about the slots. -/
def Counted (config : Config) (state : State α) : Prop :=
  ∀ i cpusAccepted, state.bsp = .counting i cpusAccepted →
    cpusAccepted ≤ min (i - 1) config.globalNumAps ∧
      (cpusAccepted = min (i - 1) config.globalNumAps →
        ∀ k, config.IsAp k → k < i → state.apCallbacks k = none)

structure Invariant (config : Config) (state : State α) : Prop where
  slots : ∀ i, config.IsAp i → SlotInvariant state i
  /-- The slots that no processor clears. -/
  unused : ∀ i, config.globalNumAps < i → i < config.maxCpus →
    state.bsp.Posted i → 0 < state.current.call → state.apCallbacks i ≠ none
  counted : Counted config state
  returned : state.bsp = .returned 0 → 0 < state.current.call →
    ∀ i, config.IsAp i → state.apCallbacks i = none
  calls : (∀ ret, state.bsp ≠ .returned ret) → 0 < state.current.call

variable {config : Config} {state next : State α} {func : α}

variable {i j : Nat}

theorem SlotInvariant.congr (invariant : SlotInvariant state i)
    (slot : next.apCallbacks i = state.apCallbacks i) (ap : next.aps i = state.aps i)
    (taken : next.taken i = state.taken i) (ran : next.ran i = state.ran i)
    (current : next.current = state.current) (posted : next.bsp.Posted i ↔ state.bsp.Posted i) :
    SlotInvariant next i where
  fresh := by
    rw [slot, taken]
    exact invariant.fresh
  reading := by
    rw [slot, ap]
    exact invariant.reading
  older := by
    rw [slot, taken, current, posted]
    exact invariant.older
  bounded := by
    rw [taken, current]
    exact invariant.bounded
  posted := by
    rw [slot, taken, current, posted]
    exact invariant.posted
  held := by
    rw [slot, current]
    exact invariant.held
  once := by
    rw [taken]
    exact invariant.once
  called := by
    rw [taken, ran, ap]
    exact invariant.called

theorem SlotInvariant.post (invariant : SlotInvariant state i) (here : state.bsp = .posting i)
    (undisturbed : ∀ post, state.aps i ≠ .read post) :
    SlotInvariant { state with
      apCallbacks := Function.update state.apCallbacks i (some state.current)
      bsp := .posting (i + 1) } i := by
  have notPosted : ¬ state.bsp.Posted i := by
    rw [here]
    exact Nat.lt_irrefl i
  obtain ⟨-, older⟩ := invariant.older notPosted
  constructor
  · intro post held member
    simp only [Function.update_self] at held
    cases held
    exact Nat.lt_irrefl _ (older _ member)
  · intro post reads
    exact absurd reads (undisturbed post)
  · intro unposted
    exact absurd (Nat.lt_succ_self i) unposted
  · exact invariant.bounded
  · intro _ _
    exact .inl (Function.update_self i _ _)
  · intro post held
    simp only [Function.update_self] at held
    cases held
    exact Nat.le_refl _
  · exact invariant.once
  · exact invariant.called

theorem SlotInvariant.stepAp (invariant : SlotInvariant state i) :
    SlotInvariant (stepAp state i) i := by
  rw [ApWork.stepAp]
  cases ap : state.aps i with
  | waiting =>
    cases slot : state.apCallbacks i with
    | none => exact invariant
    | some post =>
      have idle : state.taken i = state.ran i := by
        rcases invariant.called with ⟨same, -⟩ | ⟨other, runs, -⟩
        · exact same
        · rw [ap] at runs
          cases runs
      refine ⟨invariant.fresh, ?_, invariant.older, invariant.bounded,
        invariant.posted, invariant.held, invariant.once, ?_⟩
      · intro other reads
        simp only [Function.update_self] at reads
        cases reads
        exact slot
      · refine .inl ⟨idle, fun other runs => ?_⟩
        simp only [Function.update_self] at runs
        cases runs
  | read post =>
    have slot := invariant.reading post ap
    have idle : state.taken i = state.ran i := by
      rcases invariant.called with ⟨same, -⟩ | ⟨other, runs, -⟩
      · exact same
      · rw [ap] at runs
        cases runs
    constructor
    · intro other held
      simp only [Function.update_self] at held
      cases held
    · intro other reads
      simp only [Function.update_self] at reads
      cases reads
    · intro unposted
      obtain ⟨slotOlder, takenOlder⟩ := invariant.older unposted
      refine ⟨fun other held => ?_, fun other member => ?_⟩
      · simp only [Function.update_self] at held
        cases held
      · simp only [Function.update_self] at member
        rcases List.mem_cons.mp member with rfl | member
        · exact slotOlder _ slot
        · exact takenOlder _ member
    · intro other member
      simp only [Function.update_self] at member
      rcases List.mem_cons.mp member with rfl | member
      · exact invariant.held _ slot
      · exact invariant.bounded _ member
    · intro posted started
      refine .inr ⟨Function.update_self i _ _, ?_⟩
      simp only [Function.update_self]
      rcases invariant.posted posted started with current | ⟨empty, -⟩
      · rw [slot] at current
        rw [Option.some.inj current]
        exact .head _
      · rw [slot] at empty
        cases empty
    · intro other held
      simp only [Function.update_self] at held
      cases held
    · simp only [Function.update_self]
      exact List.nodup_cons.mpr ⟨invariant.fresh post slot, invariant.once⟩
    · refine .inr ⟨post, Function.update_self i _ _, ?_⟩
      simp only [Function.update_self, idle]
  | running post =>
    have took : state.taken i = post :: state.ran i := by
      rcases invariant.called with ⟨-, none⟩ | ⟨other, runs, took⟩
      · exact absurd ap (none post)
      · rw [ap] at runs
        cases runs
        exact took
    refine ⟨invariant.fresh, ?_, invariant.older, invariant.bounded,
      invariant.posted, invariant.held, invariant.once, ?_⟩
    · intro other reads
      simp only [Function.update_self] at reads
      cases reads
    · refine .inl ⟨?_, fun other runs => ?_⟩
      · simp only [Function.update_self]
        exact took
      · simp only [Function.update_self] at runs
        cases runs

theorem stepAp_frame (state : State α) (i : Nat) :
    (stepAp state i).bsp = state.bsp ∧
      (stepAp state i).current = state.current ∧
      (∀ k, state.apCallbacks k = none → (stepAp state i).apCallbacks k = none) ∧
      ∀ k, k ≠ i →
        (stepAp state i).apCallbacks k = state.apCallbacks k ∧
          (stepAp state i).aps k = state.aps k ∧
          (stepAp state i).taken k = state.taken k ∧
          (stepAp state i).ran k = state.ran k := by
  rw [stepAp]
  cases state.aps i with
  | waiting =>
    cases state.apCallbacks i with
    | none => exact ⟨rfl, rfl, fun _ empty => empty, fun _ _ => ⟨rfl, rfl, rfl, rfl⟩⟩
    | some post => exact ⟨rfl, rfl, fun _ empty => empty, fun _ other =>
      ⟨rfl, Function.update_of_ne other _ _, rfl, rfl⟩⟩
  | read post =>
    refine ⟨rfl, rfl, fun k empty => ?_, fun _ other =>
      ⟨Function.update_of_ne other _ _, Function.update_of_ne other _ _,
        Function.update_of_ne other _ _, rfl⟩⟩
    by_cases same : k = i
    · subst same
      exact Function.update_self k _ _
    · exact (Function.update_of_ne same _ _).trans empty
  | running post =>
    exact ⟨rfl, rfl, fun _ empty => empty, fun _ other =>
      ⟨rfl, Function.update_of_ne other _ _, rfl, Function.update_of_ne other _ _⟩⟩

theorem Invariant.ap (invariant : Invariant config state) (isAp : config.IsAp i) :
    Invariant config (stepAp state i) := by
  obtain ⟨bsp, current, kept, others⟩ := stepAp_frame state i
  constructor
  · intro k isAp
    by_cases same : k = i
    · subst same
      exact (invariant.slots k isAp).stepAp
    · obtain ⟨slot, ap, taken, ran⟩ := others k same
      exact (invariant.slots k isAp).congr slot ap taken ran current (by rw [bsp])
  · intro k above below
    rw [bsp, current, (others k (by rw [Config.IsAp] at isAp; omega)).1]
    exact invariant.unused k above below
  · intro k accepted counting
    rw [bsp] at counting
    obtain ⟨bound, empty⟩ := invariant.counted k accepted counting
    exact ⟨bound, fun all j isAp below => kept j (empty all j isAp below)⟩
  · intro returned started k isAp
    rw [bsp] at returned
    rw [current] at started
    exact kept k (invariant.returned returned started k isAp)
  · rw [bsp, current]
    exact invariant.calls

theorem Invariant.move (invariant : Invariant config state) {bsp : Bsp}
    (posted : ∀ i, 0 < i → i < config.maxCpus → (bsp.Posted i ↔ state.bsp.Posted i))
    (counted : Counted config { state with bsp })
    (returned : bsp = .returned 0 → 0 < state.current.call →
      ∀ i, config.IsAp i → state.apCallbacks i = none) (calls : 0 < state.current.call) :
    Invariant config { state with bsp } where
  slots i isAp := (invariant.slots i isAp).congr rfl rfl rfl rfl rfl
    (posted i isAp.1 (Nat.lt_of_lt_of_le (Nat.lt_succ_of_le isAp.2) config.fits))
  unused i above below :=
    fun isPosted => invariant.unused i above below
      ((posted i (Nat.zero_lt_of_lt above) below).mp isPosted)
  counted := counted
  returned := returned
  calls _ := calls

theorem counted_of_ne {bsp : Bsp} (other : ∀ i k, bsp ≠ .counting i k) :
    Counted config { state with bsp } :=
  fun i accepted counting => absurd counting (other i accepted)

theorem Invariant.post (invariant : Invariant config state) (place : state.bsp = .posting j)
    (nonzero : j ≠ 0) (undisturbed : config.IsAp j → ∀ post, state.aps j ≠ .read post) :
    Invariant config { state with
      apCallbacks := Function.update state.apCallbacks j (some state.current)
      bsp := .posting (j + 1) } where
  slots i isAp := by
    by_cases same : i = j
    · subst same
      exact (invariant.slots i isAp).post place (undisturbed isAp)
    · refine (invariant.slots i isAp).congr (Function.update_of_ne same _ _) rfl rfl rfl rfl ?_
      rw [place]
      simp only [Bsp.Posted]
      omega
  unused i above below posted started := by
    by_cases same : i = j
    · subst same
      simp
    · simp only [Function.update_of_ne same]
      refine invariant.unused i above below ?_ started
      rw [place]
      simp only [Bsp.Posted] at posted ⊢
      omega
  counted _ _ same := by cases same
  returned same := by cases same
  calls _ := invariant.calls fun ret same => by
    rw [place] at same
    cases same

theorem Counted.count (counted : Counted config state) {accepted : Nat}
    (place : state.bsp = .counting j accepted) (nonzero : j ≠ 0)
    (unused : config.globalNumAps < j → state.apCallbacks j ≠ none) :
    Counted config { state with
      bsp := .counting (j + 1)
        (match state.apCallbacks j with
        | none => accepted + 1
        | some _ => accepted) } := by
  obtain ⟨bound, empty⟩ := counted j accepted place
  intro i total counting
  cases slot : state.apCallbacks j with
  | none =>
    simp only [slot, Bsp.counting.injEq] at counting
    obtain ⟨rfl, rfl⟩ := counting
    have isAp : j ≤ config.globalNumAps := Nat.not_lt.mp fun above => unused above slot
    refine ⟨by omega, fun all k isAp below => ?_⟩
    rcases Nat.lt_succ_iff_lt_or_eq.mp below with before | rfl
    · exact empty (by omega) k isAp before
    · exact slot
  | some post =>
    simp only [slot, Bsp.counting.injEq] at counting
    obtain ⟨rfl, rfl⟩ := counting
    refine ⟨by omega, fun all k isAp below => ?_⟩
    have beyond : config.globalNumAps < j := by omega
    rcases Nat.lt_succ_iff_lt_or_eq.mp below with before | rfl
    · exact empty (by omega) k isAp before
    · exact absurd isAp.2 (Nat.not_le.mpr beyond)

theorem not_read_of_undisturbed {expired : Bool}
    (meets : undisturbed config state (.bsp expired) = true) (place : state.bsp = .posting j)
    (isAp : config.IsAp j) (post : Post α) : state.aps j ≠ .read post := by
  intro reads
  rw [undisturbed, place] at meets
  dsimp only at meets
  rw [reads] at meets
  simp [isAp] at meets

theorem Invariant.bsp (invariant : Invariant config state) {expired : Bool}
    (meets : undisturbed config state (.bsp expired) = true)
    (steps : stepBsp config state expired = some next) : Invariant config next := by
  have fits := config.fits
  rw [stepBsp] at steps
  cases place : state.bsp with
  | posting j =>
    have calls := invariant.calls fun ret same => by
      rw [place] at same
      cases same
    rw [place] at steps
    dsimp only at steps
    split_ifs at steps with inside zero
    · cases steps
      refine invariant.move (fun i positive _ => ?_)
        (counted_of_ne fun _ _ same => by cases same)
        (fun same => by cases same) calls
      rw [place]
      simp only [Bsp.Posted]
      omega
    · cases steps
      exact invariant.post place zero fun isAp post => not_read_of_undisturbed meets place isAp post
    · cases steps
      refine invariant.move (fun i _ below => ?_)
        (counted_of_ne fun _ _ same => by cases same)
        (fun same => by cases same) calls
      rw [place]
      simp only [Bsp.Posted, true_iff]
      omega
  | waiting =>
    have calls := invariant.calls fun ret same => by
      rw [place] at same
      cases same
    have posted (bsp : Bsp) (isPosted : ∀ i, bsp.Posted i) :
        ∀ i, 0 < i → i < config.maxCpus → (bsp.Posted i ↔ state.bsp.Posted i) := by
      intro i _ _
      rw [place]
      exact iff_of_true (isPosted i) trivial
    rw [place] at steps
    split_ifs at steps
    · cases steps
      exact invariant.move (posted _ fun _ => trivial)
        (counted_of_ne fun _ _ same => by cases same)
        (fun same => by cases same) calls
    · cases steps
      refine invariant.move (posted _ fun _ => trivial) ?_ (fun same => by cases same) calls
      intro i accepted counting
      cases counting
      exact ⟨Nat.zero_le _, fun _ k _ below => absurd below (by omega)⟩
  | counting j accepted =>
    have calls := invariant.calls fun ret same => by
      rw [place] at same
      cases same
    have posted (bsp : Bsp) (isPosted : ∀ i, bsp.Posted i) :
        ∀ i, 0 < i → i < config.maxCpus → (bsp.Posted i ↔ state.bsp.Posted i) := by
      intro i _ _
      rw [place]
      exact iff_of_true (isPosted i) trivial
    obtain ⟨bound, empty⟩ := invariant.counted j accepted place
    rw [place] at steps
    dsimp only at steps
    split_ifs at steps with inside zero all
    · cases steps
      refine invariant.move (posted _ fun _ => trivial) ?_ (fun same => by cases same) calls
      intro i total counting
      cases counting
      subst zero
      refine ⟨by omega, fun _ k isAp below => ?_⟩
      exact absurd isAp.1 (by omega)
    · cases steps
      refine invariant.move (posted _ fun _ => trivial) ?_ (fun same => by cases same) calls
      refine invariant.counted.count place zero fun above => ?_
      refine invariant.unused j above inside ?_ calls
      rw [place]
      trivial
    · cases steps
      refine invariant.move (posted _ fun _ => trivial)
        (counted_of_ne fun _ _ same => by cases same)
        (fun _ _ k isAp => ?_) calls
      exact empty (by omega) k isAp (by rw [Config.IsAp] at isAp; omega)
    · cases steps
      exact invariant.move (posted _ fun _ => trivial)
        (counted_of_ne fun _ _ same => by cases same)
        (fun same => by cases same) calls
  | returned ret =>
    rw [place] at steps
    cases steps

theorem Invariant.call (invariant : Invariant config state) (func : α) :
    Invariant config { state with
      bsp := .posting 0
      current := ⟨state.current.call + 1, func⟩ } where
  slots i isAp := by
    have slot := invariant.slots i isAp
    refine ⟨slot.fresh, slot.reading, fun _ => ⟨fun post held => ?_, fun post member => ?_⟩,
      fun post member => ?_, fun posted => ?_, fun post held => ?_, slot.once, slot.called⟩
    · exact Nat.lt_succ_of_le (slot.held post held)
    · exact Nat.lt_succ_of_le (slot.bounded post member)
    · exact Nat.le_succ_of_le (slot.bounded post member)
    · exact absurd posted (Nat.not_lt_zero i)
    · exact Nat.le_succ_of_le (slot.held post held)
  unused i _ _ posted := absurd posted (Nat.not_lt_zero i)
  counted _ _ same := by cases same
  returned same := by cases same
  calls _ := Nat.succ_pos _

theorem Invariant.initial (config : Config) (func : α) : Invariant config (initial func) where
  slots i _ :=
    { fresh := fun _ held => nomatch held
      reading := fun _ reads => nomatch reads
      older := fun unposted => absurd trivial unposted
      bounded := List.forall_mem_nil _
      posted := fun _ started => absurd started (Nat.lt_irrefl 0)
      held := fun _ held => nomatch held
      once := List.nodup_nil
      called := .inl ⟨rfl, fun _ runs => nomatch runs⟩ }
  unused _ _ _ _ started := absurd started (Nat.lt_irrefl 0)
  counted _ _ same := by cases same
  returned _ started := absurd started (Nat.lt_irrefl 0)
  calls running := absurd rfl (running 0)

theorem Invariant.step (invariant : Invariant config state) {action : Action α}
    (meets : undisturbed config state action = true)
    (steps : step config state action = some next) :
    Invariant config next := by
  cases action with
  | call func =>
    rw [ApWork.step] at steps
    cases place : state.bsp with
    | returned ret =>
      rw [place] at steps
      cases steps
      exact invariant.call func
    | posting | waiting | counting =>
      rw [place] at steps
      cases steps
  | bsp expired => exact invariant.bsp meets steps
  | ap i =>
    rw [ApWork.step] at steps
    split_ifs at steps with isAp
    cases steps
    exact invariant.ap isAp

theorem Run.invariant (run : Run config func (undisturbed config) state) :
    Invariant config state := by
  induction run with
  | start => exact .initial config func
  | step _ meets steps ih => exact ih.step meets steps

/-- In every run in which no function is posted between a read and the clear, no
function of a call that has returned 0 is lost. -/
theorem handed_of_run (config : Config) (func : α) (state : State α)
    (run : Run config func (undisturbed config) state) : Handed config state := by
  have invariant := run.invariant
  refine ⟨fun returned started i isAp => ?_, fun i isAp => ?_,
    fun i isAp => (invariant.slots i isAp).once⟩
  · have empty := invariant.returned returned started i isAp
    have posted : state.bsp.Posted i := by
      rw [returned]
      trivial
    rcases (invariant.slots i isAp).posted posted started with held | taken
    · rw [empty] at held
      cases held
    · exact taken.2
  · exact (invariant.slots i isAp).called.imp_left And.left

def execute (config : Config) (allowed : State α → Action α → Bool) :
    List (Action α) → State α → Option (State α)
  | [], state => some state
  | action :: rest, state =>
    if allowed state action then
      (step config state action).bind (execute config allowed rest)
    else none

theorem Run.execute {allowed : State α → Action α → Bool}
    {actions : List (Action α)} (run : Run config func allowed state)
    (executed : execute config allowed actions state = some next) :
    Run config func allowed next := by
  induction actions generalizing state with
  | nil =>
    cases executed
    exact run
  | cons action rest ih =>
    rw [ApWork.execute] at executed
    split_ifs at executed with meets
    obtain ⟨middle, steps, later⟩ := Option.bind_eq_some_iff.mp executed
    exact ih (run.step meets steps) later

def twoCpus : Config := ⟨2, 1, by decide⟩

/-- Function 10 is posted, taken and called. -/
def oneCall : List (Action Nat) :=
  [.call 10, .bsp false, .bsp false, .ap 1, .bsp false, .ap 1, .bsp false,
    .bsp false, .bsp false, .bsp false]

theorem handed_oneCall : ∃ state,
    execute twoCpus (undisturbed twoCpus) oneCall (initial 0) = some state ∧
      state.bsp = .returned 0 ∧ Handed twoCpus state := by
  have ends : (execute twoCpus (undisturbed twoCpus) oneCall (initial 0)).map
      State.bsp = some (.returned 0) := by
    decide
  obtain ⟨state, executed, returned⟩ := Option.map_eq_some_iff.mp ends
  exact ⟨state, executed, returned, handed_of_run twoCpus 0 state (Run.start.execute executed)⟩

/-- Function 10 is read, its call gives up, and function 20 is posted before the
slot is cleared. -/
def lateClear : List (Action Nat) :=
  [.call 10, .bsp false, .bsp false, .ap 1, .bsp false, .bsp true,
    .call 20, .bsp false, .bsp false, .ap 1, .bsp false, .bsp false,
    .bsp false, .bsp false, .bsp false]

/-- The call that posts function 20 returns 0, and nobody has taken it. -/
theorem not_handed_lateClear :
    ¬ ∀ (config : Config) (func : Nat) (state : State Nat),
      Run config func (fun _ _ => true) state → Handed config state := by
  intro handed
  have ends : (execute twoCpus (fun _ _ => true) lateClear (initial 0)).map
      (fun state => (state.bsp, state.current, state.taken 1)) =
        some (.returned 0, ⟨2, 20⟩, [⟨1, 10⟩]) := by
    decide
  obtain ⟨state, executed, same⟩ := Option.map_eq_some_iff.mp ends
  simp only [Prod.mk.injEq] at same
  obtain ⟨returned, current, taken⟩ := same
  have member := (handed twoCpus 0 state (Run.start.execute executed)).taken
    returned (by rw [current]; decide) 1 (by decide)
  rw [current, taken] at member
  exact absurd member (by decide)

end Coreboot.ApWork
