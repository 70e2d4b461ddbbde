import Coreboot.CoopThreads
import Mathlib.Data.List.Nodup
import Mathlib.Tactic.SplitIfs

/-!
# Correct runs of the cooperative threads

Every thread is in one place, and the idle thread is at the bottom of the runnable ones.
-/

namespace Coreboot.CoopThreads

open Boot

variable {list : List Nat} {phase : Phase} {new : Wrapper}

theorem push {next : Nat → Option Nat} {head : Option Nat} {t : Nat}
    (linked : Linked next head list) (outside : t ∉ list) :
    Linked (Function.update next t head) (some t) (t :: list) := by
  refine ⟨rfl, ?_⟩
  rw [Function.update_self]
  exact linked.update outside _

theorem pop {next : Nat → Option Nat} {t : Nat} {rest : List Nat}
    (linked : Linked next (some t) (t :: rest)) (outside : t ∉ rest) :
    Linked (Function.update next t none) (next t) rest :=
  linked.2.update outside _

structure Placed (n : Nat) (s : Scheduler) (runnable free : List Nat) :
    Prop where
  runnableLinked : Linked s.next s.runnableThreads runnable
  freeLinked : Linked s.next s.freeThreads free
  once : ∀ t, ([s.current] ++ runnable ++ free ++ s.queue).count t = if t ≤ n then 1 else 0
  first : 0 ∉ free
  idle : s.current = n ∧ runnable = [] ∨ ∃ above, runnable = above ++ [n]

variable {n t : Nat} {s : Scheduler} {runnable free : List Nat}

theorem distinct_of_once (once : ∀ t, list.count t = if t ≤ n then 1 else 0) : list.Nodup := by
  refine List.nodup_iff_count_le_one.mpr fun t => ?_
  rw [once]
  split_ifs <;> omega

theorem le_of_once (once : ∀ t, list.count t = if t ≤ n then 1 else 0)
    (member : t ∈ list) : t ≤ n := by
  by_contra large
  have none := once t
  rw [if_neg large] at none
  exact List.count_eq_zero.mp none member

theorem Placed.current_le (placed : Placed n s runnable free) : s.current ≤ n :=
  le_of_once placed.once (by simp)

theorem Placed.current_not_mem (placed : Placed n s runnable free) :
    s.current ∉ runnable ∧ s.current ∉ free := by
  have distinct := distinct_of_once placed.once
  simp only [List.append_assoc, List.cons_append, List.nil_append,
    List.nodup_cons, List.mem_append, not_or] at distinct
  exact ⟨distinct.1.1, distinct.1.2.1⟩

theorem Placed.not_mem_free (placed : Placed n s runnable free) : n ∉ free := by
  rcases placed.idle with ⟨same, -⟩ | ⟨above, rfl⟩
  · exact same ▸ placed.current_not_mem.2
  · have distinct := distinct_of_once placed.once
    intro member
    simp only [List.append_assoc, List.cons_append, List.nil_append,
      List.nodup_cons, List.nodup_append] at distinct
    obtain ⟨-, -, ⟨outside, -⟩, -⟩ := distinct
    exact outside (List.mem_append_left _ member)

theorem Placed.switch (linked : Linked s.next s.runnableThreads runnable)
    (freeLinked : Linked s.next s.freeThreads free)
    (once : ∀ u, (t :: ([s.current] ++ runnable ++ free ++ s.queue)).count u =
      if u ≤ n then 1 else 0) (first : 0 ∉ free)
    (idle : s.current = n ∧ runnable = [] ∨ ∃ above, runnable = above ++ [n]) :
    Placed n (schedule s (some t)) (s.current :: runnable) free := by
  have distinct := distinct_of_once once
  simp only [List.append_assoc, List.cons_append, List.nil_append,
    List.nodup_cons, List.mem_append, List.mem_cons, not_or] at distinct
  obtain ⟨-, ⟨notRunnable, notFree, -⟩, -⟩ := distinct
  refine
    { runnableLinked := push linked notRunnable
      freeLinked := freeLinked.update notFree _
      once := fun u => ?_
      first
      idle := .inr ?_ }
  · rw [← once u]
    simp [schedule, pushRunnable]
  · rcases idle with ⟨rfl, rfl⟩ | ⟨above, rfl⟩
    · exact ⟨[], rfl⟩
    · exact ⟨s.current :: above, rfl⟩

theorem Placed.switchAway (linked : Linked s.next s.runnableThreads runnable)
    (freeLinked : Linked s.next s.freeThreads free)
    (once : ∀ u, (runnable ++ free ++ s.queue).count u = if u ≤ n then 1 else 0) (first : 0 ∉ free)
    (idle : ∃ above, runnable = above ++ [n]) :
    (∃ runnable, Placed n (schedule s none) runnable free) ∧ (schedule s none).died = s.died := by
  obtain ⟨above, rfl⟩ := idle
  obtain ⟨t, rest, list⟩ : ∃ t rest, above ++ [n] = t :: rest := by
    cases above with
    | nil => exact ⟨n, [], rfl⟩
    | cons t above => exact ⟨t, above ++ [n], rfl⟩
  rw [list] at linked once
  have head : s.runnableThreads = some t := linked.1
  have distinct := distinct_of_once once
  simp only [List.cons_append, List.nodup_cons, List.mem_append, not_or] at distinct
  obtain ⟨⟨⟨notRunnable, notFree⟩, -⟩, -⟩ := distinct
  rw [schedule, head]
  rw [head] at linked
  refine ⟨⟨rest,
    { runnableLinked := pop linked notRunnable
      freeLinked := freeLinked.update notFree _
      once := fun u => ?_
      first
      idle := ?_ }⟩, rfl⟩
  · rw [← once u]
    simp
  · cases above with
    | nil =>
      obtain ⟨same, empty⟩ := List.cons.inj list
      exact .inl ⟨same.symm, empty.symm⟩
    | cons other above =>
      obtain ⟨-, same⟩ := List.cons.inj list
      exact .inr ⟨above, same.symm⟩

section

variable (placed : Placed n s runnable free)
include placed

theorem Placed.resume (waits : t ∈ s.queue) :
    Placed n (threadResumeFromTimeout s t) (s.current :: runnable) free := by
  refine Placed.switch placed.runnableLinked placed.freeLinked (fun u => ?_) placed.first
    placed.idle
  rw [← placed.once u]
  have queue := (List.perm_cons_erase waits).count_eq u
  simp only [List.count_cons, List.count_append] at queue ⊢
  omega

theorem Placed.above (busy : s.current ≠ n) : ∃ above, runnable = above ++ [n] :=
  placed.idle.resolve_left fun is => busy is.1

theorem Placed.yield (busy : s.current ≠ n) (slot : Bool) :
    (∃ runnable, Placed n (threadYieldTimedCallback s slot) runnable free) ∧
      (threadYieldTimedCallback s slot).died = s.died := by
  rw [threadYieldTimedCallback]
  split_ifs
  · refine Placed.switchAway (s := { s with queue := s.current :: s.queue })
      placed.runnableLinked placed.freeLinked (fun u => ?_) placed.first
      (placed.above busy)
    rw [← placed.once u]
    simp only [List.count_cons, List.count_append, List.count_nil]
    omega
  · exact ⟨⟨runnable, placed⟩, rfl⟩

theorem Placed.terminate (busy : s.current ≠ n) (worker : s.current ≠ 0) :
    (∃ runnable,
      Placed n (terminateThread s s.current) runnable (s.current :: free)) ∧
      (terminateThread s s.current).died = s.died := by
  obtain ⟨notRunnable, notFree⟩ := placed.current_not_mem
  refine Placed.switchAway (s := freeThread s s.current)
    (placed.runnableLinked.update notRunnable _) (push placed.freeLinked notFree)
    (fun u => ?_) ?_ (placed.above busy)
  · rw [← placed.once u, freeThread]
    simp only [List.count_cons, List.count_append, List.count_nil]
    omega
  · rw [List.mem_cons, not_or]
    exact ⟨worker.symm, placed.first⟩

theorem Placed.start {scheduler : Scheduler} (popped : getFreeThread s = some (t, scheduler)) :
    ∃ rest, free = t :: rest ∧
      Placed n (schedule (setCanYield scheduler t true) (some t)) (s.current :: runnable) rest := by
  rw [getFreeThread] at popped
  split at popped
  next => cases popped
  next head freeHead =>
    cases popped
    have linked := placed.freeLinked
    rw [freeHead] at linked
    obtain ⟨rest, rfl, -⟩ := linked.of_head
    have distinct := distinct_of_once placed.once
    simp only [List.append_assoc, List.cons_append, List.nil_append,
      List.nodup_cons, List.nodup_append] at distinct
    obtain ⟨-, -, ⟨notFree, -⟩, apart⟩ := distinct
    have notRunnable : t ∉ runnable := fun member =>
      apart t member t (.head _) rfl
    refine ⟨rest, rfl, Placed.switch (placed.runnableLinked.update notRunnable _)
      (pop linked fun member => notFree (List.mem_append_left _ member))
      (fun u => ?_) (fun member => placed.first (List.mem_cons_of_mem t member))
      placed.idle⟩
    rw [← placed.once u]
    simp only [setCanYield, List.count_cons, List.count_append, List.count_nil]
    omega

theorem Placed.setCanYield (canYield : Bool) : Placed n (setCanYield s t canYield) runnable free :=
  { placed with }

end

variable {β : Type} {m : Machine β}

@[simp] theorem bootStateBlock_current (phase : Phase) :
    (bootStateBlock m phase).current = m.current := by
  rw [bootStateBlock]
  split_ifs <;> rfl

@[simp] theorem bootStateBlock_place (phase : Phase) :
    (bootStateBlock m phase).place = m.place := by
  rw [bootStateBlock]
  split_ifs <;> rfl

@[simp] theorem bootStateBlock_complete (phase : Phase) :
    (bootStateBlock m phase).complete = m.complete := by
  rw [bootStateBlock]
  split_ifs <;> rfl

@[simp] theorem bootStateBlock_nextId (phase : Phase) :
    (bootStateBlock m phase).nextId = m.nextId := by
  rw [bootStateBlock]
  split_ifs <;> rfl

@[simp] theorem bootStateUnblock_current (phase : Phase) :
    (bootStateUnblock m phase).current = m.current := by
  rw [bootStateUnblock]
  split_ifs <;> rfl

@[simp] theorem bootStateUnblock_place (phase : Phase) :
    (bootStateUnblock m phase).place = m.place := by
  rw [bootStateUnblock]
  split_ifs <;> rfl

@[simp] theorem bootStateUnblock_complete (phase : Phase) :
    (bootStateUnblock m phase).complete = m.complete := by
  rw [bootStateUnblock]
  split_ifs <;> rfl

@[simp] theorem bootStateUnblock_nextId (phase : Phase) :
    (bootStateUnblock m phase).nextId = m.nextId := by
  rw [bootStateUnblock]
  split_ifs <;> rfl

theorem blockers_bootStateBlock (coming : completed m phase = false)
    (small : (m.blockers phase).toNat < 2 ^ 31) (other : Phase) :
    ((bootStateBlock m phase).blockers other).toNat =
      (m.blockers other).toNat + if phase = other then 1 else 0 := by
  rw [bootStateBlock, if_neg (by simp [coming])]
  by_cases same : phase = other
  · subst same
    rw [if_pos rfl]
    simp only [Function.update_self]
    bv_omega
  · rw [if_neg same]
    simp only [Function.update_of_ne (Ne.symm same)]
    omega

theorem blockers_bootStateUnblock (coming : completed m phase = false)
    (blocked : m.blockers phase ≠ 0) (other : Phase) :
    ((bootStateUnblock m phase).blockers other).toNat +
      (if phase = other then 1 else 0) = (m.blockers other).toNat := by
  rw [bootStateUnblock, if_neg (by simp [coming]), if_neg blocked]
  by_cases same : phase = other
  · subst same
    rw [if_pos rfl]
    simp only [Function.update_self]
    bv_omega
  · rw [if_neg same]
    simp only [Function.update_of_ne (Ne.symm same)]
    omega

theorem bootStateBlock_of_completed (past : completed m phase = true) :
    bootStateBlock m phase = m := by
  rw [bootStateBlock, if_pos past]

theorem bootStateUnblock_of_completed (past : completed m phase = true) :
    bootStateUnblock m phase = m := by
  rw [bootStateUnblock, if_pos past]

theorem count_map_update (distinct : list.Nodup) (member : t ∈ list)
    (f : Nat → Option Phase) (value a : Option Phase) :
    (list.map (Function.update f t value)).count a + (if f t = a then 1 else 0) =
      (list.map f).count a + if value = a then 1 else 0 := by
  induction list with
  | nil => cases member
  | cons u rest ih =>
    obtain ⟨outside, later⟩ := List.nodup_cons.mp distinct
    simp only [List.map_cons, List.count_cons, beq_iff_eq]
    by_cases same : u = t
    · subst same
      have unchanged : rest.map (Function.update f u value) = rest.map f :=
        List.map_congr_left fun v inside =>
          Function.update_of_ne (by rintro rfl; exact outside inside) _ _
      rw [unchanged, Function.update_self]
      omega
    · have rest := ih later ((List.mem_cons.mp member).resolve_left (Ne.symm same))
      rw [Function.update_of_ne same]
      omega

/-- A thread that runs a function. -/
def Working (n : Nat) (free : List Nat) (t : Nat) : Prop := t ≠ 0 ∧ t < n ∧ t ∉ free

/-- A thread that the machine has left behind blocks nothing: its phase is past,
or the machine has come back to a completed state. -/
def Past (m : Machine β) (phase : Phase) : Prop :=
  completed m phase = true ∨ (m.place.Between ∧ m.complete m.current.1 = true)

structure Blocking (n : Nat) (m : Machine β) (wrapper : Nat → Wrapper)
    (blocks : Nat → Option Phase) (explicit : Phase → Nat)
    (free : List Nat) : Prop where
  counted : ∀ phase : Phase, m.current.1.id ≤ phase.1.id →
    (m.blockers phase).toNat = ((List.range (n + 1)).map blocks).count (some phase) + explicit phase
  small : ∀ phase, (m.blockers phase).toNat < 2 ^ 31
  left : m.current.2 = .onExit → m.blockers (m.current.1, .onEntry) = 0
  early : m.place.Early → m.current.2 = .onEntry
  result : m.place = .callbacks ∨ m.place = .calling →
    m.current.2 = .onExit → m.nextId ∈ runStateResults m.current.1
  working : ∀ t, blocks t ≠ none → Working n free t
  plain : ∀ t, (wrapper t).phase m.current = none → blocks t = none
  obliged : ∀ t, Working n free t → ∀ phase,
    (wrapper t).phase m.current = some phase →
      blocks t = some phase ∨ (blocks t = none ∧ Past m phase)

variable {wrapper : Nat → Wrapper} {blocks : Nat → Option Phase} {explicit : Phase → Nat}

theorem completed_iff :
    completed m phase = true ↔ phase.1.id < m.current.1.id ∨
      (m.current.1 = phase.1 ∧ m.current.2 = .onExit ∧ phase.2 = .onEntry) := by
  obtain ⟨state, sequence⟩ := phase
  simp only [completed, decide_eq_true_eq, gt_iff_lt]
  cases sequence <;> cases m.current.2 <;> simp [Sequence.id]

theorem completed_current : completed m m.current = false := by
  rw [Bool.eq_false_iff, Ne, completed_iff]
  rintro (before | ⟨-, exits, enters⟩)
  · exact Nat.lt_irrefl _ before
  · exact absurd (exits.symm.trans enters) (by decide)

theorem le_of_coming (coming : completed m phase = false) : m.current.1.id ≤ phase.1.id := by
  by_contra after
  have past : completed m phase = true := completed_iff.mpr (.inl (Nat.lt_of_not_le after))
  rw [coming] at past
  cases past

theorem Blocking.congr (blocking : Blocking n m wrapper blocks explicit free) {other : Machine β}
    (blockers : other.blockers = m.blockers) (current : other.current = m.current)
    (place : other.place = m.place) (complete : other.complete = m.complete)
    (nextId : other.nextId = m.nextId) : Blocking n other wrapper blocks explicit free := by
  obtain ⟨callbacks, _, next, _, _, _, _, history⟩ := other
  subst blockers current place complete nextId
  exact { blocking with }

theorem Blocking.not_left (blocking : Blocking n m wrapper blocks explicit free)
    (past : completed m phase = true) (after : m.current.1.id ≤ phase.1.id) :
    blocks t ≠ some phase := by
  intro block
  have working := blocking.working t (by rw [block]; exact Option.some_ne_none _)
  rcases completed_iff.mp past with before | ⟨same, exits, enters⟩
  · omega
  · have here : phase = (m.current.1, .onEntry) := Prod.ext same.symm enters
    have counted := blocking.counted phase after
    rw [here, blocking.left exits] at counted
    have member : some (m.current.1, Sequence.onEntry) ∈ (List.range (n + 1)).map blocks :=
      List.mem_map.mpr ⟨t, List.mem_range.mpr (by have := working.2.1; omega), here ▸ block⟩
    have positive := List.count_pos_iff.mpr member
    simp only [BitVec.ofNat_eq_ofNat, BitVec.toNat_zero] at counted
    omega

theorem bootStateBlock_small (small : ∀ phase, (m.blockers phase).toNat < 2 ^ 31)
    (room : overflows m phase = false) (other : Phase) :
    ((bootStateBlock m phase).blockers other).toNat < 2 ^ 31 := by
  cases past : completed m phase with
  | true =>
    rw [bootStateBlock_of_completed past]
    exact small other
  | false =>
    rw [blockers_bootStateBlock past (small phase)]
    have here := small other
    split_ifs with same
    · subst same
      simp only [overflows, past, Bool.not_false, Bool.true_and, decide_eq_false_iff_not] at room
      bv_omega
    · omega

theorem bootStateUnblock_small
    (small : ∀ phase, (m.blockers phase).toNat < 2 ^ 31) (other : Phase) :
    ((bootStateUnblock m phase).blockers other).toNat < 2 ^ 31 := by
  have here := small other
  cases past : completed m phase with
  | true => rwa [bootStateUnblock_of_completed past]
  | false =>
    by_cases zero : m.blockers phase = 0
    · rwa [bootStateUnblock, if_neg (by simp [past]), if_pos zero]
    · have fewer := blockers_bootStateUnblock past zero other
      omega

theorem ne_left (coming : completed m phase = false)
    (exits : m.current.2 = .onExit) : phase ≠ (m.current.1, .onEntry) := by
  rintro rfl
  have past : completed m (m.current.1, Sequence.onEntry) = true :=
    completed_iff.mpr (.inr ⟨rfl, exits, rfl⟩)
  rw [coming] at past
  cases past

theorem bootStateBlock_left (left : m.current.2 = .onExit → m.blockers (m.current.1, .onEntry) = 0)
    (exits : m.current.2 = .onExit) :
    (bootStateBlock m phase).blockers (m.current.1, .onEntry) = 0 := by
  cases past : completed m phase with
  | true =>
    rw [bootStateBlock_of_completed past]
    exact left exits
  | false =>
    rw [bootStateBlock, if_neg (by simp [past])]
    exact (Function.update_of_ne (ne_left past exits).symm _ _).trans (left exits)

theorem bootStateUnblock_left
    (left : m.current.2 = .onExit → m.blockers (m.current.1, .onEntry) = 0)
    (exits : m.current.2 = .onExit) :
    (bootStateUnblock m phase).blockers (m.current.1, .onEntry) = 0 := by
  cases past : completed m phase with
  | true =>
    rw [bootStateUnblock_of_completed past]
    exact left exits
  | false =>
    rw [bootStateUnblock, if_neg (by simp [past])]
    split_ifs
    · exact left exits
    · exact (Function.update_of_ne (ne_left past exits).symm _ _).trans (left exits)

@[simp] theorem completed_bootStateBlock (phase other : Phase) :
    completed (bootStateBlock m phase) other = completed m other := by
  simp [completed]

section

variable (blocking : Blocking n m wrapper blocks explicit free)
include blocking

theorem Blocking.recount {next : Machine β}
    {explicits : Phase → Nat} (current : next.current = m.current) (place : next.place = m.place)
    (complete : next.complete = m.complete) (nextId : next.nextId = m.nextId)
    (small : ∀ phase, (next.blockers phase).toNat < 2 ^ 31)
    (left : m.current.2 = .onExit → next.blockers (m.current.1, .onEntry) = 0)
    (counted : ∀ phase : Phase, m.current.1.id ≤ phase.1.id →
      (next.blockers phase).toNat =
        ((List.range (n + 1)).map blocks).count (some phase) + explicits phase) :
    Blocking n next wrapper blocks explicits free := by
  obtain ⟨callbacks, blockers, links, _, _, _, _, history⟩ := next
  subst current place complete nextId
  exact { blocking with counted, small, left }

theorem Blocking.block (room : overflows m phase = false) :
    Blocking n (bootStateBlock m phase) wrapper blocks
      (if completed m phase then explicit
        else Function.update explicit phase (explicit phase + 1)) free := by
  refine blocking.recount (bootStateBlock_current phase)
    (bootStateBlock_place phase) (bootStateBlock_complete phase)
    (bootStateBlock_nextId phase) (bootStateBlock_small blocking.small room)
    (bootStateBlock_left blocking.left) fun other after => ?_
  have counted := blocking.counted other after
  cases past : completed m phase with
  | true =>
    rw [bootStateBlock_of_completed past, if_pos rfl]
    exact counted
  | false =>
    rw [blockers_bootStateBlock past (blocking.small phase), if_neg Bool.false_ne_true, counted]
    by_cases same : phase = other
    · subst same
      rw [if_pos rfl, Function.update_self]
      omega
    · rw [if_neg same, Function.update_of_ne (Ne.symm same)]
      omega

theorem Blocking.unblock (outstanding : explicit phase ≠ 0) :
    Blocking n (bootStateUnblock m phase) wrapper blocks
      (if completed m phase then explicit
        else Function.update explicit phase (explicit phase - 1)) free := by
  refine blocking.recount (bootStateUnblock_current phase)
    (bootStateUnblock_place phase) (bootStateUnblock_complete phase)
    (bootStateUnblock_nextId phase) (bootStateUnblock_small blocking.small)
    (bootStateUnblock_left blocking.left) fun other after => ?_
  have counted := blocking.counted other after
  cases past : completed m phase with
  | true =>
    rw [bootStateUnblock_of_completed past, if_pos rfl]
    exact counted
  | false =>
    have blocked : m.blockers phase ≠ 0 := by
      intro zero
      have here := blocking.counted phase (le_of_coming past)
      rw [zero] at here
      simp only [BitVec.ofNat_eq_ofNat, BitVec.toNat_zero] at here
      omega
    have fewer := blockers_bootStateUnblock past blocked other
    rw [if_neg Bool.false_ne_true]
    by_cases same : phase = other
    · subst same
      rw [if_pos rfl] at fewer
      rw [Function.update_self]
      omega
    · rw [if_neg same] at fewer
      rw [Function.update_of_ne (Ne.symm same)]
      omega

end

@[simp] theorem past_bootStateBlock (phase other : Phase) :
    Past (bootStateBlock m phase) other ↔ Past m other := by
  simp [Past]

theorem Blocking.free_blocks (blocking : Blocking n m wrapper blocks explicit free)
    (member : t ∈ free) : blocks t = none := by
  by_contra block
  exact (blocking.working t block).2.2 member

theorem Blocking.startPast (blocking : Blocking n m wrapper blocks explicit (t :: free))
    (past : ∀ phase, new.phase m.current = some phase → Past m phase) :
    Blocking n m (Function.update wrapper t new) blocks explicit free := by
  have free := blocking.free_blocks (.head _)
  refine { blocking with
    working := fun u block => ?_
    plain := fun u nothing => ?_
    obliged := fun u working phase target => ?_ }
  · obtain ⟨worker, below, outside⟩ := blocking.working u block
    exact ⟨worker, below, fun member => outside (List.mem_cons_of_mem t member)⟩
  · by_cases same : u = t
    · exact same ▸ free
    · rw [Function.update_of_ne same] at nothing
      exact blocking.plain u nothing
  · by_cases same : u = t
    · subst same
      rw [Function.update_self] at target
      exact .inr ⟨free, past phase target⟩
    · rw [Function.update_of_ne same] at target
      refine blocking.obliged u ⟨working.1, working.2.1, ?_⟩ phase target
      rw [List.mem_cons, not_or]
      exact ⟨same, working.2.2⟩

theorem Blocking.startComing (blocking : Blocking n m wrapper blocks explicit (t :: free))
    (outside : t ∉ free) (worker : t ≠ 0) (below : t < n)
    (target : new.phase m.current = some phase) (coming : completed m phase = false)
    (room : overflows m phase = false) :
    Blocking n (bootStateBlock m phase) (Function.update wrapper t new)
      (Function.update blocks t (some phase)) explicit free := by
  have free := blocking.free_blocks (.head _)
  refine
    { counted := fun other after => ?_
      small := bootStateBlock_small blocking.small room
      left := fun exits => ?_
      early := by simpa using blocking.early
      result := by simpa using blocking.result
      working := fun u block => ?_
      plain := fun u nothing => ?_
      obliged := fun u working other targets => ?_ }
  · rw [bootStateBlock_current] at after
    have counted := blocking.counted other after
    have count := count_map_update (List.nodup_range (n := n + 1))
      (List.mem_range.mpr (by omega : t < n + 1)) blocks (some phase)
      (some other)
    rw [free, if_neg (by simp)] at count
    simp only [Option.some.injEq] at count
    rw [blockers_bootStateBlock coming (blocking.small phase)]
    omega
  · rw [bootStateBlock_current] at exits ⊢
    exact bootStateBlock_left blocking.left exits
  · by_cases same : u = t
    · subst same
      exact ⟨worker, below, outside⟩
    · rw [Function.update_of_ne same] at block
      obtain ⟨worker, below, outside⟩ := blocking.working u block
      exact ⟨worker, below, fun member => outside (List.mem_cons_of_mem t member)⟩
  · by_cases same : u = t
    · subst same
      rw [Function.update_self, bootStateBlock_current, target] at nothing
      cases nothing
    · rw [Function.update_of_ne same] at nothing ⊢
      exact blocking.plain u (by simpa using nothing)
  · by_cases same : u = t
    · subst same
      rw [Function.update_self, bootStateBlock_current, target] at targets
      rw [Function.update_self]
      exact .inl targets
    · rw [Function.update_of_ne same, bootStateBlock_current] at targets
      rw [Function.update_of_ne same, past_bootStateBlock]
      refine blocking.obliged u ⟨working.1, working.2.1, ?_⟩ other targets
      rw [List.mem_cons, not_or]
      exact ⟨same, working.2.2⟩

section

variable (blocking : Blocking n m wrapper blocks explicit free)
include blocking

/-- A thread that ends blocks no more; what it blocked is now blocked by the others. -/
theorem Blocking.freed (below : t < n)
    {others : Phase → Nat} (counted : ∀ phase : Phase, m.current.1.id ≤ phase.1.id →
      others phase = explicit phase + if blocks t = some phase then 1 else 0) :
    Blocking n m wrapper (Function.update blocks t none) others (t :: free) := by
  refine { blocking with
    counted := fun phase after => ?_
    working := fun u block => ?_
    plain := fun u nothing => ?_
    obliged := fun u working phase target => ?_ }
  · rw [blocking.counted phase after, counted phase after]
    have count := count_map_update (List.nodup_range (n := n + 1))
      (List.mem_range.mpr (by omega : t < n + 1)) blocks none (some phase)
    rw [if_neg (Option.some_ne_none phase).symm] at count
    omega
  · by_cases same : u = t
    · subst same
      exact absurd (Function.update_self u none blocks) block
    · rw [Function.update_of_ne same] at block
      obtain ⟨worker, below, outside⟩ := blocking.working u block
      refine ⟨worker, below, ?_⟩
      rw [List.mem_cons, not_or]
      exact ⟨same, outside⟩
  · by_cases same : u = t
    · rw [same, Function.update_self]
    · rw [Function.update_of_ne same]
      exact blocking.plain u nothing
  · have same : u ≠ t := by
      rintro rfl
      exact working.2.2 (.head _)
    rw [Function.update_of_ne same]
    exact blocking.obliged u ⟨working.1, working.2.1, fun member =>
      working.2.2 (List.mem_cons_of_mem t member)⟩ phase target

theorem Blocking.finishPast (below : t < n)
    (past : ∀ phase : Phase, m.current.1.id ≤ phase.1.id → blocks t ≠ some phase) :
    Blocking n m wrapper (Function.update blocks t none) explicit (t :: free) :=
  blocking.freed below fun phase after => by rw [if_neg (past phase after), Nat.add_zero]

theorem Blocking.finishComing (below : t < n)
    (block : blocks t = some phase) (coming : completed m phase = false) :
    Blocking n (bootStateUnblock m phase) wrapper
      (Function.update blocks t none) explicit (t :: free) := by
  have freed : Blocking n m wrapper (Function.update blocks t none)
      (Function.update explicit phase (explicit phase + 1)) (t :: free) := by
    refine blocking.freed below fun other _ => ?_
    rw [block]
    by_cases same : phase = other
    · rw [same, Function.update_self, if_pos rfl]
    · rw [Function.update_of_ne (Ne.symm same), if_neg fun equal => same (Option.some.inj equal),
        Nat.add_zero]
  have unblocked := freed.unblock (by rw [Function.update_self]; exact Nat.succ_ne_zero _)
  rwa [coming, if_neg Bool.false_ne_true, Function.update_idem, Function.update_self,
    Nat.add_sub_cancel, Function.update_eq_self] at unblocked

theorem Blocking.move {place : Place}
    {nextId : BootState} (between : m.place.Between → m.complete m.current.1 = true → place.Between)
    (early : place.Early → m.current.2 = .onEntry) (result : place = .callbacks ∨ place = .calling →
      m.current.2 = .onExit → nextId ∈ runStateResults m.current.1) :
    Blocking n { m with place, nextId } wrapper blocks explicit free :=
  { blocking with
    early
    result
    obliged := fun t working phase target =>
      (blocking.obliged t working phase target).imp_right fun ⟨nothing, past⟩ =>
        ⟨nothing, past.imp_right fun ⟨here, done⟩ => ⟨between here done, done⟩⟩ }

theorem Blocking.not_current (zero : m.blockers m.current = 0) : blocks t ≠ some m.current := by
  intro block
  have working := blocking.working t (by rw [block]; exact Option.some_ne_none _)
  have counted := blocking.counted m.current (Nat.le_refl _)
  have member : some m.current ∈ (List.range (n + 1)).map blocks :=
    List.mem_map.mpr ⟨t, List.mem_range.mpr (by have := working.2.1; omega), block⟩
  have positive := List.count_pos_iff.mpr member
  rw [zero] at counted
  simp only [BitVec.ofNat_eq_ofNat, BitVec.toNat_zero] at counted
  omega

theorem Blocking.leave
    (place : m.place = .callbacks) (zero : m.blockers m.current = 0) {next : Machine β}
    (blockers : next.blockers = m.blockers) (later : m.current.1.id ≤ next.current.1.id)
    (left : next.current.2 = .onExit → next.blockers (next.current.1, .onEntry) = 0)
    (early : next.place.Early → next.current.2 = .onEntry)
    (away : ¬ (next.place = .callbacks ∨ next.place = .calling))
    (past : ∀ phase, completed m phase = true → Past next phase) :
    Blocking n next wrapper blocks explicit free := by
  have notBetween : ¬ m.place.Between := by simp [place, Place.Between]
  have none (t : Nat) (working : Working n free t) : wrapper t ≠ .callWrapperBlockCurrent := by
    intro same
    rcases blocking.obliged t working m.current (by rw [same]; rfl) with
      block | ⟨-, done | ⟨between, -⟩⟩
    · exact blocking.not_current zero block
    · rw [completed_current] at done
      cases done
    · exact notBetween between
  refine
    { counted := fun phase after => ?_
      small := blockers ▸ blocking.small
      left
      early
      result := fun here => absurd here away
      working := blocking.working
      plain := fun t nothing => ?_
      obliged := fun t working phase target => ?_ }
  · rw [blockers]
    exact blocking.counted phase (Nat.le_trans later after)
  · refine blocking.plain t ?_
    cases is : wrapper t <;> rw [is] at nothing
    case callWrapper => rfl
    case callWrapperBlockCurrent => cases nothing
    case callWrapperBlockState => cases nothing
  · have target : (wrapper t).phase m.current = some phase := by
      cases is : wrapper t <;> rw [is] at target
      case callWrapper => cases target
      case callWrapperBlockCurrent => exact absurd is (none t working)
      case callWrapperBlockState => exact target
    refine (blocking.obliged t working phase target).imp_right
      fun ⟨free, done⟩ => ⟨free, past phase ?_⟩
    exact done.resolve_right fun ⟨between, _⟩ => notBetween between

theorem Blocking.stepCallbacks [DecidableEq β] (place : m.place = .callbacks) :
    Blocking n (stepCallbacks m) wrapper blocks explicit free ∧
      ((stepCallbacks m).current ≠ m.current → m.blockers m.current = 0) := by
  have calling : Blocking n { m with place := .calling } wrapper blocks explicit
      free := by
    refine blocking.move (fun between => ?_) (fun early => ?_) fun _ =>
      blocking.result (.inl place)
    · rw [place] at between
      cases between
    · cases early
  cases head : m.callbacks m.current with
  | some bscb =>
    have same : (Boot.stepCallbacks m).current = m.current := by
      rw [Boot.stepCallbacks, head]
    refine ⟨?_, fun moved => absurd same moved⟩
    rw [Boot.stepCallbacks, head]
    exact calling.congr rfl rfl rfl rfl rfl
  | none =>
    by_cases zero : m.blockers m.current = 0
    · refine ⟨?_, fun _ => zero⟩
      rw [Boot.stepCallbacks, head]
      simp only [ne_eq, zero, not_true_eq_false, if_false]
      cases sequence : m.current.2 with
      | onEntry =>
        refine blocking.leave place zero rfl (Nat.le_refl _) (fun _ => ?_)
          (fun early => ?_) (by simp) fun phase done => .inl ?_
        · change m.blockers (m.current.1, .onEntry) = 0
          rw [← sequence]
          exact zero
        · cases early
        · rw [completed_iff] at done ⊢
          rcases done with before | ⟨same, exits, -⟩
          · exact .inl before
          · rw [sequence] at exits
            cases exits
      | onExit =>
        have result := blocking.result (.inl place) sequence
        have order := id_lt_of_mem_runStateResults result
        refine blocking.leave place zero rfl ?_ (fun exits => ?_)
          (fun _ => rfl) (by simp) fun phase done => ?_
        · change m.current.1.id ≤ m.nextId.id
          rcases order with before | same
          · omega
          · exact Nat.le_of_eq (congrArg BootState.id same).symm
        · cases exits
        · rcases order with before | same
          · refine .inl (completed_iff.mpr (.inl ?_))
            change phase.1.id < m.nextId.id
            rcases completed_iff.mp done with earlier | ⟨here, -⟩
            · omega
            · rw [← here]
              exact before
          · refine .inr ⟨trivial, ?_⟩
            change Function.update m.complete m.current.1 true m.nextId = true
            rw [same, Function.update_self]
    · have same : (Boot.stepCallbacks m).current = m.current := by
        rw [Boot.stepCallbacks, head]
        simp only [ne_eq, zero, not_false_eq_true, if_true]
      refine ⟨?_, fun moved => absurd same moved⟩
      rw [Boot.stepCallbacks, head]
      simp only [ne_eq, zero, not_false_eq_true, if_true]
      exact calling

end

structure Invariant (n : Nat) (s : System β) (runnable free : List Nat) :
    Prop where
  placed : Placed n s.scheduler runnable free
  blocking : Blocking n s.boot s.wrapper s.blocks s.explicit free
  external : s.scheduler.current ≠ 0 → s.boot.place.External
  quiet : s.idles = true → s.scheduler.canYield n = false
  lives : s.scheduler.died = false

/-- What a step keeps.  It leaves a phase only if nothing blocks it. -/
def Kept (n : Nat) (s next : System β) : Prop :=
  (∃ runnable free, Invariant n next runnable free) ∧
    (next.boot.current ≠ s.boot.current → s.boot.blockers s.boot.current = 0)

variable {s next : System β} {action : Action β}

theorem not_between {place : Place} (external : place.External) : ¬ place.Between := by
  cases place <;> simp_all [Place.External, Place.Between]

section

variable (invariant : Invariant n s runnable free)
include invariant

theorem Invariant.external_of_runsCode (runs : runsCode n s = true) : s.boot.place.External := by
  by_cases first : s.scheduler.current = 0
  · simpa [runsCode, first, invariant.lives] using runs
  · exact invariant.external first

theorem Invariant.busy (positive : 1 ≤ n)
    (runs : runsCode n s = true) (yields : s.scheduler.canYield s.scheduler.current ≠ false) :
    s.scheduler.current ≠ n := by
  intro same
  have worker : n ≠ 0 := by omega
  have idles : s.idles = true := by
    simpa [runsCode, same, worker, invariant.lives] using runs
  exact yields (same ▸ invariant.quiet idles)

theorem Invariant.threadRun (runs : runsCode n s = true)
    (steps : threadRun s new = some next) : Kept n s next := by
  rw [CoopThreads.threadRun] at steps
  split at steps
  next =>
    cases steps
    exact ⟨⟨runnable, free, invariant⟩, fun moved => absurd rfl moved⟩
  next yields =>
    cases popped : getFreeThread s.scheduler with
    | none =>
      rw [popped] at steps
      cases steps
      exact ⟨⟨runnable, free, invariant⟩, fun moved => absurd rfl moved⟩
    | some result =>
      obtain ⟨t, scheduler⟩ := result
      rw [popped] at steps
      simp only [CoopThreads.callWrapper, Function.update_self] at steps
      have external := invariant.external_of_runsCode runs
      obtain ⟨rest, rfl, placed⟩ := invariant.placed.start popped
      have notFree := invariant.placed.not_mem_free
      have first := invariant.placed.first
      have outside : t ∉ rest := placed.current_not_mem.2
      have worker : t ≠ 0 := fun same => first (same ▸ (.head _))
      have notIdle : t ≠ n := fun same => notFree (same ▸ (.head _))
      have most : t ≤ n := placed.current_le
      have kept : (schedule (setCanYield scheduler t true) (some t)).canYield
            n = s.scheduler.canYield n ∧
          (schedule (setCanYield scheduler t true) (some t)).died = s.scheduler.died := by
        rw [getFreeThread] at popped
        split at popped
        next => cases popped
        next =>
          cases popped
          exact ⟨Function.update_of_ne notIdle.symm _ _, rfl⟩
      have quiet : s.idles = true → (schedule (setCanYield scheduler t true)
          (some t)).canYield n = false := fun idles =>
        kept.1.trans (invariant.quiet idles)
      have lives := kept.2.trans invariant.lives
      cases target : new.phase s.boot.current with
      | none =>
        rw [target] at steps
        cases steps
        refine ⟨⟨s.scheduler.current :: runnable, rest, ?_⟩, fun moved => absurd rfl moved⟩
        refine
          { placed
            blocking := invariant.blocking.startPast fun phase blocked => ?_
            external := fun _ => external
            quiet
            lives }
        rw [target] at blocked
        cases blocked
      | some phase =>
        rw [target] at steps
        simp only [beginBlock] at steps
        split_ifs at steps with overflow past
        · cases steps
          refine ⟨⟨s.scheduler.current :: runnable, rest, ?_⟩, fun moved => absurd ?_ moved⟩
          · have free := invariant.blocking.free_blocks (t := t) (.head _)
            have same : Function.update s.blocks t none = s.blocks :=
              Function.update_eq_self_iff.mpr free.symm
            refine
              { placed
                blocking := ?_
                external := fun _ => ?_
                quiet
                lives }
            · change Blocking n (bootStateBlock s.boot phase) _
                (Function.update s.blocks t none) _ _
              rw [bootStateBlock_of_completed past, same]
              refine invariant.blocking.startPast fun other blocked => ?_
              rw [target] at blocked
              cases blocked
              exact .inl past
            · change (bootStateBlock s.boot phase).place.External
              rwa [bootStateBlock_place]
          · exact bootStateBlock_current phase
        · cases steps
          refine ⟨⟨s.scheduler.current :: runnable, rest, ?_⟩, fun moved => absurd ?_ moved⟩
          · refine
              { placed
                blocking := ?_
                external := fun _ => ?_
                quiet
                lives }
            · exact invariant.blocking.startComing outside worker (by omega)
                target (by simpa using past) (by simpa using overflow)
            · change (bootStateBlock s.boot phase).place.External
              rwa [bootStateBlock_place]
          · exact bootStateBlock_current phase

end

theorem canYield_schedule (scheduler : Scheduler) (t : Option Nat) :
    (schedule scheduler t).canYield = scheduler.canYield := by
  cases t with
  | none =>
    rw [schedule]
    split <;> rfl
  | some t => rfl

section

variable (invariant : Invariant n s runnable free)
include invariant

theorem Invariant.terminate (runs : runsCode n s = true) (first : s.scheduler.current ≠ 0)
    (busy : s.scheduler.current ≠ n) : Kept n s (terminate s) := by
  obtain ⟨⟨above, placed⟩, died⟩ := invariant.placed.terminate busy first
  have external := invariant.external_of_runsCode runs
  have most := invariant.placed.current_le
  have below : s.scheduler.current < n := by omega
  have working : Working n free s.scheduler.current :=
    ⟨first, below, invariant.placed.current_not_mem.2⟩
  have quiet : s.idles = true →
      (terminateThread s.scheduler s.scheduler.current).canYield n = false := by
    rw [terminateThread, canYield_schedule]
    exact invariant.quiet
  have kept {boot : Machine β}
      (boots : (CoopThreads.terminate s).boot = boot)
      (blocking : Blocking n boot s.wrapper
        (Function.update s.blocks s.scheduler.current none) s.explicit
        (s.scheduler.current :: free))
      (current : boot.current = s.boot.current)
      (place : boot.place = s.boot.place) :
      Kept n s (CoopThreads.terminate s) := by
    subst boots
    exact ⟨⟨above, s.scheduler.current :: free,
      { placed
        blocking
        external := fun _ => by rw [place]; exact external
        quiet
        lives := died.trans invariant.lives }⟩, fun moved => absurd current moved⟩
  cases target : (s.wrapper s.scheduler.current).phase s.boot.current with
  | none =>
    have free := invariant.blocking.plain _ target
    refine @kept s.boot (by rw [CoopThreads.terminate, target])
      (invariant.blocking.finishPast below fun phase _ => ?_) rfl rfl
    rw [free]
    exact (Option.some_ne_none phase).symm
  | some phase =>
    have boots : (CoopThreads.terminate s).boot = bootStateUnblock s.boot phase := by
      rw [CoopThreads.terminate, target]
    cases past : completed s.boot phase with
    | true =>
      rw [bootStateUnblock_of_completed past] at boots
      refine kept boots (invariant.blocking.finishPast below fun other after block => ?_) rfl rfl
      rcases invariant.blocking.obliged _ working phase target with
        same | ⟨free, -⟩
      · rw [block] at same
        cases same
        exact invariant.blocking.not_left past after block
      · rw [block] at free
        cases free
    | false =>
      have block : s.blocks s.scheduler.current = some phase := by
        rcases invariant.blocking.obliged _ working phase target with
          block | ⟨-, done | ⟨between, -⟩⟩
        · exact block
        · rw [past] at done
          cases done
        · exact absurd between (not_between external)
      exact kept boots (invariant.blocking.finishComing below block past)
        (bootStateUnblock_current phase) (bootStateUnblock_place phase)

theorem Invariant.yield (positive : 1 ≤ n)
    (runs : runsCode n s = true) (slot : Bool) : Kept n s (threadYieldMicroseconds s slot) := by
  rw [threadYieldMicroseconds]
  split_ifs with yields
  · exact ⟨⟨runnable, free, invariant⟩, fun moved => absurd rfl moved⟩
  · have busy := invariant.busy positive runs yields
    obtain ⟨⟨above, placed⟩, died⟩ := invariant.placed.yield busy slot
    refine ⟨⟨above, free, { invariant with
      placed
      external := fun _ => invariant.external_of_runsCode runs
      quiet := ?_
      lives := died.trans invariant.lives }⟩, fun moved => absurd rfl moved⟩
    intro idles
    refine Eq.trans ?_ (invariant.quiet idles)
    rw [threadYieldTimedCallback]
    split_ifs
    · rw [canYield_schedule]
    · rfl

theorem Invariant.stepCode [DecidableEq β] (positive : 1 ≤ n) (runs : runsCode n s = true)
    (steps : stepCode n s action = some next) : Kept n s next := by
  have external := invariant.external_of_runsCode runs
  cases action with
  | threadRun => exact invariant.threadRun runs steps
  | threadRunUntil phase => exact invariant.threadRun runs steps
  | threadYieldMicroseconds slot =>
    cases steps
    exact invariant.yield positive runs slot
  | threadCooperate =>
    rw [CoopThreads.stepCode] at steps
    split_ifs at steps with idle
    cases steps
    refine ⟨⟨runnable, free, { invariant with
      placed := invariant.placed.setCanYield true
      quiet := fun idles => ?_ }⟩, fun moved => absurd rfl moved⟩
    exact (Function.update_of_ne (Ne.symm idle) _ _).trans (invariant.quiet idles)
  | threadPreventCoop =>
    cases steps
    refine ⟨⟨runnable, free, { invariant with
      placed := invariant.placed.setCanYield false
      quiet := fun idles => ?_ }⟩, fun moved => absurd rfl moved⟩
    change Function.update s.scheduler.canYield _ false n = false
    by_cases same : n = s.scheduler.current
    · rw [← same, Function.update_self]
    · rw [Function.update_of_ne same]
      exact invariant.quiet idles
  | terminate =>
    rw [CoopThreads.stepCode] at steps
    split_ifs at steps with kernel
    cases steps
    exact invariant.terminate runs (fun same => kernel (.inl same)) fun same => kernel (.inr same)
  | timersRun waiter =>
    rw [CoopThreads.stepCode] at steps
    split_ifs at steps with fires
    cases steps
    refine ⟨⟨s.scheduler.current :: runnable, free, { invariant with
      placed := invariant.placed.resume fires.2
      external := fun _ => external }⟩, fun moved => absurd rfl moved⟩
  | schedCallback bscb phase =>
    cases steps
    have same : (bootStateSchedCallback s.boot bscb phase).current = s.boot.current ∧
        (bootStateSchedCallback s.boot bscb phase).place = s.boot.place ∧
        (bootStateSchedCallback s.boot bscb phase).blockers = s.boot.blockers ∧
        (bootStateSchedCallback s.boot bscb phase).complete = s.boot.complete ∧
        (bootStateSchedCallback s.boot bscb phase).nextId = s.boot.nextId := by
      rw [bootStateSchedCallback]
      split_ifs <;> exact ⟨rfl, rfl, rfl, rfl, rfl⟩
    obtain ⟨current, place, blockers, complete, nextId⟩ := same
    refine ⟨⟨runnable, free, { invariant with
      blocking := invariant.blocking.congr blockers current place complete nextId
      external := fun _ => ?_ }⟩, fun moved => absurd current moved⟩
    change (bootStateSchedCallback s.boot bscb phase).place.External
    rwa [place]
  | block phase =>
    rw [CoopThreads.stepCode] at steps
    by_cases overflow : overflows s.boot phase = true
    · rw [if_pos overflow] at steps
      cases steps
    rw [if_neg overflow] at steps
    cases steps
    refine ⟨⟨runnable, free, { invariant with
      blocking := invariant.blocking.block (by simpa using overflow)
      external := fun _ => ?_ }⟩, fun moved => absurd ?_ moved⟩
    · change (bootStateBlock s.boot phase).place.External
      rwa [bootStateBlock_place]
    · exact bootStateBlock_current phase
  | unblock phase =>
    rw [CoopThreads.stepCode] at steps
    by_cases outstanding : s.explicit phase = 0
    · rw [if_pos outstanding] at steps
      cases steps
    rw [if_neg outstanding] at steps
    cases steps
    refine ⟨⟨runnable, free, { invariant with
      blocking := invariant.blocking.unblock outstanding
      external := fun _ => ?_ }⟩, fun moved => absurd ?_ moved⟩
    · change (bootStateUnblock s.boot phase).place.External
      rwa [bootStateUnblock_place]
    · exact bootStateUnblock_current phase
  | idle => cases steps
  | walk => cases steps
  | returns => cases steps
  | returnState state => cases steps

theorem Invariant.walks (walks : walks s = true)
    {boot : Machine β} (blocking : Blocking n boot s.wrapper s.blocks s.explicit free)
    (left : boot.current ≠ s.boot.current → s.boot.blockers s.boot.current = 0) :
    Kept n s { s with boot } := by
  have first : s.scheduler.current = 0 := by
    simpa [CoopThreads.walks, invariant.lives] using walks
  exact ⟨⟨runnable, free,
    { invariant with blocking, external := fun other => absurd first other }⟩, left⟩

end

variable [DecidableEq β]

theorem Invariant.step (invariant : Invariant n s runnable free) (positive : 1 ≤ n)
    (steps : step n s action = some next) : Kept n s next := by
  have blocking := invariant.blocking
  cases action
  case idle =>
      simp only [CoopThreads.step] at steps
      split_ifs at steps with begins
      cases steps
      exact ⟨⟨runnable, free, { invariant with
        placed := invariant.placed.setCanYield false
        quiet := fun _ => Function.update_self _ _ _ }⟩,
        fun moved => absurd rfl moved⟩
  case walk =>
      simp only [CoopThreads.step] at steps
      split_ifs at steps with walks
      cases place : s.boot.place <;> simp only [Boot.step, place] at steps
      case top =>
        split_ifs at steps with complete
        · cases steps
          exact invariant.walks walks
            (blocking.move (fun _ _ => trivial) (fun early => by cases early)
              fun here => by rcases here with same | same <;> cases same)
            fun moved => absurd rfl moved
        · cases steps
          refine invariant.walks walks (blocking.move
            (fun _ done => absurd done complete) (fun _ => ?_)
            fun here => by rcases here with same | same <;> cases same)
            fun moved => absurd rfl moved
          exact blocking.early (by rw [place]; trivial)
      case callbacks =>
        cases steps
        obtain ⟨after, left⟩ := blocking.stepCallbacks place
        exact invariant.walks walks after left
      all_goals cases steps
  case returns =>
      simp only [CoopThreads.step] at steps
      split_ifs at steps with walks
      cases place : s.boot.place <;> simp only [Boot.step, place] at steps
      case static =>
        cases steps
        refine invariant.walks walks (blocking.move (fun between => ?_)
          (fun _ => ?_)
          fun here => by rcases here with same | same <;> cases same)
          fun moved => absurd rfl moved
        · rw [place] at between
          cases between
        · exact blocking.early (by rw [place]; trivial)
      case timers =>
        cases steps
        refine invariant.walks walks (blocking.move (fun between => ?_)
          (fun early => by cases early) fun _ exits => ?_)
          fun moved => absurd rfl moved
        · rw [place] at between
          cases between
        · have enters := blocking.early (by rw [place]; trivial)
          rw [exits] at enters
          cases enters
      case calling =>
        cases steps
        refine invariant.walks walks (blocking.move (fun between => ?_)
          (fun early => by cases early) fun _ =>
            blocking.result (.inr place))
          fun moved => absurd rfl moved
        rw [place] at between
        cases between
      all_goals cases steps
  case returnState state =>
      simp only [CoopThreads.step] at steps
      split_ifs at steps with walks
      simp only [Boot.step] at steps
      split_ifs at steps with result
      · cases steps
        refine invariant.walks walks (blocking.move (fun between => ?_)
          (fun early => by cases early) fun _ _ => result.2)
          fun moved => absurd rfl moved
        rw [result.1] at between
        cases between
      · cases steps
  all_goals
    simp only [CoopThreads.step] at steps
    split_ifs at steps with runs
    exact invariant.stepCode positive runs steps

omit [DecidableEq β] in
theorem freeThreadsUpTo_fields (s : Scheduler) (k : Nat) :
    (freeThreadsUpTo k s).current = s.current ∧
      (freeThreadsUpTo k s).queue = s.queue ∧
      (freeThreadsUpTo k s).runnableThreads = s.runnableThreads ∧
      (freeThreadsUpTo k s).died = s.died := by
  induction k with
  | zero => exact ⟨rfl, rfl, rfl, rfl⟩
  | succ k ih => exact ih

omit [DecidableEq β] in
/-- The loop of `threads_initialize` frees the threads after the first. -/
theorem freeThreadsUpTo_linked {s : Scheduler} (fresh : s.freeThreads = none) (k : Nat) :
    ∃ free,
      Linked (freeThreadsUpTo k s).next (freeThreadsUpTo k s).freeThreads free ∧
      ∀ t, free.count t = if 1 ≤ t ∧ t ≤ k then 1 else 0 := by
  induction k with
  | zero =>
    refine ⟨[], fresh, fun t => ?_⟩
    rw [if_neg (by omega), List.count_nil]
  | succ k ih =>
    obtain ⟨free, linked, counts⟩ := ih
    have outside : k + 1 ∉ free := by
      rw [← List.count_eq_zero, counts, if_neg (by omega)]
    refine ⟨(k + 1) :: free, push linked outside, fun t => ?_⟩
    rw [List.count_cons, counts]
    simp only [beq_iff_eq]
    split_ifs <;> omega

omit [DecidableEq β] in
theorem threadsInitialize_placed (positive : 1 ≤ n) :
    (∃ runnable free, Placed n (threadsInitialize n) runnable free) ∧
      (threadsInitialize n).current = 0 ∧
      (threadsInitialize n).died = false := by
  obtain ⟨k, rfl⟩ : ∃ k, n = k + 1 := ⟨n - 1, by omega⟩
  rw [threadsInitialize]
  set fresh : Scheduler :=
    { next := fun _ => none
      canYield := fun _ => false
      runnableThreads := none
      freeThreads := none
      current := 0
      queue := []
      died := false }
  obtain ⟨free, linked, counts⟩ := freeThreadsUpTo_linked (s := fresh) rfl (k + 1)
  obtain ⟨current, queue, empty, lives⟩ := freeThreadsUpTo_fields fresh (k + 1)
  have head : (freeThreadsUpTo (k + 1) fresh).freeThreads = some (k + 1) := rfl
  rw [head] at linked
  obtain ⟨rest, rfl, -⟩ := linked.of_head
  have outside : k + 1 ∉ rest := by
    have once := counts (k + 1)
    rw [List.count_cons_self, if_pos (by omega)] at once
    exact List.count_eq_zero.mp (by omega)
  have others : 0 ∉ rest := by
    have none := counts 0
    rw [if_neg (by omega)] at none
    exact fun member =>
      List.count_eq_zero.mp none (.tail _ member)
  generalize freeThreadsUpTo (k + 1) fresh = s at *
  rw [idleThreadInit, getFreeThread, head]
  refine ⟨⟨[k + 1], rest,
    { runnableLinked := ⟨rfl, ?_⟩
      freeLinked := (pop linked outside).update outside _
      once := fun t => ?_
      first := others
      idle := .inr ⟨[], rfl⟩ }⟩, current, lives⟩
  · have nothing : s.runnableThreads = none := empty
    exact (Function.update_self (k + 1) s.runnableThreads
      (Function.update s.next (k + 1) none)).trans nothing
  · change ([s.current] ++ [k + 1] ++ rest ++ s.queue).count t = _
    have first : s.current = 0 := current
    have nothing : s.queue = [] := queue
    rw [first, nothing]
    have one := counts t
    simp only [List.append_nil, List.cons_append, List.nil_append,
      List.count_cons, beq_iff_eq] at one ⊢
    rw [one]
    split_ifs <;> omega

omit [DecidableEq β] in
theorem Invariant.initial (positive : 1 ≤ n) :
    ∃ runnable free, Invariant n (CoopThreads.initial n : System β) runnable free := by
  obtain ⟨⟨runnable, free, placed⟩, current, lives⟩ := threadsInitialize_placed positive
  refine ⟨runnable, free,
    { placed
      blocking :=
        { counted := fun phase _ => ?_
          small := fun _ => show (0 : BitVec 32).toNat < 2 ^ 31 by decide
          left := fun exits => by cases exits
          early := fun _ => rfl
          result := fun here => by rcases here with same | same <;> cases same
          working := fun t block => absurd rfl block
          plain := fun _ _ => rfl
          obliged := fun t _ phase target => by cases target }
      external := fun other => absurd current other
      quiet := fun idles => by cases idles
      lives }⟩
  change (0 : BitVec 32).toNat = ((List.range (n + 1)).map fun _ => none).count (some phase) + 0
  rw [List.count_eq_zero.mpr]
  · rfl
  · simp

theorem Run.invariant (positive : 1 ≤ n) (run : Run n s) :
    ∃ runnable free, Invariant n s runnable free := by
  induction run with
  | start => exact Invariant.initial positive
  | step before steps ih =>
    obtain ⟨runnable, free, invariant⟩ := ih
    exact (invariant.step positive steps).1

theorem cooperates_of_run (positive : 1 ≤ n) (run : Run n s) : Sound n s := by
  obtain ⟨runnable, free, invariant⟩ := run.invariant positive
  have placed := invariant.placed
  refine
    { placed := ⟨runnable, free, placed.runnableLinked, placed.freeLinked,
        fun t most => ?_, placed.idle, invariant.blocking.working,
        fun t working phase target coming forward => ?_⟩
      lives := invariant.lives
      counted := fun phase coming =>
        invariant.blocking.counted phase (le_of_coming coming)
      kept := fun action next steps left t => ?_ }
  · rw [placed.once t, if_pos most]
  · refine (invariant.blocking.obliged t working phase target).resolve_right ?_
    rintro ⟨-, done | back⟩
    · rw [coming] at done
      cases done
    · exact forward back
  · exact invariant.blocking.not_current ((invariant.step positive steps).2 left)

theorem Run.execute {actions : List (Action β)} {s next : System β} (run : Run n s)
    (executes : execute n actions s = some next) : Run n next := by
  induction actions generalizing s with
  | nil =>
    cases executes
    exact run
  | cons action rest ih =>
    obtain ⟨middle, steps, later⟩ := Option.bind_eq_some_iff.mp executes
    exact ih (run.step steps) later

def oneThread : List (Action Unit) :=
  [.threadRun, .threadYieldMicroseconds true, .returns, .walk, .timersRun 1,
    .terminate, .returns, .walk]

theorem cooperates_oneThread :
    ∃ s, execute 2 oneThread (initial 2) = some s ∧
      s.boot.current = (.preDevice, .onExit) ∧ Sound 2 s := by
  obtain ⟨s, executes, left⟩ : ∃ s, execute 2 oneThread (initial 2) = some s ∧
      s.boot.current = (.preDevice, .onExit) := ⟨_, rfl, rfl⟩
  exact ⟨s, executes, left, cooperates_of_run (by decide) (Run.start.execute executes)⟩

end Coreboot.CoopThreads
