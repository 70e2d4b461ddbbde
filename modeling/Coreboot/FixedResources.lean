import Coreboot.WordAlignment
import Mathlib.Data.List.Basic
import Mathlib.Logic.Function.Basic
import Mathlib.Tactic.Common

/-!
# Windows that avoid fixed resources

Before the resources of a domain are allocated, its windows are cut down so that they contain no
fixed resource of the devices below.
-/

namespace Coreboot.Resources

open WordAlignment

structure Resource where
  base : BitVec 64
  size : BitVec 64
  limit : BitVec 64
  flags : BitVec 32
  align : Nat
deriving DecidableEq, Repr

def ioresourceIo : BitVec 32 := 0x00000100

def ioresourceMem : BitVec 32 := 0x00000200

def ioresourceTypeMask : BitVec 32 := 0x00000f00

def ioresourceFixed : BitVec 32 := 0x80000000

def Resource.fixed (res : Resource) : Bool := res.flags &&& ioresourceFixed != 0

def resourceIs (res : Resource) (type : BitVec 32) : Bool :=
  res.flags &&& ioresourceTypeMask == type

/-- The two limits of `struct constraints`. -/
inductive Kind where
  | io
  | mem
deriving DecidableEq, Repr

def resourceLimit (res : Resource) : Option Kind :=
  if resourceIs res ioresourceMem then some .mem
  else if resourceIs res ioresourceIo then some .io
  else none

/-- `struct device`, with the children of all its buses in order. -/
inductive Device where
  | node (enabled : Bool) (resources : List Resource) (children : List Device)

def Device.enabled : Device → Bool
  | .node enabled _ _ => enabled

def Device.resources : Device → List Resource
  | .node _ resources _ => resources

structure Window where
  base : BitVec 64
  limit : BitVec 64
deriving DecidableEq, Repr

abbrev Constraints := Kind → Window

/-- The signed comparison of the space above and below a fixed resource. -/
def prefersAbove (lim : Window) (res : Resource) : Bool :=
  (res.base - lim.base).slt (lim.limit - (res.base + res.size - 1))

def constrain (lim : Window) (res : Resource) : Window :=
  -- Is it a fixed resource outside the current known region?
  if res.base + res.size - 1 < lim.base ∨ lim.limit < res.base then lim
  else if prefersAbove lim res then { lim with base := res.base + res.size }
  else { lim with limit := res.base - 1 }

/-- The turn of the loop of `constrain_resources` for one resource. -/
def constrainBy (limits : Constraints) (res : Resource) : Constraints :=
  if !res.fixed then limits
  else if res.size = 0 then limits
  else
    match resourceLimit res with
    | none => limits
    | some kind =>
      Function.update limits kind (constrain (limits kind) res)

mutual

def constrainResources : Device → Constraints → Constraints
  | .node _ resources children, limits =>
    constrainChildren children (resources.foldl constrainBy limits)

def constrainChildren : List Device → Constraints → Constraints
  | [], limits => limits
  | child :: rest, limits =>
    constrainChildren rest (if child.enabled then constrainResources child limits else limits)

end

def shrinkTo (limits : Constraints) (res : Resource) : Constraints :=
  if res.fixed then limits
  else
    match resourceLimit res with
    | none => limits
    | some kind =>
      let lim := limits kind
      let lim := if lim.base < res.base then { lim with base := res.base } else lim
      let lim := if res.limit < lim.limit then { lim with limit := res.limit } else lim
      Function.update limits kind lim

/-- The limits that `avoid_fixed_resources` starts from. -/
def initialLimits (dev : Device) : Constraints :=
  dev.resources.foldl shrinkTo fun _ => ⟨0, 0xffffffffffffffff⟩

def resourceMax (res : Resource) : BitVec 64 := alignDown (res.limit - res.size + 1) res.align

def trim (lim : Window) (res : Resource) : Resource :=
  let res := if res.base < lim.base then { res with base := lim.base } else res
  if lim.limit < res.limit then { res with limit := lim.limit } else res

def clip (limits : Constraints) (res : Resource) : Resource :=
  if res.fixed then res
  else
    match resourceLimit res with
    | none => res
    | some kind =>
      let res := trim (limits kind) res
      -- MEM resources need to start at the highest address manageable.
      if res.flags &&& ioresourceMem ≠ 0 then
        { res with base := resourceMax res }
      else res

def finalLimits (dev : Device) : Constraints := constrainResources dev (initialLimits dev)

def avoidFixedResources (dev : Device) : List Resource := dev.resources.map (clip (finalLimits dev))

mutual

/-- The resources that `constrain_resources` looks at, in order. -/
def Device.visited : Device → List Resource
  | .node _ resources children => resources ++ visitedList children

def visitedList : List Device → List Resource
  | [] => []
  | child :: rest =>
    (if child.enabled then child.visited else []) ++ visitedList rest

end

mutual

def Device.enabledBelow : Device → List Resource
  | .node _ _ children => enabledBelowList children

def enabledBelowList : List Device → List Resource
  | [] => []
  | child :: rest =>
    (if child.enabled then child.resources else []) ++ (child.enabledBelow ++ enabledBelowList rest)

end

def relevant (kind : Kind) (res : Resource) : Bool :=
  res.fixed && res.size != 0 && resourceLimit res == some kind

def Resource.Covers (res : Resource) (address : Nat) : Prop :=
  res.base.toNat ≤ address ∧ address < res.base.toNat + res.size.toNat

def Window.Contains (window : Window) (address : Nat) : Prop :=
  window.base.toNat ≤ address ∧ address ≤ window.limit.toNat

def Resource.window (res : Resource) : Window := ⟨res.base, res.limit⟩

/-- The windows of a device contain no byte of a fixed resource that met them,
of its own or of an enabled device below it. -/
def AvoidsFixed (dev : Device) : Prop :=
  ∀ kind, ∀ window ∈ avoidFixedResources dev, window.fixed = false →
    resourceLimit window = some kind → window.base ≤ window.limit →
      ∀ res ∈ dev.resources ++ dev.enabledBelow, relevant kind res →
        (∃ address, res.Covers address ∧ (initialLimits dev kind).Contains address) →
        ∀ address, res.Covers address → ¬ window.window.Contains address

mutual

theorem constrainResources_eq :
    ∀ (dev : Device) (limits : Constraints),
      constrainResources dev limits = dev.visited.foldl constrainBy limits
  | .node enabled resources children, limits => by
    rw [constrainResources, Device.visited, List.foldl_append]
    exact constrainChildren_eq children _

theorem constrainChildren_eq :
    ∀ (children : List Device) (limits : Constraints),
      constrainChildren children limits = (visitedList children).foldl constrainBy limits
  | [], limits => by
    rw [constrainChildren, visitedList]
    rfl
  | child :: rest, limits => by
    rw [constrainChildren, visitedList, List.foldl_append, constrainChildren_eq rest]
    congr 1
    by_cases enabled : child.enabled
    · rw [if_pos enabled, if_pos enabled]
      exact constrainResources_eq child limits
    · rw [if_neg enabled, if_neg enabled]
      rfl

end

theorem constrainBy_apply (limits : Constraints) (res : Resource) (kind : Kind) :
    constrainBy limits res kind =
      if relevant kind res then constrain (limits kind) res
      else limits kind := by
  rw [constrainBy, relevant]
  cases res.fixed with
  | false => rfl
  | true =>
    by_cases empty : res.size = 0
    · simp [empty]
    · cases under : resourceLimit res with
      | none => simp
      | some other =>
        have filled : (res.size != 0) = true := bne_iff_ne.mpr empty
        rw [if_neg (by decide), if_neg empty, filled]
        by_cases same : other = kind
        · subst same
          simp
        · simp [same, Function.update_of_ne (Ne.symm same)]

theorem foldl_constrainBy_apply (kind : Kind) (resources : List Resource) (limits : Constraints) :
    resources.foldl constrainBy limits kind =
      (resources.filter (relevant kind)).foldl constrain (limits kind) := by
  induction resources generalizing limits with
  | nil => rfl
  | cons res rest ih =>
    rw [List.foldl_cons, ih, constrainBy_apply]
    by_cases isRelevant : relevant kind res
    · rw [if_pos isRelevant, List.filter_cons_of_pos isRelevant, List.foldl_cons]
    · rw [if_neg isRelevant, List.filter_cons_of_neg isRelevant]

/-- The bound that the step sets does not wrap, and a fixed resource below the
window ends there, unless the window is empty. -/
def Clean (lim : Window) (res : Resource) : Prop :=
  if lim.limit < res.base then True
  else if res.base + res.size - 1 < lim.base then
    res.base.toNat + res.size.toNat ≤ 2 ^ 64 ∨ lim.limit < lim.base
  else if prefersAbove lim res then
    res.base.toNat + res.size.toNat < 2 ^ 64
  else 0 < res.base

instance (lim : Window) (res : Resource) : Decidable (Clean lim res) :=
  inferInstanceAs (Decidable (ite _ _ _))

/-- Every fixed resource on the way is met without a wrap. -/
def CleanWalk : Window → List Resource → Prop
  | _, [] => True
  | lim, res :: rest => Clean lim res ∧ CleanWalk (constrain lim res) rest

variable {res : Resource} {lim : Window} {kind : Kind} {fixed : List Resource}

theorem Resource.size_pos (filled : res.size ≠ 0) : 0 < res.size.toNat :=
  Nat.pos_of_ne_zero fun zero => filled (BitVec.eq_of_toNat_eq zero)

theorem constrain_spec (filled : res.size ≠ 0) (clean : Clean lim res) :
    (∀ address, (constrain lim res).Contains address → lim.Contains address) ∧
      ∀ address, res.Covers address → ¬ (constrain lim res).Contains address := by
  have positive := Resource.size_pos filled
  simp only [Window.Contains, Resource.Covers]
  rw [constrain]
  rw [Clean] at clean
  split_ifs at clean with higher lower above
  · rw [if_pos (Or.inr higher)]
    refine ⟨fun _ inside => inside, fun address covers => ?_⟩
    bv_omega
  · rw [if_pos (Or.inl lower)]
    refine ⟨fun _ inside => inside, fun address covers => ?_⟩
    rcases clean with noWrap | empty
    · bv_omega
    · bv_omega
  · rw [if_neg (not_or.mpr ⟨lower, higher⟩), if_pos above]
    refine ⟨fun address inside => ?_, fun address covers => ?_⟩
    · bv_omega
    · bv_omega
  · rw [if_neg (not_or.mpr ⟨lower, higher⟩), if_neg above]
    refine ⟨fun address inside => ?_, fun address covers => ?_⟩
    · bv_omega
    · bv_omega

theorem clean_iff (filled : res.size ≠ 0) :
    Clean lim res ↔ ∀ address, res.Covers address → ¬ (constrain lim res).Contains address := by
  have positive := Resource.size_pos filled
  refine ⟨fun clean => (constrain_spec filled clean).2, fun avoids => ?_⟩
  simp only [Window.Contains, Resource.Covers] at avoids
  rw [constrain] at avoids
  rw [Clean]
  split_ifs with higher lower above
  · rw [if_pos (Or.inl lower)] at avoids
    by_contra wraps
    rw [not_or] at wraps
    -- The resource wraps around and covers the top of the address space.
    have low := avoids (max res.base.toNat lim.base.toNat)
    bv_omega
  · rw [if_neg (not_or.mpr ⟨lower, higher⟩), if_pos above] at avoids
    have first := avoids res.base.toNat
    bv_omega
  · rw [if_neg (not_or.mpr ⟨lower, higher⟩), if_neg above] at avoids
    have first := avoids lim.base.toNat
    bv_omega

theorem foldl_constrain_spec (filled : ∀ res ∈ fixed, res.size ≠ 0) (clean : CleanWalk lim fixed) :
    (∀ address, (fixed.foldl constrain lim).Contains address → lim.Contains address) ∧
      ∀ res ∈ fixed, ∀ address, res.Covers address →
        ¬ (fixed.foldl constrain lim).Contains address := by
  induction fixed generalizing lim with
  | nil => exact ⟨fun _ inside => inside, fun _ member => by simp at member⟩
  | cons first rest ih =>
    obtain ⟨step, later⟩ := clean
    obtain ⟨inside, avoids⟩ := constrain_spec (filled first (.head _)) step
    obtain ⟨restInside, restAvoids⟩ :=
      ih (List.forall_mem_cons.mp filled).2 later
    rw [List.foldl_cons]
    refine ⟨fun address final => inside _ (restInside _ final), ?_⟩
    intro res member address covers final
    rcases List.mem_cons.mp member with rfl | member
    · exact avoids address covers (restInside _ final)
    · exact restAvoids res member address covers final

theorem cleanWalk_iff (filled : ∀ res ∈ fixed, res.size ≠ 0) :
    CleanWalk lim fixed ↔
      ∀ before res after, fixed = before ++ res :: after →
        ∀ address, res.Covers address →
          ¬ ((before ++ [res]).foldl constrain lim).Contains address := by
  induction fixed generalizing lim with
  | nil => simp [CleanWalk]
  | cons first rest ih =>
    rw [CleanWalk, clean_iff (filled first (.head _)),
      ih (List.forall_mem_cons.mp filled).2]
    constructor
    · rintro ⟨step, later⟩ before res after split
      cases before with
      | nil =>
        cases split
        exact step
      | cons head before =>
        obtain ⟨rfl, tail⟩ := List.cons.inj split
        exact later before res after tail
    · intro every
      refine ⟨every [] first rest rfl, fun before res after split => ?_⟩
      exact every (first :: before) res after (by rw [split]; rfl)

@[simp]
theorem flags_trim (lim : Window) (res : Resource) : (trim lim res).flags = res.flags := by
  simp only [trim]
  split_ifs <;> rfl

theorem trim_bounds (lim : Window) (res : Resource) :
    lim.base ≤ (trim lim res).base ∧ (trim lim res).limit ≤ lim.limit := by
  simp only [trim]
  split_ifs <;> bv_omega

theorem mem_iff_of_resourceLimit (under : resourceLimit res = some kind) :
    res.flags &&& ioresourceMem ≠ 0 ↔ kind = .mem := by
  have masked : res.flags &&& ioresourceMem =
      res.flags &&& ioresourceTypeMask &&& ioresourceMem := by
    rw [BitVec.and_assoc]
    rfl
  rw [resourceLimit] at under
  split_ifs at under with isMem isIo
  · cases under
    rw [masked, eq_of_beq isMem]
    decide
  · cases under
    rw [masked, eq_of_beq isIo]
    decide

theorem flags_clip (limits : Constraints) (res : Resource) :
    (clip limits res).flags = res.flags := by
  rw [clip]
  split_ifs
  · rfl
  · cases resourceLimit res with
    | none => rfl
    | some kind =>
      dsimp only
      split_ifs
      · exact flags_trim _ _
      · exact flags_trim _ _

theorem clip_eq {limits : Constraints} (changes : res.fixed = false)
    (under : resourceLimit res = some kind) :
    clip limits res =
      if kind = .mem then
        { trim (limits kind) res with
          base := resourceMax (trim (limits kind) res) }
      else trim (limits kind) res := by
  rw [clip, changes, if_neg (by decide), under]
  dsimp only
  rw [flags_trim]
  by_cases isMem : kind = .mem
  · rw [if_pos ((mem_iff_of_resourceLimit under).mpr isMem), if_pos isMem]
  · rw [if_neg (mt (mem_iff_of_resourceLimit under).mp isMem), if_neg isMem]

/-- No fixed resource makes a bound wrap, the windows for memory have room for
their sizes above the final base, and no device with a fixed resource is hidden
below a disabled one. -/
structure Fits (dev : Device) : Prop where
  clean : ∀ res ∈ dev.resources, res.fixed = false →
    ∀ kind, resourceLimit res = some kind →
      CleanWalk (initialLimits dev kind) (dev.visited.filter (relevant kind))
  roomy : ∀ res ∈ dev.resources, res.fixed = false →
    resourceLimit res = some .mem →
      let trimmed := trim (finalLimits dev .mem) res
      trimmed.limit < resourceMax trimmed ∨ (finalLimits dev .mem).base ≤ resourceMax trimmed
  reached : ∀ kind, ∀ res ∈ dev.resources ++ dev.enabledBelow,
    relevant kind res → (∃ address, res.Covers address ∧
      (initialLimits dev kind).Contains address) → res ∈ dev.visited

theorem finalLimits_eq (dev : Device) (kind : Kind) :
    finalLimits dev kind = (dev.visited.filter (relevant kind)).foldl
      constrain (initialLimits dev kind) := by
  rw [finalLimits, constrainResources_eq, foldl_constrainBy_apply]

theorem Fits.window_inside {dev : Device} (fits : Fits dev) (member : res ∈ dev.resources)
    (changes : res.fixed = false) (under : resourceLimit res = some kind)
    (nonempty : (clip (finalLimits dev) res).base ≤ (clip (finalLimits dev) res).limit)
    (address : Nat) (inside : (clip (finalLimits dev) res).window.Contains address) :
    (finalLimits dev kind).Contains address := by
  obtain ⟨lower, upper⟩ := trim_bounds (finalLimits dev kind) res
  rw [clip_eq changes under] at nonempty inside
  simp only [Window.Contains, Resource.window] at inside ⊢
  by_cases isMem : kind = .mem
  · subst isMem
    rw [if_pos rfl] at nonempty inside
    have room := fits.roomy res member changes under
    rcases room with empty | above
    · bv_omega
    · bv_omega
  · rw [if_neg isMem] at nonempty inside
    bv_omega

/-- A domain with a window for memory below 4 GiB, and fixed resources that
leave a gap of 4 KiB. -/
def gapDomain (size : BitVec 64) : Device :=
  .node true
    [⟨0, size, 0xffffffff, ioresourceMem, 12⟩,
      ⟨0, 0xf0000000, 0, ioresourceMem ||| ioresourceFixed, 0⟩,
      ⟨0xf0001000, 0x0ffff000, 0, ioresourceMem ||| ioresourceFixed, 0⟩] []

end Coreboot.Resources
