import Coreboot.FixedResources
import Coreboot.StableSelection
import Mathlib.Data.Prod.Lex

/-!
# The resources of a bus by size

The allocator takes the resources of a bus from the largest to the smallest. It keeps no
position: every step scans the bus again for the successor of the last resource.
-/

namespace Coreboot.LargestResource

open StableSelection

structure Resource extends Resources.Resource where
  index : Nat
deriving DecidableEq, Repr

def ioresourceSubtractive : BitVec 32 := 0x00040000

def ioresourceStored : BitVec 32 := 0x20000000

def ioresourceAssigned : BitVec 32 := 0x40000000

def Resource.subtractive (res : Resource) : Bool := res.flags &&& ioresourceSubtractive != 0

def ioindexSubtractiveLink (index : Nat) : Nat := index % 256

mutual

/-- `struct device`, with pointers to its resources. -/
inductive Device (δ ρ : Type) where
  | node (dev : δ) (enabled : Bool) (resourceList : List ρ)
      (linkList : List (Bus δ ρ))

inductive Bus (δ ρ : Type) where
  | node (linkNum : Nat) (children : List (Device δ ρ))

end

variable {δ ρ : Type}

def Bus.linkNum : Bus δ ρ → Nat
  | .node linkNum _ => linkNum

abbrev Store (ρ : Type) := ρ → Resource

section Search

variable (store : Store ρ) (typeMask type : BitVec 32)

def rightKind (res : ρ) : Bool := (store res).flags &&& typeMask == type

/-- The loop of `search_bus_resources` over the resources of a device, when the
searches of its links visit these resources. -/
def visitResources (dev : δ) (links : List (Nat × List (δ × ρ))) : List ρ → List (δ × ρ)
  | [] => []
  | res :: rest =>
    if rightKind store typeMask type res = false then
      visitResources dev links rest
    else if (store res).subtractive then
      match links.find? fun link =>
          link.1 = ioindexSubtractiveLink (store res).index with
      | none => []
      | some link => link.2 ++ visitResources dev links rest
    else (dev, res) :: visitResources dev links rest

mutual

def visitDevice : Device δ ρ → List (δ × ρ)
  | .node dev enabled resourceList linkList =>
    if enabled then
      visitResources store typeMask type dev (visitLinks linkList) resourceList
    else []

def visitLinks : List (Bus δ ρ) → List (Nat × List (δ × ρ))
  | [] => []
  | .node linkNum children :: rest =>
    (linkNum, visitChildren children) :: visitLinks rest

/-- The resources that `search_bus_resources` hands to its callback. -/
def visitChildren : List (Device δ ρ) → List (δ × ρ)
  | [] => []
  | device :: rest => visitDevice device ++ visitChildren rest

end

def searchBusResources {σ : Type} (bus : Bus δ ρ) (search : σ → δ → ρ → σ) (gp : σ) : σ :=
  match bus with
  | .node _ children =>
    (visitChildren store typeMask type children).foldl
      (fun gp found => search gp found.1 found.2) gp

structure PickLargestState (δ ρ : Type) where
  last : Option ρ
  resultDev : Option δ
  result : Option ρ
  seenLast : Bool

/-- The first resource is smaller: it has the smaller alignment, or the same one
and the smaller size. -/
def Smaller (first second : ρ) : Prop :=
  (store first).align < (store second).align ∨
    ((store first).align = (store second).align ∧
      (store first).size.toNat < (store second).size.toNat)

instance (first second : ρ) : Decidable (Smaller store first second) :=
  inferInstanceAs (Decidable (_ ∨ _))

/-- The last resource is not behind this one in the order of the allocation. -/
def Passed (state : PickLargestState δ ρ) (resource last : ρ) : Prop :=
  Smaller store last resource ∨
    ((store last).align = (store resource).align ∧
      (store last).size = (store resource).size ∧ state.seenLast = false)

instance (state : PickLargestState δ ρ) (resource last : ρ) :
    Decidable (Passed store state resource last) :=
  inferInstanceAs (Decidable (_ ∨ _))

def pickLargestResource [DecidableEq ρ] (state : PickLargestState δ ρ)
    (dev : δ) (resource : ρ) : PickLargestState δ ρ :=
  -- Be certain to pick the successor to last.
  if state.last = some resource then { state with seenLast := true }
  else if (store resource).fixed then state
  else if ∃ last ∈ state.last, Passed store state resource last then state
  else if ∃ result ∈ state.result, ¬ Smaller store result resource then state
  else { state with resultDev := some dev, result := some resource }

def largestResource [DecidableEq ρ] (bus : Bus δ ρ) (resultRes : Option ρ) : Option δ × Option ρ :=
  let state := searchBusResources store typeMask type bus
    (pickLargestResource store)
    { last := resultRes, resultDev := none, result := none, seenLast := false }
  (state.resultDev, state.result)

end Search

/-- The caller changes the base, the limit and two of the flags. -/
structure Changes (store next : Store ρ) : Prop where
  size : ∀ res, (next res).size = (store res).size
  align : ∀ res, (next res).align = (store res).align
  index : ∀ res, (next res).index = (store res).index
  flags : ∀ res,
    (next res).flags &&& ~~~(ioresourceAssigned ||| ioresourceStored) =
      (store res).flags &&& ~~~(ioresourceAssigned ||| ioresourceStored)

theorem unmarked {flags assigned stored : BitVec 32} :
    (flags ||| assigned) &&& ~~~(assigned ||| stored) = flags &&& ~~~(assigned ||| stored) ∧
      (flags ||| assigned) &&& ~~~stored &&& ~~~(assigned ||| stored) =
        flags &&& ~~~(assigned ||| stored) := by
  constructor
  all_goals
    ext bit bound
    simp only [BitVec.getElem_and, BitVec.getElem_or, BitVec.getElem_not]
    cases assigned[bit] <;> cases stored[bit] <;> simp

/-- The loop of the allocator: the device and the resource of every turn.  The
caller changes the resources at the turns. -/
def enumerate [DecidableEq ρ] (typeMask type : BitVec 32) (bus : Bus δ ρ)
    (caller : Nat → Store ρ → δ × ρ → Store ρ) :
    Nat → Nat → Store ρ → Option ρ → Option (List (δ × ρ))
  | 0, _, _, _ => none
  | fuel + 1, turn, store, last =>
    match largestResource store typeMask type bus last with
    | (some dev, some res) =>
      (enumerate typeMask type bus caller fuel (turn + 1)
        (caller turn store (dev, res)) (some res)).map ((dev, res) :: ·)
    | _ => some []

/-- A resource of the right kind of an enabled device on a bus, or behind a
subtractive link from it. -/
inductive OnBus (store : Store ρ) (typeMask type : BitVec 32) :
    List (Device δ ρ) → δ → ρ → Prop
  | here {children : List (Device δ ρ)} {dev : δ} {resourceList : List ρ}
      {linkList : List (Bus δ ρ)} {res : ρ}
      (child : .node dev true resourceList linkList ∈ children)
      (member : res ∈ resourceList)
      (kind : rightKind store typeMask type res = true)
      (plain : (store res).subtractive = false) :
      OnBus store typeMask type children dev res
  | behind {children below : List (Device δ ρ)} {dev lower : δ}
      {resourceList : List ρ} {linkList : List (Bus δ ρ)} {link res : ρ}
      {linkNum : Nat}
      (child : .node dev true resourceList linkList ∈ children)
      (member : link ∈ resourceList)
      (kind : rightKind store typeMask type link = true)
      (subtractive : (store link).subtractive = true)
      (leads : linkList.find? (fun bus =>
        bus.linkNum = ioindexSubtractiveLink (store link).index) = some (.node linkNum below))
      (found : OnBus store typeMask type below lower res) :
      OnBus store typeMask type children lower res

/-- Every resource of the right kind is visited, and no resource twice. -/
structure VisitedOnce (store : Store ρ) (typeMask type : BitVec 32)
    (children : List (Device δ ρ)) : Prop where
  visited : ∀ dev res, OnBus store typeMask type children dev res →
    (dev, res) ∈ visitChildren store typeMask type children
  once : ((visitChildren store typeMask type children).map Prod.snd).Nodup

def sizeKey (store : Store ρ) (res : ρ) : Nat ×ₗ Nat :=
  toLex ((store res).align, (store res).size.toNat)

/-- An enumeration has every resource of the right kind that is not fixed exactly
once, from the largest to the smallest, and equal ones in visiting order. -/
structure Enumerated [DecidableEq ρ] (store : Store ρ)
    (typeMask type : BitVec 32) (children : List (Device δ ρ))
    (list : List (δ × ρ)) : Prop where
  once : (list.map Prod.snd).Nodup
  all : ∀ dev res, (dev, res) ∈ list ↔
    OnBus store typeMask type children dev res ∧ (store res).fixed = false
  sorted : list.Pairwise fun first second =>
    Before ((visitChildren store typeMask type children).map Prod.snd)
      (sizeKey store) first.2 second.2

section Visited

variable {store next : Store ρ} {typeMask type : BitVec 32}

theorem mem_visitResources {dev : δ} {links : List (Nat × List (δ × ρ))} {resourceList : List ρ}
    {found : δ × ρ} (member : found ∈ visitResources store typeMask type dev links resourceList) :
    (found.1 = dev ∧ found.2 ∈ resourceList ∧
        rightKind store typeMask type found.2 = true ∧
        (store found.2).subtractive = false) ∨
      ∃ link ∈ resourceList, rightKind store typeMask type link = true ∧
        (store link).subtractive = true ∧
        ∃ lower, links.find? (fun lower =>
            lower.1 = ioindexSubtractiveLink (store link).index) = some lower ∧
          found ∈ lower.2 := by
  induction resourceList with
  | nil => cases member
  | cons res rest ih =>
    have later (member : found ∈
        visitResources store typeMask type dev links rest) :
        (found.1 = dev ∧ found.2 ∈ res :: rest ∧ _) ∨ ∃ link ∈ res :: rest, _ :=
      (ih member).imp
        (And.imp_right (And.imp_left (List.mem_cons_of_mem res)))
        fun ⟨link, inside, facts⟩ =>
          ⟨link, List.mem_cons_of_mem res inside, facts⟩
    rw [visitResources] at member
    split_ifs at member with other below
    · exact later member
    · cases lead : links.find? fun lower =>
          lower.1 = ioindexSubtractiveLink (store res).index with
      | none =>
        rw [lead] at member
        cases member
      | some lower =>
        rw [lead] at member
        rcases List.mem_append.mp member with inside | after
        · exact .inr ⟨res, (.head _), by simpa using other, below, lower, lead, inside⟩
        · exact later after
    · rcases List.mem_cons.mp member with rfl | after
      · exact .inl ⟨rfl, (.head _), by simpa using other, by simpa using below⟩
      · exact later after

theorem OnBus.mono {first second : List (Device δ ρ)} (inside : ∀ device ∈ first, device ∈ second)
    {dev : δ} {res : ρ} (found : OnBus store typeMask type first dev res) :
    OnBus store typeMask type second dev res := by
  cases found with
  | here child member kind plain =>
    exact .here (inside _ child) member kind plain
  | behind child member kind subtractive leads found =>
    exact .behind (inside _ child) member kind subtractive leads found

theorem find?_visitLinks (linkList : List (Bus δ ρ)) (number : Nat) :
    (visitLinks store typeMask type linkList).find? (fun lower => lower.1 = number) =
      (linkList.find? fun bus => bus.linkNum = number).map fun bus =>
        match bus with
        | .node linkNum children =>
          (linkNum, visitChildren store typeMask type children) := by
  induction linkList with
  | nil => rfl
  | cons bus rest ih =>
    obtain ⟨linkNum, children⟩ := bus
    rw [visitLinks, List.find?_cons, List.find?_cons, ih]
    by_cases same : linkNum = number
    · simp [Bus.linkNum, same]
    · simp [Bus.linkNum, same]

mutual

theorem onBus_of_mem_visitDevice :
    ∀ (device : Device δ ρ) {found : δ × ρ},
      found ∈ visitDevice store typeMask type device →
      OnBus store typeMask type [device] found.1 found.2
  | .node dev enabled resourceList linkList, found, member => by
    rw [visitDevice] at member
    split_ifs at member with on
    · subst on
      rcases mem_visitResources member with
        ⟨own, inside, kind, plain⟩ | ⟨link, inside, kind, subtractive, lower, leads, below⟩
      · rw [own]
        exact .here (.head _) inside kind plain
      · rw [find?_visitLinks] at leads
        obtain ⟨⟨linkNum, children⟩, lead, rfl⟩ := Option.map_eq_some_iff.mp leads
        have inList : Bus.node linkNum children ∈ linkList := List.mem_of_find?_eq_some lead
        exact .behind (.head _) inside kind subtractive lead
          (onBus_of_mem_visitLinks linkList inList below)
    · cases member

theorem onBus_of_mem_visitLinks :
    ∀ (linkList : List (Bus δ ρ)) {linkNum : Nat}
      {children : List (Device δ ρ)} {found : δ × ρ},
      Bus.node linkNum children ∈ linkList →
      found ∈ visitChildren store typeMask type children →
      OnBus store typeMask type children found.1 found.2
  | .node _ children :: rest, linkNum, others, found, inList, member => by
    rcases List.mem_cons.mp inList with same | later
    · cases same
      exact onBus_of_mem_visitChildren children member
    · exact onBus_of_mem_visitLinks rest later member

theorem onBus_of_mem_visitChildren :
    ∀ (children : List (Device δ ρ)) {found : δ × ρ},
      found ∈ visitChildren store typeMask type children →
      OnBus store typeMask type children found.1 found.2
  | device :: rest, found, member => by
    rw [visitChildren] at member
    rcases List.mem_append.mp member with here | later
    · exact (onBus_of_mem_visitDevice device here).mono fun other inside => by
        rw [List.mem_singleton.mp inside]
        exact .head _
    · exact (onBus_of_mem_visitChildren rest later).mono fun other inside =>
        List.mem_cons_of_mem device inside

end

end Visited

namespace Changes

variable {first second third : Store ρ} {typeMask type : BitVec 32}

theorem refl (store : Store ρ) : Changes store store where
  size _ := rfl
  align _ := rfl
  index _ := rfl
  flags _ := rfl

theorem trans (changes : Changes first second) (later : Changes second third) :
    Changes first third where
  size res := (later.size res).trans (changes.size res)
  align res := (later.align res).trans (changes.align res)
  index res := (later.index res).trans (changes.index res)
  flags res := (later.flags res).trans (changes.flags res)

section

variable (changes : Changes first second)
include changes

theorem masked (res : ρ) {mask : BitVec 32}
    (apart : mask &&& (ioresourceAssigned ||| ioresourceStored) = 0) :
    (second res).flags &&& mask = (first res).flags &&& mask := by
  have inside : ~~~(ioresourceAssigned ||| ioresourceStored) &&& mask = mask := by
    ext bit bound
    have clear := congrArg (fun word : BitVec 32 => word.getLsbD bit) apart
    rw [BitVec.getLsbD_and] at clear
    rw [BitVec.getElem_and, BitVec.getElem_not,
      ← BitVec.getLsbD_eq_getElem bound, ← BitVec.getLsbD_eq_getElem bound]
    cases held : mask.getLsbD bit
    · exact Bool.and_false _
    · rw [held, Bool.true_and] at clear
      rw [clear, Bool.and_true]
      exact congrArg not BitVec.getLsbD_zero
  rw [← inside, ← BitVec.and_assoc, ← BitVec.and_assoc, changes.flags res]

theorem subtractive (res : ρ) : (second res).subtractive = (first res).subtractive :=
  congrArg (· != 0) (changes.masked res (by decide))

theorem fixed (res : ρ) : (second res).fixed = (first res).fixed :=
  congrArg (· != 0) (changes.masked res (by decide))

end

theorem sizeKey (changes : Changes first second) : sizeKey second = sizeKey first := by
  funext res
  rw [LargestResource.sizeKey, LargestResource.sizeKey, changes.align, changes.size]

variable (changes : Changes first second)
  (apart : typeMask &&& (ioresourceAssigned ||| ioresourceStored) = 0)

include changes apart

theorem rightKind (res : ρ) :
    rightKind second typeMask type res = rightKind first typeMask type res :=
  congrArg (· == type) (changes.masked res apart)

theorem visitResources (dev : δ) (links : List (Nat × List (δ × ρ))) (resourceList : List ρ) :
    visitResources second typeMask type dev links resourceList =
      visitResources first typeMask type dev links resourceList := by
  induction resourceList with
  | nil => rfl
  | cons res rest ih =>
    rw [LargestResource.visitResources, LargestResource.visitResources, ih,
      changes.rightKind apart, changes.subtractive, changes.index]

end Changes

section Unchanged

variable {first second : Store ρ} {typeMask type : BitVec 32}

mutual

theorem visitDevice_changes (changes : Changes first second)
    (apart : typeMask &&& (ioresourceAssigned ||| ioresourceStored) = 0) :
    ∀ device : Device δ ρ, visitDevice second typeMask type device =
      visitDevice first typeMask type device
  | .node dev enabled resourceList linkList => by
    rw [visitDevice, visitDevice, visitLinks_changes changes apart linkList,
      changes.visitResources apart]

theorem visitLinks_changes (changes : Changes first second)
    (apart : typeMask &&& (ioresourceAssigned ||| ioresourceStored) = 0) :
    ∀ linkList : List (Bus δ ρ), visitLinks second typeMask type linkList =
      visitLinks first typeMask type linkList
  | [] => by rw [visitLinks, visitLinks]
  | .node linkNum children :: rest => by
    rw [visitLinks, visitLinks, visitChildren_changes changes apart children,
      visitLinks_changes changes apart rest]

theorem visitChildren_changes (changes : Changes first second)
    (apart : typeMask &&& (ioresourceAssigned ||| ioresourceStored) = 0) :
    ∀ children : List (Device δ ρ),
      visitChildren second typeMask type children = visitChildren first typeMask type children
  | [] => by rw [visitChildren, visitChildren]
  | device :: rest => by
    rw [visitChildren, visitChildren, visitDevice_changes changes apart device,
      visitChildren_changes changes apart rest]

end

end Unchanged

section Pick

variable {store : Store ρ} {last : Option ρ}

theorem smaller_iff {first second : ρ} :
    Smaller store first second ↔ sizeKey store first < sizeKey store second := by
  rw [sizeKey, sizeKey, Prod.Lex.toLex_lt_toLex]
  rfl

/-- What the search knows after some of the resources. -/
structure Scanned [DecidableEq ρ] (store : Store ρ) (names : List ρ) (last : Option ρ)
    (seen : List (δ × ρ)) (state : PickLargestState δ ρ) : Prop where
  kept : state.last = last
  passed : state.seenLast = true ↔ ∃ previous, last = some previous ∧ previous ∈ seen.map Prod.snd
  nothing : state.result = none → state.resultDev = none ∧
    ∀ other ∈ seen.map Prod.snd, (store other).fixed = false →
      ¬ After names (sizeKey store) last other
  best : ∀ res, state.result = some res → ∃ dev, state.resultDev = some dev ∧
    (dev, res) ∈ seen ∧ (store res).fixed = false ∧
    After names (sizeKey store) last res ∧
    ∀ other ∈ seen.map Prod.snd, (store other).fixed = false →
      After names (sizeKey store) last other →
      other = res ∨ Before names (sizeKey store) res other

namespace Scanned

variable [DecidableEq ρ] {names : List ρ} {seen : List (δ × ρ)} {state : PickLargestState δ ρ}
  {dev : δ} {resource : ρ}

section

variable (scanned : Scanned store names last seen state)
include scanned

theorem passed_append (differ : last ≠ some resource) :
    state.seenLast = true ↔ ∃ previous, last = some previous ∧
      previous ∈ (seen ++ [(dev, resource)]).map Prod.snd := by
  rw [scanned.passed, List.map_append]
  refine exists_congr fun previous => and_congr_right fun same => ?_
  rw [List.mem_append, List.map_cons, List.map_nil, List.mem_singleton]
  refine (or_iff_left ?_).symm
  rintro rfl
  exact differ same

/-- A resource that is fixed, does not come after the last one or comes after
the result leaves the result. -/
theorem leave {seenLast : Bool} (passed : seenLast = true ↔ ∃ previous, last = some previous ∧
      previous ∈ (seen ++ [(dev, resource)]).map Prod.snd)
    (skipped : (store resource).fixed = false → After names (sizeKey store) last resource →
      ∃ result, state.result = some result ∧ Before names (sizeKey store) result resource) :
    Scanned store names last (seen ++ [(dev, resource)]) { state with seenLast := seenLast } where
  kept := scanned.kept
  passed := passed
  nothing empty := by
    refine ⟨(scanned.nothing empty).1, fun other member free after => ?_⟩
    rw [List.map_append, List.mem_append] at member
    rcases member with before | here
    · exact (scanned.nothing empty).2 other before free after
    · rw [List.mem_singleton.mp here] at free after
      obtain ⟨result, found, -⟩ := skipped free after
      exact absurd (empty.symm.trans found) (Option.some_ne_none result).symm
  best res found := by
    obtain ⟨resDev, devSame, member, free, after, first⟩ := scanned.best res found
    refine ⟨resDev, devSame, List.mem_append_left _ member, free, after,
      fun other inside otherFree otherAfter => ?_⟩
    rw [List.map_append, List.mem_append] at inside
    rcases inside with before | here
    · exact first other before otherFree otherAfter
    · rw [List.mem_singleton.mp here] at otherFree otherAfter ⊢
      obtain ⟨result, same, before⟩ := skipped otherFree otherAfter
      cases found.symm.trans same
      exact .inr before

theorem skip (differ : last ≠ some resource) (skipped : (store resource).fixed = false →
      After names (sizeKey store) last resource →
      ∃ result, state.result = some result ∧ Before names (sizeKey store) result resource) :
    Scanned store names last (seen ++ [(dev, resource)]) state :=
  scanned.leave (scanned.passed_append differ) skipped

theorem meet (same : last = some resource) :
    Scanned store names last (seen ++ [(dev, resource)]) { state with seenLast := true } := by
  refine scanned.leave (iff_of_true rfl ⟨resource, same, ?_⟩) fun _ after =>
    absurd (after resource same) not_before_self
  rw [List.map_append]
  exact List.mem_append_right _ (List.mem_singleton_self resource)

theorem take (differ : last ≠ some resource) (free : (store resource).fixed = false)
    (after : After names (sizeKey store) last resource)
    (larger : ∀ result, state.result = some result → Before names (sizeKey store) resource result) :
    Scanned store names last (seen ++ [(dev, resource)])
      { state with resultDev := some dev, result := some resource } where
  kept := scanned.kept
  passed := scanned.passed_append differ
  nothing := nofun
  best res found := by
    cases found
    refine ⟨dev, rfl, List.mem_append_right _ (.head _), free,
      after, fun other inside otherFree otherAfter => ?_⟩
    rw [List.map_append, List.mem_append] at inside
    rcases inside with before | here
    · cases result : state.result with
      | none =>
        exact absurd otherAfter ((scanned.nothing result).2 other before otherFree)
      | some old =>
        obtain ⟨_, _, _, _, _, first⟩ := scanned.best old result
        rcases first other before otherFree otherAfter with rfl | later
        · exact .inr (larger other result)
        · exact .inr ((larger old result).trans later)
    · exact .inl (List.mem_singleton.mp here)

end

theorem pick (rest : List (δ × ρ)) (scanned : Scanned store names last seen state)
    (split : names = seen.map Prod.snd ++ resource :: rest.map Prod.snd) (nodup : names.Nodup) :
    Scanned store names last (seen ++ [(dev, resource)])
      (pickLargestResource store state dev resource) := by
  have order {previous : ρ} (differ : previous ≠ resource) :
      names.idxOf previous < names.idxOf resource ↔ previous ∈ seen.map Prod.snd := by
    subst split
    exact idxOf_lt_iff nodup differ
  have equalKeys {first second : ρ} :
      sizeKey store first = sizeKey store second ↔
        (store first).align = (store second).align ∧ (store first).size = (store second).size := by
    rw [sizeKey, sizeKey, toLex_inj, Prod.mk.injEq, BitVec.toNat_inj]
  obtain rfl := scanned.kept
  rw [pickLargestResource]
  split_ifs with same fixed behind worse
  · exact scanned.meet same
  · refine scanned.skip same fun free => ?_
    rw [fixed] at free
    cases free
  · refine scanned.skip same fun _ after => ?_
    obtain ⟨previous, isLast, passed⟩ := behind
    have differ : previous ≠ resource := fun equal => same (equal ▸ isLast)
    rcases after previous isLast with smaller | ⟨keys, earlier⟩
    · rcases passed with larger | ⟨aligns, sizes, _⟩
      · exact absurd (smaller_iff.mp larger) smaller.asymm
      · exact absurd (equalKeys.mpr ⟨aligns, sizes⟩) smaller.ne'
    · rcases passed with larger | ⟨_, _, notSeen⟩
      · exact absurd keys (smaller_iff.mp larger).ne
      · have seenLast := scanned.passed.mpr ⟨previous, isLast, (order differ).mp earlier⟩
        rw [notSeen] at seenLast
        cases seenLast
  · refine scanned.skip same fun _ _ => ?_
    obtain ⟨result, found, notSmaller⟩ := worse
    obtain ⟨resDev, -, member, -⟩ := scanned.best result found
    have inside : result ∈ seen.map Prod.snd := List.mem_map.mpr ⟨(resDev, result), member, rfl⟩
    have outside : resource ∉ seen.map Prod.snd := fun again => by
      rw [split] at nodup
      exact (List.nodup_append.mp nodup).2.2 resource again resource (.head _) rfl
    refine ⟨result, found, ?_⟩
    rcases (not_lt.mp fun smaller =>
      notSmaller (smaller_iff.mpr smaller)).lt_or_eq with less | equal
    · exact .inl less
    · exact .inr ⟨equal.symm, (order fun same => outside (same ▸ inside)).mpr inside⟩
  · have free : (store resource).fixed = false := by simpa using fixed
    refine scanned.take same free ?_ fun result found => .inl ?_
    · intro previous isLast
      have differ : previous ≠ resource := fun equal => same (equal ▸ isLast)
      have notPassed : ¬ Passed store state resource previous := fun passed =>
        behind ⟨previous, isLast, passed⟩
      rcases lt_trichotomy (sizeKey store previous) (sizeKey store resource)
        with larger | equal | smaller
      · exact absurd (.inl (smaller_iff.mpr larger)) notPassed
      · refine .inr ⟨equal, (order differ).mpr ?_⟩
        by_contra ahead
        refine notPassed (.inr ⟨(equalKeys.mp equal).1, (equalKeys.mp equal).2,
          Bool.eq_false_iff.mpr fun seenLast => ahead ?_⟩)
        obtain ⟨other, equalLast, inside⟩ := scanned.passed.mp seenLast
        cases isLast.symm.trans equalLast
        exact inside
      · exact .inl smaller
    · by_contra notSmaller
      exact worse ⟨result, found, fun smaller =>
        notSmaller (smaller_iff.mp smaller)⟩

theorem run (rest : List (δ × ρ)) (scanned : Scanned store names last seen state)
    (split : names = (seen ++ rest).map Prod.snd) (nodup : names.Nodup) :
    Scanned store names last (seen ++ rest)
      (rest.foldl (fun state found =>
        pickLargestResource store state found.1 found.2) state) := by
  induction rest generalizing seen state with
  | nil =>
    rw [List.append_nil]
    exact scanned
  | cons found rest ih =>
    rw [List.append_cons] at split ⊢
    refine ih (scanned.pick rest ?_ nodup) split
    rw [split]
    simp

end Scanned

theorem largestResource_spec [DecidableEq ρ] {typeMask type : BitVec 32}
    (linkNum : Nat) {children : List (Device δ ρ)} {names : List ρ}
    (visited : (visitChildren store typeMask type children).map Prod.snd = names)
    (nodup : names.Nodup) (last : Option ρ) :
    (∃ dev res, largestResource store typeMask type (.node linkNum children)
        last = (some dev, some res) ∧
      (dev, res) ∈ visitChildren store typeMask type children ∧
      IsNext names (sizeKey store) (fun res => (store res).fixed = false) last res) ∨
    (largestResource store typeMask type (.node linkNum children) last = (none, none) ∧
      ∀ other ∈ names, (store other).fixed = false → ¬ After names (sizeKey store) last other) := by
  have start : Scanned store names last ([] : List (δ × ρ))
      { last := last, resultDev := none, result := none, seenLast := false } :=
    { kept := rfl
      passed := iff_of_false Bool.false_ne_true fun ⟨_, _, member⟩ => nomatch member
      nothing := fun _ => ⟨rfl, fun _ member => nomatch member⟩
      best := nofun }
  have scanned := start.run (visitChildren store typeMask type children) visited.symm nodup
  rw [List.nil_append] at scanned
  rw [largestResource, searchBusResources]
  generalize List.foldl _ _ _ = state at scanned
  cases found : state.result with
  | none =>
    obtain ⟨noDev, none⟩ := scanned.nothing found
    rw [visited] at none
    exact .inr ⟨congrArg (·, Option.none) noDev, none⟩
  | some res =>
    obtain ⟨dev, devSame, member, free, after, first⟩ := scanned.best res found
    rw [visited] at first
    refine .inl ⟨dev, res, congrArg (·, some res) devSame, member, ?_, free, after, first⟩
    rw [← visited]
    exact List.mem_map.mpr ⟨(dev, res), member, rfl⟩

end Pick

section Enumeration

variable [DecidableEq ρ] {store : Store ρ} {typeMask type : BitVec 32}
  {linkNum : Nat} {children : List (Device δ ρ)} {names : List ρ}

theorem exists_walk (apart : typeMask &&& (ioresourceAssigned ||| ioresourceStored) = 0)
    (visited : (visitChildren store typeMask type children).map Prod.snd = names)
    (nodup : names.Nodup) {caller : Nat → Store ρ → δ × ρ → Store ρ}
    (allowed : ∀ turn store found, Changes store (caller turn store found)) (fuel turn : Nat)
    {current : Store ρ} {last : Option ρ} (changes : Changes store current)
    (enough : remaining names (sizeKey store) (fun res => (store res).fixed = false) last < fuel) :
    ∃ list, enumerate typeMask type (.node linkNum children) caller fuel turn
        current last = some list ∧
      (∀ found ∈ list, found ∈ visitChildren store typeMask type children) ∧
      Walk names (sizeKey store) (fun res => (store res).fixed = false) last
        (list.map Prod.snd) := by
  induction fuel generalizing turn current last with
  | zero => exact absurd enough (Nat.not_lt_zero _)
  | succ fuel ih =>
    have same : visitChildren current typeMask type children =
        visitChildren store typeMask type children :=
      visitChildren_changes changes apart children
    have spec := largestResource_spec linkNum
      ((congrArg (List.map Prod.snd) same).trans visited) nodup last
    simp only [changes.sizeKey, changes.fixed, same] at spec
    rw [enumerate]
    rcases spec with ⟨dev, res, answer, member, next⟩ | ⟨answer, none⟩
    · obtain ⟨list, run, inside, walk⟩ := ih (turn + 1)
        (changes.trans (allowed turn current (dev, res)))
        (Nat.lt_of_lt_of_le next.remaining_lt (Nat.le_of_lt_succ enough))
      rw [answer]
      refine ⟨(dev, res) :: list, congrArg (Option.map _) run,
        fun found member' => ?_, .step next walk⟩
      rcases List.mem_cons.mp member' with rfl | later
      · exact member
      · exact inside found later
    · rw [answer]
      exact ⟨[], rfl, nofun, .done none⟩

theorem enumerated_of_walk (once : VisitedOnce store typeMask type children) {list : List (δ × ρ)}
    (inside : ∀ found ∈ list, found ∈ visitChildren store typeMask type children)
    (walk : Walk ((visitChildren store typeMask type children).map Prod.snd)
      (sizeKey store) (fun res => (store res).fixed = false) none
      (list.map Prod.snd)) :
    Enumerated store typeMask type children list where
  once := walk.nodup
  all dev res := by
    constructor
    · intro member
      refine ⟨onBus_of_mem_visitChildren children (inside _ member), ?_⟩
      exact (walk.mem_iff.mp (List.mem_map.mpr ⟨(dev, res), member, rfl⟩)).2.1
    · rintro ⟨onBus, free⟩
      have visited := once.visited dev res onBus
      have walked : res ∈ list.map Prod.snd := walk.mem_iff.mpr
        ⟨List.mem_map.mpr ⟨(dev, res), visited, rfl⟩, free, after_none⟩
      obtain ⟨found, member, same⟩ := List.mem_map.mp walked
      rwa [List.inj_on_of_nodup_map once.once (inside found member) visited same] at member
  sorted := List.pairwise_map.mp walk.pairwise

/-- The loop over `largest_resource` ends, and it has every resource of the right
kind once, from the largest to the smallest. -/
theorem enumerates (apart : typeMask &&& (ioresourceAssigned ||| ioresourceStored) = 0)
    (once : VisitedOnce store typeMask type children) (caller : Nat → Store ρ → δ × ρ → Store ρ)
    (allowed : ∀ turn store found, Changes store (caller turn store found)) :
    ∃ fuel list, enumerate typeMask type (.node linkNum children) caller fuel 0
        store none = some list ∧
      Enumerated store typeMask type children list := by
  obtain ⟨list, run, inside, walk⟩ := exists_walk apart rfl once.once
    allowed _ 0 (Changes.refl store) (Nat.lt_succ_self _)
  exact ⟨_, list, run, enumerated_of_walk once inside walk⟩

end Enumeration

/-- Two equal resources, a fixed one, one of a disabled device, and a subtractive
link with a larger resource behind it. -/
def smallBus : List (Device Nat Nat) :=
  [.node 0 true [0, 1] [],
    .node 1 true [2, 3] [.node 0 [.node 2 true [4] []]],
    .node 3 false [5] []]

def smallStore (res : Nat) : Resource where
  base := 0
  size := if res = 4 then 0x2000 else 0x1000
  limit := 0xffffffff
  flags :=
    if res = 2 then Resources.ioresourceMem ||| Resources.ioresourceFixed
    else if res = 3 then Resources.ioresourceMem ||| ioresourceSubtractive
    else Resources.ioresourceMem
  align := if res = 4 then 13 else 12
  index := 0x100

/-- The allocator sets the base and marks the resource. -/
def assign (turn : Nat) (store : Store Nat) (found : Nat × Nat) : Store Nat :=
  Function.update store found.2
    { store found.2 with
      base := BitVec.ofNat 64 (0x80000000 + 0x2000 * turn)
      flags := ((store found.2).flags ||| ioresourceAssigned) &&& ~~~ioresourceStored }

theorem changes_assign (turn : Nat) (store : Store Nat) (found : Nat × Nat) :
    Changes store (assign turn store found) := by
  have same {α : Type} (field : Resource → α)
      (kept : field (assign turn store found found.2) = field (store found.2)) (res : Nat) :
      field (assign turn store found res) = field (store res) := by
    by_cases here : res = found.2
    · rw [here, kept]
    · rw [assign, Function.update_of_ne here]
  refine ⟨same (·.size) ?_, same (·.align) ?_, same (·.index) ?_,
    same (·.flags &&& ~~~(ioresourceAssigned ||| ioresourceStored)) ?_⟩
  · rw [assign, Function.update_self]
  · rw [assign, Function.update_self]
  · rw [assign, Function.update_self]
  · rw [assign, Function.update_self]
    exact unmarked.2

theorem visitedOnce_smallBus :
    VisitedOnce smallStore Resources.ioresourceTypeMask Resources.ioresourceMem smallBus where
  visited := by
    intro dev res onBus
    cases onBus with
    | here child member kind plain =>
      simp only [smallBus, List.mem_cons, Device.node.injEq, true_and, Bool.true_eq_false,
        false_and, and_false, List.not_mem_nil, or_false] at child
      rcases child with ⟨rfl, rfl, rfl⟩ | ⟨rfl, rfl, rfl⟩
      · rcases List.mem_pair.mp member with rfl | rfl <;> decide
      · rcases List.mem_pair.mp member with rfl | rfl
        · decide
        · cases plain
    | behind child member kind subtractive leads found =>
      simp only [smallBus, List.mem_cons, Device.node.injEq, true_and, Bool.true_eq_false,
        false_and, and_false, List.not_mem_nil, or_false] at child
      rcases child with ⟨rfl, rfl, rfl⟩ | ⟨rfl, rfl, rfl⟩
      · cases leads
      · rcases List.mem_pair.mp member with rfl | rfl
        · cases subtractive
        · obtain ⟨rfl, rfl⟩ : _ ∧ _ := by
            simpa [Bus.linkNum, ioindexSubtractiveLink, smallStore] using leads
          cases found with
          | here child member _ _ =>
            obtain ⟨rfl, rfl, rfl⟩ : _ ∧ _ ∧ _ := by simpa using child
            rw [List.mem_singleton.mp member]
            decide
          | behind child _ _ _ leads _ =>
            obtain ⟨rfl, rfl, rfl⟩ : _ ∧ _ ∧ _ := by simpa using child
            cases leads
  once := by decide

theorem enumerates_smallBus :
    ∃ fuel list, enumerate Resources.ioresourceTypeMask Resources.ioresourceMem
        (.node 0 smallBus) assign fuel 0 smallStore none = some list ∧
      Enumerated smallStore Resources.ioresourceTypeMask Resources.ioresourceMem smallBus list :=
  enumerates (by decide) visitedOnce_smallBus assign changes_assign

example : enumerate Resources.ioresourceTypeMask Resources.ioresourceMem
    (.node 0 smallBus) assign 4 0 smallStore none = some [(2, 4), (0, 0), (0, 1)] := by decide

end Coreboot.LargestResource
