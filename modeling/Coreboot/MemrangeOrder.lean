import Coreboot.MemrangeRefinement

/-!
# The entries depend on the page map only

The list of entries is the normal form of the page map that it denotes.
-/

namespace Coreboot.Memrange

open IntervalMap

/-- No call wraps around the address space. -/
def Fitting (operations : List Operation) : Prop := ∀ operation ∈ operations, operation.Fits

/-- The entries after some calls, from an empty `memranges`. -/
def entriesAfter (numFree : Nat) (operations : List Operation) : List RangeEntry :=
  (operations.foldl Operation.perform (memrangesInitEmpty numFree)).entries

/-- The page map that some calls denote. -/
noncomputable def mapAfter (operations : List Operation) : PageMap :=
  operations.foldl Operation.apply fun _ => none

/-- Insertions of ranges, each a base and a size, with a common tag. -/
def insertions (tag : Tag) (ranges : List (Address × Address)) : List Operation :=
  ranges.map fun range => .insert range.1 range.2 tag

/-- What `search_global_resources` and `collect_ranges` read of a resource. -/
structure MemResource where
  base : Address
  size : Address
  flags : BitVec 64
deriving DecidableEq, Repr

structure ResourceDevice where
  enabled : Bool
  resourceList : List MemResource
deriving DecidableEq, Repr

def ioresourceMem : BitVec 64 := 0x200

def ioresourceSubtractive : BitVec 64 := 0x20000

def searchGlobalResources (typeMask type : BitVec 64)
    (allDevices : List ResourceDevice) : List (ResourceDevice × MemResource) :=
  (allDevices.filter ResourceDevice.enabled).flatMap fun device =>
    (device.resourceList.filter fun resource =>
      resource.flags &&& typeMask = type ∧
        resource.flags &&& ioresourceSubtractive = 0).map (device, ·)

def collectRanges (envRamstage : Bool) (tag : Tag)
    (filter : Option (ResourceDevice → MemResource → Bool))
    (ranges : Memranges) (found : ResourceDevice × MemResource) : Memranges :=
  if found.2.size = 0 then ranges
  else if (filter.map fun accepts => accepts found.1 found.2).getD true then
    memrangesInsert envRamstage ranges found.2.base found.2.size tag
  else ranges

def memrangesAddResourcesFilter (envRamstage : Bool)
    (allDevices : List ResourceDevice) (ranges : Memranges)
    (mask type : BitVec 64) (tag : Tag)
    (filter : Option (ResourceDevice → MemResource → Bool)) : Memranges :=
  (searchGlobalResources (mask ||| ioresourceMem) (type ||| ioresourceMem)
    allDevices).foldl (collectRanges envRamstage tag filter) ranges

theorem WellFormed.valueAt_eq {entries : List RangeEntry} (wellFormed : WellFormed entries)
    (point : Nat) : valueAt (segments entries) point = pageTag entries (point / 4096) := by
  have endpoints := ((wellFormed_iff _).mp wellFormed).2.2
  rw [pageTag_eq_valueAt]
  clear wellFormed
  induction entries with
  | nil => rfl
  | cons entry rest ih =>
    rw [segments_cons] at endpoints ⊢
    obtain ⟨⟨lower, atLower⟩, ⟨upper, atUpper⟩⟩ := endpoints _ List.mem_cons_self
    rw [valueAt_cons, valueAt_cons,
      ih (List.forall_mem_cons.mp endpoints).2]
    have same : entry.toSegment.Contains point ↔
        entry.toSegment.Contains (point / 4096 * 4096) := by
      constructor <;> rintro ⟨above, below⟩ <;> constructor <;> omega
    rw [if_congr same rfl rfl]

theorem toSegment_injective : Function.Injective RangeEntry.toSegment := by
  rintro ⟨firstBegin, firstEnd, firstTag⟩ ⟨secondBegin, secondEnd, secondTag⟩ same
  obtain ⟨lower, upper, value⟩ := Segment.mk.inj same
  obtain rfl := BitVec.eq_of_toNat_eq lower
  obtain rfl := BitVec.eq_of_toNat_eq (Nat.succ.inj upper)
  rw [show firstTag = secondTag from value]

theorem WellFormed.eq_of_pageTag {first second : List RangeEntry} (one : WellFormed first)
    (other : WellFormed second) (same : ∀ page, pageTag first page = pageTag second page) :
    first = second := by
  obtain ⟨firstOrdered, firstCanonical, -⟩ := (wellFormed_iff _).mp one
  obtain ⟨secondOrdered, secondCanonical, -⟩ := (wellFormed_iff _).mp other
  have map : valueAt (segments first) = valueAt (segments second) := by
    funext point
    rw [one.valueAt_eq, other.valueAt_eq, same]
  exact toSegment_injective.list_map (Canonical.eq_of_valueAt firstOrdered
    firstCanonical secondOrdered secondCanonical map)

theorem Represents.entries_eq {first second : Memranges} {pages : PageMap}
    (one : Represents first pages) (other : Represents second pages) :
    first.entries = second.entries :=
  one.wellFormed.eq_of_pageTag other.wellFormed fun page =>
    (one.pageTag_eq page).trans (other.pageTag_eq page).symm

variable {operations : List Operation}

theorem Represents.run {ranges : Memranges} {pages : PageMap} (represents : Represents ranges pages)
    (fitting : Fitting operations) :
    Represents (operations.foldl Operation.perform ranges)
      (operations.foldl Operation.apply pages) :=
  List.foldl_rel represents fun operation member _ _ before =>
    perform_represents before (fitting operation member)

theorem apply_insert_comm (first second : Address × Address) (tag : Tag) (pages : PageMap) :
    (Operation.insert second.1 second.2 tag).apply
        ((Operation.insert first.1 first.2 tag).apply pages) =
      (Operation.insert first.1 first.2 tag).apply
        ((Operation.insert second.1 second.2 tag).apply pages) := by
  funext page
  simp only [Operation.apply]
  split_ifs <;> rfl

theorem apply_insertions_perm {tag : Tag}
    {first second : List (Address × Address)} (perm : first.Perm second) (pages : PageMap) :
    (insertions tag first).foldl Operation.apply pages =
      (insertions tag second).foldl Operation.apply pages := by
  refine (perm.map _).foldl_eq' (fun one member other member' pages => ?_) pages
  obtain ⟨one, -, rfl⟩ := List.mem_map.mp member
  obtain ⟨other, -, rfl⟩ := List.mem_map.mp member'
  exact apply_insert_comm one other tag pages

theorem Fitting.perm {tag : Tag} {first second : List (Address × Address)}
    (fitting : Fitting (insertions tag first)) (perm : first.Perm second) :
    Fitting (insertions tag second) :=
  fun operation member =>
    fitting operation ((perm.map _).mem_iff.mpr member)

theorem represents_of_fitting (numFree : Nat) (fitting : Fitting operations) :
    Represents (operations.foldl Operation.perform (memrangesInitEmpty numFree))
      (mapAfter operations) :=
  (represents_empty numFree).run fitting

/-- Insertions of the same ranges with one tag, and sequences of calls with the
same effect, leave identical entries. -/
theorem entriesAfter_independent (numFree numFree' : Nat) :
    (∀ (tag : Tag) (ranges ranges' : List (Address × Address)),
      Fitting (insertions tag ranges) → ranges.Perm ranges' →
        entriesAfter numFree (insertions tag ranges) =
          entriesAfter numFree' (insertions tag ranges')) ∧
      ∀ first second : List Operation, Fitting first → Fitting second →
        mapAfter first = mapAfter second →
          entriesAfter numFree first = entriesAfter numFree' second := by
  have general (first second : List Operation) (firstFits : Fitting first)
      (secondFits : Fitting second) (same : mapAfter first = mapAfter second) :
      entriesAfter numFree first = entriesAfter numFree' second :=
    (represents_of_fitting numFree firstFits).entries_eq
      (same ▸ represents_of_fitting numFree' secondFits)
  refine ⟨fun tag ranges ranges' fitting perm => ?_, general⟩
  exact general _ _ fitting (fitting.perm perm) (apply_insertions_perm perm _)

/-- Three touching or overlapping ranges in two orders. -/
theorem entriesAfter_independent_threeRanges :
    entriesAfter 0 (insertions 6 [(0x1000, 0x1000), (0x3000, 0x1000), (0x1800, 0x2000)]) =
      entriesAfter 4 (insertions 6 [(0x1800, 0x2000), (0x3000, 0x1000), (0x1000, 0x1000)]) :=
  (entriesAfter_independent 0 4).1 6 _ _ (by
    intro operation member
    simp only [insertions, List.map_cons, List.map_nil, List.mem_cons,
      List.not_mem_nil, or_false] at member
    rcases member with rfl | rfl | rfl <;> simp [Operation.Fits]) (by decide)

/-- A range that wraps around is stored with its end below its begin, and what
it is merged with depends on the order. -/
theorem not_independent_wrapped :
    ¬ ∀ (tag : Tag) (ranges ranges' : List (Address × Address)),
      ranges.Perm ranges' →
        entriesAfter 0 (insertions tag ranges) = entriesAfter 0 (insertions tag ranges') := by
  intro claim
  have same := claim 6 [(0xfffffffffffff000, 0x2000), (0x1000, 0x2000)]
    [(0x1000, 0x2000), (0xfffffffffffff000, 0x2000)] (by decide)
  exact absurd same (by decide)

section Devices

variable {typeMask type : BitVec 64} {first second : List ResourceDevice}
  {ranges : Memranges} {pages : PageMap}

theorem searchGlobalResources_perm (perm : first.Perm second) :
    (searchGlobalResources typeMask type first).Perm (searchGlobalResources typeMask type second) :=
  (perm.filter _).flatMap_right _

/-- The resources that `collect_ranges` inserts. -/
def collected (filter : Option (ResourceDevice → MemResource → Bool))
    (found : List (ResourceDevice × MemResource)) : List (Address × Address) :=
  (found.filter fun found =>
    (filter.map fun accepts => accepts found.1 found.2).getD true).map
      fun found => (found.2.base, found.2.size)

theorem collected_cons (filter : Option (ResourceDevice → MemResource → Bool))
    (head : ResourceDevice × MemResource) (rest : List (ResourceDevice × MemResource)) :
    collected filter (head :: rest) =
      if (filter.map fun accepts => accepts head.1 head.2).getD true then
        (head.2.base, head.2.size) :: collected filter rest
      else collected filter rest := by
  rw [collected, List.filter_cons]
  split_ifs <;> rfl

theorem foldl_collectRanges (tag : Tag) (filter : Option (ResourceDevice → MemResource → Bool))
    (found : List (ResourceDevice × MemResource)) (ranges : Memranges) :
    found.foldl (collectRanges true tag filter) ranges =
      (insertions tag (collected filter found)).foldl Operation.perform ranges := by
  induction found generalizing ranges with
  | nil => rfl
  | cons head rest ih =>
    rw [List.foldl_cons, ih, collectRanges, collected_cons]
    by_cases accepted : (filter.map fun accepts => accepts head.1 head.2).getD true = true
    · rw [if_pos accepted, if_pos accepted]
      by_cases empty : head.2.size = 0
      · have kept : memrangesInsert true ranges head.2.base head.2.size tag = ranges := by
          rw [memrangesInsert, doAction, if_pos empty]
        rw [if_pos empty]
        exact congrArg (List.foldl _ · _) kept.symm
      · rw [if_neg empty]
        rfl
    · rw [if_neg accepted, if_neg accepted, ite_self]

end Devices

def ramAt (base : Address) : ResourceDevice := ⟨true, [⟨base, 0x1000, ioresourceMem⟩]⟩

end Coreboot.Memrange
