import Coreboot.MemrangeBounded
import Mathlib.Data.List.Nodup
import Mathlib.Logic.Function.Basic

/-!
# The nodes of a bounded pool

Before ramstage the entries of a `memranges` are the nodes that it was given. They form two
chains, along which every call does what it does to the lists of entries.
-/

namespace Coreboot.Memrange

namespace Pool

open Function

/-- Where a pointer to a node is stored: the two heads, and the `next` field of
each node. -/
inductive Link where
  | entries
  | freeList
  | next (node : Nat)
deriving DecidableEq, Repr

/-- The pointers and the contents of the nodes. -/
structure State where
  link : Link → Option Nat
  node : Nat → RangeEntry

def State.setLink (s : State) (link : Link) (target : Option Nat) : State :=
  { s with link := update s.link link target }

def State.setNode (s : State) (node : Nat) (entry : RangeEntry) : State :=
  { s with node := update s.node node entry }

def rangeEntryLink (s : State) (prevPtr : Link) (r : Nat) : State :=
  (s.setLink (.next r) (s.link prevPtr)).setLink prevPtr (some r)

def rangeEntryUnlink (s : State) (prevPtr : Link) (r : Nat) : State :=
  (s.setLink prevPtr (s.link (.next r))).setLink (.next r) none

def rangeEntryUnlinkAndFree (s : State) (prevPtr : Link) (r : Nat) : State :=
  rangeEntryLink (rangeEntryUnlink s prevPtr r) .freeList r

/-- Outside of ramstage there is no node but those of the free list. -/
def allocRange (s : State) : Option (Nat × State) :=
  match s.link .freeList with
  | some r => some (r, rangeEntryUnlink s .freeList r)
  | none => none

/-- Every caller ignores whether an entry was added. -/
def rangeListAdd (s : State) (prevPtr : Link) (rangeBegin rangeEnd : Address) (tag : Tag) : State :=
  match allocRange s with
  | none => s
  | some (newEntry, s) =>
    rangeEntryLink (s.setNode newEntry ⟨rangeBegin, rangeEnd, tag⟩) prevPtr newEntry

/-- The loop of `merge_neighbor_entries` behind its first entry.  The last
argument bounds the passes. -/
def mergeNeighborEntriesFrom (s : State) (prev : Nat) : Nat → Option State
  | 0 => none
  | passes + 1 =>
    match s.link (.next prev) with
    | none => some s
    | some cur =>
      if (s.node prev).rangeEnd + 1 ≥ (s.node cur).rangeBegin ∧
          (s.node prev).tag = (s.node cur).tag then
        let s := s.setNode prev { s.node prev with rangeEnd := (s.node cur).rangeEnd }
        mergeNeighborEntriesFrom (rangeEntryUnlinkAndFree s (.next prev) cur) prev passes
      else mergeNeighborEntriesFrom s cur passes

def mergeNeighborEntries (s : State) (passes : Nat) : Option State :=
  match s.link .entries with
  | none => some s
  | some first => mergeNeighborEntriesFrom s first passes

def removeMemrangesFrom (s : State) (prevPtr : Link) (cur : Option Nat)
    (rangeBegin rangeEnd : Address) : Nat → Option State
  | 0 => none
  | passes + 1 =>
    match cur with
    | none => some s
    | some cur =>
      -- Cache the next value to handle unlinks.
      let next := s.link (.next cur)
      let entry := s.node cur
      -- No other ranges are affected.
      if rangeEnd < entry.rangeBegin then some s
      -- The removal range starts after this one.
      else if rangeBegin > entry.rangeEnd then
        removeMemrangesFrom s (.next cur) next rangeBegin rangeEnd passes
      -- Full removal.
      else if rangeBegin ≤ entry.rangeBegin ∧ rangeEnd ≥ entry.rangeEnd then
        removeMemrangesFrom (rangeEntryUnlinkAndFree s prevPtr cur) prevPtr
          next (entry.rangeEnd + 1) rangeEnd passes
      else
        let rangeBegin :=
          if rangeBegin ≤ entry.rangeBegin then entry.rangeBegin
          else rangeBegin
        let tmpEnd := if rangeEnd > entry.rangeEnd then entry.rangeEnd else rangeEnd
        -- Hole punched in middle of entry.
        if rangeBegin > entry.rangeBegin ∧ tmpEnd < entry.rangeEnd then
          let s := rangeListAdd s (.next cur) (rangeEnd + 1) entry.rangeEnd entry.tag
          some (s.setNode cur { s.node cur with rangeEnd := rangeBegin - 1 })
        else
          let entry :=
            -- Removal at beginning.
            if rangeBegin = entry.rangeBegin then
              { entry with rangeBegin := tmpEnd + 1 }
            else entry
          let entry :=
            -- Removal at end.
            if tmpEnd = entry.rangeEnd then
              { entry with rangeEnd := rangeBegin - 1 }
            else entry
          removeMemrangesFrom (s.setNode cur entry) (.next cur) next rangeBegin rangeEnd passes

def removeMemranges (s : State) (rangeBegin rangeEnd : Address) (passes : Nat) : Option State :=
  removeMemrangesFrom s .entries (s.link .entries) rangeBegin rangeEnd passes

/-- The pointer in front of the first entry that begins behind the range. -/
def insertionSpot (s : State) (prevPtr : Link) (rangeEnd : Address) : Nat → Option Link
  | 0 => none
  | passes + 1 =>
    match s.link prevPtr with
    | none => some prevPtr
    | some cur =>
      if rangeEnd < (s.node cur).rangeBegin then some prevPtr
      else insertionSpot s (.next cur) rangeEnd passes

def mergeAddMemranges (s : State) (rangeBegin rangeEnd : Address) (tag : Tag)
    (passes : Nat) : Option State := do
  let s ← removeMemranges s rangeBegin rangeEnd passes
  let prevPtr ← insertionSpot s .entries rangeEnd passes
  mergeNeighborEntries (rangeListAdd s prevPtr rangeBegin rangeEnd tag) passes

/-- The loop of `memranges_update_tag`. -/
def updateTagFrom (s : State) (cur : Option Nat) (oldTag newTag : Tag) : Nat → Option State
  | 0 => none
  | passes + 1 =>
    match cur with
    | none => some s
    | some r =>
      let s :=
        if (s.node r).tag = oldTag then
          s.setNode r { s.node r with tag := newTag }
        else s
      updateTagFrom s (s.link (.next r)) oldTag newTag passes

def memrangesUpdateTag (s : State) (oldTag newTag : Tag) (passes : Nat) : Option State := do
  let s ← updateTagFrom s (s.link .entries) oldTag newTag passes
  mergeNeighborEntries s passes

def doAction (s : State) (base size : Address)
    (action : Address → Address → Option State) : Option State :=
  if size = 0 then some s
  else
    let rangeBegin := WordAlignment.alignDown base 12
    let rangeEnd := rangeBegin + size + (base - rangeBegin)
    let rangeEnd := WordAlignment.alignUp rangeEnd 12 - 1
    action rangeBegin rangeEnd

def memrangesCreateHole (s : State) (base size : Address) (passes : Nat) : Option State :=
  doAction s base size fun rangeBegin rangeEnd =>
    removeMemranges s rangeBegin rangeEnd passes

def memrangesInsert (s : State) (base size : Address) (tag : Tag) (passes : Nat) : Option State :=
  doAction s base size fun rangeBegin rangeEnd =>
    mergeAddMemranges s rangeBegin rangeEnd tag passes

def memrangesInitEmpty (node : Nat → RangeEntry) (numFree : Nat) : State :=
  (List.range numFree).foldl (fun s i => rangeEntryLink s .freeList i) ⟨fun _ => none, node⟩

@[simp]
theorem setLink_link (s : State) (link other : Link) (target : Option Nat) :
    (s.setLink link target).link other = if other = link then target else s.link other :=
  update_apply s.link link target other

@[simp]
theorem setLink_node (s : State) (link : Link) (target : Option Nat) :
    (s.setLink link target).node = s.node :=
  rfl

@[simp]
theorem setNode_link (s : State) (node : Nat) (entry : RangeEntry) :
    (s.setNode node entry).link = s.link :=
  rfl

@[simp]
theorem setNode_node (s : State) (node other : Nat) (entry : RangeEntry) :
    (s.setNode node entry).node other = if other = node then entry else s.node other :=
  update_apply s.node node entry other

/-- The nodes that follow a pointer, up to a null pointer. -/
def Chain (s : State) : Link → List Nat → Prop
  | link, [] => s.link link = none
  | link, node :: rest => s.link link = some node ∧ Chain s (.next node) rest

theorem Chain.congr {s s' : State} {link link' : Link} {nodes : List Nat}
    (chain : Chain s link nodes) (head : s'.link link' = s.link link)
    (same : ∀ node ∈ nodes, s'.link (.next node) = s.link (.next node)) : Chain s' link' nodes := by
  induction nodes generalizing link link' with
  | nil => exact head.trans chain
  | cons node rest ih =>
    obtain ⟨here, later⟩ := chain
    exact ⟨head.trans here, ih later (same node (.head _))
      (List.forall_mem_cons.mp same).2⟩

/-- The chain behind a pointer and the free list share no node, and the pointer
is in neither of them. -/
structure Owned (s : State) (prevPtr : Link) (rest free : List Nat) : Prop where
  chain : Chain s prevPtr rest
  freeChain : Chain s .freeList free
  nodup : (rest ++ free).Nodup
  prevPtr_ne : prevPtr ≠ .freeList
  outside : ∀ node ∈ rest ++ free, prevPtr ≠ .next node

/-- What a function leaves behind a pointer: the same nodes, and nothing else has
changed. -/
structure Kept (s s' : State) (prevPtr : Link) (rest free rest' free' : List Nat) :
    Prop where
  chain : Chain s' prevPtr rest'
  freeChain : Chain s' .freeList free'
  perm : (rest' ++ free').Perm (rest ++ free)
  links : ∀ link, link ≠ prevPtr → link ≠ .freeList →
    (∀ node ∈ rest ++ free, link ≠ .next node) → s'.link link = s.link link
  nodes : ∀ node ∉ rest ++ free, s'.node node = s.node node

section Chains

variable {s s' t : State} {prevPtr : Link} {cur : Nat} {rest free rest' free' : List Nat}

theorem Owned.refl (owned : Owned s prevPtr rest free) : Kept s s prevPtr rest free rest free :=
  ⟨owned.chain, owned.freeChain, List.Perm.refl _, fun _ _ _ _ => rfl, fun _ _ => rfl⟩

theorem Kept.owned (kept : Kept s s' prevPtr rest free rest' free')
    (owned : Owned s prevPtr rest free) : Owned s' prevPtr rest' free' :=
  ⟨kept.chain, kept.freeChain, kept.perm.nodup_iff.mpr owned.nodup,
    owned.prevPtr_ne, fun node member =>
      owned.outside node (kept.perm.mem_iff.mp member)⟩

theorem Kept.trans {rest'' free'' : List Nat} (first : Kept s s' prevPtr rest free rest' free')
    (second : Kept s' t prevPtr rest' free' rest'' free'') :
    Kept s t prevPtr rest free rest'' free'' := by
  refine ⟨second.chain, second.freeChain, second.perm.trans first.perm,
    fun link head list apart => ?_, fun node other => ?_⟩
  · rw [second.links link head list fun node member =>
      apart node (first.perm.mem_iff.mp member)]
    exact first.links link head list apart
  · rw [second.nodes node fun member => other (first.perm.mem_iff.mp member)]
    exact first.nodes node other

theorem Owned.setNode (owned : Owned s prevPtr rest free) {node : Nat}
    (member : node ∈ rest ++ free) (entry : RangeEntry) :
    Kept s (s.setNode node entry) prevPtr rest free rest free := by
  refine ⟨owned.chain.congr rfl fun _ _ => rfl, owned.freeChain.congr rfl fun _ _ => rfl,
    List.Perm.refl _, fun _ _ _ _ => rfl, fun other outside => ?_⟩
  rw [setNode_node, if_neg]
  rintro rfl
  exact outside member

section

variable (owned : Owned s prevPtr (cur :: rest) free)
include owned

theorem Owned.tail :
    Owned s (.next cur) rest free := by
  obtain ⟨here, nodup⟩ := List.nodup_cons.mp owned.nodup
  refine ⟨owned.chain.2, owned.freeChain, nodup, Link.noConfusion, fun node member same => ?_⟩
  obtain rfl := Link.next.inj same
  exact here member

theorem Owned.cons (kept : Kept s s' (.next cur) rest free rest' free') :
    Kept s s' prevPtr (cur :: rest) free (cur :: rest') free' := by
  refine ⟨⟨?_, kept.chain⟩, kept.freeChain, kept.perm.cons cur,
    fun link head list apart => ?_, fun node outside => ?_⟩
  · rw [kept.links prevPtr (owned.outside cur (.head _))
      owned.prevPtr_ne (List.forall_mem_cons.mp owned.outside).2]
    exact owned.chain.1
  · exact kept.links link (apart cur (.head _)) list (List.forall_mem_cons.mp apart).2
  · exact kept.nodes node fun member =>
      outside (.tail _ member)

theorem Owned.unlinkAndFree :
    Kept s (rangeEntryUnlinkAndFree s prevPtr cur) prevPtr (cur :: rest) free
      rest (cur :: free) := by
  obtain ⟨here, nodup⟩ := List.nodup_cons.mp owned.nodup
  have notSelf := owned.outside cur (.head _)
  have notFree := owned.prevPtr_ne
  have other (node : Nat) (member : node ∈ rest ++ free) : node ≠ cur := by
    rintro rfl
    exact here member
  have apart (node : Nat) (member : node ∈ rest ++ free) : Link.next node ≠ prevPtr :=
    (owned.outside node (.tail _ member)).symm
  have links (link : Link) (head : link ≠ prevPtr) (list : link ≠ .freeList)
      (next : link ≠ .next cur) :
      (rangeEntryUnlinkAndFree s prevPtr cur).link link = s.link link := by
    simp [rangeEntryUnlinkAndFree, rangeEntryLink, rangeEntryUnlink, head, list, next]
  have next (node : Nat) (member : node ∈ rest ++ free) :
      (rangeEntryUnlinkAndFree s prevPtr cur).link (.next node) = s.link (.next node) :=
    links _ (apart node member) Link.noConfusion fun same =>
      other node member (Link.next.inj same)
  refine ⟨?_, ⟨?_, ?_⟩, List.perm_middle, fun link head list away => ?_, fun _ _ => rfl⟩
  · refine owned.chain.2.congr ?_ fun node member =>
      next node (List.mem_append_left _ member)
    simp [rangeEntryUnlinkAndFree, rangeEntryLink, rangeEntryUnlink, notFree, notSelf]
  · simp [rangeEntryUnlinkAndFree, rangeEntryLink]
  · refine owned.freeChain.congr ?_ fun node member =>
      next node (List.mem_append_right _ member)
    simp [rangeEntryUnlinkAndFree, rangeEntryLink, rangeEntryUnlink, notFree.symm]
  · exact links link head list (away cur (.head _))

end

theorem Owned.rangeListAdd_nil (owned : Owned s prevPtr rest []) (rangeBegin rangeEnd : Address)
    (tag : Tag) : rangeListAdd s prevPtr rangeBegin rangeEnd tag = s := by
  have empty : s.link .freeList = none := owned.freeChain
  rw [rangeListAdd, allocRange, empty]

theorem Owned.rangeListAdd {new : Nat} (owned : Owned s prevPtr rest (new :: free))
    (rangeBegin rangeEnd : Address) (tag : Tag) :
    Kept s (rangeListAdd s prevPtr rangeBegin rangeEnd tag) prevPtr rest
        (new :: free) (new :: rest) free ∧
      ∀ node, (rangeListAdd s prevPtr rangeBegin rangeEnd tag).node node =
        if node = new then ⟨rangeBegin, rangeEnd, tag⟩ else s.node node := by
  obtain ⟨first, freeChain⟩ := owned.freeChain
  have moved := List.nodup_middle.mp owned.nodup
  obtain ⟨fresh, -⟩ := List.nodup_cons.mp moved
  have notFree := owned.prevPtr_ne
  have notNew := owned.outside new (by simp)
  have apart (node : Nat) (member : node ∈ rest ++ free) : Link.next node ≠ prevPtr :=
    (owned.outside node (List.perm_middle.mem_iff.mpr (.tail _ member))).symm
  have added : Pool.rangeListAdd s prevPtr rangeBegin rangeEnd tag =
      rangeEntryLink ((rangeEntryUnlink s .freeList new).setNode new
        ⟨rangeBegin, rangeEnd, tag⟩) prevPtr new := by
    rw [Pool.rangeListAdd, allocRange, first]
  rw [added]
  have links (link : Link) (head : link ≠ prevPtr) (list : link ≠ .freeList)
      (next : link ≠ .next new) :
      (rangeEntryLink ((rangeEntryUnlink s .freeList new).setNode new
        ⟨rangeBegin, rangeEnd, tag⟩) prevPtr new).link link = s.link link := by
    simp [rangeEntryLink, rangeEntryUnlink, head, list, next]
  have next (node : Nat) (member : node ∈ rest ++ free) :
      (rangeEntryLink ((rangeEntryUnlink s .freeList new).setNode new
        ⟨rangeBegin, rangeEnd, tag⟩) prevPtr new).link (.next node) = s.link (.next node) :=
    links _ (apart node member) Link.noConfusion fun same =>
      fresh (Link.next.inj same ▸ member)
  refine ⟨⟨⟨?_, ?_⟩, ?_, List.perm_middle.symm, fun link head list away => ?_,
    fun node outside => ?_⟩, fun node => ?_⟩
  · simp [rangeEntryLink]
  · refine owned.chain.congr ?_ fun node member =>
      next node (List.mem_append_left _ member)
    simp [rangeEntryLink, rangeEntryUnlink, notFree, notNew, notNew.symm]
  · refine freeChain.congr ?_ fun node member =>
      next node (List.mem_append_right _ member)
    simp [rangeEntryLink, rangeEntryUnlink, notFree.symm]
  · exact links link head list (away new (by simp))
  · have other : node ≠ new := by
      rintro rfl
      exact outside (by simp)
    simp [rangeEntryLink, rangeEntryUnlink, other]
  · simp [rangeEntryLink, rangeEntryUnlink]

end Chains

/-- What a function leaves behind a pointer, as the list of entries and the
number of free nodes. -/
def Leaves (s s' : State) (prevPtr : Link) (rest free : List Nat)
    (result : List RangeEntry × Nat) : Prop :=
  ∃ rest' free', Kept s s' prevPtr rest free rest' free' ∧
    rest'.map s'.node = result.1 ∧ free'.length = result.2

section Loops

variable {s s' t : State} {prevPtr : Link} {cur : Nat}
  {rest free rest' free' : List Nat} {result : List RangeEntry × Nat}
  {rangeBegin rangeEnd : Address} {tag : Tag}

theorem Chain.link_eq {link : Link} {nodes : List Nat}
    (chain : Chain s link nodes) : s.link link = nodes.head? := by
  cases nodes with
  | nil => exact chain
  | cons node rest => exact chain.1

theorem Owned.leaves (owned : Owned s prevPtr rest free) :
    Leaves s s prevPtr rest free (rest.map s.node, free.length) :=
  ⟨rest, free, owned.refl, rfl, rfl⟩

theorem Kept.leaves (kept : Kept s s' prevPtr rest free rest' free')
    (leaves : Leaves s' t prevPtr rest' free' result) : Leaves s t prevPtr rest free result := by
  obtain ⟨last, lastFree, lastKept, entries, length⟩ := leaves
  exact ⟨last, lastFree, kept.trans lastKept, entries, length⟩

section

variable (owned : Owned s prevPtr (cur :: rest) free)
include owned

theorem Owned.cur_not_mem : cur ∉ rest ++ free :=
  (List.nodup_cons.mp owned.nodup).1

theorem Owned.leaves_cons (leaves : Leaves s s' (.next cur) rest free result) :
    Leaves s s' prevPtr (cur :: rest) free (s.node cur :: result.1, result.2) := by
  obtain ⟨rest', free', kept, entries, length⟩ := leaves
  refine ⟨cur :: rest', free', owned.cons kept, ?_, length⟩
  rw [List.map_cons, entries, kept.nodes cur owned.cur_not_mem]

omit owned in
theorem map_setNode {nodes : List Nat} {node : Nat} (other : node ∉ nodes) (entry : RangeEntry) :
    nodes.map (s.setNode node entry).node = nodes.map s.node := by
  refine List.map_congr_left fun index member => ?_
  rw [setNode_node, if_neg]
  rintro rfl
  exact other member

theorem Owned.leaves_setNode (leaves : Leaves s s' (.next cur) rest free result)
    (entry : RangeEntry) :
    Leaves s (s'.setNode cur entry) prevPtr (cur :: rest) free (entry :: result.1, result.2) := by
  obtain ⟨rest', free', kept, entries, length⟩ := leaves
  have whole := owned.cons kept
  have stored := (whole.owned owned).setNode (.head _) entry
  refine ⟨cur :: rest', free', whole.trans stored, ?_, length⟩
  have other : cur ∉ rest' := fun member =>
    (whole.owned owned).cur_not_mem (List.mem_append_left _ member)
  rw [List.map_cons, map_setNode other, entries, setNode_node, if_pos rfl]

end

theorem Owned.leaves_rangeListAdd (owned : Owned s prevPtr rest free)
    (rangeBegin rangeEnd : Address) (tag : Tag) :
    Leaves s (Pool.rangeListAdd s prevPtr rangeBegin rangeEnd tag) prevPtr rest
      free (Memrange.rangeListAdd false free.length rangeBegin rangeEnd tag (rest.map s.node)) := by
  cases free with
  | nil =>
    rw [owned.rangeListAdd_nil]
    exact owned.leaves
  | cons new free =>
    obtain ⟨kept, nodes⟩ := owned.rangeListAdd rangeBegin rangeEnd tag
    refine ⟨new :: rest, free, kept, ?_, rfl⟩
    rw [List.map_cons, nodes, if_pos rfl]
    refine congrArg₂ _ rfl (List.map_congr_left fun node member => ?_)
    rw [nodes, if_neg]
    rintro rfl
    exact (List.nodup_cons.mp (List.nodup_middle.mp owned.nodup)).1 (List.mem_append_left _ member)

variable {passes : Nat}

theorem Owned.mergeNeighborEntriesFrom {prev : Nat} (owned : Owned s prevPtr (prev :: rest) free)
    (enough : rest.length < passes) :
    ∃ s', Pool.mergeNeighborEntriesFrom s prev passes = some s' ∧
      Leaves s s' prevPtr (prev :: rest) free
        (Memrange.mergeNeighborEntriesFrom (s.node prev) free.length (rest.map s.node)) := by
  induction rest generalizing s prev prevPtr free passes with
  | nil =>
    rcases passes with _ | passes
    · omega
    have last : s.link (.next prev) = none := owned.chain.2
    refine ⟨s, ?_, owned.leaves⟩
    rw [Pool.mergeNeighborEntriesFrom, last]
  | cons cur rest ih =>
    rcases passes with _ | passes
    · omega
    have next : s.link (.next prev) = some cur := owned.chain.2.1
    have enough : rest.length < passes := by
      rw [List.length_cons] at enough
      omega
    rw [Pool.mergeNeighborEntriesFrom, next, List.map_cons, Memrange.mergeNeighborEntriesFrom]
    dsimp only
    split_ifs with merges
    · -- The node is freed, and the one before it takes its range.
      have stored := owned.setNode (show prev ∈ _ from (.head _))
        { s.node prev with rangeEnd := (s.node cur).rangeEnd }
      have ownedStored := stored.owned owned
      have freed := ownedStored.cons ownedStored.tail.unlinkAndFree
      have ownedFreed := freed.owned ownedStored
      obtain ⟨s', same, leaves⟩ := ih ownedFreed enough
      refine ⟨s', same, stored.leaves (freed.leaves ?_)⟩
      have other : prev ∉ rest := fun member =>
        owned.cur_not_mem (by simp [member])
      have entries : rest.map (rangeEntryUnlinkAndFree (s.setNode prev
          { s.node prev with rangeEnd := (s.node cur).rangeEnd })
            (.next prev) cur).node = rest.map s.node :=
        map_setNode other _
      have first : (rangeEntryUnlinkAndFree (s.setNode prev
          { s.node prev with rangeEnd := (s.node cur).rangeEnd })
            (.next prev) cur).node prev =
            { s.node prev with rangeEnd := (s.node cur).rangeEnd } :=
        (setNode_node _ _ _ _).trans (if_pos rfl)
      rw [entries, first] at leaves
      exact leaves
    · obtain ⟨s', same, leaves⟩ := ih owned.tail enough
      exact ⟨s', same, owned.leaves_cons leaves⟩

theorem Owned.removeMemrangesFrom {passes : Nat} (owned : Owned s prevPtr rest free)
    (enough : rest.length < passes) :
    ∃ s', Pool.removeMemrangesFrom s prevPtr rest.head? rangeBegin rangeEnd passes = some s' ∧
      Leaves s s' prevPtr rest free (Memrange.removeMemrangesFrom false
        rangeBegin rangeEnd free.length (rest.map s.node)) := by
  induction rest generalizing s prevPtr free rangeBegin passes with
  | nil =>
    rcases passes with _ | passes
    · omega
    exact ⟨s, rfl, owned.leaves⟩
  | cons cur rest ih =>
    rcases passes with _ | passes
    · omega
    have next : s.link (.next cur) = rest.head? := owned.chain.2.link_eq
    have other : cur ∉ rest := fun member =>
      owned.cur_not_mem (List.mem_append_left _ member)
    have enough : rest.length < passes := by
      rw [List.length_cons] at enough
      omega
    rw [List.head?_cons, Pool.removeMemrangesFrom, next, List.map_cons,
      Memrange.removeMemrangesFrom]
    dsimp only
    by_cases before : rangeEnd < (s.node cur).rangeBegin
    · rw [if_pos before, if_pos before]
      exact ⟨s, rfl, owned.leaves⟩
    rw [if_neg before, if_neg before]
    by_cases after : rangeBegin > (s.node cur).rangeEnd
    · rw [if_pos after, if_pos after]
      obtain ⟨s', same, leaves⟩ := ih owned.tail enough
      exact ⟨s', same, owned.leaves_cons leaves⟩
    rw [if_neg after, if_neg after]
    by_cases full : rangeBegin ≤ (s.node cur).rangeBegin ∧ rangeEnd ≥ (s.node cur).rangeEnd
    · rw [if_pos full, if_pos full]
      have freed := owned.unlinkAndFree
      obtain ⟨s', same, leaves⟩ := ih (freed.owned owned) enough
      exact ⟨s', same, freed.leaves leaves⟩
    rw [if_neg full, if_neg full]
    generalize (if rangeBegin ≤ (s.node cur).rangeBegin then
      (s.node cur).rangeBegin else rangeBegin) = first
    generalize (if rangeEnd > (s.node cur).rangeEnd then
      (s.node cur).rangeEnd else rangeEnd) = tmpEnd
    by_cases middle : first > (s.node cur).rangeBegin ∧ tmpEnd < (s.node cur).rangeEnd
    · rw [if_pos middle, if_pos middle]
      have added := owned.tail.leaves_rangeListAdd (rangeEnd + 1)
        (s.node cur).rangeEnd (s.node cur).tag
      have same : (Pool.rangeListAdd s (.next cur) (rangeEnd + 1)
          (s.node cur).rangeEnd (s.node cur).tag).node cur = s.node cur := by
        obtain ⟨_, _, kept, -⟩ := added
        exact kept.nodes cur owned.cur_not_mem
      refine ⟨_, rfl, ?_⟩
      rw [same]
      exact owned.leaves_setNode added _
    · rw [if_neg middle, if_neg middle]
      generalize (if tmpEnd = _ then _ else _ : RangeEntry) = entry
      have stored := owned.setNode (.head _) entry
      have ownedStored := stored.owned owned
      obtain ⟨s', same, leaves⟩ := ih ownedStored.tail enough
      rw [map_setNode other] at leaves
      have whole := stored.leaves (ownedStored.leaves_cons leaves)
      rw [setNode_node, if_pos rfl] at whole
      exact ⟨s', same, whole⟩

theorem Owned.insertionSpot (owned : Owned s prevPtr rest free)
    (enough : rest.length < passes) (rangeBegin rangeEnd : Address) (tag : Tag) :
    ∃ spot, insertionSpot s prevPtr rangeEnd passes = some spot ∧
      Leaves s (Pool.rangeListAdd s spot rangeBegin rangeEnd tag) prevPtr rest
        free (addBefore false rangeBegin rangeEnd tag free.length (rest.map s.node)) := by
  induction rest generalizing prevPtr passes with
  | nil =>
    rcases passes with _ | passes
    · omega
    have last : s.link prevPtr = none := owned.chain
    refine ⟨prevPtr, ?_, owned.leaves_rangeListAdd rangeBegin rangeEnd tag⟩
    rw [Pool.insertionSpot, last]
  | cons cur rest ih =>
    rcases passes with _ | passes
    · omega
    have here : s.link prevPtr = some cur := owned.chain.1
    have enough : rest.length < passes := by
      rw [List.length_cons] at enough
      omega
    rw [Pool.insertionSpot, here, List.map_cons, addBefore]
    dsimp only
    split_ifs with before
    · exact ⟨prevPtr, rfl, owned.leaves_rangeListAdd rangeBegin rangeEnd tag⟩
    · obtain ⟨spot, same, leaves⟩ := ih owned.tail enough
      exact ⟨spot, same, owned.leaves_cons leaves⟩

theorem Owned.updateTagFrom (owned : Owned s prevPtr rest free)
    (enough : rest.length < passes) (oldTag newTag : Tag) :
    ∃ s', updateTagFrom s rest.head? oldTag newTag passes = some s' ∧
      Leaves s s' prevPtr rest free ((rest.map s.node).map fun entry =>
        if entry.tag = oldTag then { entry with tag := newTag } else entry, free.length) := by
  induction rest generalizing s prevPtr passes with
  | nil =>
    rcases passes with _ | passes
    · omega
    exact ⟨s, rfl, owned.leaves⟩
  | cons cur rest ih =>
    rcases passes with _ | passes
    · omega
    have enough : rest.length < passes := by
      rw [List.length_cons] at enough
      omega
    have other : cur ∉ rest := fun member =>
      owned.cur_not_mem (List.mem_append_left _ member)
    obtain ⟨entry, renamed⟩ : ∃ entry, entry =
        if (s.node cur).tag = oldTag then
          { s.node cur with tag := newTag } else s.node cur := ⟨_, rfl⟩
    have next : (s.setNode cur entry).link (.next cur) = rest.head? := owned.chain.2.link_eq
    have stored := owned.setNode (.head _) entry
    have ownedStored := stored.owned owned
    obtain ⟨s', same, leaves⟩ := ih ownedStored.tail enough
    rw [map_setNode other] at leaves
    have whole := stored.leaves (ownedStored.leaves_cons leaves)
    rw [setNode_node, if_pos rfl] at whole
    have step : (if (s.node cur).tag = oldTag then
        s.setNode cur { s.node cur with tag := newTag } else s) = s.setNode cur entry := by
      rw [renamed]
      split_ifs
      · rfl
      · rw [State.setNode, update_eq_self]
    refine ⟨s', ?_, ?_⟩
    · rw [List.head?_cons, Pool.updateTagFrom]
      rw [step, next]
      exact same
    · rw [List.map_cons, List.map_cons, ← renamed]
      exact whole

end Loops

/-- Both lists of a state, with the entries and the number of free nodes. -/
structure Holds (s : State) (numFree : Nat) (ranges : Memranges)
    (nodes free : List Nat) : Prop where
  owned : Owned s .entries nodes free
  perm : (nodes ++ free).Perm (List.range numFree)
  entries : nodes.map s.node = ranges.entries
  length : free.length = ranges.freeList

def Represents (s : State) (numFree : Nat) (ranges : Memranges) : Prop :=
  ∃ nodes free, Holds s numFree ranges nodes free

section Calls

variable {s s' : State} {numFree : Nat} {ranges : Memranges} {nodes free : List Nat}

theorem Holds.enough (holds : Holds s numFree ranges nodes free) : nodes.length < numFree + 1 := by
  have length := holds.perm.length_eq
  rw [List.length_append, List.length_range] at length
  omega

theorem Holds.represents (holds : Holds s numFree ranges nodes free)
    {result : List RangeEntry × Nat} (leaves : Leaves s s' .entries nodes free result) :
    Represents s' numFree ⟨result.1, result.2⟩ := by
  obtain ⟨nodes', free', kept, entries, length⟩ := leaves
  exact ⟨nodes', free', kept.owned holds.owned, kept.perm.trans holds.perm, entries, length⟩

section

variable (represents : Represents s numFree ranges)
include represents

theorem Represents.removeMemranges (rangeBegin rangeEnd : Address) :
    ∃ s', removeMemranges s rangeBegin rangeEnd (numFree + 1) = some s' ∧
      Represents s' numFree (Memrange.removeMemranges false ranges rangeBegin rangeEnd) := by
  obtain ⟨nodes, free, holds⟩ := represents
  obtain ⟨s', same, leaves⟩ := @Owned.removeMemrangesFrom _ _ _ _ rangeBegin
    rangeEnd _ holds.owned holds.enough
  rw [holds.entries, holds.length] at leaves
  refine ⟨s', ?_, holds.represents leaves⟩
  rw [Pool.removeMemranges, holds.owned.chain.link_eq]
  exact same

theorem Represents.mergeNeighborEntries :
    ∃ s', mergeNeighborEntries s (numFree + 1) = some s' ∧
      Represents s' numFree (Memrange.mergeNeighborEntries ranges) := by
  obtain ⟨nodes, free, holds⟩ := represents
  have enough := holds.enough
  have entries := holds.entries
  rw [Pool.mergeNeighborEntries, holds.owned.chain.link_eq,
    Memrange.mergeNeighborEntries, ← entries]
  cases nodes with
  | nil => exact ⟨s, rfl, [], free, holds⟩
  | cons first rest =>
    obtain ⟨s', same, leaves⟩ := holds.owned.mergeNeighborEntriesFrom (Nat.lt_of_succ_lt enough)
    rw [holds.length] at leaves
    exact ⟨s', same, holds.represents leaves⟩

theorem Represents.mergeAddMemranges (rangeBegin rangeEnd : Address) (tag : Tag) :
    ∃ s', mergeAddMemranges s rangeBegin rangeEnd tag (numFree + 1) = some s' ∧
      Represents s' numFree (Memrange.mergeAddMemranges false ranges rangeBegin rangeEnd tag) := by
  obtain ⟨removed, first, nodes, free, holds⟩ := represents.removeMemranges rangeBegin rangeEnd
  obtain ⟨spot, second, leaves⟩ := holds.owned.insertionSpot holds.enough rangeBegin rangeEnd tag
  rw [holds.entries, holds.length] at leaves
  obtain ⟨s', third, merged⟩ := (holds.represents leaves).mergeNeighborEntries
  refine ⟨s', ?_, merged⟩
  rw [Pool.mergeAddMemranges, first]
  simp only [Option.bind_eq_bind, Option.bind_some, second]
  exact third

theorem Represents.updateTag (oldTag newTag : Tag) :
    ∃ s', memrangesUpdateTag s oldTag newTag (numFree + 1) = some s' ∧
      Represents s' numFree (Memrange.memrangesUpdateTag ranges oldTag newTag) := by
  obtain ⟨nodes, free, holds⟩ := represents
  obtain ⟨renamed, first, leaves⟩ := holds.owned.updateTagFrom holds.enough oldTag newTag
  rw [holds.entries, holds.length] at leaves
  obtain ⟨s', second, merged⟩ := (holds.represents leaves).mergeNeighborEntries
  refine ⟨s', ?_, merged⟩
  rw [Pool.memrangesUpdateTag, holds.owned.chain.link_eq, first]
  exact second

end

def perform (s : State) (passes : Nat) : Operation → Option State
  | .insert base size tag => memrangesInsert s base size tag passes
  | .createHole base size => memrangesCreateHole s base size passes
  | .updateTag oldTag newTag => memrangesUpdateTag s oldTag newTag passes

theorem Represents.perform (represents : Represents s numFree ranges) (operation : Operation) :
    ∃ s', perform s (numFree + 1) operation = some s' ∧
      Represents s' numFree (operation.performBounded ranges) := by
  cases operation with
  | insert base size tag =>
    rw [Pool.perform, memrangesInsert, doAction, Operation.performBounded,
      Memrange.memrangesInsert, Memrange.doAction]
    split_ifs with zero
    · exact ⟨s, rfl, represents⟩
    · exact represents.mergeAddMemranges _ _ tag
  | createHole base size =>
    rw [Pool.perform, memrangesCreateHole, doAction, Operation.performBounded,
      Memrange.memrangesCreateHole, Memrange.doAction]
    split_ifs with zero
    · exact ⟨s, rfl, represents⟩
    · exact represents.removeMemranges _ _
  | updateTag oldTag newTag => exact represents.updateTag oldTag newTag

theorem represents_initEmpty (node : Nat → RangeEntry) (numFree : Nat) :
    Represents (memrangesInitEmpty node numFree) numFree ⟨[], numFree⟩ := by
  have linked (count : Nat) : ∃ s,
      (List.range count).foldl (fun s i => rangeEntryLink s .freeList i)
          ⟨fun _ => none, node⟩ = s ∧ s.link .entries = none ∧
        Chain s .freeList (List.range count).reverse := by
    induction count with
    | zero => exact ⟨_, rfl, rfl, rfl⟩
    | succ count ih =>
      obtain ⟨s, same, empty, chain⟩ := ih
      refine ⟨rangeEntryLink s .freeList count, ?_, ?_, ?_⟩
      · rw [List.range_succ, List.foldl_append, same]
        rfl
      · simpa [rangeEntryLink] using empty
      · rw [List.range_succ, List.reverse_append, List.reverse_singleton, List.singleton_append]
        refine ⟨by simp [rangeEntryLink], chain.congr ?_ fun node member => ?_⟩
        · simp [rangeEntryLink]
        · have below := List.mem_range.mp (List.mem_reverse.mp member)
          simp [rangeEntryLink, below.ne]
  obtain ⟨s, same, empty, chain⟩ := linked numFree
  rw [memrangesInitEmpty, same]
  refine ⟨[], (List.range numFree).reverse, ⟨empty, chain, ?_, Link.noConfusion,
    fun _ _ => Link.noConfusion⟩, ?_, rfl, ?_⟩
  · exact List.nodup_reverse.mpr List.nodup_range
  · exact List.reverse_perm _
  · rw [List.length_reverse, List.length_range]

end Calls

/-- The calls of a run, with one pass more than there are nodes. -/
def run (node : Nat → RangeEntry) (numFree : Nat) (operations : List Operation) : Option State :=
  operations.foldlM (fun s operation => perform s (numFree + 1) operation)
    (memrangesInitEmpty node numFree)

def nodesFrom (s : State) (link : Link) : Nat → List Nat
  | 0 => []
  | steps + 1 =>
    match s.link link with
    | none => []
    | some node => node :: nodesFrom s (.next node) steps

def entriesOf (s : State) (numFree : Nat) : List RangeEntry :=
  (nodesFrom s .entries (numFree + 1)).map s.node

/-- The entries and the free list are made of the nodes of the pool, each on one
of them once. -/
def NodesOnce (s : State) (numFree : Nat) : Prop :=
  (nodesFrom s .entries (numFree + 1) ++
    nodesFrom s .freeList (numFree + 1)).Perm (List.range numFree)

/-- A call that returns keeps the pages that it has nothing to do with. -/
def KeepsOutside (s : State) (numFree : Nat) (operation : Operation) : Prop :=
  ∃ s', perform s (numFree + 1) operation = some s' ∧ NodesOnce s' numFree ∧
    ∀ page, operation.Outside (entriesOf s numFree) page →
      pageTag (entriesOf s' numFree) page = pageTag (entriesOf s numFree) page

section Runs

variable {s : State} {numFree : Nat} {ranges : Memranges}

theorem Chain.nodesFrom_eq {link : Link} {nodes : List Nat} {steps : Nat}
    (chain : Chain s link nodes) (enough : nodes.length < steps) :
    nodesFrom s link steps = nodes := by
  induction nodes generalizing link steps with
  | nil =>
    rcases steps with _ | steps
    · omega
    have last : s.link link = none := chain
    rw [nodesFrom, last]
  | cons node rest ih =>
    rcases steps with _ | steps
    · omega
    rw [nodesFrom, chain.1]
    exact congrArg _ (ih chain.2 (Nat.lt_of_succ_lt_succ enough))

theorem Represents.read (represents : Represents s numFree ranges) :
    NodesOnce s numFree ∧ entriesOf s numFree = ranges.entries ∧
      (nodesFrom s .freeList (numFree + 1)).length = ranges.freeList := by
  obtain ⟨nodes, free, holds⟩ := represents
  have length := holds.perm.length_eq
  rw [List.length_append, List.length_range] at length
  have nodesEq := holds.owned.chain.nodesFrom_eq (show nodes.length < numFree + 1 by omega)
  have freeEq := holds.owned.freeChain.nodesFrom_eq (show free.length < numFree + 1 by omega)
  rw [NodesOnce, entriesOf, nodesEq, freeEq]
  exact ⟨holds.perm, holds.entries, holds.length⟩

theorem run_represents (node : Nat → RangeEntry) (numFree : Nat) (operations : List Operation) :
    ∃ s, run node numFree operations = some s ∧ Represents s numFree
      (operations.foldl Operation.performBounded ⟨[], numFree⟩) := by
  have start := represents_initEmpty node numFree
  rw [run]
  generalize memrangesInitEmpty node numFree = s at start
  generalize (⟨[], numFree⟩ : Memranges) = ranges at start
  induction operations generalizing s ranges with
  | nil => exact ⟨s, rfl, start⟩
  | cons operation rest ih =>
    obtain ⟨s', same, next⟩ := start.perform operation
    rw [List.foldlM_cons, same, List.foldl_cons]
    exact ih s' _ next

theorem wellFormed_of_fitting {operations : List Operation}
    (fitting : Fitting operations) (numFree : Nat) :
    WellFormed (operations.foldl Operation.performBounded ⟨[], numFree⟩).entries := by
  have start : WellFormed (⟨[], numFree⟩ : Memranges).entries :=
    (represents_empty numFree).wellFormed
  generalize (⟨[], numFree⟩ : Memranges) = ranges at start
  induction operations generalizing ranges with
  | nil => exact start
  | cons operation rest ih =>
    exact ih (List.forall_mem_cons.mp fitting).2
      _ (performBounded_spec start (fitting operation (.head _))).1

/-- After every run the nodes are each on one list once, and the next call keeps
the pages outside of its range exactly if there is room. -/
theorem keepsOutside_iff_hasRoom (node : Nat → RangeEntry) (numFree : Nat)
    (operations : List Operation) :
    ∃ s, run node numFree operations = some s ∧ NodesOnce s numFree ∧
      (Fitting operations → ∀ operation : Operation, operation.Fits →
        (KeepsOutside s numFree operation ↔
          operation.HasRoom (entriesOf s numFree)
            (nodesFrom s .freeList (numFree + 1)).length)) := by
  obtain ⟨s, reached, represents⟩ := run_represents node numFree operations
  obtain ⟨once, entries, free⟩ := represents.read
  refine ⟨s, reached, once, fun fitting operation fits => ?_⟩
  obtain ⟨s', performed, represents'⟩ := represents.perform operation
  obtain ⟨once', entries', -⟩ := represents'.read
  have spec := (performBounded_spec (wellFormed_of_fitting fitting numFree) fits).2
  rw [← entries', ← entries, ← free] at spec
  refine Iff.trans ?_ spec
  constructor
  · rintro ⟨other, same, -, keeps⟩
    obtain rfl := Option.some.inj (performed.symm.trans same)
    exact keeps
  · exact fun keeps => ⟨s', performed, once', keeps⟩

end Runs

def blank : Nat → RangeEntry := fun _ => ⟨0, 0, 0⟩

/-- A hole in the middle of an entry, with a second node for its upper part. -/
theorem keepsOutside_iff_hasRoom_twoNodes :
    ∃ s, run blank 2 [.insert 0x1000 0x3000 6] = some s ∧
      (KeepsOutside s 2 (.createHole 0x2000 0x1000) ↔
        Operation.HasRoom (entriesOf s 2) (nodesFrom s .freeList 3).length
          (.createHole 0x2000 0x1000)) := by
  obtain ⟨s, reached, -, spec⟩ := keepsOutside_iff_hasRoom blank 2 [.insert 0x1000 0x3000 6]
  exact ⟨s, reached, spec (by simp [Fitting, Operation.Fits]) _ (by simp [Operation.Fits])⟩

/-- Without another node, the page behind the hole is lost. -/
theorem not_keepsOutside_oneNode :
    ¬ ∀ (node : Nat → RangeEntry) (numFree : Nat) (operations : List Operation)
      (operation : Operation) (s : State), Fitting operations →
      operation.Fits → run node numFree operations = some s → KeepsOutside s numFree operation := by
  intro claim
  obtain ⟨s, reached⟩ := Option.isSome_iff_exists.mp
    (show (run blank 1 [.insert 0x1000 0x3000 6]).isSome = true by decide)
  have before : (run blank 1 [.insert 0x1000 0x3000 6]).map (fun s =>
      pageTag (entriesOf s 1) 3) = some (some 6) := by
    decide
  have after : ((run blank 1 [.insert 0x1000 0x3000 6]).bind fun s =>
      (perform s 2 (.createHole 0x2000 0x1000)).map fun s =>
        pageTag (entriesOf s 1) 3) = some none := by
    decide
  obtain ⟨s', performed, -, keeps⟩ := claim blank 1 [.insert 0x1000 0x3000 6]
    (.createHole 0x2000 0x1000) s (by simp [Fitting, Operation.Fits])
    (by simp [Operation.Fits]) reached
  have outside : ¬ PageIn 0x2000 0x1000 3 := by
    rintro ⟨address, above, below, page⟩
    simp at above below
    omega
  have kept := keeps 3 outside
  rw [reached, Option.map_some, Option.some_inj] at before
  rw [reached, Option.bind_some, performed, Option.map_some, Option.some_inj, kept, before] at after
  cases after

end Pool

end Coreboot.Memrange
