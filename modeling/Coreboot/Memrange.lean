import Coreboot.WordAlignment

/-!
# Tagged memory ranges

`memranges` keeps a linked list of tagged address ranges at 4 KiB granularity, with inclusive ends.

Entries that leave the list are kept on a free list, and a new entry is taken from there first.
Only their number matters, because `range_list_add` overwrites every field.
-/

namespace Coreboot.Memrange

open WordAlignment

/-- `resource_t`. -/
abbrev Address := BitVec 64

/-- `unsigned long`, at the width of the 64-bit builds. -/
abbrev Tag := BitVec 64

/-- One `struct range_entry`; `next` is the list structure. -/
structure RangeEntry where
  rangeBegin : Address
  rangeEnd : Address
  tag : Tag
deriving DecidableEq, Repr

/-- A `struct memranges`: the entries and the length of the free list. -/
structure Memranges where
  entries : List RangeEntry
  freeList : Nat
deriving DecidableEq, Repr

def rangeEntryBase (entry : RangeEntry) : Address := entry.rangeBegin

def rangeEntryEnd (entry : RangeEntry) : Address := entry.rangeEnd + 1

/-- Take an entry off the free list.  Only ramstage can fall back on
`malloc`, which stops the machine rather than fail. -/
def allocRange (envRamstage : Bool) : Nat → Option Nat
  | 0 => if envRamstage then some 0 else none
  | free + 1 => some free

/-- Insert a new entry in front of `tail`; without a free entry the list stays
as it is. -/
def rangeListAdd (envRamstage : Bool) (free : Nat)
    (rangeBegin rangeEnd : Address) (tag : Tag) (tail : List RangeEntry) :
    List RangeEntry × Nat :=
  match allocRange envRamstage free with
  | some free => (⟨rangeBegin, rangeEnd, tag⟩ :: tail, free)
  | none => (tail, free)

/-- The walk of `merge_neighbor_entries`, with `previous` the entry before
the rest of the list. -/
def mergeNeighborEntriesFrom (previous : RangeEntry) (free : Nat) :
    List RangeEntry → List RangeEntry × Nat
  | [] => ([previous], free)
  | current :: rest =>
    if previous.rangeEnd + 1 ≥ current.rangeBegin ∧ previous.tag = current.tag then
      mergeNeighborEntriesFrom { previous with rangeEnd := current.rangeEnd } (free + 1) rest
    else
      let (merged, free) := mergeNeighborEntriesFrom current free rest
      (previous :: merged, free)

def mergeNeighborEntries (ranges : Memranges) : Memranges :=
  match ranges.entries with
  | [] => ranges
  | first :: rest =>
    let (entries, freeList) := mergeNeighborEntriesFrom first ranges.freeList rest
    { entries, freeList }

/-- The walk of `remove_memranges` over the entries not yet visited. -/
def removeMemrangesFrom (envRamstage : Bool) (rangeBegin rangeEnd : Address)
    (free : Nat) : List RangeEntry → List RangeEntry × Nat
  | [] => ([], free)
  | current :: next =>
    -- No other ranges are affected.
    if rangeEnd < current.rangeBegin then (current :: next, free)
    -- The removal range starts after this one.
    else if rangeBegin > current.rangeEnd then
      let (next, free) := removeMemrangesFrom envRamstage rangeBegin rangeEnd free next
      (current :: next, free)
    -- Full removal.
    else if rangeBegin ≤ current.rangeBegin ∧ rangeEnd ≥ current.rangeEnd then
      removeMemrangesFrom envRamstage (current.rangeEnd + 1) rangeEnd (free + 1) next
    else
      let rangeBegin :=
        if rangeBegin ≤ current.rangeBegin then current.rangeBegin
        else rangeBegin
      let tmpEnd := if rangeEnd > current.rangeEnd then current.rangeEnd else rangeEnd
      -- Hole punched in middle of entry.
      if rangeBegin > current.rangeBegin ∧ tmpEnd < current.rangeEnd then
        let (next, free) := rangeListAdd envRamstage free (rangeEnd + 1)
          current.rangeEnd current.tag next
        ({ current with rangeEnd := rangeBegin - 1 } :: next, free)
      else
        let current :=
          -- Removal at beginning.
          if rangeBegin = current.rangeBegin then
            { current with rangeBegin := tmpEnd + 1 }
          else current
        let current :=
          -- Removal at end.
          if tmpEnd = current.rangeEnd then
            { current with rangeEnd := rangeBegin - 1 }
          else current
        let (next, free) := removeMemrangesFrom envRamstage rangeBegin rangeEnd free next
        (current :: next, free)

def removeMemranges (envRamstage : Bool) (ranges : Memranges)
    (rangeBegin rangeEnd : Address) : Memranges :=
  let (entries, freeList) := removeMemrangesFrom envRamstage rangeBegin
    rangeEnd ranges.freeList ranges.entries
  { entries, freeList }

/-- The insertion of `merge_add_memranges`: the new entry goes in front of the
first one that begins after it ends. -/
def addBefore (envRamstage : Bool) (rangeBegin rangeEnd : Address) (tag : Tag)
    (free : Nat) : List RangeEntry → List RangeEntry × Nat
  | [] => rangeListAdd envRamstage free rangeBegin rangeEnd tag []
  | current :: next =>
    if rangeEnd < current.rangeBegin then
      rangeListAdd envRamstage free rangeBegin rangeEnd tag (current :: next)
    else
      let (next, free) := addBefore envRamstage rangeBegin rangeEnd tag free next
      (current :: next, free)

def mergeAddMemranges (envRamstage : Bool) (ranges : Memranges)
    (rangeBegin rangeEnd : Address) (tag : Tag) : Memranges :=
  let ranges := removeMemranges envRamstage ranges rangeBegin rangeEnd
  let (entries, freeList) := addBefore envRamstage rangeBegin rangeEnd tag
    ranges.freeList ranges.entries
  mergeNeighborEntries { entries, freeList }

def memrangesUpdateTag (ranges : Memranges) (oldTag newTag : Tag) : Memranges :=
  mergeNeighborEntries
    { ranges with
      entries := ranges.entries.map fun entry =>
        if entry.tag = oldTag then { entry with tag := newTag } else entry }

/-- Widen `[base, base + size)` to whole pages and hand the inclusive range
to `action`. -/
def doAction (ranges : Memranges) (base size : Address)
    (action : Memranges → Address → Address → Memranges) : Memranges :=
  if size = 0 then ranges
  else
    let rangeBegin := alignDown base 12
    let rangeEnd := rangeBegin + size + (base - rangeBegin)
    let rangeEnd := alignUp rangeEnd 12 - 1
    action ranges rangeBegin rangeEnd

def memrangesCreateHole (envRamstage : Bool) (ranges : Memranges)
    (base size : Address) : Memranges :=
  doAction ranges base size (removeMemranges envRamstage)

def memrangesInsert (envRamstage : Bool) (ranges : Memranges)
    (base size : Address) (tag : Tag) : Memranges :=
  doAction ranges base size fun ranges rangeBegin rangeEnd =>
    mergeAddMemranges envRamstage ranges rangeBegin rangeEnd tag

def memrangesInitEmpty (numFree : Nat) : Memranges := { entries := [], freeList := numFree }

end Coreboot.Memrange
