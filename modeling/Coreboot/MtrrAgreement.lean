import Coreboot.MtrrCounting

/-!
# Agreement of counting and emitting

For a write-back default the two passes always agree.
-/

namespace Coreboot.Mtrr

open Memrange

/-- The entries as a counting pass leaves them. -/
def markAll (above4gb : Bool) : List RangeEntry → List RangeEntry
  | [] => []
  | r :: rest => mark above4gb r rest.head? :: markAll above4gb rest

/-- The registers for a write-back default type. -/
def wbTotal (above4gb : Bool) (entries : List RangeEntry) : Nat :=
  (entries.map (wbEntryCount above4gb)).sum

/-- The registers for an uncacheable default type, with the cheaper of the two
algorithms for every range. -/
def ucTotal (above4gb : Bool) : List RangeEntry → Nat
  | [] => 0
  | r :: rest => ucEntryCount above4gb r rest.head? + ucTotal above4gb rest

theorem calcVarMtrrsPass_eq (totalMtrrs : Nat) (above4gb : Bool)
    (addressBits : Nat) (entries : List RangeEntry) :
    calcVarMtrrsPass totalMtrrs above4gb addressBits entries =
      { entries := markAll above4gb entries
        wbDeftypeCount := wbTotal above4gb entries
        ucDeftypeCount := ucTotal above4gb entries } := by
  induction entries with
  | nil => rfl
  | cons r rest ih =>
    rw [calcVarMtrrsPass_cons, ih]
    rfl

theorem markAll_head (above4gb : Bool) (entries : List RangeEntry) :
    Option.Rel SameRange (markAll above4gb entries).head? entries.head? := by
  cases entries with
  | nil => exact Option.Rel.none
  | cons r rest => exact Option.Rel.some (sameRange_mark above4gb r _)

/-- Every hole request belongs to a write-back range. -/
def HolesAreWrback (entries : List RangeEntry) : Prop :=
  ∀ r ∈ entries, HoleTagged r → rangeEntryMtrrType r = mtrrTypeWrback

variable {entries : List RangeEntry} {above4gb : Bool} {r : RangeEntry} {ranges : Memranges}

theorem HolesAreWrback.markAll (wrback : HolesAreWrback entries)
    (above4gb : Bool) : HolesAreWrback (markAll above4gb entries) := by
  induction entries with
  | nil => exact fun r inNil => absurd inNil (List.not_mem_nil)
  | cons first rest ih =>
    intro r inside tagged
    rcases List.mem_cons.mp inside with rfl | later
    · rw [rangeEntryMtrrType_mark]
      rcases (holeTagged_mark above4gb first rest.head?).mp tagged with
        marked | before
      · exact marked.wrback
      · exact wrback first (List.mem_cons_self ..) before
    · exact ih (List.forall_mem_cons.mp wrback).2 r later tagged

theorem length_entryBlocks_wrback (above4gb : Bool) (r : RangeEntry)
    (next emittedNext : Option RangeEntry) :
    (entryBlocks above4gb mtrrTypeWrback (mark above4gb r next)
      emittedNext).length = wbEntryCount above4gb r := by
  have notUncacheable : mtrrTypeWrback ≠ mtrrTypeUncacheable := by decide
  rw [entryBlocks, wbEntryCount, rangeEntryMtrrType_mark]
  by_cases wrback : rangeEntryMtrrType r = mtrrTypeWrback
  · simp [wrback]
  · rw [if_neg wrback, if_pos wrback,
      if_neg fun request => notUncacheable request.1, length_callBlocks,
      withoutHoleCalls_congr (sameRange_mark above4gb r next), noHoleCount]

theorem length_solutionBlocks_wrback (above4gb : Bool) (entries : List RangeEntry) :
    (solutionBlocks above4gb mtrrTypeWrback (markAll above4gb entries)).length
      = wbTotal above4gb entries := by
  induction entries with
  | nil => rfl
  | cons r rest ih =>
    rw [markAll, solutionBlocks, List.length_append, ih, length_entryBlocks_wrback, wbTotal,
      wbTotal, List.map_cons, List.sum_cons]

theorem length_entryBlocks_tagged (cacheable : rangeEntryMtrrType r ≠ mtrrTypeUncacheable)
    (tagged : HoleTagged r) (next : Option RangeEntry) :
    (entryBlocks above4gb mtrrTypeUncacheable r next).length =
      callsCount (withHoleCalls above4gb mtrrTypeUncacheable r next) := by
  rw [entryBlocks, if_neg cacheable, if_pos, length_callBlocks]
  exact ⟨rfl, tagged⟩

theorem length_entryBlocks_untagged (cacheable : rangeEntryMtrrType r ≠ mtrrTypeUncacheable)
    (untagged : ¬ HoleTagged r) (next : Option RangeEntry) :
    (entryBlocks above4gb mtrrTypeUncacheable r next).length = noHoleCount above4gb r := by
  rw [entryBlocks, if_neg cacheable, if_neg, length_callBlocks, noHoleCount]
  exact fun request => untagged request.2

/-- With a stale tag, an uncacheable default emits more than was counted;
otherwise it emits exactly that. -/
theorem length_entryBlocks_uncacheable {next emittedNext : Option RangeEntry}
    (wrback : HoleTagged r → rangeEntryMtrrType r = mtrrTypeWrback)
    (sameNext : Option.Rel SameRange emittedNext next) :
    ucEntryCount above4gb r next ≤
        (entryBlocks above4gb mtrrTypeUncacheable (mark above4gb r next) emittedNext).length ∧
      ((entryBlocks above4gb mtrrTypeUncacheable (mark above4gb r next)
          emittedNext).length = ucEntryCount above4gb r next ↔
        ¬ Stale above4gb r next) := by
  have same := sameRange_mark above4gb r next
  by_cases uncacheable : rangeEntryMtrrType r = mtrrTypeUncacheable
  · simp [entryBlocks, ucEntryCount, rangeEntryMtrrType_mark, uncacheable, Stale]
  have cacheable : rangeEntryMtrrType (mark above4gb r next) ≠ mtrrTypeUncacheable := by
    rwa [rangeEntryMtrrType_mark]
  rw [ucEntryCount, if_pos uncacheable]
  by_cases request : HoleTagged (mark above4gb r next)
  · have isWrback : rangeEntryMtrrType r = mtrrTypeWrback := by
      rcases (holeTagged_mark above4gb r next).mp request with marked | before
      · exact marked.wrback
      · exact wrback before
    rw [length_entryBlocks_tagged cacheable request, withHoleCalls_congr same sameNext]
    have hole : holeCount above4gb r next =
        callsCount (withHoleCalls above4gb mtrrTypeUncacheable r next) :=
      if_pos isWrback
    rw [← hole]
    by_cases cheaper : noHoleCount above4gb r < holeCount above4gb r next
    · -- The tag is left over from an earlier pass.
      have before : HoleTagged r := by
        rcases (holeTagged_mark above4gb r next).mp request with
          marked | before
        · exact absurd cheaper marked.2
        · exact before
      have stale : Stale above4gb r next := ⟨before, uncacheable, cheaper⟩
      rw [if_pos cheaper]
      exact And.intro (by omega) (iff_of_false (by omega) fun fresh => fresh stale)
    · rw [if_neg cheaper]
      exact ⟨le_rfl, iff_of_true rfl fun stale => cheaper stale.2.2⟩
  · have unmarked : ¬ Marked above4gb r next := fun marked =>
      request ((holeTagged_mark above4gb r next).mpr (Or.inl marked))
    have fresh : ¬ HoleTagged r := fun before =>
      request ((holeTagged_mark above4gb r next).mpr (Or.inr before))
    have cheaper : noHoleCount above4gb r < holeCount above4gb r next := by
      by_contra expensive
      exact unmarked ⟨uncacheable, expensive⟩
    have sameCount : noHoleCount above4gb (mark above4gb r next) = noHoleCount above4gb r :=
      congrArg callsCount (withoutHoleCalls_congr same above4gb)
    rw [length_entryBlocks_untagged cacheable request, sameCount, if_pos cheaper]
    exact ⟨le_rfl, iff_of_true rfl fun stale => fresh stale.1⟩

theorem length_solutionBlocks_uncacheable (wrback : HolesAreWrback entries) :
    ucTotal above4gb entries ≤
        (solutionBlocks above4gb mtrrTypeUncacheable (markAll above4gb entries)).length ∧
      ((solutionBlocks above4gb mtrrTypeUncacheable
          (markAll above4gb entries)).length = ucTotal above4gb entries ↔
        ¬ SomeStale above4gb entries) := by
  induction entries with
  | nil => simp [ucTotal, solutionBlocks, markAll, SomeStale]
  | cons r rest ih =>
    obtain ⟨restLow, restExact⟩ := ih (List.forall_mem_cons.mp wrback).2
    obtain ⟨low, exactCount⟩ := length_entryBlocks_uncacheable
      (wrback r (List.mem_cons_self ..)) (markAll_head above4gb rest)
    rw [markAll, solutionBlocks, List.length_append, ucTotal, SomeStale,
      not_or, ← exactCount, ← restExact]
    omega

theorem exists_tag_mergeNeighborEntriesFrom {previous merged : RangeEntry} {rest : List RangeEntry}
    {free : Nat} (inside : merged ∈ (mergeNeighborEntriesFrom previous free rest).1) :
    ∃ entry ∈ previous :: rest, merged.tag = entry.tag := by
  induction rest generalizing previous free with
  | nil =>
    exact ⟨previous, (.head _) .., by
      rw [List.mem_singleton.mp inside]⟩
  | cons current rest ih =>
    unfold mergeNeighborEntriesFrom at inside
    split at inside
    · obtain ⟨entry, inEntries, sameTag⟩ := ih inside
      rcases List.mem_cons.mp inEntries with rfl | later
      · exact ⟨previous, (.head _) .., sameTag⟩
      · exact ⟨entry, by simp [later], sameTag⟩
    · rcases List.mem_cons.mp inside with rfl | later
      · exact ⟨merged, (.head _) .., rfl⟩
      · obtain ⟨entry, inEntries, sameTag⟩ := ih later
        exact ⟨entry, List.mem_cons_of_mem _ inEntries, sameTag⟩

theorem exists_tag_mergeNeighborEntries {merged : RangeEntry}
    (inside : merged ∈ (mergeNeighborEntries ranges).entries) :
    ∃ entry ∈ ranges.entries, merged.tag = entry.tag := by
  obtain ⟨entries, free⟩ := ranges
  cases entries with
  | nil => cases inside
  | cons first rest => exact exists_tag_mergeNeighborEntriesFrom inside

theorem exists_tag_memrangesUpdateTag {oldTag newTag : Tag}
    (inside : r ∈ (memrangesUpdateTag ranges oldTag newTag).entries) :
    ∃ before ∈ ranges.entries, r.tag = if before.tag = oldTag then newTag else before.tag := by
  obtain ⟨renamed, inRenamed, sameTag⟩ := exists_tag_mergeNeighborEntries inside
  obtain ⟨before, inBefore, rfl⟩ := List.mem_map.mp inRenamed
  refine ⟨before, inBefore, ?_⟩
  rw [sameTag]
  split <;> rfl

theorem not_someStale_of_fresh (fresh : ∀ r ∈ entries, ¬ HoleTagged r) :
    ¬ SomeStale above4gb entries := by
  induction entries with
  | nil => exact id
  | cons r rest ih =>
    rintro (stale | later)
    · exact fresh r (List.mem_cons_self ..) stale.1
    · exact ih (List.forall_mem_cons.mp fresh).2 later

/-- The entries that the second counting pass starts from. -/
def demoted (above4gb : Bool) (addrSpace : Memranges) : List RangeEntry :=
  (memrangesUpdateTag
    { addrSpace with entries := markAll above4gb addrSpace.entries }
    mtrrTypeWrcomb mtrrTypeUncacheable).entries

def Demotes (biosMtrrs : Int) (above4gb : Bool) (entries : List RangeEntry) : Prop :=
  (wbTotal above4gb entries : Int) > biosMtrrs ∧ (ucTotal above4gb entries : Int) > biosMtrrs

instance (biosMtrrs : Int) (above4gb : Bool) (entries : List RangeEntry) :
    Decidable (Demotes biosMtrrs above4gb entries) :=
  inferInstanceAs (Decidable (_ ∧ _))

/-- The entries that the last counting pass starts from. -/
def lastEntries (biosMtrrs : Int) (above4gb : Bool) (addrSpace : Memranges) : List RangeEntry :=
  if Demotes biosMtrrs above4gb addrSpace.entries then
    demoted above4gb addrSpace
  else addrSpace.entries

/-- The default type chosen for the entries of the last counting pass. -/
def chosenDefType (above4gb : Bool) (entries : List RangeEntry) : Tag :=
  if wbTotal above4gb entries < ucTotal above4gb entries then mtrrTypeWrback
  else mtrrTypeUncacheable

/-- The count for the default type that `calc_var_mtrrs` selected. -/
def CalcResult.selectedCount (result : CalcResult) : Nat :=
  if result.defType = mtrrTypeWrback then result.wbDeftypeCount
  else result.ucDeftypeCount

/-- Everything `calc_var_mtrrs` leaves behind is decided by the entries of its
last counting pass. -/
theorem calcVarMtrrs_spec (totalMtrrs : Nat) (biosMtrrs : Int)
    (addrSpace : Memranges) (above4gb : Bool) (addressBits : Nat) :
    let last := lastEntries biosMtrrs above4gb addrSpace
    let result := calcVarMtrrs totalMtrrs biosMtrrs addrSpace above4gb addressBits
    result.addrSpace.entries = markAll above4gb last ∧
      result.wbDeftypeCount = wbTotal above4gb last ∧
      result.ucDeftypeCount = ucTotal above4gb last ∧
      result.defType = chosenDefType above4gb last := by
  intro last result
  by_cases demotes : (wbTotal above4gb addrSpace.entries : Int) > biosMtrrs ∧
      (ucTotal above4gb addrSpace.entries : Int) > biosMtrrs
  · have sameLast : last = demoted above4gb addrSpace := if_pos demotes
    rw [sameLast]
    simp only [result, calcVarMtrrs, calcVarMtrrsPass_eq, if_pos demotes, demoted]
    exact ⟨trivial, trivial, trivial, rfl⟩
  · have sameLast : last = addrSpace.entries := if_neg demotes
    rw [sameLast]
    simp only [result, calcVarMtrrs, calcVarMtrrsPass_eq, if_neg demotes, chosenDefType, and_self]

theorem HolesAreWrback.demoted {addrSpace : Memranges} (wrback : HolesAreWrback addrSpace.entries)
    (above4gb : Bool) : HolesAreWrback (demoted above4gb addrSpace) := by
  intro r inside tagged
  obtain ⟨before, inBefore, sameTag⟩ := exists_tag_memrangesUpdateTag inside
  split_ifs at sameTag with renamed
  · rw [HoleTagged, sameTag] at tagged
    exact absurd (by decide) tagged
  · rw [HoleTagged, sameTag] at tagged
    rw [rangeEntryMtrrType, sameTag]
    exact wrback.markAll above4gb before inBefore tagged

/-- The second counting pass runs, it selects the uncacheable default, and some
range whose hole had been the cheaper choice is now cheaper without one. -/
structure KeepsStaleHole (biosMtrrs : Int) (above4gb : Bool)
    (addrSpace : Memranges) : Prop where
  demotes : Demotes biosMtrrs above4gb addrSpace.entries
  uncacheable : ucTotal above4gb (demoted above4gb addrSpace) ≤
    wbTotal above4gb (demoted above4gb addrSpace)
  stale : SomeStale above4gb (demoted above4gb addrSpace)

/-- On an address space without hole requests, the number of registers used is
the selected count exactly when no stale hole request is kept. -/
theorem numUsed_eq_selectedCount_iff (totalMtrrs : Nat) (biosMtrrs : Int) (addrSpace : Memranges)
    (above4gb : Bool) (addressBits : Nat) (regs : Nat → VarMtrrRegs)
    (fresh : ∀ r ∈ addrSpace.entries, ¬ HoleTagged r) :
    let result := calcVarMtrrs totalMtrrs biosMtrrs addrSpace above4gb addressBits
    (prepareVarMtrrs totalMtrrs result.addrSpace.entries result.defType
        above4gb addressBits regs).numUsed = result.selectedCount ↔
      ¬ KeepsStaleHole biosMtrrs above4gb addrSpace := by
  intro result
  have freshWrback : HolesAreWrback addrSpace.entries :=
    fun r inside tagged => absurd tagged (fresh r inside)
  obtain ⟨entries, wbCount, ucCount, defType⟩ := calcVarMtrrs_spec totalMtrrs
    biosMtrrs addrSpace above4gb addressBits
  change result.addrSpace.entries = _ at entries
  change result.wbDeftypeCount = _ at wbCount
  change result.ucDeftypeCount = _ at ucCount
  change result.defType = _ at defType
  rw [numUsed_eq_length, CalcResult.selectedCount, entries, wbCount, ucCount,
    defType, chosenDefType]
  by_cases fewer : wbTotal above4gb (lastEntries biosMtrrs above4gb addrSpace)
      < ucTotal above4gb (lastEntries biosMtrrs above4gb addrSpace)
  · rw [if_pos fewer, if_pos rfl, length_solutionBlocks_wrback]
    refine iff_of_true rfl fun kept => ?_
    have last : lastEntries biosMtrrs above4gb addrSpace = _ := if_pos kept.demotes
    rw [last] at fewer
    exact absurd kept.uncacheable (by omega)
  · have notWrback : mtrrTypeUncacheable ≠ mtrrTypeWrback := by decide
    rw [if_neg fewer, if_neg notWrback]
    by_cases demotes : Demotes biosMtrrs above4gb addrSpace.entries
    · have last : lastEntries biosMtrrs above4gb addrSpace = _ := if_pos demotes
      rw [last] at fewer ⊢
      rw [(length_solutionBlocks_uncacheable (freshWrback.demoted above4gb)).2, not_iff_not]
      exact ⟨fun stale => ⟨demotes, by omega, stale⟩, fun kept => kept.stale⟩
    · have last : lastEntries biosMtrrs above4gb addrSpace = _ := if_neg demotes
      rw [last, (length_solutionBlocks_uncacheable freshWrback).2]
      exact iff_of_true (not_someStale_of_fresh fresh) fun kept =>
        demotes kept.demotes

/-- Write-back memory up to 384 MiB and two pages, and write-combining up to
4 GiB. -/
def wrcombAboveOddRam : Memranges where
  entries := [⟨0, 0x18001fff, mtrrTypeWrback⟩, ⟨0x18002000, 0xffffffff, mtrrTypeWrcomb⟩]
  freeList := 0

theorem numUsed_eq_selectedCount_iff_wrcombAboveOddRam :
    let result := calcVarMtrrs 8 6 wrcombAboveOddRam true 36
    (prepareVarMtrrs 8 result.addrSpace.entries result.defType true 36
        fun _ => ⟨⟨0, 0⟩, ⟨0, 0⟩⟩).numUsed = result.selectedCount ↔
      ¬ KeepsStaleHole 6 true wrcombAboveOddRam :=
  numUsed_eq_selectedCount_iff 8 6 wrcombAboveOddRam true 36 _ (by decide)

/-- Three registers are counted for the uncacheable default, but the stale hole
request takes sixteen. -/
theorem numUsed_ne_selectedCount_wrcombAboveOddRam :
    let result := calcVarMtrrs 8 6 wrcombAboveOddRam true 36
    (prepareVarMtrrs 8 result.addrSpace.entries result.defType true 36
        fun _ => ⟨⟨0, 0⟩, ⟨0, 0⟩⟩).numUsed = 16 ∧
      result.selectedCount = 3 := by
  decide +kernel

end Coreboot.Mtrr
