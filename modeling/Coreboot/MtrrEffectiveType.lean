import Coreboot.MtrrSoundness

/-!
# The effective type of every mapped page

The entries of the last counting pass come from the address space by marking, renaming and merging.
-/

namespace Coreboot.Mtrr

open Memrange IntervalMap

/-- The end points that the solver can handle: page-aligned, in the physical
address space, and low enough to be rounded up to 64 MiB. -/
def Reachable (addressBits : Nat) (address : Nat) : Prop :=
  4096 ∣ address ∧ address ≤ 2 ^ addressBits ∧ address ≤ 2 ^ 44 - 2 ^ 26

theorem toNat_physToRangeAddr (address : Address) :
    (physToRangeAddr address).toNat = address.toNat / 4096 % 4294967296 := by
  rw [physToRangeAddr, BitVec.toNat_setWidth, BitVec.toNat_ushiftRight, Nat.shiftRight_eq_div_pow]

variable {addressBits page : Nat} {entries : List RangeEntry} {above4gb : Bool}
  {addrSpace : Memranges} {allowed : Nat → Prop}

theorem basePage_mul {r : RangeEntry} (reachable : Reachable addressBits r.toSegment.lower) :
    basePage r * 4096 = r.toSegment.lower := by
  obtain ⟨⟨page, multiple⟩, -, low⟩ := reachable
  have pages : basePage r = r.rangeBegin.toNat / 4096 % 4294967296 := by
    rw [basePage, rangeEntryBaseMtrrAddr, toNat_physToRangeAddr, rangeEntryBase]
  rw [toSegment_lower] at *
  omega

theorem endPage_mul {r : RangeEntry} (reachable : Reachable addressBits r.toSegment.upper) :
    endPage r * 4096 = r.toSegment.upper := by
  obtain ⟨⟨page, multiple⟩, -, low⟩ := reachable
  have pages : endPage r = (r.rangeEnd + 1).toNat / 4096 % 4294967296 := by
    rw [endPage, rangeEntryEndMtrrAddr, toNat_physToRangeAddr, rangeEntryEnd]
  have one : (1 : Address).toNat = 1 := rfl
  rw [BitVec.toNat_add, one] at pages
  rw [toSegment_upper] at *
  omega

/-- Ordered entries with reachable end points are what the soundness of the
blocks asks for. -/
theorem entriesFit_of_ordered (wide : 12 ≤ addressBits) (ordered : Ordered (segments entries))
    (endpoints : Endpoints (Reachable addressBits) (segments entries)) :
    EntriesFit (addressBits - 12) entries := by
  have ends (r : RangeEntry) (inside : r ∈ entries) :=
    endpoints r.toSegment (mem_segments.mpr ⟨r, inside, rfl⟩)
  have space : 2 ^ addressBits = 2 ^ (addressBits - 12) * 4096 := by
    rw [show 4096 = 2 ^ 12 by rfl, ← pow_add, Nat.sub_add_cancel wide]
  constructor
  · intro r inside
    obtain ⟨lower, upper⟩ := ends r inside
    have base := basePage_mul lower
    have last := endPage_mul upper
    have nonempty := ordered.nonempty _ (mem_segments.mpr ⟨r, inside, rfl⟩)
    obtain ⟨-, inSpace, low⟩ := upper
    exact ⟨by omega, by omega, by omega⟩
  · refine (List.pairwise_map.mp ordered.separated).imp_of_mem ?_
    intro first second inFirst inSecond apart
    have last := endPage_mul (ends first inFirst).2
    have base := basePage_mul (ends second inSecond).1
    omega

theorem exists_entry_of_pageTag (endpoints : Endpoints (Reachable addressBits) (segments entries))
    {tag : Tag} (found : pageTag entries page = some tag) :
    ∃ r ∈ entries, basePage r ≤ page ∧ page < endPage r ∧ r.tag = tag := by
  unfold pageTag at found
  obtain ⟨r, first, rfl⟩ := Option.map_eq_some_iff.mp found
  have inside := List.mem_of_find?_eq_some first
  have within := List.find?_some first
  obtain ⟨lower, upper⟩ := of_decide_eq_true within
  obtain ⟨lowerReachable, upperReachable⟩ :=
    endpoints r.toSegment (mem_segments.mpr ⟨r, inside, rfl⟩)
  have base := basePage_mul lowerReachable
  have last := endPage_mul upperReachable
  rw [toSegment_lower] at base
  rw [toSegment_upper] at last
  exact ⟨r, inside, by omega, by omega, rfl⟩

theorem map_markAll {α : Type*} {view : RangeEntry → α}
    (sameView : ∀ first second, SameRange first second → view first = view second) (above4gb : Bool)
    (entries : List RangeEntry) : (markAll above4gb entries).map view = entries.map view := by
  induction entries with
  | nil => rfl
  | cons r rest ih =>
    rw [markAll, List.map_cons, List.map_cons, ih,
      sameView _ _ (sameRange_mark above4gb r rest.head?)]

def bounds (r : RangeEntry) : Nat × Nat := (r.toSegment.lower, r.toSegment.upper)

theorem map_bounds_markAll (above4gb : Bool) (entries : List RangeEntry) :
    (markAll above4gb entries).map bounds = entries.map bounds :=
  map_markAll (fun first second same => by
    simp [bounds, same.rangeBegin, same.rangeEnd]) above4gb entries

theorem ordered_iff_bounds (entries : List RangeEntry) :
    Ordered (segments entries) ↔
      (∀ bound ∈ entries.map bounds, bound.1 < bound.2) ∧
        (entries.map bounds).Pairwise fun first second =>
          first.2 ≤ second.1 := by
  constructor
  · rintro ⟨nonempty, separated⟩
    exact ⟨List.forall_mem_map.mpr (List.forall_mem_map.mp nonempty),
      List.pairwise_map.mpr (List.pairwise_map.mp separated)⟩
  · rintro ⟨nonempty, separated⟩
    exact ⟨List.forall_mem_map.mpr (List.forall_mem_map.mp nonempty),
      List.pairwise_map.mpr (List.pairwise_map.mp separated)⟩

theorem ordered_markAll (above4gb : Bool) (ordered : Ordered (segments entries)) :
    Ordered (segments (markAll above4gb entries)) := by
  rw [ordered_iff_bounds, map_bounds_markAll, ← ordered_iff_bounds]
  exact ordered

theorem endpoints_markAll (above4gb : Bool) (endpoints : Endpoints allowed (segments entries)) :
    Endpoints allowed (segments (markAll above4gb entries)) := by
  have asBounds (list : List RangeEntry) :
      Endpoints allowed (segments list) ↔
        ∀ bound ∈ list.map bounds, allowed bound.1 ∧ allowed bound.2 := by
    rw [List.forall_mem_map]
    exact List.forall_mem_map
  rw [asBounds, map_bounds_markAll, ← asBounds]
  exact endpoints

def pageType (entries : List RangeEntry) (page : Nat) : Option Tag :=
  (pageTag entries page).map (· &&& mtrrTagMask)

theorem pageType_markAll (above4gb : Bool) (entries : List RangeEntry) (page : Nat) :
    pageType (markAll above4gb entries) page = pageType entries page := by
  let view (r : RangeEntry) := (bounds r, rangeEntryMtrrType r)
  have asView (list : List RangeEntry) : pageType list page =
      ((list.map view).find? fun entry => decide (entry.1.1 ≤ page * 4096 ∧
        page * 4096 ≤ entry.1.2 - 1)).map Prod.snd := by
    rw [List.find?_map, Option.map_map, pageType, pageTag, Option.map_map]
    rfl
  rw [asView, asView, map_markAll]
  intro first second same
  simp [view, bounds, same.rangeBegin, same.rangeEnd, same.mtrrType]

/-- The tags that occur while the solver runs. -/
def SolverTag (tag : Tag) : Prop :=
  tag = mtrrTypeUncacheable ∨ tag = mtrrTypeWrcomb ∨ tag = mtrrTypeWrback ∨
    tag = mtrrTypeWrback ||| mtrrRangeUcUseHole

theorem solverTag_markAll (types : ∀ r ∈ entries, SolverTag r.tag) :
    ∀ r ∈ markAll above4gb entries, SolverTag r.tag := by
  induction entries with
  | nil => exact List.forall_mem_nil _
  | cons r rest ih =>
    obtain ⟨first, later⟩ := List.forall_mem_cons.mp types
    rw [markAll]
    refine List.forall_mem_cons.mpr ⟨?_, ih later⟩
    unfold mark
    split
    · rename_i marked
      rw [marked.wrback]
      exact Or.inr (Or.inr (Or.inr rfl))
    · exact first

theorem pageType_demoted (ordered : Ordered (segments addrSpace.entries))
    (types : ∀ r ∈ addrSpace.entries, SolverTag r.tag) {mtrrType : Tag}
    (found : pageType addrSpace.entries page = some mtrrType) :
    pageType (demoted above4gb addrSpace) page =
      some (if mtrrType = mtrrTypeWrcomb then mtrrTypeUncacheable else mtrrType) := by
  rw [← pageType_markAll above4gb, pageType] at found
  obtain ⟨tag, foundTag, rfl⟩ := Option.map_eq_some_iff.mp found
  let marked : Memranges := { addrSpace with entries := markAll above4gb addrSpace.entries }
  have markedOrdered : Ordered (segments marked.entries) := ordered_markAll above4gb ordered
  have renamed := pageTag_memrangesUpdateTag markedOrdered mtrrTypeWrcomb mtrrTypeUncacheable page
  have solverTag : SolverTag tag := by
    unfold pageTag at foundTag
    obtain ⟨r, first, rfl⟩ := Option.map_eq_some_iff.mp foundTag
    exact solverTag_markAll types r (List.mem_of_find?_eq_some first)
  rw [pageType, demoted, renamed]
  change ((pageTag (markAll above4gb addrSpace.entries) page).map _).map _ = _
  rw [foundTag]
  rcases solverTag with rfl | rfl | rfl | rfl <;> decide

theorem ordered_demoted (above4gb : Bool) (ordered : Ordered (segments addrSpace.entries))
    (endpoints : Endpoints allowed (segments addrSpace.entries)) :
    Ordered (segments (demoted above4gb addrSpace)) ∧
      Endpoints allowed (segments (demoted above4gb addrSpace)) := by
  let marked : Memranges := { addrSpace with entries := markAll above4gb addrSpace.entries }
  have markedOrdered : Ordered (segments marked.entries) := ordered_markAll above4gb ordered
  have updated := segments_memrangesUpdateTag markedOrdered mtrrTypeWrcomb mtrrTypeUncacheable
  rw [demoted, updated]
  exact ⟨(markedOrdered.mapValues _).coalesce,
    ((endpoints_markAll above4gb endpoints).mapValues _).coalesce⟩

theorem effectiveType_prepareVarMtrrs {totalMtrrs : Nat} {defType : Tag} (wide : 26 ≤ addressBits)
    {regs : Nat → VarMtrrRegs} (ordered : Ordered (segments entries))
    (endpoints : Endpoints (Reachable addressBits) (segments entries))
    (enough : (prepareVarMtrrs totalMtrrs entries defType above4gb addressBits
      regs).numUsed ≤ totalMtrrs) (served : Served above4gb page) {mtrrType : Tag}
    (found : pageType entries page = some mtrrType) :
    (prepareVarMtrrs totalMtrrs entries defType above4gb addressBits
        regs).effectiveType defType (BitVec.ofNat 64 (page * 4096)) =
      some mtrrType := by
  have entriesFit := entriesFit_of_ordered (by omega) ordered endpoints
  obtain ⟨tag, foundTag, rfl⟩ := Option.map_eq_some_iff.mp found
  obtain ⟨entry, inEntries, reached, before, rfl⟩ := exists_entry_of_pageTag endpoints foundTag
  have fits := entriesFit.fits entry inEntries
  have pageNat : (BitVec.ofNat 32 page).toNat = page := by
    have := fits.below
    rw [BitVec.toNat_ofNat]
    exact Nat.mod_eq_of_lt (by omega)
  have address : BitVec.ofNat 64 (page * 4096) = rangeToPhysAddr (BitVec.ofNat 32 page) := by
    apply BitVec.eq_of_toNat_eq
    have := fits.below
    rw [rangeToPhysAddr, BitVec.toNat_shiftLeft, BitVec.toNat_setWidth,
      pageNat, BitVec.toNat_ofNat, Nat.shiftLeft_eq]
    omega
  have large : 14 ≤ addressBits - 12 := by omega
  have pageBelow : (BitVec.ofNat 32 page).toNat < 2 ^ (addressBits - 12) := by
    rw [pageNat]
    exact before.trans_le fits.inSpace
  have seen := mem_matchingTypes regs (numUsed_eq_length .. ▸ enough)
    (fitsRegs_solutionBlocks large entriesFit above4gb defType) (by omega)
    pageBelow
  obtain ⟨covers, only⟩ := assigns_solutionBlocks large entriesFit served inEntries reached before
  rw [address]
  apply effectiveType_eq_of_matchingTypes
  · intro different
    rw [seen, pageNat]
    exact covers different
  · intro other matching
    rw [seen, pageNat] at matching ⊢
    exact only other matching

/-- What the solver may be given: a well-formed list of the three types that
covers the first 4 GiB and stays below the physical address width and below
16 TiB. -/
structure SolverInput (addrSpace : Memranges) (addressBits : Nat) :
    Prop where
  wellFormed : WellFormed addrSpace.entries
  types : ∀ r ∈ addrSpace.entries, r.tag = mtrrTypeUncacheable ∨
    r.tag = mtrrTypeWrcomb ∨ r.tag = mtrrTypeWrback
  covered : ∀ page < 2 ^ 20, (pageTag addrSpace.entries page).isSome
  inSpace : ∀ r ∈ addrSpace.entries, r.rangeEnd.toNat < 2 ^ min 44 addressBits

theorem SolverInput.addressBits_le (input : SolverInput addrSpace addressBits) :
    32 ≤ addressBits := by
  obtain ⟨-, -, aligned⟩ := (wellFormed_iff _).mp input.wellFormed
  have last := input.covered (2 ^ 20 - 1) (by decide)
  obtain ⟨r, inside, upper⟩ : ∃ r ∈ addrSpace.entries, (2 ^ 20 - 1) * 4096 ≤ r.rangeEnd.toNat := by
    unfold pageTag at last
    rw [Option.isSome_map, List.find?_isSome] at last
    obtain ⟨r, inside, contains⟩ := last
    exact ⟨r, inside, (of_decide_eq_true contains).2⟩
  have bits : 2 ^ 31 < 2 ^ addressBits :=
    calc
      2 ^ 31 < r.rangeEnd.toNat := by omega
      _ < 2 ^ min 44 addressBits := input.inSpace r inside
      _ ≤ 2 ^ addressBits := Nat.pow_le_pow_right (by decide) (min_le_right 44 addressBits)
  exact (Nat.pow_lt_pow_iff_right (by decide)).mp bits

theorem SolverInput.reachable (input : SolverInput addrSpace addressBits)
    (low : ∀ r ∈ addrSpace.entries, r.rangeEnd.toNat < 2 ^ 44 - 2 ^ 26) :
    Endpoints (Reachable addressBits) (segments addrSpace.entries) := by
  obtain ⟨ordered, -, aligned⟩ := (wellFormed_iff _).mp input.wellFormed
  intro segment inside
  obtain ⟨lower, upper⟩ := aligned segment inside
  have nonempty := ordered.nonempty segment inside
  obtain ⟨r, inEntries, rfl⟩ := mem_segments.mp inside
  have endLow := low r inEntries
  have inBits : r.rangeEnd.toNat < 2 ^ addressBits :=
    lt_of_lt_of_le (input.inSpace r inEntries)
      (Nat.pow_le_pow_right (by decide) (min_le_right 44 addressBits))
  rw [toSegment_lower, toSegment_upper] at nonempty
  rw [toSegment_upper] at upper
  refine ⟨⟨lower, ?_, ?_⟩, ⟨upper, ?_, ?_⟩⟩ <;>
    simp only [toSegment_lower, toSegment_upper] <;> omega

/-- If the address space ends 64 MiB below the top of the 32-bit page numbers, a
solution that fits the registers gives every page from 1 MiB on the type of its
entry, uncacheable instead of write-combining if the first counting pass
exceeded the limit for both default types.  Without the large address space
this holds below 4 GiB. -/
theorem effectiveType_eq (totalMtrrs : Nat) (biosMtrrs : Int)
    (addrSpace : Memranges) (above4gb : Bool) (addressBits : Nat)
    (regs : Nat → VarMtrrRegs) (input : SolverInput addrSpace addressBits)
    (low : ∀ r ∈ addrSpace.entries, r.rangeEnd.toNat < 2 ^ 44 - 2 ^ 26) :
    let pass := calcVarMtrrsPass totalMtrrs above4gb addressBits addrSpace.entries
    let result := calcVarMtrrs totalMtrrs biosMtrrs addrSpace above4gb addressBits
    let solution := prepareVarMtrrs totalMtrrs result.addrSpace.entries
      result.defType above4gb addressBits regs
    solution.numUsed ≤ totalMtrrs →
      ∀ page tag, pageTag addrSpace.entries page = some tag →
        0x100 ≤ page → (above4gb = true ∨ page < 2 ^ 20) →
          solution.effectiveType result.defType (BitVec.ofNat 64 (page * 4096)) =
            some (if ((pass.wbDeftypeCount : Int) > biosMtrrs ∧
                (pass.ucDeftypeCount : Int) > biosMtrrs) ∧
                tag = mtrrTypeWrcomb then mtrrTypeUncacheable
              else tag) := by
  intro pass result solution enough page tag found reached near
  obtain ⟨ordered, -, -⟩ := (wellFormed_iff _).mp input.wellFormed
  have wide := input.addressBits_le
  have endpoints := input.reachable low
  have solverTags : ∀ r ∈ addrSpace.entries, SolverTag r.tag := by
    intro r inside
    rcases input.types r inside with same | same | same
    · exact Or.inl same
    · exact Or.inr (Or.inl same)
    · exact Or.inr (Or.inr (Or.inl same))
  have foundType : pageType addrSpace.entries page = some tag := by
    obtain ⟨r, inside, -, -, rfl⟩ := exists_entry_of_pageTag endpoints found
    rw [pageType, found]
    rcases input.types r inside with same | same | same <;> rw [same] <;> rfl
  obtain ⟨entries, -, -, -⟩ := calcVarMtrrs_spec totalMtrrs biosMtrrs addrSpace above4gb addressBits
  change result.addrSpace.entries = _ at entries
  have pass_eq : pass = _ := calcVarMtrrsPass_eq totalMtrrs above4gb addressBits addrSpace.entries
  rw [pass_eq]
  change solution.effectiveType result.defType _ =
    some (if Demotes biosMtrrs above4gb addrSpace.entries ∧ _ then _ else _)
  simp only [solution] at enough ⊢
  rw [entries] at enough ⊢
  by_cases demotes : Demotes biosMtrrs above4gb addrSpace.entries
  · have last : lastEntries biosMtrrs above4gb addrSpace =
        demoted above4gb addrSpace := if_pos demotes
    obtain ⟨lastOrdered, lastEndpoints⟩ := ordered_demoted above4gb ordered endpoints
    rw [last] at enough ⊢
    simp only [demotes, true_and]
    apply effectiveType_prepareVarMtrrs (by omega)
      (ordered_markAll above4gb lastOrdered)
      (endpoints_markAll above4gb lastEndpoints) enough ⟨reached, near⟩
    rw [pageType_markAll]
    exact pageType_demoted ordered solverTags foundType
  · have last : lastEntries biosMtrrs above4gb addrSpace = addrSpace.entries := if_neg demotes
    rw [last] at enough ⊢
    simp only [demotes, false_and, if_false]
    apply effectiveType_prepareVarMtrrs (by omega)
      (ordered_markAll above4gb ordered)
      (endpoints_markAll above4gb endpoints) enough ⟨reached, near⟩
    rw [pageType_markAll]
    exact foundType

/-- 3 GiB of memory, 1 GiB of device space and 1 GiB of memory above. -/
def ramAroundPciHole : Memranges where
  entries :=
    [⟨0, 0xbfffffff, mtrrTypeWrback⟩,
      ⟨0xc0000000, 0xffffffff, mtrrTypeUncacheable⟩,
      ⟨0x100000000, 0x13fffffff, mtrrTypeWrback⟩]
  freeList := 0

theorem solverInput_ramAroundPciHole : SolverInput ramAroundPciHole 36 where
  wellFormed := ⟨by decide, by decide, by decide, by decide⟩
  types := by decide
  covered page below := by
    by_cases low : page * 4096 ≤ 0xbfffffff
    · simp [pageTag, ramAroundPciHole, low]
    · have high : 0xc0000000 ≤ page * 4096 ∧ page * 4096 ≤ 0xffffffff := by
        omega
      simp [pageTag, ramAroundPciHole, low, high]
  inSpace := by decide

theorem effectiveType_eq_ramAroundPciHole :
    let regs : Nat → VarMtrrRegs := fun _ => ⟨⟨0, 0⟩, ⟨0, 0⟩⟩
    let result := calcVarMtrrs 8 8 ramAroundPciHole true 36
    let solution := prepareVarMtrrs 8 result.addrSpace.entries result.defType true 36 regs
    solution.effectiveType result.defType
        (BitVec.ofNat 64 (0x100000 * 4096)) = some mtrrTypeWrback :=
  (effectiveType_eq 8 8 ramAroundPciHole true 36
    (fun _ => ⟨⟨0, 0⟩, ⟨0, 0⟩⟩) solverInput_ramAroundPciHole (by decide)
    (by decide +kernel) 0x100000 mtrrTypeWrback (by decide) (by decide)
    (Or.inl rfl)).trans (congrArg some (if_neg fun demoted =>
      absurd demoted.2 (by decide)))

def highRam : Memranges where
  entries := [⟨0, 0xffffffff, mtrrTypeUncacheable⟩, ⟨0x100000000, 0x1ffffffff, mtrrTypeWrback⟩]
  freeList := 0

theorem solverInput_highRam : SolverInput highRam 36 where
  wellFormed := ⟨by decide, by decide, by decide, by decide⟩
  types := by decide
  covered page below := by
    have low : page * 4096 ≤ 0xffffffff := by omega
    simp [pageTag, highRam, low]
  inSpace := by decide

/-- Memory that ends 32 MiB below 16 TiB, a page of device space and the rest of
the memory. -/
def topRam : Memranges where
  entries :=
    [⟨0, 0xffffefff, mtrrTypeUncacheable⟩,
      ⟨0xfffff000, 0xffffffff, mtrrTypeWrback⟩,
      ⟨0x80000000000, 0xffffdffefff, mtrrTypeWrback⟩,
      ⟨0xffffdfff000, 0xffffdffffff, mtrrTypeUncacheable⟩,
      ⟨0xffffe000000, 0xfffffffefff, mtrrTypeWrback⟩]
  freeList := 0

theorem solverInput_topRam : SolverInput topRam 44 where
  wellFormed := ⟨by decide, by decide, by decide, by decide⟩
  types := by decide
  covered page below := by
    by_cases low : page * 4096 ≤ 0xffffefff
    · simp [pageTag, topRam, low]
    · have high : 0xfffff000 ≤ page * 4096 ∧ page * 4096 ≤ 0xffffffff := by
        omega
      simp [pageTag, topRam, low, high]
  inSpace := by decide

/-- Without the large address space, memory above 4 GiB is left uncached; in the
last 64 MiB of the page numbers, rounding up wraps around and a hole swallows
the memory behind it. -/
theorem effectiveType_ne_highRam_topRam :
    let regs : Nat → VarMtrrRegs := fun _ => ⟨⟨0, 0⟩, ⟨0, 0⟩⟩
    (let result := calcVarMtrrs 8 8 highRam false 36
    let solution := prepareVarMtrrs 8 result.addrSpace.entries result.defType false 36 regs
    SolverInput highRam 36 ∧ solution.numUsed ≤ 8 ∧
      pageTag highRam.entries 0x100000 = some mtrrTypeWrback ∧
        solution.effectiveType result.defType (BitVec.ofNat 64 (0x100000 * 4096)) =
          some mtrrTypeUncacheable) ∧
    (let result := calcVarMtrrs 8 8 topRam true 44
    let solution := prepareVarMtrrs 8 result.addrSpace.entries result.defType true 44 regs
    SolverInput topRam 44 ∧ solution.numUsed ≤ 8 ∧
      pageTag topRam.entries 0xffffe000 = some mtrrTypeWrback ∧
        solution.effectiveType result.defType (BitVec.ofNat 64 (0xffffe000 * 4096)) =
          some mtrrTypeUncacheable) :=
  ⟨⟨solverInput_highRam, by decide +kernel⟩, ⟨solverInput_topRam, by decide +kernel⟩⟩

end Coreboot.Mtrr
