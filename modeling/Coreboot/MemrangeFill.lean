import Coreboot.MemrangeRefinement

/-!
# Filling the holes between memory ranges

The walk looks at each two neighbours and puts an entry into the hole between them.
-/

namespace Coreboot.Memrange

open IntervalMap WordAlignment

/-- The end of the walk of `memranges_fill_holes_up_to`: the limit was reached at
the last entry, or never. -/
def fillUpToLimit (envRamstage : Bool) (limit : Address) (tag : Tag)
    (previous : RangeEntry) (free : Nat) (rest : List RangeEntry) :
    List RangeEntry × Nat :=
  if rangeEntryEnd previous < limit then
    let (rest, free) := rangeListAdd envRamstage free (rangeEntryEnd previous) (limit - 1) tag rest
    (previous :: rest, free)
  else (previous :: rest, free)

/-- The walk of `memranges_fill_holes_up_to` from `previous` on. -/
def fillHolesFrom (envRamstage : Bool) (limit : Address) (tag : Tag)
    (previous : RangeEntry) (free : Nat) :
    List RangeEntry → List RangeEntry × Nat
  | [] => fillUpToLimit envRamstage limit tag previous free []
  | current :: rest =>
    -- The previous entry does not directly precede the current entry.
    let (hole, free) :=
      if rangeEntryEnd previous ≠ current.rangeBegin then
        let rangeEnd := current.rangeBegin - 1
        let rangeEnd := if rangeEnd ≥ limit then limit - 1 else rangeEnd
        rangeListAdd envRamstage free (rangeEntryEnd previous) rangeEnd tag []
      else ([], free)
    let (rest, free) :=
      -- No other entries after this one are affected.
      if current.rangeBegin ≥ limit then
        fillUpToLimit envRamstage limit tag current free rest
      else fillHolesFrom envRamstage limit tag current free rest
    (previous :: (hole ++ rest), free)

def memrangesFillHolesUpTo (envRamstage : Bool) (ranges : Memranges)
    (limit : Address) (tag : Tag) : Memranges :=
  mergeNeighborEntries
    (match ranges.entries with
    | [] => ranges
    | first :: rest =>
      let (entries, freeList) := fillHolesFrom envRamstage limit tag first ranges.freeList rest
      { entries, freeList })

/-- The address ranges from the first entry up to the limit that no entry covers
get the tag, and nothing else changes. -/
def FillsHoles (ranges : Memranges) (first : RangeEntry) (limit : Address)
    (tag : Tag) (result : Memranges) : Prop :=
  WellFormed result.entries ∧
    ∀ page, pageTag result.entries page =
      if first.rangeBegin.toNat ≤ page * 4096 ∧ page * 4096 < limit.toNat then
        some ((pageTag ranges.entries page).getD tag)
      else pageTag ranges.entries page

/-- With these entries in front, an entry is the first or the second, or the one
in front of it begins below the limit. -/
def Reached (limit : Address) (before : List RangeEntry) : Prop :=
  ∀ previous, before.getLast? = some previous → before.length = 1 ∨ previous.rangeBegin < limit

/-- No hole that the walk reaches lies behind the limit, except behind an entry
with the same tag that ends at the limit; and the walk reaches no entry that ends
with the address space. -/
structure FillSafe (entries : List RangeEntry) (limit : Address) (tag : Tag) :
    Prop where
  hole : ∀ before previous current after,
    entries = before ++ previous :: current :: after →
    Reached limit (before ++ [previous]) →
    previous.rangeEnd.toNat + 1 ≠ current.rangeBegin.toNat →
    previous.rangeEnd.toNat + 1 < limit.toNat ∨
      previous.rangeEnd.toNat + 1 = limit.toNat ∧ previous.tag = tag
  top : limit ≠ 0 → ∀ before last, entries = before ++ [last] →
    Reached limit before → last.rangeEnd.toNat + 1 < 2 ^ 64

/-- The entries that `merge_neighbor_entries` leaves. -/
def mergedEntries (entries : List RangeEntry) : List RangeEntry :=
  (mergeNeighborEntries ⟨entries, 0⟩).entries

theorem mergeNeighborEntriesFrom_free (previous : RangeEntry)
    (entries : List RangeEntry) (free : Nat) :
    (mergeNeighborEntriesFrom previous free entries).1 = mergedEntries (previous :: entries) := by
  change _ = (mergeNeighborEntriesFrom previous 0 entries).1
  generalize (0 : Nat) = other
  induction entries generalizing previous free other with
  | nil => rfl
  | cons current rest ih =>
    rw [mergeNeighborEntriesFrom, mergeNeighborEntriesFrom]
    split_ifs with joined
    · exact ih _ _ _
    · exact congrArg (previous :: ·) (ih _ _ _)

theorem mergedEntries_cons (previous current : RangeEntry) (rest : List RangeEntry) :
    mergedEntries (previous :: current :: rest) =
      if previous.rangeEnd + 1 ≥ current.rangeBegin ∧ previous.tag = current.tag then
        mergedEntries ({ previous with rangeEnd := current.rangeEnd } :: rest)
      else previous :: mergedEntries (current :: rest) := by
  rw [← mergeNeighborEntriesFrom_free _ _ 0, mergeNeighborEntriesFrom]
  split_ifs with joined
  · exact mergeNeighborEntriesFrom_free _ _ _
  · exact congrArg (previous :: ·) (mergeNeighborEntriesFrom_free _ _ _)

theorem entries_mergeNeighborEntries (ranges : Memranges) :
    (mergeNeighborEntries ranges).entries = mergedEntries ranges.entries := by
  obtain ⟨entries, free⟩ := ranges
  cases entries with
  | nil => rfl
  | cons first rest => exact mergeNeighborEntriesFrom_free first rest free

variable {left right : RangeEntry}

theorem mergedEntries_fuse (front : List RangeEntry)
    (rest : List RangeEntry) (touch : left.rangeEnd + 1 ≥ right.rangeBegin)
    (same : left.tag = right.tag) :
    mergedEntries (front ++ left :: right :: rest) =
      mergedEntries (front ++ { left with rangeEnd := right.rangeEnd } :: rest) := by
  cases front with
  | nil =>
    rw [List.nil_append, List.nil_append, mergedEntries_cons, if_pos ⟨touch, same⟩]
  | cons first more =>
    induction more generalizing first with
    | nil =>
      simp only [List.cons_append, List.nil_append]
      rw [mergedEntries_cons first left, mergedEntries_cons first]
      by_cases joined : first.rangeEnd + 1 ≥ left.rangeBegin ∧ first.tag = left.tag
      · rw [if_pos joined, if_pos joined, mergedEntries_cons]
        exact if_pos ⟨touch, joined.2.trans same⟩
      · rw [if_neg joined, if_neg joined, mergedEntries_cons left, if_pos ⟨touch, same⟩]
    | cons second more ih =>
      simp only [List.cons_append] at ih ⊢
      rw [mergedEntries_cons, mergedEntries_cons, ih, ih]

theorem mergedEntries_split (front : List RangeEntry) (rest : List RangeEntry)
    (apart : ¬ (left.rangeEnd + 1 ≥ right.rangeBegin ∧ left.tag = right.tag)) :
    mergedEntries (front ++ left :: right :: rest) =
      mergedEntries (front ++ [left]) ++ mergedEntries (right :: rest) := by
  cases front with
  | nil =>
    rw [List.nil_append, mergedEntries_cons, if_neg apart]
    rfl
  | cons first more =>
    induction more generalizing first with
    | nil =>
      simp only [List.cons_append, List.nil_append]
      rw [mergedEntries_cons first left, mergedEntries_cons first left]
      by_cases joined : first.rangeEnd + 1 ≥ left.rangeBegin ∧ first.tag = left.tag
      · rw [if_pos joined, if_pos joined, mergedEntries_cons]
        exact if_neg fun again => apart ⟨again.1, joined.2.symm.trans again.2⟩
      · rw [if_neg joined, if_neg joined, mergedEntries_cons left, if_neg apart]
        rfl
    | cons second more ih =>
      simp only [List.cons_append] at ih ⊢
      rw [mergedEntries_cons, mergedEntries_cons, ih, ih]
      split_ifs
      · rfl
      · rfl

variable {entries : List RangeEntry} {before : List RangeEntry}

theorem mem_mergedEntries {merged : RangeEntry} (member : merged ∈ mergedEntries entries) :
    (∃ entry ∈ entries, merged.rangeBegin = entry.rangeBegin) ∧
      ∃ entry ∈ entries, merged.rangeEnd = entry.rangeEnd := by
  cases entries with
  | nil => cases member
  | cons first rest =>
    induction rest generalizing first with
    | nil =>
      obtain rfl := List.mem_singleton.mp member
      exact ⟨⟨merged, member, rfl⟩, merged, member, rfl⟩
    | cons second rest ih =>
      rw [mergedEntries_cons] at member
      split_ifs at member with joined
      · obtain ⟨⟨low, lowMember, begins⟩, high, highMember, ends⟩ := ih _ member
        refine ⟨?_, ?_⟩
        · rcases List.mem_cons.mp lowMember with rfl | later
          · exact ⟨first, (.head _), begins⟩
          · exact ⟨low, by simp [later], begins⟩
        · rcases List.mem_cons.mp highMember with rfl | later
          · exact ⟨second, by simp, ends⟩
          · exact ⟨high, by simp [later], ends⟩
      · rcases List.mem_cons.mp member with rfl | later
        · exact ⟨⟨merged, (.head _), rfl⟩, merged, (.head _), rfl⟩
        · obtain ⟨⟨low, lowMember, begins⟩, high, highMember, ends⟩ := ih _ later
          exact ⟨⟨low, List.mem_cons_of_mem _ lowMember, begins⟩, high,
            List.mem_cons_of_mem _ highMember, ends⟩

theorem mergedEntries_ne_nil (first : RangeEntry) (rest : List RangeEntry) :
    mergedEntries (first :: rest) ≠ [] := by
  induction rest generalizing first with
  | nil => exact List.cons_ne_nil _ _
  | cons second rest ih =>
    rw [mergedEntries_cons]
    split_ifs
    · exact ih _
    · exact List.cons_ne_nil _ _

theorem exists_mem_mergedEntries (front : List RangeEntry) (last : RangeEntry) :
    ∃ merged ∈ mergedEntries (front ++ [last]), merged.rangeEnd = last.rangeEnd := by
  cases front with
  | nil => exact ⟨last, List.mem_singleton_self last, rfl⟩
  | cons first more =>
    induction more generalizing first with
    | nil =>
      simp only [List.cons_append, List.nil_append]
      rw [mergedEntries_cons]
      split_ifs
      · exact ⟨_, List.mem_singleton_self _, rfl⟩
      · exact ⟨last, List.mem_cons_of_mem _ (List.mem_singleton_self last), rfl⟩
    | cons second more ih =>
      simp only [List.cons_append] at ih ⊢
      rw [mergedEntries_cons]
      split_ifs
      · exact ih _
      · obtain ⟨merged, member, ends⟩ := ih second
        exact ⟨merged, List.mem_cons_of_mem _ member, ends⟩

theorem pageTag_of_outside {page : Nat}
    (outside : ∀ entry ∈ entries, entry.rangeEnd.toNat < page * 4096 ∨
      page * 4096 < entry.rangeBegin.toNat) : pageTag entries page = none := by
  rw [pageTag, Option.map_eq_none_iff, List.find?_eq_none]
  intro entry member inside
  have := of_decide_eq_true inside
  have := outside entry member
  omega

theorem pageTag_of_mem (wellFormed : WellFormed entries) {entry : RangeEntry}
    (member : entry ∈ entries) {page : Nat} (lower : entry.rangeBegin.toNat ≤ page * 4096)
    (upper : page * 4096 ≤ entry.rangeEnd.toNat) : pageTag entries page = some entry.tag := by
  rw [pageTag_eq_valueAt]
  exact valueAt_of_mem ((wellFormed_iff _).mp wellFormed).1
    (mem_segments.mpr ⟨entry, member, rfl⟩) ⟨lower, Nat.lt_succ_of_le upper⟩

section Walk

variable (limit : Address) (tag : Tag)

def holeEnd (current : RangeEntry) : Address :=
  if current.rangeBegin - 1 ≥ limit then limit - 1 else current.rangeBegin - 1

def holeBetween (previous current : RangeEntry) : List RangeEntry :=
  if rangeEntryEnd previous ≠ current.rangeBegin then
    [⟨rangeEntryEnd previous, holeEnd limit current, tag⟩]
  else []

/-- The entries that `fillUpToLimit` leaves. -/
def filledUpToLimit (previous : RangeEntry) (rest : List RangeEntry) : List RangeEntry :=
  previous :: if rangeEntryEnd previous < limit then
    ⟨rangeEntryEnd previous, limit - 1, tag⟩ :: rest else rest

/-- The entries that `fillHolesFrom` leaves. -/
def filledHoles (previous : RangeEntry) : List RangeEntry → List RangeEntry
  | [] => filledUpToLimit limit tag previous []
  | current :: rest =>
    previous :: (holeBetween limit tag previous current ++
      if limit ≤ current.rangeBegin then
        filledUpToLimit limit tag current rest
      else filledHoles current rest)

theorem fillUpToLimit_entries (previous : RangeEntry) (free : Nat) (rest : List RangeEntry) :
    (fillUpToLimit true limit tag previous free rest).1 =
      filledUpToLimit limit tag previous rest := by
  rw [fillUpToLimit, filledUpToLimit]
  split_ifs
  · exact congrArg (previous :: ·) (rangeListAdd_ramstage _ _ _ _ _)
  · rfl

theorem fillHolesFrom_entries (previous : RangeEntry) (free : Nat) (rest : List RangeEntry) :
    (fillHolesFrom true limit tag previous free rest).1 = filledHoles limit tag previous rest := by
  induction rest generalizing previous free with
  | nil => exact fillUpToLimit_entries limit tag previous free []
  | cons current rest ih =>
    have later (free : Nat) : (if current.rangeBegin ≥ limit then
        fillUpToLimit true limit tag current free rest
      else fillHolesFrom true limit tag current free rest).1 =
        if limit ≤ current.rangeBegin then
          filledUpToLimit limit tag current rest
        else filledHoles limit tag current rest := by
      split_ifs
      · exact fillUpToLimit_entries limit tag current free rest
      · exact ih current free
    rw [fillHolesFrom, filledHoles, holeBetween, holeEnd]
    by_cases gap : rangeEntryEnd previous ≠ current.rangeBegin
    · simp only [if_pos gap, later, rangeListAdd_ramstage]
    · simp only [if_neg gap, later]

theorem fillHoles_entries (ranges : Memranges) {first : RangeEntry}
    {rest : List RangeEntry} (entries : ranges.entries = first :: rest) :
    (memrangesFillHolesUpTo true ranges limit tag).entries =
      mergedEntries (filledHoles limit tag first rest) := by
  rw [memrangesFillHolesUpTo, entries_mergeNeighborEntries, entries]
  exact congrArg mergedEntries (fillHolesFrom_entries limit tag first _ rest)

end Walk

section Safe

variable {limit : Address} {tag : Tag} {previous current : RangeEntry} {rest : List RangeEntry}

/-- An entry stays reached with one more in front, when the first of those in
front begins below the limit. -/
theorem Reached.cons (reached : Reached limit before)
    (below : ∀ first, before.head? = some first → first.rangeBegin < limit) :
    Reached limit (previous :: before) := by
  intro last isLast
  cases before with
  | nil => exact .inl rfl
  | cons first more =>
    rw [List.getLast?_cons_cons] at isLast
    rcases reached last isLast with one | lower
    · obtain rfl : more = [] := List.eq_nil_of_length_eq_zero (by simpa using one)
      exact .inr (below last isLast)
    · exact .inr lower

theorem FillSafe.tail (safe : FillSafe (previous :: current :: rest) limit tag)
    (below : current.rangeBegin < limit) :
    FillSafe (current :: rest) limit tag where
  hole before left right after split reached := by
    refine safe.hole (previous :: before) left right after
      (congrArg (previous :: ·) split) (reached.cons fun first isFirst => ?_)
    cases before with
    | nil =>
      cases split
      cases isFirst
      exact below
    | cons other more =>
      cases split
      cases isFirst
      exact below
  top nonzero before last split reached := by
    refine safe.top nonzero (previous :: before) last
      (congrArg (previous :: ·) split) (reached.cons fun first isFirst => ?_)
    cases before with
    | nil => cases isFirst
    | cons other more =>
      cases split
      cases isFirst
      exact below

theorem toNat_holeEnd (limit : Address)
    (order : previous.rangeEnd.toNat < current.rangeBegin.toNat) (positive : 0 < limit.toNat) :
    (holeEnd limit current).toNat + 1 = min limit.toNat current.rangeBegin.toNat := by
  have begins := toNat_pred order
  rw [holeEnd]
  split_ifs with above
  · have above := BitVec.le_def.mp above
    rw [toNat_pred (show (0 : Address).toNat < limit.toNat from positive)]
    omega
  · have below := BitVec.lt_def.mp (BitVec.not_le.mp above)
    omega

/-- The hole behind an entry is the one up to the next entry or the limit, or it
is merged into that entry. -/
theorem exists_hole (order : previous.rangeEnd.toNat < current.rangeBegin.toNat)
    (safe : FillSafe (previous :: current :: rest) limit tag) :
    ∃ added : List RangeEntry,
      segments added = hole (previous.rangeEnd.toNat + 1)
        (min limit.toNat current.rangeBegin.toNat) tag ∧
      ∀ front tail, mergedEntries (front ++ previous ::
          (holeBetween limit tag previous current ++ tail)) =
        mergedEntries (front ++ previous :: (added ++ tail)) := by
  have endAddr : (rangeEntryEnd previous).toNat = previous.rangeEnd.toNat + 1 := toNat_succ order
  by_cases touching : rangeEntryEnd previous = current.rangeBegin
  · refine ⟨[], ?_, fun front tail => ?_⟩
    · rw [hole, if_neg, segments_nil]
      have same := congrArg BitVec.toNat touching
      omega
    · rw [holeBetween, if_neg (not_not.mpr touching)]
  · have gap : previous.rangeEnd.toNat + 1 ≠ current.rangeBegin.toNat := fun same =>
      touching (BitVec.eq_of_toNat_eq (endAddr.trans same))
    rcases safe.hole [] previous current rest rfl
      (fun _ _ => .inl rfl) gap with below | ⟨atLimit, same⟩
    · refine ⟨holeBetween limit tag previous current, ?_, fun _ _ => rfl⟩
      have ends := toNat_holeEnd limit order (Nat.zero_lt_of_lt below)
      rw [holeBetween, if_pos touching, hole, if_pos (by omega), segments_cons,
        segments_nil, RangeEntry.toSegment]
      simp only [ends, endAddr]
    · have touch : previous.rangeEnd + 1 ≥ rangeEntryEnd previous := BitVec.le_refl _
      refine ⟨[], ?_, fun front tail => ?_⟩
      · rw [hole, if_neg (by omega), segments_nil]
      · rw [holeBetween, if_pos touching, List.singleton_append,
          mergedEntries_fuse front tail touch same]
        have ends : (holeEnd limit current).toNat + 1 = _ := toNat_holeEnd limit order (by omega)
        have atEnd : holeEnd limit current = previous.rangeEnd := BitVec.eq_of_toNat_eq (by omega)
        have unchanged : { previous with rangeEnd := holeEnd limit current } = previous := by
          rw [atEnd]
        rw [unchanged]
        rfl

theorem toNat_rangeEntryEnd (fits : previous.rangeEnd.toNat + 1 < 2 ^ 64) :
    (rangeEntryEnd previous).toNat = previous.rangeEnd.toNat + 1 := by
  rw [rangeEntryEnd, BitVec.toNat_add]
  exact Nat.mod_eq_of_lt fits

theorem filledUpToLimit_of_above (ordered : Ordered (segments (current :: rest)))
    (above : limit ≤ current.rangeBegin)
    (top : limit ≠ 0 → rest = [] → current.rangeEnd.toNat + 1 < 2 ^ 64) :
    filledUpToLimit limit tag current rest = current :: rest := by
  obtain ⟨nonempty, after, -⟩ := ordered_cons_entries ordered
  refine congrArg (current :: ·) (if_neg fun below => ?_)
  have nonzero : limit ≠ 0 := fun zero => by
    rw [zero] at below
    exact absurd (BitVec.lt_def.mp below) (Nat.not_lt_zero _)
  have fits : current.rangeEnd.toNat + 1 < 2 ^ 64 := by
    cases rest with
    | nil => exact top nonzero rfl
    | cons next more =>
      have before := after next (.head _)
      have := next.rangeBegin.isLt
      omega
  have below := BitVec.lt_def.mp below
  rw [toNat_rangeEntryEnd fits] at below
  have := BitVec.le_def.mp above
  omega

theorem segments_filledUpToLimit (fits : limit ≠ 0 → previous.rangeEnd.toNat + 1 < 2 ^ 64) :
    segments (filledUpToLimit limit tag previous []) =
      previous.toSegment :: hole (previous.rangeEnd.toNat + 1) limit.toNat tag := by
  refine congrArg (previous.toSegment :: ·) ?_
  by_cases zero : limit = 0
  · subst zero
    rfl
  · have ends := toNat_rangeEntryEnd (fits zero)
    have positive : (0 : Address).toNat < limit.toNat := Nat.pos_of_ne_zero fun none =>
      zero (BitVec.eq_of_toNat_eq none)
    rw [hole]
    by_cases below : rangeEntryEnd previous < limit
    · rw [if_pos below, if_pos (ends ▸ BitVec.lt_def.mp below), List.map_singleton,
        RangeEntry.toSegment]
      simp only [ends, toNat_pred positive]
    · rw [if_neg below, if_neg (ends ▸ fun less => below (BitVec.lt_def.mpr less))]
      rfl

structure Filled (limit : Address) (tag : Tag) (previous : RangeEntry)
    (rest later : List RangeEntry) : Prop where
  ordered : Ordered (segments (previous :: later))
  endpoints : Endpoints (4096 ∣ ·) (segments (previous :: later))
  values : ∀ point, valueAt (segments (previous :: later)) point =
    if previous.rangeBegin.toNat ≤ point ∧ point < limit.toNat then
      some ((valueAt (segments (previous :: rest)) point).getD tag)
    else valueAt (segments (previous :: rest)) point

theorem filledHoles_safe (ordered : Ordered (segments (previous :: rest)))
    (endpoints : Endpoints (4096 ∣ ·) (segments (previous :: rest)))
    (limitAligned : 4096 ∣ limit.toNat) (safe : FillSafe (previous :: rest) limit tag) :
    ∃ later : List RangeEntry,
      (∀ front, mergedEntries (front ++ filledHoles limit tag previous rest) =
        mergedEntries (front ++ previous :: later)) ∧
      Filled limit tag previous rest later := by
  induction rest generalizing previous with
  | nil =>
    obtain ⟨nonempty, -, -⟩ := Ordered.cons_iff.mp ordered
    have bounds := endpoints previous.toSegment (.head _)
    obtain ⟨next, room, reaches, aligned⟩ : ∃ next,
        previous.toSegment.upper ≤ next ∧ limit.toNat ≤ next ∧ 4096 ∣ next := by
      refine ⟨max limit.toNat previous.toSegment.upper, le_max_right _ _, le_max_left _ _, ?_⟩
      rcases max_choice limit.toNat previous.toSegment.upper with same | same
      · rw [same]
        exact limitAligned
      · rw [same]
        exact bounds.2
    have lists : segments (filledUpToLimit limit tag previous []) =
        previous.toSegment :: (hole previous.toSegment.upper (min limit.toNat next) tag ++ []) := by
      rw [min_eq_left reaches, List.append_nil]
      exact segments_filledUpToLimit fun nonzero =>
        safe.top nonzero [] previous rfl nofun
    have none : ∀ other ∈ ([] : List (Segment Tag)), next ≤ other.lower := nofun
    refine ⟨_, fun _ => rfl, ?_, ?_, fun point => ?_⟩
    all_goals rw [show segments (previous :: _) = _ from lists]
    · exact .fill nonempty Ordered.nil room none
    · exact .fill bounds.1 bounds.2 limitAligned aligned fun _ member => nomatch member
    · exact valueAt_fill nonempty room none (fun other => (if_neg (by omega)).symm) point
  | cons current rest ih =>
    obtain ⟨nonempty, after, restOrdered⟩ := ordered_cons_entries ordered
    have order := after current (.head _)
    have bounds := endpoints previous.toSegment (.head _)
    have restEndpoints : Endpoints (4096 ∣ ·) (segments (current :: rest)) :=
      (List.forall_mem_cons.mp endpoints).2
    obtain ⟨added, addedSegments, merges⟩ := exists_hole order safe
    obtain ⟨later, same, filled⟩ : ∃ later : List RangeEntry,
        (∀ front, mergedEntries (front ++
          if limit ≤ current.rangeBegin then
            filledUpToLimit limit tag current rest
          else filledHoles limit tag current rest) = mergedEntries (front ++ current :: later)) ∧
        Filled limit tag current rest later := by
      by_cases above : limit ≤ current.rangeBegin
      · refine ⟨rest, fun front => ?_, restOrdered, restEndpoints, fun point => ?_⟩
        · rw [if_pos above, filledUpToLimit_of_above restOrdered above]
          rintro nonzero rfl
          exact safe.top nonzero [previous] current rfl fun _ _ => .inl rfl
        · have := BitVec.le_def.mp above
          rw [if_neg (by omega)]
      · rw [if_neg above]
        exact ih restOrdered restEndpoints (safe.tail (BitVec.not_le.mp above))
    refine ⟨added ++ current :: later, fun front => ?_, ?_, ?_, ?_⟩
    · rw [filledHoles, merges, ← List.cons_append, ← List.append_assoc, same, List.append_assoc]
      rfl
    all_goals rw [segments_cons, show segments (added ++ current :: later) =
      segments added ++ segments (current :: later) from List.map_append,
      addedSegments]
    · exact .fill (Nat.lt_succ_of_le nonempty) filled.ordered order filled.ordered.head_le
    · exact .fill bounds.1 bounds.2 limitAligned
        (restEndpoints _ (.head _)).1 filled.endpoints
    · exact valueAt_fill (Nat.lt_succ_of_le nonempty) order restOrdered.head_le filled.values

theorem fillsHoles_of_safe {ranges : Memranges} {first : RangeEntry}
    (entries : ranges.entries = first :: rest) (wellFormed : WellFormed ranges.entries)
    (limitAligned : 4096 ∣ limit.toNat) (safe : FillSafe ranges.entries limit tag) :
    FillsHoles ranges first limit tag (memrangesFillHolesUpTo true ranges limit tag) := by
  rw [entries] at wellFormed safe
  obtain ⟨ordered, -, endpoints⟩ := (wellFormed_iff _).mp wellFormed
  obtain ⟨later, same, filled⟩ := filledHoles_safe ordered endpoints limitAligned safe
  have result : (memrangesFillHolesUpTo true ranges limit tag).entries =
      mergedEntries (first :: later) :=
    (fillHoles_entries limit tag ranges entries).trans (same [])
  have merged : segments (mergedEntries (first :: later)) = coalesce (segments (first :: later)) :=
    segments_mergeNeighborEntries filled.ordered
  constructor
  · rw [result, wellFormed_iff, merged]
    exact ⟨filled.ordered.coalesce, coalesce_canonical filled.ordered, filled.endpoints.coalesce⟩
  · intro page
    rw [result, entries, pageTag_eq_valueAt, pageTag_eq_valueAt, merged,
      valueAt_coalesce filled.ordered]
    exact filled.values (page * 4096)

end Safe

section Unsafe

variable {limit : Address} (tag : Tag)

variable {after : List RangeEntry}

theorem filledHoles_of_reached {previous : RangeEntry}
    (before : List RangeEntry) {first : RangeEntry} {rest : List RangeEntry}
    (split : first :: rest = before ++ previous :: after)
    (ordered : Ordered (segments (first :: rest)))
    (reached : before = [] ∨ previous.rangeBegin < limit) :
    ∃ front : List RangeEntry,
      filledHoles limit tag first rest = front ++ filledHoles limit tag previous after ∧
      ∀ entry ∈ front, entry.rangeEnd.toNat < previous.rangeBegin.toNat := by
  induction before generalizing first rest with
  | nil =>
    cases split
    exact ⟨[], rfl, fun _ member => nomatch member⟩
  | cons head more ih =>
    obtain ⟨rfl, restSplit⟩ := List.cons.inj split
    have below : previous.rangeBegin < limit := reached.resolve_left (List.cons_ne_nil _ _)
    obtain ⟨nonempty, later, restOrdered⟩ := ordered_cons_entries ordered
    cases rest with
    | nil => exact absurd restSplit.symm (by simp)
    | cons second rest =>
      obtain ⟨front, parts, ends⟩ := ih restSplit restOrdered (.inr below)
      have secondBelow : second.rangeBegin.toNat ≤ previous.rangeBegin.toNat := by
        have inside : previous ∈ second :: rest := by
          rw [restSplit]
          simp
        exact restOrdered.head_le previous.toSegment (mem_segments.mpr ⟨previous, inside, rfl⟩)
      have order := later second (.head _)
      have limitAbove := BitVec.lt_def.mp below
      refine ⟨first :: (holeBetween limit tag first second ++ front), ?_, ?_⟩
      · rw [filledHoles, if_neg, parts]
        · simp
        · rw [BitVec.le_def]
          omega
      · intro entry member
        rcases List.mem_cons.mp member with rfl | member
        · omega
        rcases List.mem_append.mp member with inHole | inFront
        · rw [holeBetween] at inHole
          split_ifs at inHole
          · rw [List.mem_singleton.mp inHole]
            have := toNat_holeEnd limit order (by omega)
            simp only
            omega
          · cases inHole
        · exact ends entry inFront

variable {ranges : Memranges} {first : RangeEntry} {rest : List RangeEntry} {last : RangeEntry}

def lastPage : Nat := 2 ^ 52 - 1

/-- A walk that reaches an entry at the end of the address space puts the rest
up to the limit behind it. -/
theorem filledHoles_of_wraps
    (split : first :: rest = before ++ [last]) (ordered : Ordered (segments (first :: rest)))
    (reached : Reached limit before) (positive : 0 < limit.toNat) (wraps : rangeEntryEnd last = 0) :
    ∃ front : List RangeEntry,
      filledHoles limit tag first rest = front ++ [last, ⟨0, limit - 1, tag⟩] ∧
      ∀ entry ∈ front, entry.rangeEnd.toNat < last.rangeBegin.toNat := by
  have ending : filledUpToLimit limit tag last [] = [last, ⟨0, limit - 1, tag⟩] := by
    have below : (0 : Address) < limit := BitVec.lt_def.mpr positive
    rw [filledUpToLimit, wraps, if_pos below]
  rcases List.eq_nil_or_concat before with rfl | ⟨more, previous, rfl⟩
  · cases split
    exact ⟨[], ending, fun _ member => nomatch member⟩
  · rw [List.concat_eq_append, List.append_assoc, List.singleton_append] at split
    have parts : Ordered (segments [previous, last]) := by
      have inside : (segments [previous, last]).Sublist (segments (first :: rest)) := by
        rw [split]
        exact (List.sublist_append_right more _).map _
      exact ⟨fun other member => ordered.nonempty other (inside.subset member),
        ordered.separated.sublist inside⟩
    obtain ⟨previousOrder, after, -⟩ := ordered_cons_entries parts
    have order := after last (.head _)
    have low : more = [] ∨ previous.rangeBegin < limit := by
      rcases reached previous (by simp) with one | below
      · exact .inl (by simpa using one)
      · exact .inr below
    obtain ⟨front, parts, ends⟩ := filledHoles_of_reached tag more split ordered low
    refine ⟨front ++ previous :: holeBetween limit tag previous last, ?_, ?_⟩
    · have either : (if limit ≤ last.rangeBegin then
          filledUpToLimit limit tag last []
        else filledHoles limit tag last []) = [last, ⟨0, limit - 1, tag⟩] :=
        (ite_self _).trans ending
      rw [parts, filledHoles, either]
      simp
    · intro entry member
      rcases List.mem_append.mp member with inFront | behind
      · have := ends entry inFront
        omega
      rcases List.mem_cons.mp behind with rfl | inHole
      · exact order
      · rw [holeBetween] at inHole
        split_ifs at inHole
        · rw [List.mem_singleton.mp inHole]
          have := toNat_holeEnd limit order positive
          simp only
          omega
        · cases inHole

variable {tag}

theorem top_of_fillsHoles (entries : ranges.entries = first :: rest)
    (wellFormed : WellFormed ranges.entries) (limitAligned : 4096 ∣ limit.toNat)
    (fills : FillsHoles ranges first limit tag (memrangesFillHolesUpTo true ranges limit tag))
    (nonzero : limit ≠ 0) (before : List RangeEntry)
    (split : ranges.entries = before ++ [last]) (reached : Reached limit before) :
    last.rangeEnd.toNat + 1 < 2 ^ 64 := by
  by_contra wraps
  have lastMember : last ∈ ranges.entries := by simp [split]
  have lastBound := last.rangeEnd.isLt
  have limitBound := limit.isLt
  have lastOrder := BitVec.le_def.mp (wellFormed.nonempty last lastMember)
  have lastAligned := wellFormed.aligned last lastMember
  have positive : 0 < limit.toNat := Nat.pos_of_ne_zero fun none =>
    nonzero (BitVec.eq_of_toNat_eq none)
  have endAddr : rangeEntryEnd last = 0 := by
    apply BitVec.eq_of_toNat_eq
    rw [rangeEntryEnd, BitVec.toNat_add, show (1 : Address).toNat = 1 from rfl,
      show last.rangeEnd.toNat + 1 = 2 ^ 64 by omega]
    rfl
  rw [entries] at split
  obtain ⟨front, parts, ends⟩ := filledHoles_of_wraps tag split
    ((wellFormed_iff _).mp (entries ▸ wellFormed)).1 reached positive endAddr
  obtain ⟨resultWellFormed, pages⟩ := fills
  rw [fillHoles_entries limit tag ranges entries, parts] at resultWellFormed pages
  have limitEnd := toNat_pred (show (0 : Address).toNat < limit.toNat from positive)
  by_cases same : last.tag = tag
  · -- The entry is cut off at the limit, and its last page is lost.
    have touch : last.rangeEnd + 1 ≥ (0 : Address) := BitVec.le_def.mpr (Nat.zero_le _)
    rw [mergedEntries_fuse front [] touch same] at pages
    have page := pages lastPage
    rw [pageTag_of_mem wellFormed lastMember (by unfold lastPage; omega)
      (by unfold lastPage; omega), pageTag_of_outside] at page
    · split_ifs at page
    · intro entry member
      obtain ⟨-, source, sourceMember, sameEnd⟩ := mem_mergedEntries member
      rw [sameEnd]
      left
      unfold lastPage
      rcases List.mem_append.mp sourceMember with inFront | isLast
      · have := ends source inFront
        omega
      · rw [List.mem_singleton.mp isLast]
        simp only
        omega
  · -- The added entry begins at the bottom, behind the others.
    rw [mergedEntries_split front [] fun joined => same joined.2] at resultWellFormed
    obtain ⟨merged, member, -⟩ := exists_mem_mergedEntries front last
    have sorted := (List.pairwise_append.mp resultWellFormed.sorted).2.2 merged
      member _ (.head _)
    exact absurd (BitVec.lt_def.mp sorted) (Nat.not_lt_zero _)

theorem nonzero_of_wellFormed (front : List RangeEntry) (cut : RangeEntry) {current : RangeEntry}
    (atLimit : cut.rangeEnd = limit - 1) (apart : ¬ limit - 1 + 1 ≥ current.rangeBegin)
    (wellFormed : WellFormed (mergedEntries (front ++ cut :: current :: after))) : limit ≠ 0 := by
  rintro rfl
  rw [mergedEntries_split front after fun joined => apart (atLimit ▸ joined.1)] at wellFormed
  obtain ⟨merged, member, ends⟩ := exists_mem_mergedEntries front cut
  obtain ⟨next, nextMember⟩ := List.exists_mem_of_ne_nil _ (mergedEntries_ne_nil current after)
  have sorted := BitVec.lt_def.mp ((List.pairwise_append.mp wellFormed.sorted).2.2
    merged member next nextMember)
  rw [ends, atLimit] at sorted
  have top : ((0 : Address) - 1).toNat = 2 ^ 64 - 1 := by decide
  have bound := next.rangeBegin.isLt
  omega

theorem hole_of_fillsHoles (entries : ranges.entries = first :: rest)
    (wellFormed : WellFormed ranges.entries) (limitAligned : 4096 ∣ limit.toNat)
    (fills : FillsHoles ranges first limit tag (memrangesFillHolesUpTo true ranges limit tag))
    {previous current : RangeEntry}
    (split : ranges.entries = before ++ previous :: current :: after)
    (reached : Reached limit (before ++ [previous]))
    (gap : previous.rangeEnd.toNat + 1 ≠ current.rangeBegin.toNat) :
    previous.rangeEnd.toNat + 1 < limit.toNat ∨
      previous.rangeEnd.toNat + 1 = limit.toNat ∧ previous.tag = tag := by
  by_contra unsafe'
  obtain ⟨notBelow, notSame⟩ := not_or.mp unsafe'
  have ordered := ((wellFormed_iff _).mp wellFormed).1
  have previousMember : previous ∈ ranges.entries := by simp [split]
  have previousAligned := wellFormed.aligned previous previousMember
  have previousOrder := BitVec.le_def.mp (wellFormed.nonempty previous previousMember)
  have orderedPart : Ordered (segments (previous :: current :: after)) := by
    have inside : (segments (previous :: current :: after)).Sublist (segments ranges.entries) := by
      rw [split]
      exact (List.sublist_append_right before _).map _
    exact ⟨fun other member => ordered.nonempty other (inside.subset member),
      ordered.separated.sublist inside⟩
  obtain ⟨-, orders, currentOrdered⟩ := ordered_cons_entries orderedPart
  have order := orders current (.head _)
  have currentAbove : limit ≤ current.rangeBegin := BitVec.le_def.mpr (by omega)
  have low : before = [] ∨ previous.rangeBegin < limit := by
    rcases reached previous (by simp) with one | below
    · exact .inl (by simpa using one)
    · exact .inr below
  have topSafe : limit ≠ 0 → after = [] → current.rangeEnd.toNat + 1 < 2 ^ 64 := by
    rintro nonzero rfl
    exact top_of_fillsHoles entries wellFormed limitAligned fills nonzero
      (before ++ [previous]) (by simp [split]) reached
  have endAddr : (rangeEntryEnd previous).toNat = previous.rangeEnd.toNat + 1 := toNat_succ order
  obtain ⟨front, parts, ends⟩ := filledHoles_of_reached tag before
    (entries.symm.trans split) (entries ▸ ordered) low
  have added : holeBetween limit tag previous current =
      [⟨rangeEntryEnd previous, limit - 1, tag⟩] := by
    have begins := toNat_pred order
    rw [holeBetween, if_pos fun same => gap (endAddr ▸ congrArg _ same), holeEnd,
      if_pos (BitVec.le_def.mpr (by omega))]
  have walked : filledHoles limit tag first rest =
      front ++ previous :: ⟨rangeEntryEnd previous, limit - 1, tag⟩ :: current :: after := by
    rw [parts, filledHoles, if_pos currentAbove, added,
      filledUpToLimit_of_above currentOrdered currentAbove topSafe]
    rfl
  have apart : ¬ limit - 1 + 1 ≥ current.rangeBegin := by
    rw [BitVec.sub_add_cancel, ge_iff_le, BitVec.le_def]
    omega
  obtain ⟨resultWellFormed, pages⟩ := fills
  rw [fillHoles_entries limit tag ranges entries, walked] at resultWellFormed pages
  by_cases same : previous.tag = tag
  · -- The entry in front of the hole is cut off at the limit.
    have touch : previous.rangeEnd + 1 ≥ rangeEntryEnd previous := BitVec.le_refl _
    have strict : previous.rangeEnd.toNat + 1 ≠ limit.toNat := fun equal =>
      notSame ⟨equal, same⟩
    rw [mergedEntries_fuse front (current :: after) touch same] at resultWellFormed pages
    have nonzero := nonzero_of_wellFormed front _ rfl apart resultWellFormed
    have positive : 0 < limit.toNat := Nat.pos_of_ne_zero fun none =>
      nonzero (BitVec.eq_of_toNat_eq none)
    have limitEnd := toNat_pred (show (0 : Address).toNat < limit.toNat from positive)
    rw [mergedEntries_split front after fun joined => apart joined.1] at pages
    have lost := pages (previous.rangeEnd.toNat / 4096)
    rw [pageTag_of_mem wellFormed previousMember (by omega) (by omega), pageTag_of_outside] at lost
    · split_ifs at lost
    · intro entry member
      rcases List.mem_append.mp member with left | right
      · obtain ⟨-, source, sourceMember, sameEnd⟩ := mem_mergedEntries left
        rw [sameEnd]
        left
        rcases List.mem_append.mp sourceMember with inFront | isLast
        · have := ends source inFront
          omega
        · rw [List.mem_singleton.mp isLast]
          simp only
          omega
      · obtain ⟨⟨source, sourceMember, sameBegin⟩, -⟩ := mem_mergedEntries right
        rw [sameBegin]
        right
        have : current.rangeBegin.toNat ≤ source.rangeBegin.toNat :=
          currentOrdered.head_le source.toSegment (mem_segments.mpr ⟨source, sourceMember, rfl⟩)
        omega
  · -- The added entry ends before it begins.
    have nonzero := nonzero_of_wellFormed (front ++ [previous])
      ⟨rangeEntryEnd previous, limit - 1, tag⟩ rfl apart
      (by rw [List.append_assoc]; exact resultWellFormed)
    have positive : 0 < limit.toNat := Nat.pos_of_ne_zero fun none =>
      nonzero (BitVec.eq_of_toNat_eq none)
    have limitEnd := toNat_pred (show (0 : Address).toNat < limit.toNat from positive)
    rw [mergedEntries_split front _ fun joined => same joined.2,
      mergedEntries_cons, if_neg fun joined => apart joined.1] at resultWellFormed
    have addedOrder := BitVec.le_def.mp (resultWellFormed.nonempty
      ⟨rangeEntryEnd previous, limit - 1, tag⟩
      (List.mem_append_right _ (.head _)))
    rw [endAddr] at addedOrder
    simp only at addedOrder
    omega

/-- The holes are filled exactly when none that the walk reaches is behind the
limit. -/
theorem fillsHoles_iff (entries : ranges.entries = first :: rest)
    (wellFormed : WellFormed ranges.entries) (limitAligned : 4096 ∣ limit.toNat) :
    FillsHoles ranges first limit tag (memrangesFillHolesUpTo true ranges limit tag) ↔
      FillSafe ranges.entries limit tag := by
  constructor
  · intro fills
    exact
      { hole := fun _ _ _ _ =>
          hole_of_fillsHoles entries wellFormed limitAligned fills
        top := fun nonzero before _ =>
          top_of_fillsHoles entries wellFormed limitAligned fills nonzero before }
  · exact fillsHoles_of_safe entries wellFormed limitAligned

end Unsafe

theorem fillsHoles_iff_legacyHole :
    FillsHoles ⟨[⟨0, 0x9ffff, 6⟩, ⟨0xc0000, 0x7fffffff, 6⟩], 0⟩
        ⟨0, 0x9ffff, 6⟩ 0x100000000 0
        (memrangesFillHolesUpTo true
          ⟨[⟨0, 0x9ffff, 6⟩, ⟨0xc0000, 0x7fffffff, 6⟩], 0⟩ 0x100000000 0) ↔
      FillSafe [⟨0, 0x9ffff, 6⟩, ⟨0xc0000, 0x7fffffff, 6⟩] 0x100000000 0 :=
  fillsHoles_iff rfl ⟨by decide, by decide, by decide, by decide⟩ (by decide)

example : (memrangesFillHolesUpTo true
    ⟨[⟨0, 0x9ffff, 6⟩, ⟨0xc0000, 0x7fffffff, 6⟩], 0⟩ 0x100000000 0).entries =
      [⟨0, 0x9ffff, 6⟩, ⟨0xa0000, 0xbffff, 0⟩, ⟨0xc0000, 0x7fffffff, 6⟩,
        ⟨0x80000000, 0xffffffff, 0⟩] := by decide

/-- Cached flash that ends at the limit of 4 GiB, with a hole in front of the
memory above. -/
def flashBelowLimit : Memranges := ⟨[⟨0xff000000, 0xffffffff, 6⟩, ⟨0x200000000, 0x2ffffffff, 6⟩], 0⟩

theorem not_fillsHoles_flashBelowLimit :
    WellFormed flashBelowLimit.entries ∧
      ¬ FillsHoles flashBelowLimit ⟨0xff000000, 0xffffffff, 6⟩ 0x100000000 0
        (memrangesFillHolesUpTo true flashBelowLimit 0x100000000 0) := by
  refine ⟨⟨by decide, by decide, by decide, by decide⟩, ?_⟩
  rintro ⟨wellFormed, -⟩
  exact absurd (wellFormed.nonempty ⟨0x100000000, 0xffffffff, 0⟩ (by decide)) (by decide)

end Coreboot.Memrange
