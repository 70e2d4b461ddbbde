import Mathlib.Data.List.Chain
import Mathlib.Data.List.Basic
import Mathlib.Order.MinMax

/-!
# Finite maps given by lists of half-open intervals

A list of intervals denotes a partial map: a point has the value of the first interval that
contains it.
-/

namespace Coreboot

/-- A half-open interval of natural numbers that carries one value. -/
structure Segment (β : Type*) where
  lower : Nat
  upper : Nat
  value : β
deriving DecidableEq, Repr

namespace Segment

variable {β : Type*}

abbrev Contains (segment : Segment β) (point : Nat) : Prop :=
  segment.lower ≤ point ∧ point < segment.upper

/-- The parts of a segment on both sides of a removed range. -/
def minus (segment : Segment β) (lower upper : Nat) : List (Segment β) :=
  (if segment.lower < min segment.upper lower then
      [⟨segment.lower, min segment.upper lower, segment.value⟩] else []) ++
    (if max segment.lower upper < segment.upper then
      [⟨max segment.lower upper, segment.upper, segment.value⟩] else [])

variable {segment : Segment β} {lower upper : Nat}

theorem minus_of_disjoint (nonempty : segment.lower < segment.upper) (ordered : lower ≤ upper)
    (disjoint : upper ≤ segment.lower ∨ segment.upper ≤ lower) :
    segment.minus lower upper = [segment] := by
  unfold minus
  rcases disjoint with before | after
  · rw [if_neg (by omega), if_pos (by omega), max_eq_left before]
    rfl
  · rw [if_pos (by omega), if_neg (by omega), min_eq_left after]
    rfl

theorem minus_of_covered (atLower : lower ≤ segment.lower)
    (atUpper : segment.upper ≤ upper) : segment.minus lower upper = [] := by
  unfold minus
  rw [if_neg (by omega), if_neg (by omega)]
  rfl

theorem minus_of_front (atLower : lower ≤ segment.lower)
    (meets : segment.lower ≤ upper) (inside : upper < segment.upper) :
    segment.minus lower upper = [⟨upper, segment.upper, segment.value⟩] := by
  unfold minus
  rw [if_neg (by omega), if_pos (by omega), max_eq_right meets]
  rfl

theorem minus_of_back (inside : segment.lower < lower) (meets : lower ≤ segment.upper)
    (atUpper : segment.upper ≤ upper) (nonempty : segment.lower < segment.upper) :
    segment.minus lower upper = [⟨segment.lower, lower, segment.value⟩] := by
  unfold minus
  rw [if_pos (by omega), if_neg (by omega), min_eq_right meets]
  rfl

theorem minus_of_middle (atLower : segment.lower < lower)
    (range : lower ≤ upper) (atUpper : upper < segment.upper) :
    segment.minus lower upper =
      [⟨segment.lower, lower, segment.value⟩, ⟨upper, segment.upper, segment.value⟩] := by
  unfold minus
  rw [if_pos (by omega), if_pos (by omega), min_eq_right (by omega), max_eq_right (by omega)]
  rfl

theorem mem_minus {piece : Segment β} (member : piece ∈ segment.minus lower upper) :
    segment.lower ≤ piece.lower ∧ piece.upper ≤ segment.upper ∧
      piece.lower < piece.upper ∧ piece.value = segment.value ∧
      (piece.upper ≤ lower ∨ upper ≤ piece.lower) := by
  unfold minus at member
  rcases List.mem_append.mp member with first | second
  · split at first
    · rename_i nonempty
      obtain rfl := List.mem_singleton.mp first
      exact ⟨le_rfl, min_le_left _ _, nonempty, rfl, Or.inl (min_le_right _ _)⟩
    · simp at first
  · split at second
    · rename_i nonempty
      obtain rfl := List.mem_singleton.mp second
      exact ⟨le_max_left _ _, le_rfl, nonempty, rfl, Or.inr (le_max_right _ _)⟩
    · simp at second

end Segment

namespace IntervalMap

variable {β : Type*} {rest : List (Segment β)}

/-- The value stored at a point, if some interval of the list contains it. -/
def valueAt : List (Segment β) → Nat → Option β
  | [], _ => none
  | segment :: rest, point =>
    if segment.Contains point then some segment.value
    else valueAt rest point

@[simp]
theorem valueAt_nil (point : Nat) : valueAt ([] : List (Segment β)) point = none := rfl

theorem valueAt_cons (segment : Segment β) (rest : List (Segment β)) (point : Nat) :
    valueAt (segment :: rest) point =
      if segment.Contains point then some segment.value
      else valueAt rest point :=
  rfl

theorem valueAt_append (first second : List (Segment β)) (point : Nat) :
    valueAt (first ++ second) point = (valueAt first point).or (valueAt second point) := by
  induction first with
  | nil => simp
  | cons segment rest ih =>
    rw [List.cons_append, valueAt_cons, valueAt_cons, ih]
    split <;> rfl

/-- The intervals of the list are non-empty, in increasing order and pairwise
disjoint. -/
structure Ordered (segments : List (Segment β)) : Prop where
  nonempty : ∀ segment ∈ segments, segment.lower < segment.upper
  separated : segments.Pairwise fun first second =>
    first.upper ≤ second.lower

namespace Ordered

theorem nil : Ordered ([] : List (Segment β)) := ⟨by simp, List.Pairwise.nil⟩

theorem cons_iff {segment : Segment β} :
    Ordered (segment :: rest) ↔
      segment.lower < segment.upper ∧
        (∀ other ∈ rest, segment.upper ≤ other.lower) ∧ Ordered rest := by
  constructor
  · intro ordered
    obtain ⟨after, separated⟩ := List.pairwise_cons.mp ordered.separated
    exact ⟨ordered.nonempty segment (by simp), after,
      ⟨fun other member => ordered.nonempty other (by simp [member]), separated⟩⟩
  · rintro ⟨nonempty, after, ordered⟩
    exact ⟨List.forall_mem_cons.mpr ⟨nonempty, ordered.nonempty⟩,
      List.pairwise_cons.mpr ⟨after, ordered.separated⟩⟩

theorem tail {segment : Segment β} (ordered : Ordered (segment :: rest)) : Ordered rest :=
  (cons_iff.mp ordered).2.2

theorem head_le {segment : Segment β} (ordered : Ordered (segment :: rest)) :
    ∀ other ∈ segment :: rest, segment.lower ≤ other.lower := by
  obtain ⟨nonempty, after, -⟩ := cons_iff.mp ordered
  intro other member
  rcases List.mem_cons.mp member with rfl | later
  · exact le_rfl
  · exact nonempty.le.trans (after other later)

end Ordered

def erase (segments : List (Segment β)) (lower upper : Nat) : List (Segment β) :=
  segments.flatMap fun segment => segment.minus lower upper

@[simp]
theorem erase_nil (lower upper : Nat) : erase ([] : List (Segment β)) lower upper = [] := rfl

theorem erase_cons (segment : Segment β) (rest : List (Segment β)) (lower upper : Nat) :
    erase (segment :: rest) lower upper = segment.minus lower upper ++ erase rest lower upper := by
  simp [erase]

variable {segments list : List (Segment β)} {lower upper point : Nat}
  {segment previous : Segment β} {value : β} {other : Segment β}

theorem erase_of_before (ordered : Ordered segments) (range : lower ≤ upper)
    (before : ∀ segment ∈ segments, upper ≤ segment.lower) :
    erase segments lower upper = segments := by
  induction segments with
  | nil => rfl
  | cons segment rest ih =>
    obtain ⟨nonempty, -, restOrdered⟩ := Ordered.cons_iff.mp ordered
    rw [erase_cons, Segment.minus_of_disjoint nonempty range
      (Or.inl (before segment (by simp))),
      ih restOrdered fun other member => before other (by simp [member])]
    rfl

private theorem valueAt_guarded (condition : Prop) [Decidable condition]
    (segment : Segment β) (point : Nat) :
    valueAt (if condition then [segment] else []) point =
      if condition ∧ segment.Contains point then some segment.value
      else none := by
  by_cases holds : condition <;> simp [holds, valueAt_cons]

private theorem valueAt_minus (range : lower ≤ upper) (point : Nat) :
    valueAt (segment.minus lower upper) point =
      if segment.Contains point ∧ ¬ (lower ≤ point ∧ point < upper) then
        some segment.value
      else none := by
  simp only [Segment.minus, valueAt_append, valueAt_guarded, Segment.Contains]
  by_cases before : point < lower
  · by_cases inside : segment.lower ≤ point ∧ point < segment.upper
    · rw [if_pos (by omega), if_neg (by omega), if_pos (by omega)]
      rfl
    · rw [if_neg (by omega), if_neg (by omega), if_neg (by omega)]
      rfl
  · by_cases kept : upper ≤ point ∧ segment.lower ≤ point ∧ point < segment.upper
    · rw [if_neg (by omega), if_pos (by omega), if_pos (by omega)]
      rfl
    · rw [if_neg (by omega), if_neg (by omega), if_neg (by omega)]
      rfl

theorem valueAt_erase (segments : List (Segment β)) (range : lower ≤ upper) (point : Nat) :
    valueAt (erase segments lower upper) point =
      if lower ≤ point ∧ point < upper then none
      else valueAt segments point := by
  induction segments with
  | nil => simp
  | cons segment rest ih =>
    rw [erase_cons, valueAt_append, ih, valueAt_minus range, valueAt_cons]
    by_cases removed : lower ≤ point ∧ point < upper
    · rw [if_neg (by tauto), if_pos removed, if_pos removed]
      rfl
    · rw [if_neg removed, if_neg removed]
      by_cases inside : segment.Contains point
      · rw [if_pos ⟨inside, removed⟩, if_pos inside]
        rfl
      · rw [if_neg (by tauto), if_neg inside]
        rfl

theorem mem_erase {piece : Segment β} (member : piece ∈ erase segments lower upper) :
    ∃ segment ∈ segments, piece ∈ segment.minus lower upper :=
  List.mem_flatMap.mp member

theorem erase_avoids {piece : Segment β} (member : piece ∈ erase segments lower upper) :
    piece.upper ≤ lower ∨ upper ≤ piece.lower := by
  obtain ⟨segment, -, pieceMem⟩ := mem_erase member
  exact (Segment.mem_minus pieceMem).2.2.2.2

private theorem ordered_minus (range : lower ≤ upper) : Ordered (segment.minus lower upper) := by
  refine ⟨fun piece member => (Segment.mem_minus member).2.2.1, ?_⟩
  unfold Segment.minus
  split_ifs <;> simp [range]

theorem Ordered.erase (ordered : Ordered segments) (range : lower ≤ upper) :
    Ordered (erase segments lower upper) := by
  induction segments with
  | nil => exact Ordered.nil
  | cons segment rest ih =>
    obtain ⟨-, after, restOrdered⟩ := Ordered.cons_iff.mp ordered
    have pieces : Ordered (segment.minus lower upper) := ordered_minus range
    have remaining := ih restOrdered
    rw [erase_cons]
    refine ⟨?_, List.pairwise_append.mpr ⟨pieces.separated, remaining.separated, ?_⟩⟩
    · exact List.forall_mem_append.mpr ⟨pieces.nonempty, remaining.nonempty⟩
    · intro piece pieceMem other otherMem
      obtain ⟨source, sourceMem, inSource⟩ := mem_erase otherMem
      have pieceBound := (Segment.mem_minus pieceMem).2.1
      have otherBound := (Segment.mem_minus inSource).1
      have sourceBound := after source sourceMem
      omega

/-- Place a segment before the first interval that starts after it. -/
def insert (segment : Segment β) : List (Segment β) → List (Segment β)
  | [] => [segment]
  | current :: rest =>
    if segment.upper ≤ current.lower then segment :: current :: rest
    else current :: insert segment rest

theorem mem_insert :
    other ∈ insert segment segments ↔ other = segment ∨ other ∈ segments := by
  induction segments with
  | nil => simp [insert]
  | cons current rest ih =>
    unfold insert
    split
    · simp
    · simp [ih]
      tauto

theorem valueAt_insert (avoids : ∀ other ∈ segments,
      other.upper ≤ segment.lower ∨ segment.upper ≤ other.lower) (point : Nat) :
    valueAt (insert segment segments) point =
      if segment.Contains point then some segment.value
      else valueAt segments point := by
  induction segments with
  | nil => rfl
  | cons current rest ih =>
    unfold insert
    split
    · rfl
    · rw [valueAt_cons, ih fun other member => avoids other (by simp [member]), valueAt_cons]
      have apart := avoids current (by simp)
      by_cases inside : segment.Contains point
      · rw [if_neg (by omega), if_pos inside, if_pos inside]
      · rw [if_neg inside, if_neg inside]

theorem Ordered.insert (ordered : Ordered segments) (nonempty : segment.lower < segment.upper)
    (avoids : ∀ other ∈ segments, other.upper ≤ segment.lower ∨ segment.upper ≤ other.lower) :
    Ordered (insert segment segments) := by
  induction segments with
  | nil => exact Ordered.cons_iff.mpr ⟨nonempty, by simp, ordered⟩
  | cons current rest ih =>
    obtain ⟨currentNonempty, after, restOrdered⟩ := Ordered.cons_iff.mp ordered
    unfold IntervalMap.insert
    split
    · rename_i before
      refine Ordered.cons_iff.mpr ⟨nonempty, ?_, ordered⟩
      intro other member
      rcases List.mem_cons.mp member with rfl | member
      · exact before
      · have := after other member
        omega
    · rename_i notBefore
      refine Ordered.cons_iff.mpr ⟨currentNonempty, ?_,
        ih restOrdered fun other member => avoids other (by simp [member])⟩
      intro other member
      rcases mem_insert.mp member with rfl | member
      · have := avoids current (by simp)
        omega
      · exact after other member

def mapValues (rename : β → β) (segments : List (Segment β)) : List (Segment β) :=
  segments.map fun segment => { segment with value := rename segment.value }

theorem valueAt_mapValues (rename : β → β) (segments : List (Segment β)) (point : Nat) :
    valueAt (mapValues rename segments) point = (valueAt segments point).map rename := by
  induction segments with
  | nil => rfl
  | cons segment rest ih =>
    rw [show mapValues rename (segment :: rest) =
      { segment with value := rename segment.value } ::
        mapValues rename rest from rfl, valueAt_cons, valueAt_cons, ih]
    split <;> rfl

theorem Ordered.mapValues (ordered : Ordered segments) (rename : β → β) :
    Ordered (mapValues rename segments) := by
  constructor
  · intro segment member
    obtain ⟨source, sourceMem, rfl⟩ := List.mem_map.mp member
    exact ordered.nonempty source sourceMem
  · exact List.pairwise_map.mpr ordered.separated

/-- No two intervals of equal value touch. -/
def Canonical (segments : List (Segment β)) : Prop :=
  segments.Pairwise fun first second =>
    first.upper = second.lower → first.value ≠ second.value

theorem Canonical.erase (canonical : Canonical segments) (ordered : Ordered segments)
    (range : lower < upper) : Canonical (erase segments lower upper) := by
  induction segments with
  | nil => exact List.Pairwise.nil
  | cons segment rest ih =>
    obtain ⟨-, after, restOrdered⟩ := Ordered.cons_iff.mp ordered
    obtain ⟨apart, restCanonical⟩ := List.pairwise_cons.mp canonical
    rw [erase_cons]
    refine List.pairwise_append.mpr ⟨?_, ih restCanonical restOrdered, ?_⟩
    · unfold Segment.minus
      split_ifs <;> simp
      omega
    · intro piece pieceMem other otherMem touch
      obtain ⟨source, sourceMem, inSource⟩ := mem_erase otherMem
      obtain ⟨-, pieceBound, -, pieceValue, -⟩ := Segment.mem_minus pieceMem
      obtain ⟨otherBound, -, -, otherValue, -⟩ := Segment.mem_minus inSource
      have sourceBound := after source sourceMem
      rw [pieceValue, otherValue]
      exact apart source sourceMem (by omega)

variable [DecidableEq β]

/-- Join `previous` with the intervals that continue it. -/
def coalesceFrom (previous : Segment β) : List (Segment β) → List (Segment β)
  | [] => [previous]
  | current :: rest =>
    if current.lower ≤ previous.upper ∧ previous.value = current.value then
      coalesceFrom { previous with upper := current.upper } rest
    else previous :: coalesceFrom current rest

/-- Join every two touching intervals that carry the same value. -/
def coalesce : List (Segment β) → List (Segment β)
  | [] => []
  | segment :: rest => coalesceFrom segment rest

omit [DecidableEq β] in
theorem Ordered.join {current : Segment β} (ordered : Ordered (previous :: current :: rest)) :
    Ordered ({ previous with upper := current.upper } :: rest) := by
  obtain ⟨nonempty, after, restOrdered⟩ := Ordered.cons_iff.mp ordered
  obtain ⟨currentNonempty, currentAfter, tailOrdered⟩ := Ordered.cons_iff.mp restOrdered
  have touch := after current (by simp)
  exact Ordered.cons_iff.mpr
    ⟨by change previous.lower < current.upper; omega, currentAfter, tailOrdered⟩

theorem valueAt_coalesceFrom (ordered : Ordered (previous :: segments)) (point : Nat) :
    valueAt (coalesceFrom previous segments) point = valueAt (previous :: segments) point := by
  induction segments generalizing previous with
  | nil => rfl
  | cons current rest ih =>
    obtain ⟨nonempty, after, restOrdered⟩ := Ordered.cons_iff.mp ordered
    have currentNonempty := restOrdered.nonempty current (by simp)
    unfold coalesceFrom
    split
    · rename_i joined
      have touch := after current (by simp)
      rw [ih ordered.join]
      simp only [valueAt_cons, Segment.Contains]
      by_cases first : previous.lower ≤ point ∧ point < previous.upper
      · rw [if_pos (by omega), if_pos first]
      · rw [if_neg first]
        by_cases second : current.lower ≤ point ∧ point < current.upper
        · rw [if_pos (by omega), if_pos second, joined.2]
        · rw [if_neg (by omega), if_neg second]
    · rw [valueAt_cons, ih restOrdered, valueAt_cons previous]

theorem valueAt_coalesce (ordered : Ordered segments) (point : Nat) :
    valueAt (coalesce segments) point = valueAt segments point := by
  cases segments with
  | nil => rfl
  | cons segment rest => exact valueAt_coalesceFrom ordered point

/-- After joining, the first interval starts where the first one started and
all others start after it. -/
theorem mem_coalesceFrom (ordered : Ordered (previous :: segments))
    (member : other ∈ coalesceFrom previous segments) :
    (other.lower = previous.lower ∧ other.value = previous.value) ∨
      previous.upper ≤ other.lower := by
  induction segments generalizing previous with
  | nil =>
    obtain rfl := List.mem_singleton.mp member
    exact Or.inl ⟨rfl, rfl⟩
  | cons current rest ih =>
    obtain ⟨nonempty, after, restOrdered⟩ := Ordered.cons_iff.mp ordered
    have currentNonempty := restOrdered.nonempty current (by simp)
    have touch := after current (by simp)
    unfold coalesceFrom at member
    split at member
    · rcases ih ordered.join member with same | later
      · exact Or.inl same
      · have later : current.upper ≤ other.lower := later
        exact Or.inr (by omega)
    · rcases List.mem_cons.mp member with rfl | member
      · exact Or.inl ⟨rfl, rfl⟩
      · rcases ih restOrdered member with same | later
        · exact Or.inr (by omega)
        · exact Or.inr (by omega)

theorem Ordered.coalesceFrom (ordered : Ordered (previous :: segments)) :
    Ordered (coalesceFrom previous segments) := by
  induction segments generalizing previous with
  | nil => exact ordered
  | cons current rest ih =>
    obtain ⟨nonempty, after, restOrdered⟩ := Ordered.cons_iff.mp ordered
    have currentNonempty := restOrdered.nonempty current (by simp)
    have touch := after current (by simp)
    unfold IntervalMap.coalesceFrom
    split
    · exact ih ordered.join
    · refine Ordered.cons_iff.mpr ⟨nonempty, ?_, ih restOrdered⟩
      intro other member
      rcases mem_coalesceFrom restOrdered member with same | later <;> omega

theorem Ordered.coalesce (ordered : Ordered segments) : Ordered (coalesce segments) := by
  cases segments with
  | nil => exact ordered
  | cons segment rest => exact Ordered.coalesceFrom ordered

theorem coalesceFrom_canonical (ordered : Ordered (previous :: segments)) :
    Canonical (coalesceFrom previous segments) := by
  induction segments generalizing previous with
  | nil => exact List.pairwise_singleton _ _
  | cons current rest ih =>
    obtain ⟨nonempty, after, restOrdered⟩ := Ordered.cons_iff.mp ordered
    have currentNonempty := restOrdered.nonempty current (by simp)
    have touch := after current (by simp)
    unfold coalesceFrom
    split
    · exact ih ordered.join
    · rename_i separate
      refine List.pairwise_cons.mpr ⟨?_, ih restOrdered⟩
      intro other member meets
      rcases mem_coalesceFrom restOrdered member with same | later
      · rw [same.2]
        exact fun equal => separate ⟨by omega, equal⟩
      · omega

theorem coalesce_canonical (ordered : Ordered segments) : Canonical (coalesce segments) := by
  cases segments with
  | nil => exact List.Pairwise.nil
  | cons segment rest => exact coalesceFrom_canonical ordered

/-- Every interval begins and ends at a point that satisfies the predicate. -/
def Endpoints (allowed : Nat → Prop) (segments : List (Segment β)) : Prop :=
  ∀ segment ∈ segments, allowed segment.lower ∧ allowed segment.upper

namespace Endpoints

omit [DecidableEq β]

variable {allowed : Nat → Prop} {segments : List (Segment β)}

section

variable (endpoints : Endpoints allowed segments)
include endpoints

theorem erase {lower upper : Nat} (lowerAllowed : allowed lower) (upperAllowed : allowed upper) :
    Endpoints allowed (erase segments lower upper) := by
  intro piece member
  obtain ⟨segment, segmentMem, pieceMem⟩ := mem_erase member
  obtain ⟨atLower, atUpper⟩ := endpoints segment segmentMem
  unfold Segment.minus at pieceMem
  rcases List.mem_append.mp pieceMem with first | second
  · split at first
    · obtain rfl := List.mem_singleton.mp first
      refine ⟨atLower, ?_⟩
      rcases min_choice segment.upper lower with same | same <;> simpa only [same]
    · simp at first
  · split at second
    · obtain rfl := List.mem_singleton.mp second
      refine ⟨?_, atUpper⟩
      rcases max_choice segment.lower upper with same | same <;> simpa only [same]
    · simp at second

theorem insert {segment : Segment β}
    (lowerAllowed : allowed segment.lower) (upperAllowed : allowed segment.upper) :
    Endpoints allowed (insert segment segments) := by
  intro other member
  rcases mem_insert.mp member with rfl | member
  · exact ⟨lowerAllowed, upperAllowed⟩
  · exact endpoints other member

theorem mapValues (rename : β → β) : Endpoints allowed (mapValues rename segments) := by
  intro segment member
  obtain ⟨source, sourceMem, rfl⟩ := List.mem_map.mp member
  exact endpoints source sourceMem

end

theorem coalesceFrom [DecidableEq β] {previous : Segment β}
    (endpoints : Endpoints allowed (previous :: segments)) :
    Endpoints allowed (coalesceFrom previous segments) := by
  induction segments generalizing previous with
  | nil => exact endpoints
  | cons current rest ih =>
    have first := endpoints previous (by simp)
    have second := endpoints current (by simp)
    have remaining : Endpoints allowed rest := fun segment member =>
      endpoints segment (by simp [member])
    unfold IntervalMap.coalesceFrom
    split
    · exact ih (List.forall_mem_cons.mpr ⟨⟨first.1, second.2⟩, remaining⟩)
    · exact List.forall_mem_cons.mpr ⟨first, ih (List.forall_mem_cons.mpr ⟨second, remaining⟩)⟩

theorem coalesce [DecidableEq β] (endpoints : Endpoints allowed segments) :
    Endpoints allowed (coalesce segments) := by
  cases segments with
  | nil => exact endpoints
  | cons segment rest => exact coalesceFrom endpoints

end Endpoints

omit [DecidableEq β] in
theorem valueAt_of_mem (ordered : Ordered list) (member : segment ∈ list)
    (inside : segment.Contains point) : valueAt list point = some segment.value := by
  induction list with
  | nil => cases member
  | cons first rest ih =>
    obtain ⟨-, after, later⟩ := Ordered.cons_iff.mp ordered
    rw [valueAt_cons]
    rcases List.mem_cons.mp member with rfl | member
    · rw [if_pos inside]
    · have before := after segment member
      rw [if_neg fun earlier => by
        have below := earlier.2
        have above := inside.1
        omega]
      exact ih later member

omit [DecidableEq β] in
theorem exists_of_valueAt (stored : valueAt list point = some value) :
    ∃ segment ∈ list, segment.Contains point ∧ segment.value = value := by
  induction list with
  | nil => cases stored
  | cons first rest ih =>
    rw [valueAt_cons] at stored
    split_ifs at stored with inside
    · exact ⟨first, (.head _), inside, Option.some.inj stored⟩
    · obtain ⟨segment, member, found⟩ := ih stored
      exact ⟨segment, List.mem_cons_of_mem _ member, found⟩

omit [DecidableEq β] in
theorem separated_of_mem (ordered : Ordered list) {first second : Segment β}
    (firstMember : first ∈ list) (secondMember : second ∈ list) :
    first = second ∨ first.upper ≤ second.lower ∨ second.upper ≤ first.lower := by
  induction list with
  | nil => cases firstMember
  | cons head rest ih =>
    obtain ⟨-, after, later⟩ := Ordered.cons_iff.mp ordered
    rcases List.mem_cons.mp firstMember with rfl | firstLater
    · rcases List.mem_cons.mp secondMember with rfl | secondLater
      · exact .inl rfl
      · exact .inr (.inl (after second secondLater))
    · rcases List.mem_cons.mp secondMember with rfl | secondLater
      · exact .inr (.inr (after first firstLater))
      · exact ih later firstLater secondLater

omit [DecidableEq β] in
theorem value_ne_of_touching (ordered : Ordered list) (canonical : Canonical list)
    {first second : Segment β} (firstMember : first ∈ list) (secondMember : second ∈ list)
    (touching : first.upper = second.lower) : first.value ≠ second.value := by
  induction list with
  | nil => cases firstMember
  | cons head rest ih =>
    obtain ⟨nonempty, after, later⟩ := Ordered.cons_iff.mp ordered
    obtain ⟨apart, laterCanonical⟩ := List.pairwise_cons.mp canonical
    rcases List.mem_cons.mp firstMember with rfl | firstLater
    · rcases List.mem_cons.mp secondMember with rfl | secondLater
      · omega
      · exact apart second secondLater touching
    · rcases List.mem_cons.mp secondMember with rfl | secondLater
      · have before := after first firstLater
        have filled := later.nonempty first firstLater
        omega
      · exact ih later laterCanonical firstLater secondLater

omit [DecidableEq β] in
theorem exists_covering (ordered : Ordered list) (canonical : Canonical list)
    (nonempty : lower < upper)
    (same : ∀ point, lower ≤ point → point < upper → valueAt list point = some value) :
    ∃ segment ∈ list, segment.value = value ∧ segment.lower ≤ lower ∧ upper ≤ segment.upper := by
  obtain ⟨segment, member, inside, is⟩ := exists_of_valueAt (same lower le_rfl nonempty)
  refine ⟨segment, member, is, inside.1, ?_⟩
  by_contra short
  -- The interval behind the end of this one would have the same value.
  obtain ⟨next, nextMember, nextInside, nextIs⟩ :=
    exists_of_valueAt (same segment.upper inside.2.le (not_le.mp short))
  rcases separated_of_mem ordered member nextMember with same | before | after
  · rw [← same] at nextInside
    exact absurd nextInside.2 (lt_irrefl _)
  · have touching : segment.upper = next.lower := le_antisymm before nextInside.1
    exact value_ne_of_touching ordered canonical member nextMember touching (is.trans nextIs.symm)
  · have below := nextInside.2
    have above := inside.1
    have filled := inside.2
    omega

/-- The interval from the end of one interval up to where the next one begins,
if there is room. -/
def hole (lower upper : Nat) (value : β) : List (Segment β) :=
  if lower < upper then [⟨lower, upper, value⟩] else []

omit [DecidableEq β] in
theorem mem_hole :
    segment ∈ hole lower upper value ↔ lower < upper ∧ segment = ⟨lower, upper, value⟩ := by
  unfold hole
  split_ifs with room
  · rw [List.mem_singleton]
    exact (and_iff_right room).symm
  · exact iff_of_false List.not_mem_nil fun found => room found.1

omit [DecidableEq β] in
theorem valueAt_hole (lower upper : Nat) (value : β) (point : Nat) :
    valueAt (hole lower upper value) point =
      if lower ≤ point ∧ point < upper then some value else none := by
  unfold hole
  split_ifs with room inside inside
  · exact if_pos inside
  · exact if_neg inside
  · omega
  · rfl

omit [DecidableEq β] in
theorem valueAt_of_before (before : ∀ segment ∈ list, point < segment.lower) :
    valueAt list point = none := by
  cases stored : valueAt list point with
  | none => rfl
  | some value =>
    obtain ⟨segment, member, inside, -⟩ := exists_of_valueAt stored
    exact absurd inside.1 (Nat.not_le.mpr (before segment member))

section Filling

omit [DecidableEq β]

variable {segment : Segment β} {later filled : List (Segment β)} {value : β} {next limit : Nat}

theorem Ordered.fill (nonempty : segment.lower < segment.upper) (ordered : Ordered filled)
    (room : segment.upper ≤ next) (after : ∀ other ∈ filled, next ≤ other.lower) :
    Ordered (segment :: (hole segment.upper (min limit next) value ++ filled)) := by
  have behind : ∀ other ∈ hole segment.upper (min limit next) value ++ filled,
      segment.upper ≤ other.lower := by
    intro other member
    rcases List.mem_append.mp member with inHole | inFilled
    · obtain ⟨-, rfl⟩ := mem_hole.mp inHole
      exact le_rfl
    · exact room.trans (after other inFilled)
  refine Ordered.cons_iff.mpr ⟨nonempty, behind, ?_, ?_⟩
  · intro other member
    rcases List.mem_append.mp member with inHole | inFilled
    · obtain ⟨wide, rfl⟩ := mem_hole.mp inHole
      exact wide
    · exact ordered.nonempty other inFilled
  · refine List.pairwise_append.mpr ⟨?_, ordered.separated, ?_⟩
    · unfold hole
      split_ifs
      · exact List.pairwise_singleton _ _
      · exact .nil
    · intro first firstMember second secondMember
      obtain ⟨-, rfl⟩ := mem_hole.mp firstMember
      exact (Nat.min_le_right _ _).trans (after second secondMember)

theorem Endpoints.fill {allowed : Nat → Prop} (lower : allowed segment.lower)
    (upper : allowed segment.upper) (limitAllowed : allowed limit)
    (nextAllowed : allowed next) (endpoints : Endpoints allowed filled) :
    Endpoints allowed (segment :: (hole segment.upper (min limit next) value ++ filled)) := by
  intro other member
  rcases List.mem_cons.mp member with rfl | inRest
  · exact ⟨lower, upper⟩
  rcases List.mem_append.mp inRest with inHole | inFilled
  · obtain ⟨-, rfl⟩ := mem_hole.mp inHole
    refine ⟨upper, show allowed (min limit next) from ?_⟩
    rcases min_choice limit next with same | same
    · rw [same]
      exact limitAllowed
    · rw [same]
      exact nextAllowed
  · exact endpoints other inFilled

theorem valueAt_fill (nonempty : segment.lower < segment.upper) (room : segment.upper ≤ next)
    (after : ∀ other ∈ later, next ≤ other.lower) (laterFilled : ∀ point, valueAt filled point =
      if next ≤ point ∧ point < limit then
        some ((valueAt later point).getD value)
      else valueAt later point) (point : Nat) :
    valueAt (segment :: (hole segment.upper (min limit next) value ++ filled)) point =
      if segment.lower ≤ point ∧ point < limit then
        some ((valueAt (segment :: later) point).getD value)
      else valueAt (segment :: later) point := by
  rw [valueAt_cons, valueAt_cons, valueAt_append, valueAt_hole, laterFilled]
  by_cases inside : segment.Contains point
  · rw [if_pos inside, if_pos inside]
    exact (ite_self _).symm
  rw [if_neg inside, if_neg inside]
  by_cases before : point < next
  · have none := valueAt_of_before fun other member =>
      before.trans_le (after other member)
    rw [none, if_neg (c := next ≤ point ∧ point < limit) (by omega)]
    by_cases filling : segment.lower ≤ point ∧ point < limit
    · rw [if_pos filling, if_pos (by omega)]
      rfl
    · rw [if_neg filling, if_neg (by omega)]
      rfl
  · rw [if_neg (by omega), Option.none_or]
    exact if_congr (by omega) rfl rfl

end Filling

section Uniqueness

omit [DecidableEq β]

variable {first second : Segment β} {left right : List (Segment β)}

/-- The first interval of a list lies behind the begin of a canonical list of
the same map, and inside of its first interval if both begin together. -/
theorem head_le_head (firstOrdered : Ordered (first :: left)) (ordered : Ordered (second :: right))
    (canonical : Canonical (second :: right))
    (same : valueAt (first :: left) = valueAt (second :: right)) :
    second.lower ≤ first.lower ∧ (first.lower = second.lower →
      first.upper ≤ second.upper ∧ first.value = second.value) := by
  obtain ⟨segment, member, value, lower, upper⟩ :=
    exists_covering ordered canonical
      (firstOrdered.nonempty first (.head _))
      fun point above below => same ▸ valueAt_of_mem firstOrdered (.head _) ⟨above, below⟩
  refine ⟨(ordered.head_le segment member).trans lower, fun together => ?_⟩
  have filled := ordered.nonempty second (.head _)
  rcases separated_of_mem ordered member (.head _) with
    equal | before | after
  · exact equal ▸ ⟨upper, value.symm⟩
  · have nonempty := firstOrdered.nonempty first (.head _)
    omega
  · omega

theorem valueAt_tail (ordered : Ordered (first :: left)) (point : Nat) :
    valueAt left point = if first.Contains point then none else valueAt (first :: left) point := by
  rw [valueAt_cons]
  split_ifs with inside
  · refine valueAt_of_before fun segment member => ?_
    have after := (Ordered.cons_iff.mp ordered).2.1 segment member
    exact inside.2.trans_le after
  · rfl

theorem Canonical.eq_of_valueAt {left right : List (Segment β)} (leftOrdered : Ordered left)
    (leftCanonical : Canonical left) (rightOrdered : Ordered right)
    (rightCanonical : Canonical right) (same : valueAt left = valueAt right) : left = right := by
  induction left generalizing right with
  | nil =>
    cases right with
    | nil => rfl
    | cons second right =>
      have stored := valueAt_of_mem rightOrdered (.head _)
        ⟨le_rfl, rightOrdered.nonempty second (.head _)⟩
      rw [← same] at stored
      cases stored
  | cons first left ih =>
    cases right with
    | nil =>
      have stored := valueAt_of_mem leftOrdered (.head _)
        ⟨le_rfl, leftOrdered.nonempty first (.head _)⟩
      rw [same] at stored
      cases stored
    | cons second right =>
      obtain ⟨later, inside⟩ := head_le_head leftOrdered rightOrdered rightCanonical same
      obtain ⟨earlier, outside⟩ := head_le_head rightOrdered leftOrdered leftCanonical same.symm
      have together := le_antisymm earlier later
      obtain ⟨short, value⟩ := inside together
      have long := (outside together.symm).1
      obtain rfl : first = second := by
        cases first
        cases second
        simp_all
        omega
      rw [ih leftOrdered.tail (List.pairwise_cons.mp leftCanonical).2
        rightOrdered.tail (List.pairwise_cons.mp rightCanonical).2]
      funext point
      rw [valueAt_tail leftOrdered, valueAt_tail rightOrdered, same]

end Uniqueness

end IntervalMap

end Coreboot
