import Mathlib.Data.List.Basic
import Mathlib.Data.List.Forall2
import Mathlib.Data.List.Nodup
import Mathlib.Tactic.Common

/-!
# Completion of flashmap descriptors

A section may leave out its offset or its size, and the missing values of a level are filled in
from the sections beside them.
-/

namespace Coreboot.Flashmap

/-- The fields of a section other than the list of its children. -/
structure Region where
  name : String
  offset : Option (BitVec 32)
  size : Option (BitVec 32)
deriving DecidableEq, Repr

inductive Descriptor where
  | node (region : Region) (list : List Descriptor)

def Descriptor.region : Descriptor → Region
  | node region _ => region

/-- Two known values are in the wrong order. -/
def Exceeds : Option (BitVec 32) → Option (BitVec 32) → Prop
  | some value, some bound => bound < value
  | _, _ => False

instance (value bound : Option (BitVec 32)) : Decidable (Exceeds value bound) :=
  match value, bound with
  | some value, some bound => inferInstanceAs (Decidable (bound < value))
  | none, _ => inferInstanceAs (Decidable False)
  | some _, none => inferInstanceAs (Decidable False)

/-- The end of a section with known fields, as an `unsigned`. -/
def nodeEnd (node : Region) : Option (BitVec 32) :=
  node.offset.bind fun offset => node.size.map (offset + ·)

def validateDescriptorNode (node : Region) (first last : Option (BitVec 32))
    (names : List String) : Option (List String) :=
  if node.name ∈ names then none
  else if Exceeds first node.offset ∨ Exceeds node.offset last then none
  else if node.size = some 0 ∨ Exceeds (nodeEnd node) last then none
  else some (node.name :: names)

/-- `complete_missing_info_backward`, with the sections that are complete
behind. -/
def completeMissingInfoBackward : List Region → BitVec 32 → List Region → Option (List Region)
  | [], _, complete => some complete
  | cur :: earlier, endWatermark, complete =>
    match cur.offset, cur.size with
    | none, none => none
    | none, some size =>
      if size > endWatermark then none
      else completeMissingInfoBackward earlier (endWatermark - size)
        ({ cur with offset := some (endWatermark - size) } :: complete)
    | some offset, none =>
      if offset > endWatermark then none
      else completeMissingInfoBackward earlier offset
        ({ cur with size := some (endWatermark - offset) } :: complete)
    | some _, some _ =>
      completeMissingInfoBackward earlier endWatermark (cur :: complete)

/-- The greatest end of a section: the offset of the next one, or the size of
the parent. -/
def maxEndpoint (parentSize : BitVec 32) : List Region → Option (BitVec 32)
  | [] => some parentSize
  | next :: _ => next.offset

/-- The start of a turn of the loop of `validate_and_complete_info`: the sections
that the backward pass has completed, those that still wait, the watermark and the
current section. -/
def resume (pending : List Region) (watermark : BitVec 32) (cur : Region) :
    Option (List Region × List Region × BitVec 32 × Region) :=
  match pending, cur.offset with
  | [], none => some ([], [], watermark, { cur with offset := some watermark })
  | [], some _ => some ([], [], watermark, cur)
  | pending, some offset =>
    (completeMissingInfoBackward pending offset []).map fun complete =>
      (complete, [], offset, cur)
  | pending, none => some ([], pending, watermark, cur)

/-- The loop of `validate_and_complete_info` over the children of a section.  A
failed assertion is a failure. -/
def completeLevel (parentSize : BitVec 32) :
    List Region → List Region → BitVec 32 → List String → Option (List Region × List String)
  | [], pending, _, names =>
    (completeMissingInfoBackward pending parentSize []).map (·, names)
  | cur :: rest, pending, watermark, names =>
    (resume pending watermark cur).bind fun (complete, pending, watermark, cur) =>
    ((validateDescriptorNode cur
      (if pending = [] then some watermark else none)
      (maxEndpoint parentSize rest) names).bind fun names =>
      match cur.size, cur.offset with
      | none, none => none
      | none, some _ =>
        if pending = [] then
          completeLevel parentSize rest [cur] watermark names
        else none
      | some size, offset =>
        if pending = [] then
          (completeLevel parentSize rest [] (offset.getD 0 + size)
            names).map fun (later, names) => (cur :: later, names)
        else completeLevel parentSize rest (cur :: pending) watermark names).map
      fun (later, names) => (complete ++ later, names)

mutual

/-- `validate_and_complete_info` for a section whose own fields are given. -/
def validateAndCompleteInfo : Descriptor → Region → List String → Option (Descriptor × List String)
  | .node _ list, region, names =>
    region.size.bind fun size =>
    (completeLevel size (list.map Descriptor.region) [] 0 names).bind fun (regions, names) =>
    (validateAndCompleteList list regions names).map fun (list, names) => (.node region list, names)

def validateAndCompleteList :
    List Descriptor → List Region → List String → Option (List Descriptor × List String)
  | [], _, names => some ([], names)
  | _ :: _, [], _ => none
  | descriptor :: rest, region :: regions, names =>
    (validateAndCompleteInfo descriptor region names).bind fun (descriptor, names) =>
    (validateAndCompleteList rest regions names).map
      fun (rest, names) => (descriptor :: rest, names)

end

def fmdCreate (root : Descriptor) : Option Descriptor :=
  (validateAndCompleteInfo root root.region []).map Prod.fst

/-- Complete sections that are not empty and follow each other between two
bounds. -/
def Chain : Nat → List Region → Nat → Prop
  | lower, [], upper => lower ≤ upper
  | lower, cur :: rest, upper =>
    ∃ offset size, cur.offset = some offset ∧ cur.size = some size ∧
      lower ≤ offset.toNat ∧ size ≠ 0 ∧ Chain (offset.toNat + size.toNat) rest upper

/-- A section keeps its name and the fields that were given. -/
def Region.Extends (region complete : Region) : Prop :=
  complete.name = region.name ∧
    (∀ offset, region.offset = some offset → complete.offset = some offset) ∧
    ∀ size, region.size = some size → complete.size = some size

mutual

/-- The children of every section follow each other in the section. -/
def Descriptor.Placed : Descriptor → Prop
  | .node region list =>
    (∃ size, region.size = some size ∧
      Chain 0 (list.map Descriptor.region) size.toNat) ∧ PlacedList list

def PlacedList : List Descriptor → Prop
  | [] => True
  | descriptor :: rest => descriptor.Placed ∧ PlacedList rest

end

mutual

/-- Two trees have the same shape, and every section of the second extends that
of the first. -/
def Descriptor.Extends : Descriptor → Descriptor → Prop
  | .node region list, .node complete completeList =>
    region.Extends complete ∧ ExtendsList list completeList

def ExtendsList : List Descriptor → List Descriptor → Prop
  | [], [] => True
  | descriptor :: rest, complete :: completeRest =>
    descriptor.Extends complete ∧ ExtendsList rest completeRest
  | [], _ :: _ => False
  | _ :: _, [] => False

end

mutual

def Descriptor.subnames : Descriptor → List String
  | .node _ list => list.map (fun child => child.region.name) ++ subnamesList list

def subnamesList : List Descriptor → List String
  | [] => []
  | descriptor :: rest => descriptor.subnames ++ subnamesList rest

end

/-- All values are known and as given, every section lies in its parent after the
one before it, and all names differ. -/
structure Sound (root complete : Descriptor) : Prop where
  kept : root.Extends complete
  placed : complete.Placed
  distinct : (complete.region.name :: complete.subnames).Nodup

/-- Where the sections of a list have to start at the latest, by the first offset
that is given or the end of the parent. -/
def limit (parentSize : Int) : List Region → Int
  | [] => parentSize
  | cur :: rest =>
    match cur.offset, cur.size with
    | some offset, _ => offset.toNat
    | none, some size => limit parentSize rest - size.toNat
    | none, none => limit parentSize rest

/-- A section starts at its offset, or behind the section before it. -/
def startOf (before : Int) (cur : Region) : Int := cur.offset.elim before fun offset => offset.toNat

/-- A section ends behind its size, or where the sections that follow start. -/
def endOf (parentSize before : Int) (cur : Region) (rest : List Region) : Int :=
  match cur.size with
  | some size => startOf before cur + size.toNat
  | none => limit parentSize rest

def levelSizes (parentSize : Int) : Int → List Region → List Int
  | _, [] => []
  | before, cur :: rest =>
    (endOf parentSize before cur rest - startOf before cur) ::
      levelSizes parentSize (endOf parentSize before cur rest) rest

/-- The ends of sections are numbers of 32 bits, and there is room for the
sections without a size. -/
def LevelRoomy (parentSize : Int) : Int → List Region → Prop
  | _, [] => True
  | before, cur :: rest =>
    endOf parentSize before cur rest < 4294967296 ∧
      (cur.size = none → startOf before cur < limit parentSize rest) ∧
      LevelRoomy parentSize (endOf parentSize before cur rest) rest

mutual

def Descriptor.Roomy : Descriptor → Int → Prop
  | .node _ list, size =>
    LevelRoomy size 0 (list.map Descriptor.region) ∧
      RoomyList list (levelSizes size 0 (list.map Descriptor.region))

def RoomyList : List Descriptor → List Int → Prop
  | descriptor :: rest, size :: sizes =>
    descriptor.Roomy size ∧ RoomyList rest sizes
  | _, _ => True

end

/-- No section has the name of the chip, and every level has room. -/
def Fits (root : Descriptor) : Prop :=
  root.region.name ∉ root.subnames ∧ ∀ size, root.region.size = some size → root.Roomy size.toNat

section Runs

variable {parentSize : BitVec 32}

variable {names : List String} {pending : List Region} {regions result : List Region}
  {watermark : BitVec 32} {final : List String}

theorem validateDescriptorNode_eq_some {node : Region}
    {first last : Option (BitVec 32)} {names' : List String} :
    validateDescriptorNode node first last names = some names' ↔
      node.name ∉ names ∧ ¬ Exceeds first node.offset ∧
        ¬ Exceeds node.offset last ∧ node.size ≠ some 0 ∧
        ¬ Exceeds (nodeEnd node) last ∧ names' = node.name :: names := by
  rw [validateDescriptorNode]
  split_ifs with known order size
  · exact ⟨nofun, fun good => absurd known good.1⟩
  · exact ⟨nofun, fun good => order.elim (absurd · good.2.1) (absurd · good.2.2.1)⟩
  · exact ⟨nofun, fun good => size.elim (absurd · good.2.2.2.1) (absurd · good.2.2.2.2.1)⟩
  · rw [not_or] at order size
    exact ⟨fun same => ⟨known, order.1, order.2, size.1, size.2,
      (Option.some.inj same).symm⟩, fun good => congrArg some good.2.2.2.2.2.symm⟩

/-- A section between one without a size and the next offset. -/
def Region.Follows (region : Region) : Prop :=
  region.offset = none ∧ ∃ size, region.size = some size ∧ size ≠ 0

def namesOf (regions : List Region) : List String := regions.map Region.name

def Region.at (region : Region) (watermark : BitVec 32) : Region :=
  { region with offset := some (region.offset.getD watermark) }

/-- A run is made of sections with a size, and of sections without one together
with those that follow up to the next offset. -/
inductive LevelRun (parentSize : BitVec 32) :
    BitVec 32 → List Region → List String → List Region → List String → Prop
  | done {watermark : BitVec 32} {names : List String}
      (inside : watermark ≤ parentSize) :
      LevelRun parentSize watermark [] names [] names
  | sized {watermark size : BitVec 32} {cur : Region}
      {rest later : List Region} {names final : List String}
      (known : cur.size = some size)
      (above : watermark ≤ cur.offset.getD watermark)
      (positive : size ≠ 0) (fresh : cur.name ∉ names)
      (run : LevelRun parentSize (cur.offset.getD watermark + size) rest
        (cur.name :: names) later final) :
      LevelRun parentSize watermark (cur :: rest) names (cur.at watermark :: later) final
  | unsized {watermark endWatermark : BitVec 32} {cur : Region}
      {followers rest complete later : List Region}
      {names final : List String}
      (unknown : cur.size = none)
      (above : watermark ≤ cur.offset.getD watermark)
      (fresh : names.Nodup → ((namesOf followers).reverse ++ cur.name :: names).Nodup)
      (follow : ∀ follower ∈ followers, follower.Follows)
      (endpoint : maxEndpoint parentSize rest = some endWatermark)
      (backward : completeMissingInfoBackward
        (followers.reverse ++ [cur.at watermark]) endWatermark [] = some complete)
      (run : LevelRun parentSize endWatermark rest
        ((namesOf followers).reverse ++ cur.name :: names) later final) :
      LevelRun parentSize watermark (cur :: (followers ++ rest)) names (complete ++ later) final

theorem resume_nil (watermark : BitVec 32) (cur : Region) :
    resume [] watermark cur = some ([], [], watermark, cur.at watermark) := by
  obtain ⟨name, offset, size⟩ := cur
  cases offset with
  | none => rfl
  | some offset => rfl

theorem resume_of_some (waits : pending ≠ []) {cur : Region} {offset : BitVec 32}
    (known : cur.offset = some offset) (watermark : BitVec 32) :
    resume pending watermark cur =
      (completeMissingInfoBackward pending offset []).map fun complete =>
        (complete, [], offset, cur) := by
  obtain ⟨first, more, rfl⟩ := List.exists_cons_of_ne_nil waits
  obtain ⟨name, offset', size⟩ := cur
  subst known
  rfl

theorem resume_of_none (waits : pending ≠ []) {cur : Region}
    (unknown : cur.offset = none) (watermark : BitVec 32) :
    resume pending watermark cur = some ([], pending, watermark, cur) := by
  obtain ⟨first, more, rfl⟩ := List.exists_cons_of_ne_nil waits
  obtain ⟨name, offset, size⟩ := cur
  subst unknown
  rfl

theorem completeLevel_suspended (waits : pending ≠ [])
    (run : completeLevel parentSize regions pending watermark names = some (result, final)) :
    ∃ followers rest complete later endWatermark,
      regions = followers ++ rest ∧
        (∀ follower ∈ followers, follower.Follows) ∧
        maxEndpoint parentSize rest = some endWatermark ∧
        completeMissingInfoBackward (followers.reverse ++ pending) endWatermark [] = some complete ∧
        completeLevel parentSize rest [] endWatermark
          ((namesOf followers).reverse ++ names) = some (later, final) ∧
        result = complete ++ later ∧
        (names.Nodup → ((namesOf followers).reverse ++ names).Nodup) := by
  induction regions generalizing pending watermark names with
  | nil =>
    rw [completeLevel] at run
    obtain ⟨complete, backward, same⟩ := Option.map_eq_some_iff.mp run
    obtain ⟨rfl, rfl⟩ := Prod.mk.inj same
    exact ⟨[], [], complete, [], parentSize, rfl, List.forall_mem_nil _,
      rfl, backward, rfl, (List.append_nil _).symm, id⟩
  | cons cur rest ih =>
    rw [completeLevel] at run
    cases known : cur.offset with
    | some offset =>
      rw [resume_of_some waits known] at run
      obtain ⟨⟨complete, pending', watermark', cur'⟩, resumed, turn⟩ :=
        Option.bind_eq_some_iff.mp run
      obtain ⟨complete', backward, same⟩ := Option.map_eq_some_iff.mp resumed
      obtain ⟨rfl, rfl, rfl, rfl⟩ : complete' = complete ∧ [] = pending' ∧
          offset = watermark' ∧ cur = cur' := by
        simpa only [Prod.mk.injEq] using same
      obtain ⟨⟨later, names'⟩, step, same⟩ := Option.map_eq_some_iff.mp turn
      obtain ⟨rfl, rfl⟩ := Prod.mk.inj same
      refine ⟨[], cur :: rest, complete', later, offset, rfl,
        List.forall_mem_nil _, known, backward, ?_, rfl, id⟩
      have same : cur.at offset = cur := by
        obtain ⟨name, offset', size⟩ := cur
        subst known
        rfl
      rw [completeLevel, resume_nil, same, Option.bind_some]
      exact Option.map_eq_some_iff.mpr ⟨(later, names'), step, rfl⟩
    | none =>
      rw [resume_of_none waits known, Option.bind_some] at run
      obtain ⟨⟨later, names'⟩, step, same⟩ := Option.map_eq_some_iff.mp run
      cases same
      obtain ⟨names'', valid, turn⟩ := Option.bind_eq_some_iff.mp step
      obtain ⟨fresh, -, -, positive, -, rfl⟩ := validateDescriptorNode_eq_some.mp valid
      rw [known] at turn
      cases size : cur.size with
      | none =>
        rw [size] at turn
        exact absurd turn (Option.some_ne_none _).symm
      | some size' =>
        rw [size] at turn
        dsimp only at turn
        rw [if_neg waits] at turn
        obtain ⟨followers, rest', complete, later', endWatermark, rfl,
          follow, endpoint, backward, next, rfl, distinct⟩ :=
          ih (List.cons_ne_nil _ _) turn
        refine ⟨cur :: followers, rest', complete, later', endWatermark,
          rfl, ?_, endpoint, ?_, ?_, rfl, ?_⟩
        · exact List.forall_mem_cons.mpr ⟨
            ⟨known, size', size, fun zero => positive (size.trans (congrArg some zero))⟩, follow⟩
        · rw [List.reverse_cons, List.append_assoc]
          exact backward
        · rw [namesOf, List.map_cons, List.reverse_cons, List.append_assoc]
          exact next
        · rw [namesOf, List.map_cons, List.reverse_cons, List.append_assoc]
          exact fun all => distinct (List.nodup_cons.mpr ⟨fresh, all⟩)

theorem levelRun_of_completeLevel (inside : regions = [] → watermark ≤ parentSize)
    (run : completeLevel parentSize regions [] watermark names = some (result, final)) :
    LevelRun parentSize watermark regions names result final := by
  induction count : regions.length using Nat.strongRecOn
    generalizing regions result watermark names with
  | _ count ih =>
  cases regions with
  | nil =>
    cases run
    exact .done (inside rfl)
  | cons cur rest =>
    rw [completeLevel, resume_nil, Option.bind_some] at run
    obtain ⟨⟨later, names'⟩, step, same⟩ := Option.map_eq_some_iff.mp run
    obtain ⟨rfl, rfl⟩ := Prod.mk.inj same
    obtain ⟨names'', valid, turn⟩ := Option.bind_eq_some_iff.mp step
    obtain ⟨fresh, above, -, positive, whole, rfl⟩ := validateDescriptorNode_eq_some.mp valid
    have start : watermark ≤ cur.offset.getD watermark := BitVec.not_lt.mp above
    cases size : cur.size with
    | some size' =>
      have shape : (cur.at watermark).size = some size' := size
      rw [shape] at turn
      rw [if_pos rfl] at turn
      obtain ⟨⟨later', names''⟩, next, same⟩ := Option.map_eq_some_iff.mp turn
      cases same
      have inside' : rest = [] → cur.offset.getD watermark + size' ≤ parentSize := by
        rintro rfl
        rw [nodeEnd, shape] at whole
        exact BitVec.not_lt.mp whole
      exact .sized size start (fun zero => positive
        (shape.trans (congrArg some zero))) fresh
        (ih rest.length (by rw [← count, List.length_cons]; omega) inside' next rfl)
    | none =>
      have shape : (cur.at watermark).size = none := size
      rw [shape] at turn
      dsimp only [Region.at] at turn
      rw [if_pos rfl] at turn
      obtain ⟨followers, rest', complete, later', endWatermark, rfl,
        follow, endpoint, backward, next, rfl, distinct⟩ :=
        completeLevel_suspended (List.cons_ne_nil _ _) turn
      have inside' : rest' = [] → endWatermark ≤ parentSize := by
        rintro rfl
        exact Option.some.inj endpoint ▸ BitVec.le_refl _
      show LevelRun parentSize watermark (cur :: (followers ++ rest')) names
        (complete ++ later') names'
      exact .unsized size start
        (fun all => distinct (List.nodup_cons.mpr ⟨fresh, all⟩)) follow
        endpoint backward (ih rest'.length (by
          rw [← count, List.length_cons, List.length_append]
          omega) inside' next rfl)

end Runs

section Backward

theorem limit_append (parentSize : Int) (regions others : List Region) :
    limit parentSize (regions ++ others) = limit (limit parentSize others) regions := by
  induction regions with
  | nil => rfl
  | cons cur rest ih =>
    rw [List.cons_append, limit, limit, ih]

theorem limit_of_endpoint {parentSize endWatermark : BitVec 32} {rest : List Region}
    (endpoint : maxEndpoint parentSize rest = some endWatermark) :
    limit parentSize.toNat rest = endWatermark.toNat := by
  cases rest with
  | nil => rw [limit, Option.some.inj endpoint]
  | cons next rest =>
    have known : next.offset = some endWatermark := endpoint
    rw [limit, known]

theorem limit_le {endWatermark : Int} {followers : List Region}
    (follow : ∀ follower ∈ followers, follower.Follows) :
    limit endWatermark followers ≤ endWatermark := by
  induction followers with
  | nil => exact Int.le_refl _
  | cons cur rest ih =>
    obtain ⟨⟨unknown, size, known, -⟩, follow⟩ := List.forall_mem_cons.mp follow
    have below := ih follow
    rw [limit, unknown, known]
    dsimp only
    omega

/-- The backward pass places the sections that follow one without a size directly
before an offset, and gives that section the rest. -/
theorem completeMissingInfoBackward_spec {followers : List Region}
    (follow : ∀ follower ∈ followers, follower.Follows) {first : Region}
    {offset endWatermark : BitVec 32} (known : first.offset = some offset)
    (unknown : first.size = none) {later complete : List Region}
    (run : completeMissingInfoBackward (followers ++ [first]) endWatermark later = some complete) :
    ∃ size placed,
      complete = { first with size := some size } :: (placed ++ later) ∧
        ((offset.toNat + size.toNat : Nat) : Int) = limit endWatermark.toNat followers.reverse ∧
        List.Forall₂ Region.Extends followers.reverse placed ∧
        placed.map (fun region => region.size) = followers.reverse.map (fun region => region.size) ∧
        ∀ tail upper, Chain (offset.toNat + size.toNat) (placed ++ tail) upper ↔
          Chain endWatermark.toNat tail upper := by
  obtain ⟨name, offset', size'⟩ := first
  obtain rfl : offset' = some offset := known
  obtain rfl : size' = none := unknown
  induction followers generalizing endWatermark later with
  | nil =>
    rw [List.nil_append, completeMissingInfoBackward] at run
    dsimp only at run
    split_ifs at run with high
    have bound : offset.toNat ≤ endWatermark.toNat := BitVec.le_def.mp (BitVec.not_lt.mp high)
    have whole : offset.toNat + (endWatermark - offset).toNat = endWatermark.toNat := by
      rw [BitVec.toNat_sub_of_le (BitVec.not_lt.mp high)]
      omega
    refine ⟨endWatermark - offset, [], (Option.some.inj run).symm, ?_, .nil,
      rfl, fun tail upper => ?_⟩
    · rw [whole]
      rfl
    · rw [whole]
      rfl
  | cons cur rest ih =>
    obtain ⟨⟨absent, size, given, positive⟩, behind⟩ := List.forall_mem_cons.mp follow
    obtain ⟨label, offset', size'⟩ := cur
    obtain rfl : offset' = none := absent
    obtain rfl : size' = some size := given
    rw [List.cons_append, completeMissingInfoBackward] at run
    dsimp only at run
    split_ifs at run with high
    have bound : size.toNat ≤ endWatermark.toNat := BitVec.le_def.mp (BitVec.not_lt.mp high)
    have start : (endWatermark - size).toNat = endWatermark.toNat - size.toNat :=
      BitVec.toNat_sub_of_le (BitVec.not_lt.mp high)
    obtain ⟨free, placed, rfl, room, extends', sizes, chain⟩ := ih behind run
    refine ⟨free, placed ++ [⟨label, some (endWatermark - size), some size⟩],
      ?_, ?_, ?_, ?_, fun tail upper => ?_⟩
    · rw [List.append_assoc]
      rfl
    · rw [room, List.reverse_cons, limit_append]
      congr 1
      rw [limit]
      dsimp only [limit]
      omega
    · rw [List.reverse_cons]
      exact List.rel_append extends' (.cons ⟨rfl, nofun, fun _ same => same⟩ .nil)
    · rw [List.map_append, sizes, List.reverse_cons, List.map_append]
      rfl
    · rw [List.append_assoc, chain]
      constructor
      · rintro ⟨offset', size', at', of', -, -, rest⟩
        cases at'
        cases of'
        rwa [start, Nat.sub_add_cancel bound] at rest
      · intro rest
        refine ⟨endWatermark - size, size, rfl, rfl, Nat.le_refl _, positive, ?_⟩
        rwa [start, Nat.sub_add_cancel bound]

end Backward

variable {lower upper : Nat}

section Layout

variable {parentSize watermark : BitVec 32} {regions result : List Region}
  {names final : List String}

def sizeOf' (region : Region) : Int := region.size.elim 0 fun size => size.toNat

theorem Region.at_extends (region : Region) (watermark : BitVec 32) :
    region.Extends (region.at watermark) := by
  refine ⟨rfl, fun offset known => ?_, fun _ same => same⟩
  rw [Region.at, known]
  rfl

theorem Chain.le (chain : Chain lower regions upper) : lower ≤ upper := by
  induction regions generalizing lower with
  | nil => exact chain
  | cons cur rest ih =>
    obtain ⟨offset, size, -, -, above, -, rest⟩ := chain
    have below := ih rest
    omega

theorem startOf_at (cur : Region) :
    startOf watermark.toNat cur = (cur.offset.getD watermark).toNat := by
  obtain ⟨name, offset, size⟩ := cur
  cases offset with
  | none => rfl
  | some offset => rfl

theorem levelRoomy_followers {followers rest : List Region} {endWatermark : BitVec 32}
    (follow : ∀ follower ∈ followers, follower.Follows) :
    (LevelRoomy parentSize.toNat (limit endWatermark.toNat followers) (followers ++ rest) ↔
      LevelRoomy parentSize.toNat endWatermark.toNat rest) ∧
    levelSizes parentSize.toNat (limit endWatermark.toNat followers) (followers ++ rest) =
      followers.map sizeOf' ++ levelSizes parentSize.toNat endWatermark.toNat rest := by
  induction followers with
  | nil => exact ⟨Iff.rfl, rfl⟩
  | cons cur later ih =>
    obtain ⟨⟨absent, size, given, positive⟩, behind⟩ := List.forall_mem_cons.mp follow
    obtain ⟨name, offset', size'⟩ := cur
    obtain rfl : offset' = none := absent
    obtain rfl : size' = some size := given
    obtain ⟨roomy, sizes⟩ := ih behind
    have below := @limit_le endWatermark.toNat later behind
    have small := endWatermark.isLt
    have stop : endOf parentSize.toNat
        (limit endWatermark.toNat (⟨name, none, some size⟩ :: later))
        ⟨name, none, some size⟩ (later ++ rest) =
        limit endWatermark.toNat later := by
      rw [endOf, startOf, limit]
      dsimp only [Option.elim]
      omega
    constructor
    · rw [List.cons_append, LevelRoomy, stop, roomy]
      refine ⟨fun room => room.2.2, fun room => ⟨by omega, nofun, room⟩⟩
    · rw [List.cons_append, levelSizes, stop, sizes, List.map_cons, List.cons_append]
      congr 1
      rw [startOf, limit, sizeOf']
      dsimp only [Option.elim]
      omega

section

variable (run : LevelRun parentSize watermark regions names result final)
include run

theorem LevelRun.extends : List.Forall₂ Region.Extends regions result := by
  induction run with
  | done inside => exact .nil
  | @sized watermark size cur rest later names final known above positive
      fresh run ih => exact .cons (cur.at_extends watermark) ih
  | @unsized watermark endWatermark cur followers rest complete later names
      final unknown above fresh follow endpoint backward run ih =>
    obtain ⟨size, placed, rfl, -, extends', -, -⟩ :=
      completeMissingInfoBackward_spec
        (fun follower member => follow follower (List.mem_reverse.mp member))
        (show (cur.at watermark).offset = some _ from rfl)
        (show (cur.at watermark).size = none from unknown) backward
    rw [List.reverse_reverse] at extends'
    refine .cons ⟨rfl, (cur.at_extends watermark).2.1, ?_⟩ ?_
    · rw [unknown]
      exact nofun
    · rw [List.append_nil]
      exact List.rel_append extends' ih

theorem LevelRun.namesOf_eq :
    final = (namesOf regions).reverse ++ names ∧ (names.Nodup → final.Nodup) := by
  induction run with
  | done inside => exact ⟨rfl, id⟩
  | @sized watermark size cur rest later names final known above positive
      fresh run ih =>
    refine ⟨?_, fun all => ih.2 (List.nodup_cons.mpr ⟨fresh, all⟩)⟩
    rw [ih.1, namesOf, namesOf, List.map_cons, List.reverse_cons, List.append_assoc]
    rfl
  | @unsized watermark endWatermark cur followers rest complete later names
      final unknown above fresh follow endpoint backward run ih =>
    refine ⟨?_, fun all => ih.2 (fresh all)⟩
    rw [ih.1]
    simp [namesOf]

/-- The sections follow each other exactly if the layout in the integers has
room, and then they have the sizes of this layout. -/
theorem LevelRun.chain_iff :
    (Chain watermark.toNat result parentSize.toNat ↔
      LevelRoomy parentSize.toNat watermark.toNat regions) ∧
    (LevelRoomy parentSize.toNat watermark.toNat regions →
      result.map sizeOf' = levelSizes parentSize.toNat watermark.toNat regions) := by
  induction run with
  | done inside => exact ⟨iff_of_true inside trivial, fun _ => rfl⟩
  | @sized watermark size cur rest later names final known above positive
      fresh run ih =>
    obtain ⟨chain, sizes⟩ := ih
    have stop : endOf parentSize.toNat watermark.toNat cur rest =
        ((cur.offset.getD watermark).toNat + size.toNat : Nat) := by
      rw [endOf, known, startOf_at]
      rfl
    have sum := BitVec.toNat_add (cur.offset.getD watermark) size
    have small := parentSize.isLt
    have first (tail : List Region) (upper : Nat) :
        Chain watermark.toNat (cur.at watermark :: tail) upper ↔
          Chain ((cur.offset.getD watermark).toNat + size.toNat) tail upper := by
      constructor
      · rintro ⟨offset', size', at', of', -, -, rest⟩
        cases at'
        cases known.symm.trans of'
        exact rest
      · exact fun rest => ⟨_, size, rfl, known, above, positive, rest⟩
    rw [first, LevelRoomy, stop]
    by_cases wraps : (cur.offset.getD watermark).toNat + size.toNat < 4294967296
    · rw [Nat.mod_eq_of_lt wraps] at sum
      rw [sum] at chain sizes
      refine ⟨chain.trans ⟨fun room => ⟨by omega, fun none => ?_, room⟩,
        fun room => room.2.2⟩, fun room => ?_⟩
      · rw [known] at none
        exact absurd none (Option.some_ne_none size)
      · rw [List.map_cons, levelSizes, stop, sizes room.2.2, startOf_at, sizeOf']
        congr 1
        rw [show (cur.at watermark).size = some size from known]
        dsimp only [Option.elim]
        omega
    · have never : ¬ (((cur.offset.getD watermark).toNat + size.toNat : Nat) :
          Int) < 4294967296 := by omega
      refine ⟨iff_of_false (fun chain => ?_) (fun room => never room.1),
        fun room => absurd room.1 never⟩
      have below := chain.le
      omega
  | @unsized watermark endWatermark cur followers rest complete later names
      final unknown above fresh follow endpoint backward run ih =>
    obtain ⟨chain, sizes⟩ := ih
    obtain ⟨size, placed, rfl, room, -, kept, tail⟩ :=
      completeMissingInfoBackward_spec
        (fun follower member => follow follower (List.mem_reverse.mp member))
        (show (cur.at watermark).offset = some _ from rfl)
        (show (cur.at watermark).size = none from unknown) backward
    rw [List.reverse_reverse] at room kept
    obtain ⟨roomy, ideal⟩ := @levelRoomy_followers parentSize followers rest endWatermark follow
    have below := @limit_le endWatermark.toNat followers follow
    have small := endWatermark.isLt
    have stop : endOf parentSize.toNat watermark.toNat cur
        (followers ++ rest) = limit endWatermark.toNat followers := by
      rw [endOf, unknown]
      rw [limit_append, limit_of_endpoint endpoint]
    have least : limit parentSize.toNat (followers ++ rest) =
        limit endWatermark.toNat followers := by
      rw [limit_append, limit_of_endpoint endpoint]
    have start := @startOf_at watermark cur
    have first : Chain watermark.toNat (({ cur.at watermark with
        size := some size } :: (placed ++ [])) ++ later) parentSize.toNat ↔
        size ≠ 0 ∧ Chain endWatermark.toNat later parentSize.toNat := by
      rw [List.append_nil, List.cons_append, ← tail]
      constructor
      · rintro ⟨offset', size', at', of', -, positive, rest⟩
        cases at'
        cases of'
        exact ⟨positive, rest⟩
      · exact fun good => ⟨_, size, rfl, rfl, above, good.1, good.2⟩
    have positive : size ≠ 0 ↔ startOf watermark.toNat cur <
        limit parentSize.toNat (followers ++ rest) := by
      rw [least, ← room, start, ne_eq, ← BitVec.toNat_inj]
      show ¬ size.toNat = 0 ↔ _
      omega
    have whole : LevelRoomy parentSize.toNat watermark.toNat
        (cur :: (followers ++ rest)) ↔
        size ≠ 0 ∧ LevelRoomy parentSize.toNat endWatermark.toNat rest := by
      rw [LevelRoomy, stop, roomy, positive]
      exact ⟨fun good => ⟨good.2.1 unknown, good.2.2⟩,
        fun good => ⟨by omega, fun _ => good.1, good.2⟩⟩
    refine ⟨?_, fun good => ?_⟩
    · rw [first, whole, chain]
    · rw [List.append_nil, List.cons_append, List.map_cons, List.map_append, levelSizes, stop,
        ideal, sizes (whole.mp good).2, start]
      congr 1
      · rw [sizeOf', ← room]
        dsimp only [Option.elim]
        omega
      · congr 1
        have same := congrArg (List.map
          (fun size : Option (BitVec 32) => size.elim (0 : Int) fun size => size.toNat)) kept
        rwa [List.map_map, List.map_map] at same

end

end Layout

section Tree

theorem Chain.known {regions : List Region} (chain : Chain lower regions upper) :
    ∀ region ∈ regions, ∃ size, region.size = some size := by
  induction regions generalizing lower with
  | nil => exact List.forall_mem_nil _
  | cons cur rest ih =>
    obtain ⟨offset, size, -, known, -, -, rest⟩ := chain
    exact List.forall_mem_cons.mpr ⟨⟨size, known⟩, ih rest⟩

theorem namesOf_map (list : List Descriptor) :
    namesOf (list.map Descriptor.region) = list.map (fun child => child.region.name) :=
  List.map_map

mutual

/-- What the recursion keeps: the fields of a section, the names in the hash
table and the connection with the layout in the integers. -/
theorem validateAndCompleteInfo_spec : ∀ {descriptor complete : Descriptor}
    {region : Region} {names final : List String},
    validateAndCompleteInfo descriptor region names = some (complete, final) →
    complete.region = region ∧
      (descriptor.region.Extends region → descriptor.Extends complete) ∧
      final = descriptor.subnames.reverse ++ names ∧
      (names.Nodup → final.Nodup) ∧
      ∀ size, region.size = some size → (complete.Placed ↔ descriptor.Roomy size.toNat)
  | .node given list, complete, region, names, final, run => by
    rw [validateAndCompleteInfo] at run
    obtain ⟨size, known, run⟩ := Option.bind_eq_some_iff.mp run
    obtain ⟨⟨regions, names'⟩, level, run⟩ := Option.bind_eq_some_iff.mp run
    obtain ⟨⟨list', final'⟩, children, same⟩ := Option.map_eq_some_iff.mp run
    cases same
    have levelRun := levelRun_of_completeLevel (fun _ => BitVec.le_def.mpr (Nat.zero_le _)) level
    have chain : Chain 0 regions size.toNat ↔
        LevelRoomy size.toNat 0 (list.map Descriptor.region) :=
      levelRun.chain_iff.1
    have sizes : LevelRoomy size.toNat 0 (list.map Descriptor.region) →
        regions.map sizeOf' = levelSizes size.toNat 0 (list.map Descriptor.region) :=
      levelRun.chain_iff.2
    obtain ⟨table, distinct⟩ := levelRun.namesOf_eq
    obtain ⟨fields, extends', table', distinct', placed⟩ :=
      validateAndCompleteList_spec levelRun.extends children
    refine ⟨rfl, fun kept => ⟨kept, extends'⟩, ?_,
      fun all => distinct' (distinct all), fun size' known' => ?_⟩
    · rw [table', table, Descriptor.subnames, List.reverse_append, List.append_assoc, namesOf_map]
    · cases known.symm.trans known'
      rw [Descriptor.Placed, Descriptor.Roomy, fields]
      have level' : (∃ size', region.size = some size' ∧
          Chain 0 regions size'.toNat) ↔ LevelRoomy size.toNat 0 (list.map Descriptor.region) := by
        refine Iff.trans ?_ chain
        constructor
        · rintro ⟨size', known', chain⟩
          cases known.symm.trans known'
          exact chain
        · exact fun chain => ⟨size, known, chain⟩
      constructor
      · rintro ⟨first, rest⟩
        have room := level'.mp first
        have whole := (chain.mpr room).known
        rw [← sizes room, ← placed whole]
        exact ⟨room, rest⟩
      · rintro ⟨room, rest⟩
        have whole := (chain.mpr room).known
        rw [← sizes room, ← placed whole] at rest
        exact ⟨level'.mpr room, rest⟩

theorem validateAndCompleteList_spec : ∀ {list complete : List Descriptor}
    {regions : List Region} {names final : List String},
    List.Forall₂ Region.Extends (list.map Descriptor.region) regions →
    validateAndCompleteList list regions names = some (complete, final) →
    complete.map Descriptor.region = regions ∧ ExtendsList list complete ∧
      final = (subnamesList list).reverse ++ names ∧
      (names.Nodup → final.Nodup) ∧
      ((∀ region ∈ regions, ∃ size, region.size = some size) →
        (PlacedList complete ↔ RoomyList list (regions.map sizeOf')))
  | [], complete, regions, names, final, kept, run => by
    cases run
    obtain rfl := List.forall₂_nil_left_iff.mp kept
    exact ⟨rfl, trivial, rfl, id, fun _ => Iff.rfl⟩
  | descriptor :: rest, complete, regions, names, final, kept, run => by
    obtain ⟨region, regions', first, later, rfl⟩ := List.forall₂_cons_left_iff.mp kept
    rw [validateAndCompleteList] at run
    obtain ⟨⟨child, names'⟩, own, run⟩ := Option.bind_eq_some_iff.mp run
    obtain ⟨⟨rest', final'⟩, behind, same⟩ := Option.map_eq_some_iff.mp run
    cases same
    obtain ⟨field, extends', table, distinct, placed⟩ := validateAndCompleteInfo_spec own
    obtain ⟨fields, extendsRest, tableRest, distinctRest, placedRest⟩ :=
      validateAndCompleteList_spec later behind
    refine ⟨?_, ⟨extends' first, extendsRest⟩, ?_,
      fun all => distinctRest (distinct all), fun known => ?_⟩
    · rw [List.map_cons, field, fields]
    · rw [tableRest, table, subnamesList, List.reverse_append, List.append_assoc]
    · obtain ⟨⟨size, known⟩, knownRest⟩ := List.forall_mem_cons.mp known
      have own' : sizeOf' region = size.toNat := by
        rw [sizeOf', known]
        rfl
      rw [PlacedList, List.map_cons, RoomyList, own', placed size known, placedRest knownRest]

end

mutual

theorem Descriptor.Extends.subnames_eq : ∀ {descriptor complete : Descriptor},
    descriptor.Extends complete → complete.subnames = descriptor.subnames ∧
      complete.region.name = descriptor.region.name
  | .node given list, .node region list', kept => by
    obtain ⟨labels, below⟩ := ExtendsList.subnames_eq kept.2
    refine ⟨?_, kept.1.1⟩
    rw [Descriptor.subnames, Descriptor.subnames, labels, below]

theorem ExtendsList.subnames_eq : ∀ {list complete : List Descriptor},
    ExtendsList list complete →
    complete.map (fun child => child.region.name) = list.map (fun child => child.region.name) ∧
      subnamesList complete = subnamesList list
  | [], [], _ => ⟨rfl, rfl⟩
  | descriptor :: rest, complete :: rest', kept => by
    obtain ⟨below, name⟩ := Descriptor.Extends.subnames_eq kept.1
    obtain ⟨labels, belowRest⟩ := ExtendsList.subnames_eq kept.2
    constructor
    · rw [List.map_cons, List.map_cons, name, labels]
    · rw [subnamesList, subnamesList, below, belowRest]

end

/-- A completed flash map is sound exactly if no section has the name of the chip
and the layout in the integers has room. -/
theorem sound_iff_fits {root complete : Descriptor} (created : fmdCreate root = some complete) :
    Sound root complete ↔ Fits root := by
  obtain ⟨⟨complete', final⟩, run, same⟩ := Option.map_eq_some_iff.mp created
  obtain rfl : complete' = complete := same
  obtain ⟨region, extends', table, distinct, placed⟩ := validateAndCompleteInfo_spec run
  have kept : root.Extends complete' := extends' ⟨rfl, fun _ known => known, fun _ known => known⟩
  obtain ⟨below, name⟩ := kept.subnames_eq
  have nodup : root.subnames.Nodup := by
    have all := distinct List.nodup_nil
    rw [table, List.append_nil] at all
    exact List.nodup_reverse.mp all
  constructor
  · intro sound
    have fresh := (List.nodup_cons.mp sound.distinct).1
    rw [name, below] at fresh
    exact ⟨fresh, fun size known => (placed size known).mp sound.placed⟩
  · rintro ⟨fresh, room⟩
    refine ⟨kept, ?_, ?_⟩
    · cases known : root.region.size with
      | none =>
        obtain ⟨given, list⟩ := root
        rw [validateAndCompleteInfo, known] at run
        exact absurd run (Option.some_ne_none _).symm
      | some size => exact (placed size known).mpr (room size known)
    · rw [name, below]
      exact List.nodup_cons.mpr ⟨fresh, nodup⟩

def wholeChip : Descriptor := .node ⟨"FLASH", none, some 256⟩ [.node ⟨"BIOS", none, none⟩ []]

theorem sound_wholeChip :
    fmdCreate wholeChip = some (.node ⟨"FLASH", none, some 256⟩
        [.node ⟨"BIOS", some 0, some 256⟩ []]) ∧
      (Sound wholeChip (.node ⟨"FLASH", none, some 256⟩
        [.node ⟨"BIOS", some 0, some 256⟩ []]) ↔ Fits wholeChip) :=
  ⟨rfl, sound_iff_fits rfl⟩

/-- A section with the offset 0 before another section with the offset 0 is
completed with the size 0. -/
theorem not_sound_empty : ¬ ∀ root complete,
    fmdCreate root = some complete → Sound root complete := by
  intro sound
  have created : fmdCreate (.node ⟨"FLASH", none, some 256⟩
      [.node ⟨"RO", some 0, none⟩ [], .node ⟨"RW", some 0, some 256⟩ []]) =
      some (.node ⟨"FLASH", none, some 256⟩
        [.node ⟨"RO", some 0, some 0⟩ [], .node ⟨"RW", some 0, some 256⟩ []]) := rfl
  obtain ⟨⟨size, -, chain⟩, -⟩ := (sound _ _ created).placed
  obtain ⟨offset, size', -, of', -, positive, -⟩ := chain
  exact positive (Option.some.inj of').symm

end Tree

end Coreboot.Flashmap
