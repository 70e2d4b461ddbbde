import Coreboot.CbfsCompaction

/-!
# Locating a place for a file

A content that is used in place must not cross a page of the flash. The tool tries three
positions in each empty entry: behind its header, at the next page, and a page later.
-/

namespace Coreboot.Cbfs

open ByteMemory

/-- The arguments of `cbfs_locate_entry`, and the offset of the image in the
flash. -/
structure Demand where
  regionOffset : Nat
  size : Nat
  pageSize : Nat
  align : Nat
  metadataSize : Nat
deriving DecidableEq

/-- Default values: allow fitting anywhere in the image. -/
def Demand.defaults (demand : Demand) (imageSize : Nat) : Demand :=
  { demand with
    pageSize := if demand.pageSize = 0 then imageSize else demand.pageSize
    align := if demand.align = 0 then 1 else demand.align }

def isInSamePage (start size page : Nat) : Bool :=
  let start := start % 2 ^ 32
  let size := size % 2 ^ 32
  let page := page % 2 ^ 32
  if page = 0 then true
  else decide (start / page = sub32 (add32 start size) 1 / page)

def isInRange (start finish metadataSize offset size : Nat) : Bool :=
  decide (addSize start metadataSize ≤ offset ∧ addSize offset size ≤ finish)

/-- The aligned address in the flash that `absolute_align` computes. -/
def alignedAddress (regionOffset value align : Nat) : Nat :=
  alignUp (addSize value regionOffset % 2 ^ 32) (align % 2 ^ 32)

def absoluteAlign (regionOffset value align : Nat) : Nat :=
  subSize (alignedAddress regionOffset value align) regionOffset

/-- The tests of `cbfs_locate_entry` on an empty entry. -/
def locateIn (demand : Demand) (addr addrNext : Nat) : Verdict :=
  let needLen := addSize demand.metadataSize demand.size
  let fits := fun offset =>
    isInRange addr addrNext demand.metadataSize offset demand.size
  if subSize addrNext addr < needLen then .skip
  else
    let offset := absoluteAlign demand.regionOffset (addSize addr demand.metadataSize) demand.align
    if isInSamePage offset demand.size demand.pageSize && fits offset then
      .place offset
    else
      let addr2 := alignUp (addr % 2 ^ 32) (demand.pageSize % 2 ^ 32)
      let offset := absoluteAlign demand.regionOffset addr2 demand.align
      if fits offset then .place offset
      -- An assertion stops the tool.
      else if ¬ demand.metadataSize ≤ demand.pageSize then .stop
      else
        let addr3 := addSize addr2 demand.pageSize
        let offset := absoluteAlign demand.regionOffset addr3 demand.align
        if fits offset then .place offset else .skip

/-- A `size_t` that is returned as an `int32_t`. -/
def toInt32 (value : Nat) : Int := Int.bmod value (2 ^ 32)

def afterLocateIn (later : Option Int) : Verdict → Option Int
  | .skip => later
  | .stop => none
  | .place offset => some (toInt32 offset)

def locateLoop (image : Image) (demand : Demand) : Nat → Nat → Option Int
  | 0, _ => none
  | fuel + 1, entry =>
    if !cbfsIsValidEntry image entry then some (-1)
    else
      let addrNext := cbfsFindNextEntry image.data entry
      let later := locateLoop image demand fuel addrNext
      if entryType image.data entry ≠ cbfsComponentNull then later
      else afterLocateIn later (locateIn demand entry addrNext)

def cbfsLocateEntry (image : Image) (demand : Demand) : Option (Image × Int) :=
  let demand := demand.defaults image.size
  match cbfsWalkMerge image with
  | none => none
  | some image =>
    (locateLoop image demand image.fuel cbfsFindFirstEntry).map fun offset => (image, offset)

/-- The three cases of a content on memory pages. -/
inductive Page where
  | first
  | second
  | third
deriving DecidableEq, Repr

namespace Demand

variable (demand : Demand)

/-- Where a candidate position starts from. -/
def trial (addr : Nat) : Page → Nat
  | .first => addSize addr demand.metadataSize
  | .second => alignUp (addr % 2 ^ 32) (demand.pageSize % 2 ^ 32)
  | .third => addSize (alignUp (addr % 2 ^ 32) (demand.pageSize % 2 ^ 32))
      demand.pageSize

def address (addr : Nat) (page : Page) : Nat :=
  alignedAddress demand.regionOffset (demand.trial addr page) demand.align

def position (addr : Nat) (page : Page) : Nat :=
  subSize (demand.address addr page) demand.regionOffset

/-- A candidate position passes the tests. -/
def qualifies (addr addrNext : Nat) (page : Page) : Bool :=
  decide (addSize demand.metadataSize demand.size ≤ subSize addrNext addr) &&
    (decide (page ≠ .first) ||
      isInSamePage (demand.position addr page) demand.size demand.pageSize) &&
    isInRange addr addrNext demand.metadataSize (demand.position addr page) demand.size

def chosen (addr addrNext : Nat) : Option Page :=
  [.first, .second, .third].find? (demand.qualifies addr addrNext)

def find : Nat → List Entry → Option Nat
  | _, [] => none
  | addr, e :: rest =>
    match e.slot with
    | .empty =>
      ((demand.chosen addr (addr + e.span)).map (demand.position addr)).or
        (find (addr + e.span) rest)
    | .deleted | .file _ => find (addr + e.span) rest

/-- No candidate position in an empty entry of a layout passes the tests. -/
def NoneQualifies (entries : List Entry) : Prop :=
  ∀ before span after, entries = before ++ ⟨span, .empty⟩ :: after →
    ∀ page, demand.qualifies (spanOf before) (spanOf before + span) page = false

variable {addr : Nat} {entries : List Entry}

theorem locateIn_eq {addrNext : Nat} (asserted : addSize demand.metadataSize demand.size ≤
      subSize addrNext addr → demand.metadataSize ≤ demand.pageSize) :
    locateIn demand addr addrNext =
      ((demand.chosen addr addrNext).map (demand.position addr)).elim .skip .place := by
  by_cases room : addSize demand.metadataSize demand.size ≤ subSize addrNext addr
  · have first : demand.qualifies addr addrNext .first =
        (isInSamePage (demand.position addr .first) demand.size
          demand.pageSize && isInRange addr addrNext demand.metadataSize
            (demand.position addr .first) demand.size) := by
      simp [qualifies, room]
    have later {page : Page} (moved : page ≠ .first) :
        demand.qualifies addr addrNext page =
          isInRange addr addrNext demand.metadataSize (demand.position addr page) demand.size := by
      simp [qualifies, room, moved]
    have second := @later .second (by decide)
    have third := @later .third (by decide)
    have unfolded : locateIn demand addr addrNext =
        if demand.qualifies addr addrNext .first then
          .place (demand.position addr .first)
        else if demand.qualifies addr addrNext .second then
          .place (demand.position addr .second)
        else if demand.qualifies addr addrNext .third then
          .place (demand.position addr .third)
        else .skip := by
      rw [first, second, third, locateIn, if_neg (by omega)]
      dsimp only
      rw [if_neg (not_not.mpr (asserted room))]
      rfl
    rw [unfolded, chosen, List.find?, List.find?, List.find?, List.find?]
    cases demand.qualifies addr addrNext .first with
    | true => rfl
    | false =>
      cases demand.qualifies addr addrNext .second with
      | true => rfl
      | false =>
        cases demand.qualifies addr addrNext .third with
        | true => rfl
        | false => rfl
  · have none' (page : Page) : demand.qualifies addr addrNext page = false := by
      simp [qualifies, room]
    rw [chosen, List.find?_eq_none.mpr fun page _ => by simp [none' page],
      locateIn, if_pos (by omega)]
    rfl

theorem chosen_eq_none {addrNext : Nat} :
    demand.chosen addr addrNext = none ↔ ∀ page, demand.qualifies addr addrNext page = false := by
  rw [chosen, List.find?_eq_none]
  refine ⟨fun none' page => ?_, fun none' page _ => by simp [none' page]⟩
  exact Bool.eq_false_of_not_eq_true (none' page (by cases page <;> decide))

theorem find_append (addr : Nat) (before rest : List Entry) :
    demand.find addr (before ++ rest) =
      (demand.find addr before).or (demand.find (addr + spanOf before) rest) := by
  induction before generalizing addr with
  | nil => rw [List.nil_append, spanOf, Nat.add_zero, find, Option.none_or]
  | cons e before ih =>
    rw [List.cons_append, find, find, ih, spanOf, Nat.add_assoc]
    cases e.slot with
    | empty => exact Option.or_assoc.symm
    | deleted => rfl
    | file record => rfl

theorem find_empty (addr span : Nat) (rest : List Entry) :
    demand.find addr (⟨span, .empty⟩ :: rest) =
      ((demand.chosen addr (addr + span)).map (demand.position addr)).or
        (demand.find (addr + span) rest) :=
  rfl

theorem find_eq_none :
    demand.find addr entries = none ↔
      ∀ before span after, entries = before ++ ⟨span, .empty⟩ :: after →
        ∀ page, demand.qualifies (addr + spanOf before)
          (addr + spanOf before + span) page = false := by
  constructor
  · intro none' before span after split
    rw [split, find_append, find_empty, Option.or_eq_none_iff,
      Option.or_eq_none_iff, Option.map_eq_none_iff] at none'
    exact demand.chosen_eq_none.mp none'.2.1
  · intro none'
    induction entries generalizing addr with
    | nil => rfl
    | cons e rest ih =>
      have later : demand.find (addr + e.span) rest = none := by
        refine ih fun before span after split => ?_
        have here := none' (e :: before) span after (congrArg (e :: ·) split)
        rw [spanOf, ← Nat.add_assoc] at here
        exact here
      obtain ⟨span, slot⟩ := e
      cases slot with
      | empty =>
        rw [find_empty, later, Option.or_none, Option.map_eq_none_iff, chosen_eq_none]
        exact none' [] span rest rfl
      | deleted => exact later
      | file record => exact later

theorem find_zero_eq_none : demand.find 0 entries = none ↔ demand.NoneQualifies entries := by
  rw [find_eq_none]
  simp only [Nat.zero_add]
  rfl

theorem exists_of_find {offset : Nat} (found : demand.find addr entries = some offset) :
    ∃ before span after page, entries = before ++ ⟨span, .empty⟩ :: after ∧
      demand.find addr before = none ∧
      demand.chosen (addr + spanOf before) (addr + spanOf before + span) = some page ∧
      offset = demand.position (addr + spanOf before) page := by
  induction entries generalizing addr with
  | nil => cases found
  | cons e rest ih =>
    have pass (skipped : demand.find addr [e] = none)
        (later : demand.find (addr + e.span) rest = some offset) :
        ∃ before span after page, e :: rest = before ++ ⟨span, .empty⟩ :: after ∧
          demand.find addr before = none ∧
          demand.chosen (addr + spanOf before) (addr + spanOf before + span) = some page ∧
          offset = demand.position (addr + spanOf before) page := by
      obtain ⟨before, span, after, page, split, none', choice, same⟩ := ih later
      refine ⟨e :: before, span, after, page, congrArg (e :: ·) split, ?_, ?_, ?_⟩
      · have parts := demand.find_append addr [e] before
        rw [skipped, Option.none_or, spanOf, spanOf, Nat.add_zero, none'] at parts
        exact parts
      · rw [spanOf, ← Nat.add_assoc]
        exact choice
      · rw [spanOf, ← Nat.add_assoc]
        exact same
    obtain ⟨span, slot⟩ := e
    cases slot with
    | empty =>
      rw [find_empty] at found
      cases choice : demand.chosen addr (addr + span) with
      | none =>
        rw [choice, Option.map_none, Option.none_or] at found
        refine pass ?_ found
        rw [find_empty, choice]
        rfl
      | some page =>
        rw [choice] at found
        cases found
        exact ⟨[], span, rest, page, rfl, rfl, choice, rfl⟩
    | deleted => exact pass rfl found
    | file record => exact pass rfl found

theorem find_of_chosen {before after : List Entry} {span : Nat} {page : Page}
    (none' : demand.NoneQualifies before)
    (choice : demand.chosen (spanOf before) (spanOf before + span) = some page) :
    demand.find 0 (before ++ ⟨span, .empty⟩ :: after) =
      some (demand.position (spanOf before) page) := by
  rw [find_append, demand.find_zero_eq_none.mpr none', Option.none_or,
    Nat.zero_add, find_empty, choice]
  rfl

end Demand

section Search

variable {image : Image} {demand : Demand} {entries : List Entry}

/-- A header for which there is room is not larger than a page. -/
def Demand.Asserted (demand : Demand) (imageSize : Nat) : Prop :=
  ∀ addr addrNext, addr ≤ addrNext → addrNext ≤ imageSize →
    addSize demand.metadataSize demand.size ≤ subSize addrNext addr →
      demand.metadataSize ≤ demand.pageSize

theorem locateLoop_spec {fuel entry : Nat}
    (asserted : demand.Asserted image.size) (layout : LayoutAt image.data entry entries)
    (whole : entry + spanOf entries = image.size) (small : image.size < 2147483648)
    (aligned : 64 ∣ entry) (enough : entries.length < fuel) :
    locateLoop image demand fuel entry = some ((demand.find entry entries).elim (-1) toInt32) := by
  induction fuel generalizing entry entries with
  | zero => omega
  | succ fuel ih =>
    cases entries with
    | nil =>
      rw [locateLoop, show entry = image.size from whole, not_valid_end]
      rfl
    | cons e rest =>
      obtain ⟨entryAt, later⟩ := layout
      rw [spanOf] at whole
      rw [List.length_cons] at enough
      have next := entryAt.header.findNext aligned (show entry + e.span < 4294967296 by omega)
      have rests := ih later (by omega) (Nat.dvd_add aligned entryAt.header.aligned) (by omega)
      rw [locateLoop, entryAt.valid (by omega), if_neg (by decide), next]
      obtain ⟨span, slot⟩ := e
      cases slot with
      | empty =>
        have type : entryType image.data entry = cbfsComponentNull := entryAt.slot.1
        rw [if_neg (not_not.mpr type), demand.locateIn_eq
          (asserted entry (entry + span) (by omega)
            (by change entry + (span + _) = _ at whole; omega)),
          demand.find_empty]
        cases demand.chosen entry (entry + span) with
        | none =>
          rw [Option.map_none, Option.elim_none, Option.none_or]
          exact rests
        | some page =>
          rw [Option.map_some, Option.elim_some, Option.some_or, Option.elim_some, afterLocateIn]
      | deleted =>
        have type : entryType image.data entry = cbfsComponentDeleted := entryAt.slot
        rw [if_pos (by rw [type]; decide)]
        exact rests
      | file record =>
        rw [if_pos entryAt.slot.1.2]
        exact rests

theorem cbfsLocateEntry_spec (held : Held image entries)
    (asserted : (demand.defaults image.size).Asserted image.size) :
    ∃ data, Held { image with data } (coalesce none entries) ∧
      cbfsLocateEntry image demand = some ({ image with data },
        ((demand.defaults image.size).find 0 (coalesce none entries)).elim (-1) toInt32) := by
  obtain ⟨data, walk, merged, -⟩ := cbfsWalkMerge_spec held
  refine ⟨data, merged, ?_⟩
  have found := @locateLoop_spec { image with data }
    (demand.defaults image.size) _ _ 0 asserted merged.layout
    (by rw [merged.whole, Nat.zero_add]) merged.small (Nat.dvd_zero 64)
    merged.length_lt
  rw [cbfsLocateEntry, walk]
  dsimp only
  rw [cbfsFindFirstEntry, found, Option.map_some]

end Search

end Coreboot.Cbfs
