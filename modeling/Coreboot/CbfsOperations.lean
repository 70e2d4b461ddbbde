import Coreboot.CbfsPlace
import Coreboot.CbfsAttributes

/-!
# Adding and removing files

Whether a file is added, and where, is decided by the sizes of the entries alone, as long as the
size that is needed does not overflow.
-/

namespace Coreboot.Cbfs

open ByteMemory

structure Held (image : Image) (entries : List Entry) : Prop where
  layout : LayoutAt image.data 0 entries
  whole : spanOf entries = image.size
  small : image.size < 2147483648

variable {entries : List Entry} {address headerSize size contentOffset span : Nat} {data : Memory}

theorem Held.aligned {image : Image} (held : Held image entries) : 64 ∣ image.size := by
  rw [← held.whole]
  exact held.layout.aligned

theorem Held.length_lt {image : Image} (held : Held image entries) :
    entries.length < image.fuel := by
  have length := held.layout.length_le
  have whole := held.whole
  show _ < image.size + 1
  omega

/-- The tests of `cbfs_add_entry` on an empty entry. -/
def verdict (address span headerSize size contentOffset : Nat) : Verdict :=
  if add32 address (add32 headerSize size) > address + span then .skip
  else if contentOffset > 0 then
    if address + span < contentOffset then .skip
    else if address > contentOffset then .stop
    else if add32 address headerSize > contentOffset then .stop
    else if contentOffset + size > address + span then .stop
    else .place contentOffset
  else .place (add32 address headerSize)

def Entry.verdict (address : Nat) (e : Entry) (headerSize size contentOffset : Nat) : Verdict :=
  match e.slot with
  | .empty => Cbfs.verdict address e.span headerSize size contentOffset
  | .deleted | .file _ => .skip

/-- An entry that is chosen, with its neighbours. -/
structure Site where
  before : List Entry
  span : Nat
  after : List Entry
  contentOffset : Nat

/-- The search of `cbfs_add_entry` in a layout. -/
def choose (headerSize size contentOffset : Nat) : Nat → List Entry → Option Site
  | _, [] => none
  | address, e :: rest =>
    match e.verdict address headerSize size contentOffset with
    | .skip => (choose headerSize size contentOffset (address + e.span)
        rest).map fun site => { site with before := e :: site.before }
    | .stop => none
    | .place contentOffset => some ⟨[], e.span, rest, contentOffset⟩

theorem Entry.empty_of_place {e : Entry} {place : Nat}
    (placed : e.verdict address headerSize size contentOffset = .place place) :
    e.slot = .empty := by
  obtain ⟨span, slot⟩ := e
  cases slot with
  | empty => rfl
  | deleted => cases placed
  | file => cases placed

theorem choose_spec {site : Site}
    (chosen : choose headerSize size contentOffset address entries = some site) :
    entries = site.before ++ ⟨site.span, .empty⟩ :: site.after ∧
      verdict (address + spanOf site.before) site.span headerSize size
        contentOffset = .place site.contentOffset := by
  induction entries generalizing address site with
  | nil => cases chosen
  | cons e rest ih =>
    rw [choose] at chosen
    cases tested : e.verdict address headerSize size contentOffset with
    | skip =>
      rw [tested] at chosen
      obtain ⟨later, found, rfl⟩ := Option.map_eq_some_iff.mp chosen
      obtain ⟨same, placed⟩ := ih found
      refine ⟨congrArg (e :: ·) same, ?_⟩
      show verdict (address + (e.span + spanOf later.before)) _ _ _ _ = _
      rw [← Nat.add_assoc]
      exact placed
    | stop =>
      rw [tested] at chosen
      cases chosen
    | place contentOffset' =>
      rw [tested] at chosen
      have empty := Entry.empty_of_place tested
      obtain ⟨span, slot⟩ := e
      obtain rfl : slot = .empty := empty
      cases chosen
      exact ⟨rfl, tested⟩

/-- A file that is placed starts behind its header and, without overflow, ends
within the entry. -/
theorem place_bounds {place : Nat}
    (placed : verdict address span headerSize size contentOffset = .place place)
    (small : address + headerSize < 4294967296) (room : contentOffset = 0 →
      add32 address (add32 headerSize size) ≤ address + span →
        address + headerSize + size % 2 ^ 32 ≤ address + span) :
    address + headerSize ≤ place ∧
      place + size % 2 ^ 32 ≤ address + span ∧
      (contentOffset = 0 → place = address + headerSize) ∧
      (contentOffset ≠ 0 → place = contentOffset ∧ place + size ≤ address + span) := by
  have less := Nat.mod_le size 4294967296
  rw [verdict, add32_of_lt small] at placed
  split_ifs at placed with wrapped fixed early late front back
  · cases placed
    exact ⟨by omega, by omega, by omega, fun _ => ⟨rfl, by omega⟩⟩
  · cases placed
    exact ⟨le_rfl, room (by omega) (by omega), fun _ => rfl, by omega⟩

theorem testEntry_empty (type : entryType data address = cbfsComponentNull)
    (next : cbfsFindNextEntry data address = address + span) (headerSize size contentOffset : Nat) :
    testEntry data address headerSize size contentOffset =
      verdict address span headerSize size contentOffset := by
  rw [testEntry, next, if_neg (not_not.mpr type), verdict]

theorem testEntry_skip (type : entryType data address ≠ cbfsComponentNull)
    (headerSize size contentOffset : Nat) :
    testEntry data address headerSize size contentOffset = .skip := by
  rw [testEntry, if_pos type]

theorem testEntry_of_entryAt {slot : Slot}
    (entryAt : EntryAt data address ⟨span, slot⟩) (aligned : 64 ∣ address)
    (fits : address + span < 4294967296) (headerSize size contentOffset : Nat) :
    testEntry data address headerSize size contentOffset =
      (Entry.mk span slot).verdict address headerSize size contentOffset := by
  cases slot with
  | empty =>
    exact testEntry_empty entryAt.slot.1 (entryAt.header.findNext aligned fits) _ _ _
  | deleted =>
    refine testEntry_skip ?_ _ _ _
    rw [show entryType data address = cbfsComponentDeleted from entryAt.slot]
    decide
  | file record => exact testEntry_skip entryAt.slot.1.2 _ _ _

section Search

variable {image : Image} {content : List Byte} {contentOffset entry : Nat} {header : Memory}

theorem searchSpace_end (invalid : cbfsIsValidEntry image entry = false) (fuel : Nat) :
    searchSpace image content contentOffset header (fuel + 1) entry = some (false, image) := by
  rw [searchSpace, invalid]
  rfl

def placeOr (image : Image) (placed : Option Image) : Bool × Image :=
  placed.elim (false, image) fun image => (true, image)

def afterTest (image : Image) (later : Option (Bool × Image))
    (add : Nat → Memory → Option Image) (header : Memory) :
    Verdict → Option (Bool × Image)
  | .skip => later
  | .stop => some (false, image)
  | .place contentOffset => some (placeOr image (add contentOffset header))

theorem match_verdict (later : Option (Bool × Image))
    (add : Nat → Memory → Option Image) (result : Verdict) :
    (match result with
      | .skip => later
      | .stop => some (false, image)
      | .place contentOffset =>
        match add contentOffset header with
        | none => some (false, image)
        | some image => some (true, image)) =
      afterTest image later add header result := by
  cases result with
  | skip => rfl
  | stop => rfl
  | place contentOffset =>
    dsimp only [afterTest]
    cases add contentOffset header with
    | none => rfl
    | some image => rfl

theorem searchSpace_valid (valid : cbfsIsValidEntry image entry = true) (fuel : Nat) :
    searchSpace image content contentOffset header (fuel + 1) entry =
      afterTest image (searchSpace image content contentOffset header fuel
          (cbfsFindNextEntry image.data entry))
        (cbfsAddEntryAt image entry content) header
        (testEntry image.data entry (entryOffset header 0) content.length contentOffset) := by
  rw [searchSpace, valid, if_neg (by decide)]
  exact match_verdict _ (cbfsAddEntryAt image entry content) _

def addChosen (image : Image) (content : List Byte) (header : Memory)
    (entry : Nat) : Option Site → Option (Bool × Image)
  | none => some (false, image)
  | some site => some (placeOr image (cbfsAddEntryAt image
      (entry + spanOf site.before) content site.contentOffset header))

theorem searchSpace_spec {fuel : Nat} {entries : List Entry}
    (layout : LayoutAt image.data entry entries) (whole : entry + spanOf entries = image.size)
    (small : image.size < 2147483648) (aligned : 64 ∣ entry) (enough : entries.length < fuel) :
    searchSpace image content contentOffset header fuel entry =
      addChosen image content header entry (choose (entryOffset header 0)
        content.length contentOffset entry entries) := by
  induction fuel generalizing entry entries with
  | zero => omega
  | succ fuel ih =>
    cases entries with
    | nil =>
      rw [show entry = image.size from whole]
      exact searchSpace_end (not_valid_end image) fuel
    | cons e rest =>
      obtain ⟨entryAt, later⟩ := layout
      rw [spanOf] at whole
      rw [List.length_cons] at enough
      have tested := testEntry_of_entryAt entryAt aligned (by omega)
        (entryOffset header 0) content.length contentOffset
      rw [searchSpace_valid (entryAt.valid (by omega)), tested, choose]
      cases e.verdict entry (entryOffset header 0) content.length contentOffset with
      | skip =>
        rw [afterTest, entryAt.header.findNext aligned (by omega), ih later
          (by omega) (Nat.dvd_add aligned entryAt.header.aligned)
          (by omega)]
        cases choose (entryOffset header 0) content.length contentOffset (entry + e.span) rest with
        | none => rfl
        | some site =>
          rw [Option.map_some, addChosen, addChosen, spanOf, Nat.add_assoc]
      | stop => rw [afterTest, addChosen]
      | place => rw [afterTest, addChosen, spanOf, Nat.add_zero]

end Search

section Operations

variable {image : Image} {entries : List Entry}

theorem spanOf_coalesce (begun : Option Nat) (entries : List Entry) :
    spanOf (coalesce begun entries) = begun.getD 0 + spanOf entries := by
  induction entries generalizing begun with
  | nil =>
    cases begun with
    | none => rfl
    | some length => rfl
  | cons e rest ih =>
    obtain ⟨span, slot⟩ := e
    cases begun with
    | none =>
      cases slot with
      | file record =>
        show span + spanOf (coalesce none rest) = 0 + (span + spanOf rest)
        rw [ih, Option.getD_none, Nat.zero_add, Nat.zero_add]
      | empty => exact (ih (some span)).trans (Nat.zero_add _).symm
      | deleted => exact (ih (some span)).trans (Nat.zero_add _).symm
    | some length =>
      cases slot with
      | file record =>
        show length + (span + spanOf (coalesce none rest)) = length + (span + spanOf rest)
        rw [ih, Option.getD_none, Nat.zero_add]
      | empty => exact (ih (some (length + span))).trans (Nat.add_assoc ..)
      | deleted =>
        exact (ih (some (length + span))).trans (Nat.add_assoc ..)

theorem filesOf_coalesce (begun : Option Nat) (address : Nat) (entries : List Entry) :
    filesOf address (coalesce begun entries) = filesOf (address + begun.getD 0) entries := by
  induction entries generalizing begun address with
  | nil =>
    cases begun with
    | none => rfl
    | some length => rfl
  | cons e rest ih =>
    obtain ⟨span, slot⟩ := e
    cases begun with
    | none =>
      cases slot with
      | file record => exact congrArg (_ :: ·) (ih none (address + span))
      | empty => exact ih (some span) address
      | deleted => exact ih (some span) address
    | some length =>
      cases slot with
      | file record =>
        exact congrArg (_ :: ·) (ih none (address + length + span))
      | empty =>
        refine (ih (some (length + span)) address).trans ?_
        rw [Option.getD_some, ← Nat.add_assoc]
        rfl
      | deleted =>
        refine (ih (some (length + span)) address).trans ?_
        rw [Option.getD_some, ← Nat.add_assoc]
        rfl

theorem cbfsWalkMerge_spec (held : Held image entries) :
    ∃ data, cbfsWalkMerge image = some { image with data } ∧
      Held { image with data } (coalesce none entries) ∧
      (TailApart entries → SameOutside image.data data 0 (image.size - 4)) := by
  have whole := held.whole
  obtain ⟨data, walk, layout, -, spared⟩ := walkMerge_spec image.fuel
    held.layout (by omega) held.small (Nat.dvd_zero 64) held.length_lt
  refine ⟨data, walk, ⟨layout, ?_, held.small⟩, spared⟩
  rw [spanOf_coalesce, Option.getD_none, Nat.zero_add]
  exact whole

variable {contentOffset : Nat}

theorem cbfsAddEntry_none {content : List Byte} {header : Memory} (held : Held image entries)
    (chosen : choose (entryOffset header 0) content.length contentOffset 0
      (coalesce none entries) = none) :
    ∃ data, cbfsAddEntry image content contentOffset header = some (false, { image with data }) ∧
      Held { image with data } (coalesce none entries) ∧
      (TailApart entries → SameOutside image.data data 0 (image.size - 4)) := by
  obtain ⟨data, walk, merged, spared⟩ := cbfsWalkMerge_spec held
  refine ⟨data, ?_, merged, spared⟩
  rw [cbfsAddEntry, walk]
  refine (searchSpace_spec merged.layout ?_ merged.small (Nat.dvd_zero 64)
    merged.length_lt).trans ?_
  · rw [merged.whole, Nat.zero_add]
  · rw [chosen, addChosen]

theorem spanOf_carve {address span headerSize : Nat} (record : Record) (aligned : 64 ∣ address)
    (spanAligned : 64 ∣ span) (front : address + headerSize ≤ contentOffset)
    (back : contentOffset + record.content.length ≤ address + span) :
    spanOf (carve address span contentOffset headerSize record) = span := by
  obtain ⟨after, fits, near, startAligned⟩ := fileStart_bounds aligned front
  obtain ⟨covers, close, endAligned⟩ := fileEnd_bounds contentOffset record.content.length
  have inside : fileEnd contentOffset record.content.length ≤ address + span := by
    omega
  rw [carve, spanOf_append, spanOf_emptySpan, spanOf, spanOf_emptySpan]
  dsimp only
  omega

theorem cbfsAddEntry_some {type : Nat} {name content : List Byte} {header : Memory} {site : Site}
    (held : Held image entries) (built : BuiltHeader type content.length name header)
    (live : type % 2 ^ 32 ≠ cbfsComponentDeleted ∧ type % 2 ^ 32 ≠ cbfsComponentNull)
    (chosen : choose (entryOffset header 0) content.length contentOffset 0
      (coalesce none entries) = some site)
    (front : spanOf site.before + entryOffset header 0 ≤ site.contentOffset)
    (back : site.contentOffset + content.length % 2 ^ 32 ≤ spanOf site.before + site.span) :
    ∃ data gap, cbfsAddEntry image content contentOffset header = some (true, { image with data }) ∧
      gap.length = site.contentOffset -
        fileStart site.contentOffset (entryOffset header 0) - entryOffset header 0 ∧
      Held { image with data } (site.before ++ carve (spanOf site.before)
        site.span site.contentOffset (entryOffset header 0)
          ⟨placedMetadata header gap, content.take (content.length % 2 ^ 32)⟩ ++ site.after) ∧
      (TailApart entries →
        site.contentOffset + content.length % 2 ^ 32 ≤ image.size - 4 →
          SameOutside image.data data 0 (image.size - 4)) := by
  obtain ⟨merged, walk, mergedHeld, spared⟩ := cbfsWalkMerge_spec held
  obtain ⟨split, placed⟩ := choose_spec chosen
  rw [split] at mergedHeld
  obtain ⟨beforeAt, restAt⟩ := layoutAt_append.mp mergedHeld.layout
  rw [Nat.zero_add] at restAt
  obtain ⟨here, afterAt⟩ := restAt
  have whole : spanOf (site.before ++ ⟨site.span, .empty⟩ :: site.after) =
      image.size := mergedHeld.whole
  rw [spanOf_append, spanOf] at whole
  change spanOf site.before + (site.span + spanOf site.after) = image.size at whole
  have beforeAligned : 64 ∣ spanOf site.before := beforeAt.aligned
  have length : (content.take (content.length % 2 ^ 32)).length = content.length % 2 ^ 32 := by
    rw [List.length_take, Nat.min_eq_left (Nat.mod_le _ _)]
  have named := built.named
  have inside : spanOf site.before + site.span ≤ image.size := by omega
  obtain ⟨data, record, added, recordEq, layout, change, tail⟩ :=
    @cbfsAddEntryAt_spec { image with data := merged } header
      (spanOf site.before) site.span site.contentOffset type content.length
      (entryOffset header 0) name content built.fields live (by omega)
      (Nat.mod_le _ _) here beforeAligned held.aligned inside held.small front
      back
  subst recordEq
  obtain ⟨gap, gapEq⟩ : ∃ gap, load merged
      (fileStart site.contentOffset (entryOffset header 0) +
        entryOffset header 0) (site.contentOffset -
          fileStart site.contentOffset (entryOffset header 0) -
            entryOffset header 0) = gap := ⟨_, rfl⟩
  rw [gapEq] at layout
  refine ⟨data, gap, ?_, ?_, ⟨?_, ?_, held.small⟩, fun apart spares => ?_⟩
  · rw [cbfsAddEntry, walk]
    refine (searchSpace_spec mergedHeld.layout ?_ held.small (Nat.dvd_zero 64)
      mergedHeld.length_lt).trans ?_
    · rw [mergedHeld.whole, Nat.zero_add]
    · rw [← split, chosen, addChosen, Nat.zero_add, added, placeOr]
      rfl
  · rw [← gapEq, length_load]
  · rw [layoutAt_append, layoutAt_append, spanOf_append, Nat.zero_add, Nat.zero_add]
    refine ⟨⟨beforeAt.congr change (Or.inl ?_), layout⟩, ?_⟩
    · rw [Nat.zero_add]
    · rw [spanOf_carve _ beforeAligned here.header.aligned front (by rw [length]; exact back)]
      exact afterAt.congr change (Or.inr le_rfl)
  · rw [spanOf_append, spanOf_append, spanOf_carve _ beforeAligned
      here.header.aligned front (by rw [length]; exact back)]
    show spanOf site.before + site.span + spanOf site.after = image.size
    omega
  · exact (spared apart).trans ((tail spares).mono (Nat.zero_le _) le_rfl)

end Operations

/-- The lookup of a name in a layout, with the entries around the one found. -/
def lookup (data : Memory) (name : List Byte) :
    Nat → List Entry → Option (List Entry × Entry × List Entry)
  | _, [] => none
  | address, e :: rest =>
    if strcasecmpEq data (filename address) name then some ([], e, rest)
    else (lookup data name (address + e.span) rest).map fun found => (e :: found.1, found.2)

theorem lookup_spec {name : List Byte} {before after : List Entry} {e : Entry}
    (found : lookup data name address entries = some (before, e, after)) :
    entries = before ++ e :: after ∧
      strcasecmpEq data (filename (address + spanOf before)) name = true := by
  induction entries generalizing address before with
  | nil => cases found
  | cons e' rest ih =>
    rw [lookup] at found
    split_ifs at found with equal
    · cases found
      exact ⟨rfl, equal⟩
    · obtain ⟨⟨before', found'⟩, later, same⟩ := Option.map_eq_some_iff.mp found
      cases same
      obtain ⟨split, equal'⟩ := ih later
      refine ⟨congrArg (e' :: ·) split, ?_⟩
      rw [spanOf, ← Nat.add_assoc]
      exact equal'

section Removal

variable {image : Image} {entries : List Entry} {name : List Byte}

theorem getEntry_spec {fuel entry : Nat} (layout : LayoutAt image.data entry entries)
    (whole : entry + spanOf entries = image.size) (small : image.size < 2147483648)
    (aligned : 64 ∣ entry) (enough : entries.length < fuel) :
    getEntry image name fuel entry = some ((lookup image.data name entry
      entries).map fun found => entry + spanOf found.1) := by
  induction fuel generalizing entry entries with
  | zero => omega
  | succ fuel ih =>
    cases entries with
    | nil =>
      rw [getEntry, show entry = image.size from whole, not_valid_end]
      rfl
    | cons e rest =>
      obtain ⟨entryAt, later⟩ := layout
      rw [spanOf] at whole
      rw [List.length_cons] at enough
      rw [getEntry, entryAt.valid (by omega), if_neg (by decide), lookup]
      split_ifs with equal
      · rfl
      · rw [entryAt.header.findNext aligned (by omega), ih later
          (by omega) (Nat.dvd_add aligned entryAt.header.aligned)
          (by omega), Option.map_map]
        refine congrArg some (congrArg (Option.map · _) ?_)
        funext found
        exact Nat.add_assoc _ _ _

theorem cbfsGetEntry_spec (held : Held image entries) (name : List Byte) :
    cbfsGetEntry image name = some ((lookup image.data name 0 entries).map
      fun found => spanOf found.1) := by
  have found := @getEntry_spec image entries name image.fuel 0 held.layout
    (by rw [held.whole, Nat.zero_add]) held.small (Nat.dvd_zero 64)
    held.length_lt
  simp only [Nat.zero_add] at found
  exact found

theorem Held.delete {before after : List Entry} {e : Entry}
    (held : Held image (before ++ e :: after)) :
    Held { image with
      data := setType image.data (spanOf before) cbfsComponentDeleted }
        (before ++ ⟨e.span, .deleted⟩ :: after) := by
  obtain ⟨layout, whole, small⟩ := held
  rw [layoutAt_append, Nat.zero_add] at layout
  obtain ⟨beforeAt, here, afterAt⟩ := layout
  have positive := here.positive
  have change : SameOutside image.data
      (setType image.data (spanOf before) cbfsComponentDeleted)
      (spanOf before + 12) (spanOf before + 16) :=
    sameOutside_writeBE le_rfl le_rfl
  refine ⟨?_, ?_, small⟩
  · rw [layoutAt_append, Nat.zero_add]
    refine ⟨beforeAt.congr change (Or.inl (by omega)), ⟨here.header.setType _,
      ?_⟩, afterAt.congr change (Or.inr (by omega))⟩
    exact readBE_writeBE_self 4 cbfsComponentDeleted _ _
  · rw [spanOf_append, spanOf] at whole ⊢
    exact whole

theorem cbfsRemoveEntry_of_found {entry : Nat}
    (found : cbfsGetEntry image name = some (some entry)) :
    cbfsRemoveEntry image name = (cbfsWalkMerge { image with
      data := setType image.data entry cbfsComponentDeleted }).map fun image => (true, image) := by
  rw [cbfsRemoveEntry, found]

theorem cbfsRemoveEntry_none (held : Held image entries)
    (missing : lookup image.data name 0 entries = none) :
    cbfsRemoveEntry image name = some (false, image) := by
  have lookedUp := cbfsGetEntry_spec held name
  rw [missing, Option.map_none] at lookedUp
  rw [cbfsRemoveEntry, lookedUp]

theorem cbfsRemoveEntry_some {before after : List Entry} {e : Entry} (held : Held image entries)
    (found : lookup image.data name 0 entries = some (before, e, after)) :
    ∃ data, cbfsRemoveEntry image name = some (true, { image with data }) ∧
      Held { image with data } (coalesce none (before ++ ⟨e.span, .deleted⟩ :: after)) ∧
      (TailApart (before ++ ⟨e.span, .deleted⟩ :: after) →
        SameOutside image.data data 0 (image.size - 4)) := by
  have lookedUp := cbfsGetEntry_spec held name
  rw [found] at lookedUp
  rw [(lookup_spec found).1] at held
  have positive := (layoutAt_append.mp held.layout).2.1.positive
  have whole := held.whole
  rw [spanOf_append, spanOf] at whole
  have change : SameOutside image.data
      (setType image.data (spanOf before) cbfsComponentDeleted) 0 (image.size - 4) :=
    sameOutside_writeBE (Nat.zero_le _) (by omega)
  obtain ⟨data, walk, merged, spared⟩ := cbfsWalkMerge_spec held.delete
  refine ⟨data, ?_, merged, fun apart => change.trans (spared apart)⟩
  rw [cbfsRemoveEntry_of_found lookedUp]
  exact congrArg (Option.map _) walk

end Removal

end Coreboot.Cbfs
