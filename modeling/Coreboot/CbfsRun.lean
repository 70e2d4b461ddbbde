import Coreboot.CbfsWalk

/-!
# Images that are built step by step

An image is created, and files are added to it and removed from it.
-/

namespace Coreboot.Cbfs

open ByteMemory

/-- A type of a file that is neither empty nor deleted. -/
def LiveType (type : Nat) : Prop :=
  type % 2 ^ 32 ≠ cbfsComponentDeleted ∧ type % 2 ^ 32 ≠ cbfsComponentNull

/-- A condition on the image, the content, its offset and the header of an
addition. -/
def Condition : Type := Image → List Byte → Nat → Memory → Prop

/-- The images reached from a created one by additions that meet a condition and
by removals, whether they succeed or not. -/
inductive Reached (condition : Condition) (size : Nat) : Image → Prop
  | create {data : Memory} {image : Image} (aligned : 64 ∣ size)
      (small : size < 2147483648)
      (created : cbfsImageCreate ⟨size, data⟩ size = some image) :
      Reached condition size image
  | add {image image' : Image} {type contentOffset : Nat}
      {name content : List Byte} {header : Memory} {ok : Bool}
      (reached : Reached condition size image)
      (built : Built type content.length name header) (live : LiveType type)
      (low : contentOffset < 2147483648)
      (met : condition image content contentOffset header)
      (added : cbfsAddEntry image content contentOffset header = some (ok, image')) :
      Reached condition size image'
  | remove {image image' : Image} {name : List Byte} {ok : Bool}
      (reached : Reached condition size image)
      (removed : cbfsRemoveEntry image name = some (ok, image')) :
      Reached condition size image'

/-- Every empty entry that passes the test for the size has room for the header
and what is stored of the content. -/
def HasRoom (image : Image) (header : Memory) (size stored : Nat) : Prop :=
  ∀ merged entries stop entry, cbfsWalkMerge image = some merged →
    visited merged = some (entries, stop) → entry ∈ entries →
      entryType merged.data entry = cbfsComponentNull →
        add32 entry (add32 (entryOffset header 0) size) ≤ cbfsFindNextEntry merged.data entry →
          entry + entryOffset header 0 + stored ≤ cbfsFindNextEntry merged.data entry

/-- The offset of the content is given, or the size that is needed does not
overflow. -/
def Unwrapped : Condition := fun image content contentOffset header =>
  contentOffset ≠ 0 ∨ HasRoom image header content.length (content.length % 2 ^ 32)

variable {header : Memory} {name content : List Byte} {type contentOffset : Nat}

section Steps

variable {image : Image} {entries : List Entry}

theorem held_of_create {image' : Image} (aligned : 64 ∣ image.size)
    (small : image.size < 2147483648) (created : cbfsImageCreate image image.size = some image') :
    Held image' [⟨image.size, .empty⟩] ∧ image'.size = image.size := by
  rw [cbfsImageCreate, minEntrySize_eq, if_neg (by decide), if_neg (lt_irrefl _)] at created
  split_ifs at created with tiny
  have exact64 : image.size - image.size % cbfsEntryAlignment = image.size := by
    show image.size - image.size % 64 = _
    omega
  have capacity : subSize image.size 40 = image.size - 40 := subSize_of_le (by omega) (by omega)
  dsimp only at created
  rw [exact64, capacity] at created
  obtain ⟨entryAt, -⟩ := @createEmptyEntry_spec image.data 0 (image.size - 40)
    image.size (by omega) (by omega) aligned (by omega)
  generalize cbfsCreateEmptyEntry image.data 0 cbfsComponentNull
    (image.size - 40) [] = data at created entryAt
  cases created
  exact ⟨⟨⟨entryAt, trivial⟩, Nat.add_zero _, small⟩, rfl⟩

variable {site : Site}

theorem room_of_passes {size stored : Nat}
    (held : Held image entries) (room : HasRoom image header size stored)
    (split : coalesce none entries = site.before ++ ⟨site.span, .empty⟩ :: site.after)
    (passes : add32 (spanOf site.before) (add32 (entryOffset header 0) size) ≤
      spanOf site.before + site.span) :
    spanOf site.before + entryOffset header 0 + stored ≤ spanOf site.before + site.span := by
  obtain ⟨merged, walk, mergedHeld, -⟩ := cbfsWalkMerge_spec held
  rw [split] at mergedHeld
  have whole := mergedHeld.whole
  have small : image.size < 2147483648 := held.small
  rw [spanOf_append, spanOf] at whole
  change spanOf site.before + (site.span + spanOf site.after) = image.size at whole
  have here := mergedHeld.layout.entryAt
  rw [Nat.zero_add] at here
  have beforeAligned := (layoutAt_append.mp mergedHeld.layout).1.aligned
  have next : cbfsFindNextEntry merged (spanOf site.before) = spanOf site.before + site.span :=
    here.header.findNext beforeAligned (show spanOf site.before + site.span < 4294967296 by omega)
  have bound := room _ _ _ (spanOf site.before) walk
    (visited_of_held mergedHeld) ?_ here.slot.1 (by rw [next]; exact passes)
  · rw [next] at bound
    exact bound
  · have member := @mem_startsOf 0 site.before ⟨site.span, .empty⟩ site.after
    rwa [Nat.zero_add] at member

theorem site_bounds
    (held : Held image entries) (built : BuiltHeader type content.length name header)
    (met : Unwrapped image content contentOffset header)
    (chosen : choose (entryOffset header 0) content.length contentOffset 0
      (coalesce none entries) = some site) :
    spanOf site.before + entryOffset header 0 ≤ site.contentOffset ∧
      site.contentOffset + content.length % 2 ^ 32 ≤ spanOf site.before + site.span ∧
      (contentOffset = 0 → site.contentOffset = spanOf site.before + entryOffset header 0) ∧
      (contentOffset ≠ 0 → site.contentOffset = contentOffset ∧
        site.contentOffset + content.length ≤ spanOf site.before + site.span) := by
  obtain ⟨split, placed⟩ := choose_spec chosen
  have whole := spanOf_coalesce none entries
  have small : image.size < 2147483648 := held.small
  rw [split, held.whole, spanOf_append, spanOf, Option.getD_none, Nat.zero_add] at whole
  change spanOf site.before + (site.span + spanOf site.after) = image.size at whole
  rw [Nat.zero_add] at placed
  have fits : entryOffset header 0 ≤ 1024 := built.fits
  exact place_bounds placed (by omega) fun free passes =>
    room_of_passes held (met.resolve_left (not_not.mpr free)) split passes

theorem filesOf_emptySpan (address span : Nat) : filesOf address (emptySpan span) = [] := by
  rw [emptySpan]
  split_ifs <;> rfl

theorem filesOf_carve {address span contentOffset headerSize : Nat} (record : Record)
    (aligned : 64 ∣ address) (front : address + headerSize ≤ contentOffset) :
    filesOf address (carve address span contentOffset headerSize record) =
      [(fileStart contentOffset headerSize, record)] := by
  obtain ⟨after, -⟩ := fileStart_bounds aligned front
  rw [carve, filesOf_append, filesOf_emptySpan, spanOf_emptySpan,
    List.nil_append, filesOf, filesOf_emptySpan, Nat.add_sub_cancel' after]

theorem storedFiles_site (held : Held image entries)
    (split : coalesce none entries = site.before ++ ⟨site.span, .empty⟩ :: site.after) :
    storedFiles image = filesOf 0 site.before ++
      filesOf (spanOf site.before + site.span) site.after := by
  have merged := filesOf_coalesce none 0 entries
  rw [split, filesOf_append, Nat.zero_add] at merged
  exact (storedFiles_of_held held).trans merged.symm

theorem span_dvd (held : Held image entries)
    (split : coalesce none entries = site.before ++ ⟨site.span, .empty⟩ :: site.after) :
    64 ∣ site.span := by
  obtain ⟨merged, -, mergedHeld, -⟩ := cbfsWalkMerge_spec held
  rw [split] at mergedHeld
  exact mergedHeld.layout.entryAt.header.aligned

theorem aligned_of_placed {first second third : List Entry}
    (placed : Held image (first ++ second ++ third)) : 64 ∣ spanOf first := by
  have layout := placed.layout
  rw [List.append_assoc] at layout
  exact (layoutAt_append.mp layout).1.aligned

theorem storedFiles_carve {image' : Image} {headerSize : Nat} {record : Record}
    (held : Held image' (site.before ++
      carve (spanOf site.before) site.span site.contentOffset headerSize record
        ++ site.after)) (spanAligned : 64 ∣ site.span)
    (front : spanOf site.before + headerSize ≤ site.contentOffset)
    (back : site.contentOffset + record.content.length ≤ spanOf site.before + site.span) :
    storedFiles image' = filesOf 0 site.before ++
      (fileStart site.contentOffset headerSize, record) ::
        filesOf (spanOf site.before + site.span) site.after := by
  have aligned := aligned_of_placed held
  rw [storedFiles_of_held held, List.append_assoc, filesOf_append, filesOf_append, Nat.zero_add,
    filesOf_carve record aligned front, spanOf_carve record aligned spanAligned front back]
  rfl

end Steps

/-- A failed addition changes no file.  A successful one adds a file between the
others, at the offset that was given for its content. -/
def AddOutcome (image : Image) (content : List Byte) (contentOffset : Nat) : Bool × Image → Prop
  | (false, image') => storedFiles image' = storedFiles image
  | (true, image') => ∃ front back entry record,
      storedFiles image = front ++ back ∧
        storedFiles image' = front ++ (entry, record) :: back ∧
        (contentOffset ≠ 0 →
          entry + record.metadata.length = contentOffset ∧ record.content = content)

/-- A removal changes nothing, or takes the entry with the name away. -/
def RemoveOutcome (image : Image) (name : List Byte) : Bool × Image → Prop
  | (false, image') => cbfsGetEntry image name = some none ∧ image' = image
  | (true, image') => ∃ entry, cbfsGetEntry image name = some (some entry) ∧
      storedFiles image' = (storedFiles image).filter fun file => file.1 ≠ entry

section Outcomes

variable {image : Image} {entries : List Entry}

theorem add_outcome
    (held : Held image entries) (built : BuiltHeader type content.length name header)
    (live : LiveType type) (met : Unwrapped image content contentOffset header) :
    ∃ ok image' entries', cbfsAddEntry image content contentOffset header = some (ok, image') ∧
      Held image' entries' ∧ image'.size = image.size ∧
      AddOutcome image content contentOffset (ok, image') := by
  cases chosen : choose (entryOffset header 0) content.length contentOffset 0
      (coalesce none entries) with
  | none =>
    obtain ⟨data, failed, merged, -⟩ := cbfsAddEntry_none held chosen
    refine ⟨false, _, _, failed, merged, rfl, ?_⟩
    refine (storedFiles_of_held merged).trans ?_
    rw [filesOf_coalesce]
    exact (storedFiles_of_held held).symm
  | some site =>
    obtain ⟨front, back, -, fixed⟩ := site_bounds held built met chosen
    obtain ⟨split, -⟩ := choose_spec chosen
    obtain ⟨data, gap, added, gapLength, placed, -⟩ :=
      cbfsAddEntry_some held built live chosen front back
    have length : (content.take (content.length % 2 ^ 32)).length = content.length % 2 ^ 32 := by
      rw [List.length_take, Nat.min_eq_left (Nat.mod_le _ _)]
    have spanAligned := span_dvd held split
    refine ⟨true, _, _, added, placed, rfl, _, _, _, _,
      storedFiles_site held split,
      storedFiles_carve placed spanAligned front (by rw [length]; exact back),
      fun given => ?_⟩
    obtain ⟨same, inside⟩ := fixed given
    have small := held.small
    have total := spanOf_coalesce none entries
    rw [split, spanOf_append, held.whole, Option.getD_none, Nat.zero_add] at total
    change spanOf site.before + (site.span + spanOf site.after) = image.size at total
    obtain ⟨-, headerFits, -, -⟩ := fileStart_bounds (aligned_of_placed placed) front
    refine ⟨?_, List.take_of_length_le ?_⟩
    · rw [length_placedMetadata, gapLength]
      omega
    · exact (Nat.mod_eq_of_lt (show content.length < 4294967296 by omega)).ge

theorem filter_ne_of_forall {files : List (Nat × Record)} {entry : Nat}
    (others : ∀ file ∈ files, file.1 ≠ entry) : files.filter (fun file => file.1 ≠ entry) = files :=
  List.filter_eq_self.mpr fun file member => decide_eq_true (others file member)

theorem remove_outcome (held : Held image entries) (name : List Byte) :
    ∃ ok image' entries', cbfsRemoveEntry image name = some (ok, image') ∧
      Held image' entries' ∧ image'.size = image.size ∧
      RemoveOutcome image name (ok, image') := by
  have lookedUp := cbfsGetEntry_spec held name
  cases found : lookup image.data name 0 entries with
  | none =>
    rw [found] at lookedUp
    exact ⟨false, image, entries, cbfsRemoveEntry_none held found, held, rfl, lookedUp, rfl⟩
  | some parts =>
    obtain ⟨before, e, after⟩ := parts
    rw [found] at lookedUp
    obtain ⟨data, removed, merged, -⟩ := cbfsRemoveEntry_some held found
    refine ⟨true, _, _, removed, merged, rfl, _, lookedUp, ?_⟩
    obtain ⟨split, -⟩ := lookup_spec found
    subst split
    have layout := held.layout
    rw [layoutAt_append, Nat.zero_add] at layout
    obtain ⟨beforeAt, here, afterAt⟩ := layout
    have positive := here.positive
    have front : ∀ file ∈ filesOf 0 before, file.1 ≠ spanOf before := by
      intro file member
      have bounds := beforeAt.mem_files member
      omega
    have back : ∀ file ∈ filesOf (spanOf before + e.span) after, file.1 ≠ spanOf before := by
      intro file member
      have bounds := afterAt.mem_files member
      omega
    show storedFiles _ = (storedFiles image).filter fun file => file.1 ≠ spanOf before
    simp only [storedFiles_of_held merged, storedFiles_of_held held, filesOf_coalesce,
      Option.getD_none, filesOf_append, List.filter_append, Nat.zero_add, Nat.add_zero]
    rw [filter_ne_of_forall front, filesOf_cons_free rfl]
    refine congrArg (filesOf 0 before ++ ·) ?_
    obtain ⟨span, slot⟩ := e
    cases slot with
    | empty => exact (filter_ne_of_forall back).symm
    | deleted => exact (filter_ne_of_forall back).symm
    | file record =>
      rw [filesOf, List.filter_cons_of_neg (by simp)]
      exact (filter_ne_of_forall back).symm

theorem held_of_reached {size : Nat} (reached : Reached Unwrapped size image) :
    (∃ entries, Held image entries) ∧ image.size = size := by
  induction reached with
  | create aligned small created =>
    obtain ⟨held, same⟩ := held_of_create aligned small created
    exact ⟨⟨_, held⟩, same⟩
  | add reached built live low met added ih =>
    obtain ⟨⟨entries, held⟩, sameSize⟩ := ih
    obtain ⟨ok, image', entries', added', held', size', -⟩ := add_outcome held built.spec live met
    cases added.symm.trans added'
    exact ⟨⟨entries', held'⟩, size'.trans sameSize⟩
  | @remove image image' name ok reached removed ih =>
    obtain ⟨⟨entries, held⟩, sameSize⟩ := ih
    obtain ⟨ok, image', entries', removed', held', size', -⟩ := remove_outcome held name
    cases removed.symm.trans removed'
    exact ⟨⟨entries', held'⟩, size'.trans sameSize⟩

end Outcomes

/-- An image that is reached is a sequence of entries, and from it every
operation comes to an end and changes no other file. -/
def SoundAt (condition : Condition) (size : Nat) (image : Image) : Prop :=
  image.size = size ∧ (∃ entries, Structured image entries) ∧
    (∀ type name content contentOffset header,
      Built type content.length name header → LiveType type →
        contentOffset < 2147483648 →
          condition image content contentOffset header →
            ∃ result, cbfsAddEntry image content contentOffset header = some result ∧
              AddOutcome image content contentOffset result) ∧
    ∀ name, ∃ result, cbfsRemoveEntry image name = some result ∧ RemoveOutcome image name result

/-- In every run whose additions meet a condition, the structure is kept. -/
def SoundUnder (condition : Condition) : Prop :=
  ∀ size image, Reached condition size image → SoundAt condition size image

/-- Without overflow, the structure is kept in every run. -/
theorem sound_of_unwrapped (size : Nat) (image : Image) (reached : Reached Unwrapped size image) :
    SoundAt Unwrapped size image := by
  obtain ⟨⟨entries, held⟩, sameSize⟩ := held_of_reached reached
  refine ⟨sameSize, ⟨_, structured_of_held held⟩, ?_, ?_⟩
  · intro type name content contentOffset header built live low met
    obtain ⟨ok, image', entries', added, -, -, outcome⟩ := add_outcome held built.spec live met
    exact ⟨(ok, image'), added, outcome⟩
  · intro name
    obtain ⟨ok, image', entries', removed, -, -, outcome⟩ := remove_outcome held name
    exact ⟨(ok, image'), removed, outcome⟩

section Overflow

variable {image : Image} {span : Nat} {rest : List Entry}

/-- A content of almost 4 GiB passes the test of an empty entry.  It overwrites
what follows its header. -/
theorem cbfsAddEntry_overflow {type : Nat} (held : Held image (⟨span, .empty⟩ :: rest))
    (merged : coalesce none (⟨span, .empty⟩ :: rest) = ⟨span, .empty⟩ :: rest)
    (built : BuiltHeader type content.length name header) (long : content.length = 4294967295)
    (fits : entryOffset header 0 ≤ span) (tight : span < entryOffset header 0 + 63) :
    ∃ data, cbfsAddEntry image content 0 header = some (true, { image with data }) ∧
      load data 0 8 = cbfsFileMagic ∧
      entryType data 0 = type % 2 ^ 32 ∧
      cbfsFindNextEntry data 0 = span ∧
      load data 0 (entryOffset header 0) = load header 0 (entryOffset header 0) ∧
      load data (entryOffset header 0) 4294967295 = content := by
  obtain ⟨data, walk, mergedHeld, -⟩ := cbfsWalkMerge_spec held
  rw [merged] at mergedHeld
  have small := held.small
  have whole := held.whole
  rw [spanOf] at whole
  change span + spanOf rest = image.size at whole
  have named := built.named
  have here := mergedHeld.layout.1
  have spanAligned : 64 ∣ span := here.header.aligned
  have need : add32 (entryOffset header 0) 4294967295 = entryOffset header 0 - 1 := by
    show (_ + 4294967295) % 4294967296 = _
    omega
  have chosen : choose (entryOffset header 0) content.length 0 0
      (⟨span, .empty⟩ :: rest) = some ⟨[], span, rest, entryOffset header 0⟩ := by
    have placed : Entry.verdict 0 ⟨span, .empty⟩ (entryOffset header 0)
        content.length 0 = .place (entryOffset header 0) := by
      show verdict 0 span (entryOffset header 0) content.length 0 = _
      rw [verdict, long, need, add32_of_lt (by omega), add32_of_lt (by omega),
        if_neg (by omega), if_neg (lt_irrefl 0), Nat.zero_add]
    rw [choose, placed]
  have next : cbfsFindNextEntry data 0 = span := by
    have found := here.header.findNext (Nat.dvd_zero 64) (show 0 + span < 4294967296 by omega)
    rwa [Nat.zero_add] at found
  obtain ⟨filed, filedEq, magic, typeEq, lenEq, offset, metadata, stored, -⟩ :=
    @putFile_spec data header type content.length (entryOffset header 0)
      (entryOffset header 0) 0 name content built.fields (by omega) (by omega)
      (by omega) (Nat.mod_le _ _)
  have len : content.length % 2 ^ 32 = 4294967295 := by
    rw [long]
    rfl
  rw [len, List.take_of_length_le long.le] at stored
  rw [len] at lenEq
  rw [Nat.sub_zero] at offset
  rw [Nat.sub_zero, Nat.sub_self] at metadata
  have fileNext : cbfsFindNextEntry filed 0 = span := by
    rw [cbfsFindNextEntry, offset, lenEq, need, add32_of_lt (by omega)]
    exact alignUp_eq (by omega) (by omega) spanAligned (by omega)
  have start : sub32 (sub32 (entryOffset header 0) (entryOffset header 0))
      (sub32 (entryOffset header 0) (entryOffset header 0) % cbfsEntryAlignment) = 0 := by
    rw [sub32_of_le le_rfl (show entryOffset header 0 < 4294967296 by omega), Nat.sub_self]
    rfl
  have before : createBefore data 0 0 = (data, 0) := if_neg (by decide)
  have after : createAfter image.size filed span span = some filed := if_pos rfl
  have added : cbfsAddEntryAt { image with data } 0 content
      (entryOffset header 0) header = some { image with data := filed } := by
    rw [cbfsAddEntryAt, start, if_neg (lt_irrefl 0), before]
    dsimp only
    rw [filedEq, fileNext, next, after]
    rfl
  refine ⟨filed, ?_, magic, typeEq, fileNext, ?_, stored⟩
  · rw [cbfsAddEntry, walk]
    refine (searchSpace_spec mergedHeld.layout ?_ held.small (Nat.dvd_zero 64)
      mergedHeld.length_lt).trans ?_
    · exact (Nat.zero_add _).trans mergedHeld.whole
    · rw [chosen, addChosen, Nat.zero_add, spanOf, added, placeOr]
      rfl
  · refine metadata.trans ?_
    rw [load, placedMetadata, List.length_nil, if_neg (not_not.mpr rfl), List.append_nil]

/-- A walk visits the first entry alone. -/
structure Stopped (size span : Nat) (data : Memory) : Prop where
  valid : cbfsIsValidEntry ⟨size, data⟩ 0 = true
  next : cbfsFindNextEntry data 0 = span
  invalid : cbfsIsValidEntry ⟨size, data⟩ span = false

theorem Stopped.visited {size : Nat} {data : Memory} (stopped : Stopped size span data) :
    visited ⟨size, data⟩ = some ([0], span) := by
  have inside : 0 < size := (of_decide_eq_true stopped.valid).1
  obtain ⟨fuel, enough⟩ : ∃ fuel, Image.fuel ⟨size, data⟩ = fuel + 2 :=
    ⟨size - 1, by show size + 1 = _; omega⟩
  rw [Cbfs.visited, enough]
  show visit ⟨size, data⟩ (fuel + 1 + 1) 0 = _
  rw [visit, stopped.valid, if_neg (by decide), stopped.next, visit, stopped.invalid]
  rfl

theorem stopped_overflow {data : Memory} {content : List Byte} {headerSize size : Nat}
    (magic : load data 0 8 = cbfsFileMagic) (next : cbfsFindNextEntry data 0 = span)
    (stored : load data headerSize 4294967295 = content)
    (zeros : content = List.replicate 4294967295 0) (fits : headerSize ≤ span)
    (tight : span < headerSize + 63) (large : 8 ≤ size) : Stopped size span data := by
  have part : load data span 8 = List.replicate 8 0 := by
    have inside := take_drop_load data headerSize (span - headerSize) 8
      (4294967295 - (span - headerSize) - 8)
    rw [show span - headerSize + 8 + (4294967295 - (span - headerSize) - 8) =
      4294967295 by omega, stored, zeros, List.drop_replicate,
      List.take_replicate, Nat.add_sub_cancel' fits] at inside
    rw [← inside]
    congr 1
    omega
  refine ⟨decide_eq_true ⟨(show 0 < size by omega),
    (show 8 ≤ size - 0 by omega), magic⟩, next, decide_eq_false fun found => ?_⟩
  have magic' : load data span 8 = cbfsFileMagic := found.2.2
  rw [part] at magic'
  exact absurd magic' (by decide)

end Overflow

theorem exists_twoSpaces {condition : Condition}
    (placed : ∀ image content contentOffset header, contentOffset ≠ 0 →
      condition image content contentOffset header) :
    ∃ image record, Reached condition 256 image ∧
      Held image [⟨128, .empty⟩, ⟨64, .file record⟩, ⟨64, .empty⟩] := by
  obtain ⟨image, created⟩ : ∃ image, cbfsImageCreate ⟨256, fun _ => 0⟩ 256 = some image := ⟨_, rfl⟩
  obtain ⟨held, -⟩ := held_of_create (by decide) (by decide) created
  have live : LiveType 0x50 := ⟨by decide, by decide⟩
  have built : Built 0x50 ([] : List Byte).length [0x62] (cbfsCreateFileHeader 0x50 0 [0x62]) :=
    .create (by decide) (by decide) (by decide)
  have offset : entryOffset (cbfsCreateFileHeader 0x50 0 [0x62]) 0 = 40 :=
    (header_createFileHeader 0x50 0 (by decide)).1.offset
  have chosen : choose (entryOffset (cbfsCreateFileHeader 0x50 0 [0x62]) 0)
      ([] : List Byte).length 168 0 (coalesce none [⟨256, .empty⟩]) = some ⟨[], 256, [], 168⟩ := by
    rw [offset]
    rfl
  obtain ⟨data, gap, added, -, kept, -⟩ := cbfsAddEntry_some held built.spec
    live chosen (by rw [offset]; decide) (by decide)
  have shape (metadata : List Byte) : carve 0 256 168 40 ⟨metadata, []⟩ =
      [⟨128, .empty⟩, ⟨64, .file ⟨metadata, []⟩⟩, ⟨64, .empty⟩] := by
    simp [carve, fileStart, fileEnd, emptySpan]
  rw [offset, List.take_nil, spanOf, shape, List.nil_append, List.append_nil] at kept
  have start : Reached condition 256 image := .create (by decide) (by decide) created
  exact ⟨_, _, .add start built live (by decide) (placed _ _ _ _ (by decide)) added, kept⟩

theorem sound_twoSpaces : ∃ image, Reached Unwrapped 256 image ∧ SoundAt Unwrapped 256 image := by
  obtain ⟨image, record, reached, -⟩ := @exists_twoSpaces Unwrapped
    fun _ _ _ _ offset => .inl offset
  exact ⟨image, reached, sound_of_unwrapped 256 image reached⟩

def longHeader : Memory := cbfsCreateFileHeader 0x50 4294967295 (List.replicate 40 0x61)

theorem built_longHeader {content : List Byte} (long : content.length = 4294967295) :
    Built 0x50 content.length (List.replicate 40 0x61) longHeader := by
  have fits : cbfsCalculateFileHeaderSize (List.replicate 40 0x61) = 72 := by
    rw [cbfsCalculateFileHeaderSize, List.length_replicate]
    decide
  rw [long]
  refine .create ?_ ?_ (by rw [fits]; decide)
  · rw [List.mem_replicate]
    decide
  · rw [List.length_replicate]
    decide

theorem entryOffset_longHeader : entryOffset longHeader 0 = 72 :=
  (header_createFileHeader 0x50 4294967295 (by decide)).1.offset

theorem exists_overflow : ∃ image record data, ∃ content : List Byte,
    Reached (fun _ _ _ _ => True) 256 image ∧
      Held image [⟨128, .empty⟩, ⟨64, .file record⟩, ⟨64, .empty⟩] ∧
      Built 0x50 content.length (List.replicate 40 0x61) longHeader ∧
      cbfsAddEntry image content 0 longHeader = some (true, { image with data }) ∧
      entryType data 0 = 0x50 ∧ load data 0 72 = load longHeader 0 72 ∧
      Stopped image.size 128 data := by
  obtain ⟨image, record, reached, held⟩ :=
    @exists_twoSpaces (fun _ _ _ _ => True) fun _ _ _ _ _ => trivial
  obtain ⟨content, zeros⟩ : ∃ content : List Byte, content = List.replicate 4294967295 0 := ⟨_, rfl⟩
  have long : content.length = 4294967295 := by
    rw [zeros, List.length_replicate]
  have built := built_longHeader long
  have offset := entryOffset_longHeader
  obtain ⟨data, added, magic, type, next, metadata, stored⟩ :=
    cbfsAddEntry_overflow held rfl built.spec long (by rw [offset]; decide) (by rw [offset]; decide)
  rw [offset] at stored metadata
  have whole : image.size = 256 := held.whole.symm
  exact ⟨image, record, data, content, reached, held, built, added, type, metadata,
    stopped_overflow magic next stored zeros (by decide) (by decide) (by omega)⟩

/-- In an image of 256 bytes, a content of one byte less than 4 GiB goes into
the 128 bytes in front of a file, and the walk does not get past it. -/
theorem not_sound_overflow : ¬ SoundUnder fun _ _ _ _ => True := by
  intro sound
  obtain ⟨image, record, data, content, reached, held, built, added, -, -, stopped⟩ :=
    exists_overflow
  obtain ⟨-, ⟨entries, structured⟩, -⟩ := sound 256 _
    (.add reached built ⟨by decide, by decide⟩ (by decide) trivial added)
  have same := structured.walk.symm.trans stopped.visited
  cases (Prod.mk.inj (Option.some.inj same)).2.symm.trans held.whole.symm

end Coreboot.Cbfs
