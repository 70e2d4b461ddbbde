import Coreboot.CbfsSpace

/-!
# Compacting an image

The tool moves files towards the start of the image, so that the empty entries gather behind
them.
-/

namespace Coreboot.Cbfs

open ByteMemory

def addSize (first second : Nat) : Nat := (first + second) % 2 ^ 64

def cbfsFileEntrySize (data : Memory) (entry : Nat) : Nat :=
  entryOffset data entry + entryLen data entry

/-- The file at an entry changes places with the empty entry in front of it.
The result is the image, with the new place of the empty entry unless there is
no room for its header. -/
def swapEntries (image : Image) (prev cur : Nat) : Image × Option Nat :=
  let prevSize := cbfsFileEntrySize image.data prev
  let curSize := cbfsFileEntrySize image.data cur
  let prevSize := addSize prevSize (subSize (sub32 cur prev) prevSize)
  let data := store image.data prev (load image.data cur curSize)
  let cur := cbfsFindNextEntry data prev
  let spillSize := subSize (sub32 cur prev) curSize
  if addSize minEntrySize spillSize > prevSize then
    ({ image with data }, none)
  else
    let prevSize := subSize prevSize (addSize spillSize minEntrySize)
    ({ image with
      data := cbfsCreateEmptyEntry data cur cbfsComponentNull prevSize [] },
      some cur)

/-- The loop ends without room, and merges empty entries and goes on at the next
entry otherwise. -/
def afterSwap (loop : Image → Nat → Option Nat → Option (Bool × Image)) :
    Image × Option Nat → Option (Bool × Image)
  | (image, none) => some (false, image)
  | (image, some cur) => (cbfsWalkMerge image).bind fun image =>
    loop image (cbfsFindNextEntry image.data cur) (some cur)

/-- The loop of `cbfs_compact_instance`, with whether it succeeds. -/
def compactLoop : Nat → Image → Nat → Option Nat → Option (Bool × Image)
  | 0, _, _, _ => none
  | fuel + 1, image, cur, prev =>
    if !cbfsIsValidEntry image cur then some (true, image)
    else if entryType image.data cur = cbfsComponentNull ∨
        entryType image.data cur = cbfsComponentDeleted then
      compactLoop fuel image (cbfsFindNextEntry image.data cur) (some cur)
    else
      match prev with
      | none =>
        compactLoop fuel image (cbfsFindNextEntry image.data cur) none
      | some prev => afterSwap (compactLoop fuel) (swapEntries image prev cur)

def cbfsCompactInstance (image : Image) : Option (Bool × Image) :=
  compactLoop image.fuel image cbfsFindFirstEntry none

section Swap

variable {image : Image} {prev span length : Nat} {record : Record} {slot : Slot}

theorem addSize_of_lt {first second : Nat} (fits : first + second < 18446744073709551616) :
    addSize first second = first + second :=
  Nat.mod_eq_of_lt fits

theorem EntryAt.fileSize (entryAt : EntryAt image.data prev ⟨length, .file record⟩) :
    cbfsFileEntrySize image.data prev = record.size := by
  have sizes := entryAt.slot.2.1
  rw [cbfsFileEntrySize, Record.size, sizes.1, sizes.2]

theorem EntryAt.translate {first second : Memory} {source target : Nat}
    (file : EntryAt first source ⟨length, .file record⟩)
    (same : ∀ i < record.size, second (target + i) = first (source + i)) :
    EntryAt second target ⟨length, .file record⟩ := by
  obtain ⟨⟨magic, named, fits, tight, aligned⟩, types, ⟨offset, len⟩, metadata, content⟩ := file
  rw [Record.size] at same
  have part (skip count : Nat)
      (inside : skip + count ≤ record.metadata.length + record.content.length) :
      load second (target + skip) count = load first (source + skip) count := by
    refine load_translate fun i below => ?_
    rw [Nat.add_assoc, Nat.add_assoc]
    exact same (skip + i) (by omega)
  have field (skip : Nat) (inside : skip + 4 ≤ 24) :
      readBE 4 second (target + skip) = readBE 4 first (source + skip) := by
    rw [readBE, part skip 4 (by omega), readBE]
  have offset' : entryOffset second target = entryOffset first source := field 20 (by omega)
  have len' : entryLen second target = entryLen first source := field 8 (by omega)
  have type' : entryType second target = entryType first source := field 12 (by omega)
  refine ⟨⟨?_, by rwa [offset'], by rwa [offset', len'],
    by rwa [offset', len'], aligned⟩, by rwa [type'],
    ⟨offset'.trans offset, len'.trans len⟩, ?_, ?_⟩
  · rw [← magic]
    exact part 0 8 (by omega)
  · rw [← metadata, length_load]
    exact part 0 _ (by omega)
  · rw [← content, length_load]
    exact part _ _ le_rfl

section

variable (space : EntryAt image.data prev ⟨span, slot⟩)
  (file : EntryAt image.data (prev + span) ⟨length, .file record⟩)
include space file

theorem swapEntries_eq (aligned : 64 ∣ prev) (inside : prev + span + length ≤ image.size)
    (small : image.size < 2147483648) :
    ∃ moved, EntryAt moved prev ⟨length, .file record⟩ ∧
      SameOutside image.data moved prev (prev + record.size) ∧
      swapEntries image prev (prev + span) =
        if 40 + (length - record.size) > span then
          ({ image with data := moved }, none)
        else
          ({ image with
            data := cbfsCreateEmptyEntry moved (prev + length)
              cbfsComponentNull (span - (40 + (length - record.size))) [] },
            some (prev + length)) := by
  have spaceFits : cbfsFileEntrySize image.data prev ≤ span := space.header.fits
  have fileSize := file.fileSize
  have fits : record.size ≤ length := by
    rw [← fileSize]
    exact file.header.fits
  have gap : addSize (cbfsFileEntrySize image.data prev)
      (subSize (sub32 (prev + span) prev) (cbfsFileEntrySize image.data prev)) = span := by
    rw [sub32_of_le (by omega) (by omega), Nat.add_sub_cancel_left,
      subSize_of_le spaceFits (by omega), addSize_of_lt (by omega),
      Nat.add_sub_cancel' spaceFits]
  obtain ⟨moved, movedEq⟩ : ∃ moved, store image.data prev
      (load image.data (prev + span) record.size) = moved := ⟨_, rfl⟩
  have copied : EntryAt moved prev ⟨length, .file record⟩ := by
    rw [← movedEq]
    exact file.translate fun i below => store_load_apply_add below
  have next : cbfsFindNextEntry moved prev = prev + length :=
    copied.header.findNext aligned (show prev + length < 4294967296 by omega)
  have spill : subSize (sub32 (prev + length) prev) record.size = length - record.size := by
    rw [sub32_of_le (by omega) (by omega), Nat.add_sub_cancel_left, subSize_of_le fits (by omega)]
  have need : addSize 40 (length - record.size) = 40 + (length - record.size) :=
    addSize_of_lt (by omega)
  have need' : addSize (length - record.size) 40 = 40 + (length - record.size) := by
    rw [addSize_of_lt (by omega), Nat.add_comm]
  refine ⟨moved, copied, ?_, ?_⟩
  · rw [← movedEq]
    exact sameOutside_store le_rfl (by rw [length_load])
  · rw [swapEntries, fileSize, gap, movedEq, next]
    rw [spill, minEntrySize_eq, need, need']
    split_ifs with crowded
    · rfl
    · rw [subSize_of_le (by omega) (by omega)]

theorem swapEntries_of_room (aligned : 64 ∣ prev) (inside : prev + span + length ≤ image.size)
    (small : image.size < 2147483648) (room : 40 + (length - record.size) ≤ span) :
    ∃ data, swapEntries image prev (prev + span) = ({ image with data }, some (prev + length)) ∧
      EntryAt data prev ⟨length, .file record⟩ ∧
      EntryAt data (prev + length) ⟨span, .empty⟩ ∧
      SameOutside image.data data prev (prev + span + length) := by
  obtain ⟨moved, copied, copy, swap⟩ := swapEntries_eq space file aligned inside small
  have tight : length < record.size + 64 := by
    rw [← file.fileSize]
    exact file.header.tight
  have fits : record.size ≤ length := by
    rw [← file.fileSize]
    exact file.header.fits
  obtain ⟨emptyAt, change⟩ := @createEmptyEntry_spec moved (prev + length)
    (span - (40 + (length - record.size))) span (by omega) (by omega)
    space.header.aligned (by omega)
  rw [if_neg (not_lt.mpr room)] at swap
  exact ⟨_, swap, copied.congr change (.inl le_rfl), emptyAt,
    (copy.mono le_rfl (by omega)).trans (change.mono (by omega) (by omega))⟩

theorem swapEntries_of_tight (aligned : 64 ∣ prev) (inside : prev + span + length ≤ image.size)
    (small : image.size < 2147483648) (tight : span < 40 + (length - record.size)) :
    ∃ data, swapEntries image prev (prev + span) = ({ image with data }, none) ∧
      EntryAt data prev ⟨length, .file record⟩ ∧
      SameOutside image.data data prev (prev + length) := by
  obtain ⟨moved, copied, copy, swap⟩ := swapEntries_eq space file aligned inside small
  have fits : record.size ≤ length := by
    rw [← file.fileSize]
    exact file.header.fits
  rw [if_pos tight] at swap
  exact ⟨moved, swap, copied, copy.mono le_rfl (by omega)⟩

end

end Swap

section Steps

variable {image : Image} {entry : Nat}

theorem compactLoop_end (fuel : Nat) (prev : Option Nat) :
    compactLoop (fuel + 1) image image.size prev = some (true, image) := by
  have invalid := not_valid_end image
  cases prev with
  | none =>
    rw [compactLoop, invalid]
    rfl
  | some prev =>
    rw [compactLoop, invalid]
    rfl

variable {length : Nat} {record : Record}

theorem compactLoop_file (file : EntryAt image.data entry ⟨length, .file record⟩)
    (valid : cbfsIsValidEntry image entry = true) (fuel : Nat) :
    compactLoop (fuel + 1) image entry none =
      compactLoop fuel image (cbfsFindNextEntry image.data entry) none := by
  have types := file.slot.1
  rw [compactLoop, valid, if_neg (by decide), if_neg (by tauto)]

theorem compactLoop_behind (file : EntryAt image.data entry ⟨length, .file record⟩)
    (valid : cbfsIsValidEntry image entry = true) (fuel prev : Nat) :
    compactLoop (fuel + 1) image entry (some prev) =
      afterSwap (compactLoop fuel) (swapEntries image prev entry) := by
  have types := file.slot.1
  rw [compactLoop, valid, if_neg (by decide), if_neg (by tauto)]

theorem compactLoop_free {e : Entry} (entryAt : EntryAt image.data entry e) (free : e.isFree = true)
    (valid : cbfsIsValidEntry image entry = true) (fuel : Nat) (prev : Option Nat) :
    compactLoop (fuel + 1) image entry prev =
      compactLoop fuel image (cbfsFindNextEntry image.data entry) (some entry) := by
  have types := type_of_free entryAt free
  have skipped : entryType image.data entry = cbfsComponentNull ∨
      entryType image.data entry = cbfsComponentDeleted := by
    tauto
  cases prev with
  | none => rw [compactLoop, valid, if_neg (by decide), if_pos skipped]
  | some prev => rw [compactLoop, valid, if_neg (by decide), if_pos skipped]

theorem compactLoop_files (fuel : Nat) {files : List Entry}
    (layout : LayoutAt image.data entry files) (all : ∀ e ∈ files, e.isFree = false)
    (inside : entry + spanOf files ≤ image.size) (small : image.size < 2147483648)
    (aligned : 64 ∣ entry) :
    compactLoop (files.length + fuel) image entry none =
      compactLoop fuel image (entry + spanOf files) none := by
  induction files generalizing entry with
  | nil => rw [List.length_nil, Nat.zero_add, spanOf, Nat.add_zero]
  | cons e files ih =>
    obtain ⟨entryAt, later⟩ := layout
    rw [spanOf] at inside
    have next := entryAt.header.findNext aligned (show entry + e.span < 4294967296 by omega)
    have valid := entryAt.valid (by omega)
    have step := ih later (List.forall_mem_cons.mp all).2
      (by omega) (Nat.dvd_add aligned entryAt.header.aligned)
    have file := all e (.head _)
    rcases e.file_or_free with ⟨length, record, rfl⟩ | free
    · rw [List.length_cons, Nat.add_right_comm,
        compactLoop_file entryAt valid, next, step, spanOf, Nat.add_assoc]
    · exact absurd (free.symm.trans file) (by decide)

theorem compactLoop_run (fuel : Nat) {run : List Entry} {e : Entry}
    (layout : LayoutAt image.data entry (run ++ [e])) (all : ∀ e' ∈ run ++ [e], e'.isFree = true)
    (inside : entry + spanOf (run ++ [e]) ≤ image.size) (small : image.size < 2147483648)
    (aligned : 64 ∣ entry) (prev : Option Nat) :
    compactLoop ((run ++ [e]).length + fuel) image entry prev =
      compactLoop fuel image (entry + spanOf (run ++ [e])) (some (entry + spanOf run)) := by
  induction run generalizing entry prev with
  | nil =>
    obtain ⟨entryAt, -⟩ := layout
    rw [List.nil_append, spanOf, spanOf] at inside
    rw [List.nil_append, List.length_singleton, Nat.add_comm,
      compactLoop_free entryAt (all e (.head _)) (entryAt.valid (by omega)),
      entryAt.header.findNext aligned (by omega)]
    rfl
  | cons first run ih =>
    obtain ⟨entryAt, later⟩ := layout
    rw [List.cons_append, spanOf] at inside
    have next := entryAt.header.findNext aligned (show entry + first.span < 4294967296 by omega)
    have step := ih later (List.forall_mem_cons.mp all).2
      (by omega) (Nat.dvd_add aligned entryAt.header.aligned) (some entry)
    rw [List.cons_append, List.length_cons, Nat.add_right_comm,
      compactLoop_free entryAt (all first (.head _))
        (entryAt.valid (by omega)), next, step, spanOf, spanOf,
      Nat.add_assoc, Nat.add_assoc]

theorem append_file_all {files : List Entry} (all : ∀ e ∈ files, e.isFree = false) :
    ∀ e ∈ files ++ [⟨length, .file record⟩], e.isFree = false :=
  List.forall_mem_append.mpr ⟨all, List.forall_mem_singleton.mpr rfl⟩

theorem compactLoop_step {files rest : List Entry} {span : Nat} {slot : Slot}
    (held : Held image (files ++ ⟨span, slot⟩ :: ⟨length, .file record⟩ :: rest))
    (all : ∀ e ∈ files, e.isFree = false) (room : 40 + (length - record.size) ≤ span) :
    ∃ data, (∀ fuel, compactLoop (fuel + 1) image (spanOf files + span)
        (some (spanOf files)) =
          compactLoop fuel { image with data } (spanOf files + length +
            (span + spanOf (freeRun rest))) (some (spanOf files + length))) ∧
      Held { image with data } ((files ++ [⟨length, .file record⟩]) ++
        ⟨span + spanOf (freeRun rest), .empty⟩ :: coalesce none (afterRun rest)) ∧
      (Merged (afterRun rest) → SameOutside image.data data (spanOf files)
        (spanOf files + length + (span + spanOf (freeRun rest)))) := by
  have whole := held.whole
  have small := held.small
  have layout := held.layout
  rw [spanOf_append, spanOf, spanOf] at whole
  change spanOf files + (span + (length + spanOf rest)) = image.size at whole
  rw [layoutAt_append, Nat.zero_add] at layout
  obtain ⟨front, space, file, later⟩ := layout
  have aligned : 64 ∣ spanOf files := front.aligned
  change EntryAt image.data (spanOf files + span) _ at file
  change LayoutAt image.data (spanOf files + span + length) rest at later
  obtain ⟨swapped, swap, fileAt, emptyAt, change⟩ :=
    swapEntries_of_room space file aligned (by omega) small room
  have held' : Held { image with data := swapped }
      ((files ++ [⟨length, .file record⟩]) ++ ⟨span, .empty⟩ :: rest) := by
    refine ⟨?_, ?_, small⟩
    · rw [List.append_assoc, layoutAt_append, Nat.zero_add]
      refine ⟨front.congr change (.inl (by omega)), fileAt, emptyAt, ?_⟩
      have after := later.congr change (.inr le_rfl)
      rwa [Nat.add_right_comm] at after
    · rw [spanOf_append, spanOf_append, spanOf, spanOf, spanOf]
      show spanOf files + (length + 0) + (span + spanOf rest) = image.size
      omega
  have place : spanOf (files ++ [⟨length, .file record⟩]) = spanOf files + length :=
    spanOf_append _ _
  obtain ⟨data, walk, mergedHeld, -⟩ := cbfsWalkMerge_spec held'
  rw [coalesce_append_files (append_file_all all), coalesce_free rfl] at mergedHeld
  obtain ⟨mergedAt, aligned', inside⟩ := mergedHeld.parts
  rw [place] at mergedAt aligned' inside
  change _ ≤ image.size at inside
  have next := mergedAt.header.findNext aligned' (show _ < 4294967296 by omega)
  refine ⟨data, fun fuel => ?_, mergedHeld, fun merged => ?_⟩
  · rw [compactLoop_behind file (file.valid (by
      show spanOf files + span + length ≤ _
      omega)), swap, afterSwap, walk, Option.bind_some, next]
  · obtain ⟨data', walk', change'⟩ := walkMerge_run held' (append_file_all all) rfl merged
    cases walk.symm.trans walk'
    rw [place] at change'
    change SameOutside swapped data (spanOf files + length)
      (spanOf files + length + span + spanOf (freeRun rest)) at change'
    exact (change.mono le_rfl (by omega)).trans (change'.mono (by omega) (by omega))

end Steps

section Loop

variable {image : Image}

variable {files : List Entry} {record : Record}

theorem compactLoop_roomy (fuel : Nat) {rest : List Entry} {span : Nat} {slot : Slot}
    (held : Held image (files ++ ⟨span, slot⟩ :: rest)) (free : slot.isFree = true)
    (all : ∀ e ∈ files, e.isFree = false) (lone : freeRun rest = []) (roomy : Roomy span rest)
    (enough : rest.length < fuel) :
    ∃ data moved last, compactLoop fuel image (spanOf files + span)
        (some (spanOf files)) = some (true, { image with data }) ∧
      Held { image with data } (files ++ (moved ++ [last])) ∧
      (∀ e ∈ moved, e.isFree = false) ∧
      (last.isFree = true ∧ (last.slot = .deleted → slot = .deleted)) ∧
      recordsOf moved = recordsOf rest := by
  induction fuel generalizing image files rest span slot with
  | zero => omega
  | succ fuel ih =>
    have whole := held.whole
    rw [spanOf_append, spanOf] at whole
    change spanOf files + (span + spanOf rest) = image.size at whole
    have split := afterRun_cases rest
    have parts := freeRun_append_afterRun rest
    rw [lone, List.nil_append] at parts
    rw [parts] at split
    rcases split with rfl | ⟨length, record, rest, rfl⟩
    · have stop := @compactLoop_end image fuel (some (spanOf files))
      rw [show image.size = spanOf files + span from whole.symm] at stop
      exact ⟨image.data, [], ⟨span, slot⟩, stop, held,
        List.forall_mem_nil _, ⟨free, id⟩, rfl⟩
    · have positive := held.parts.1.positive
      change 64 ≤ span at positive
      obtain ⟨data, step, held', -⟩ := compactLoop_step held all (roomy.1.resolve_left (by omega))
      have runs : freeSpan (freeRun rest) = spanOf (freeRun rest) := freeSpan_run (freeRun_all rest)
      have roomy' : Roomy (span + spanOf (freeRun rest)) (coalesce none (afterRun rest)) := by
        rw [roomy_coalesce, Option.getD_none, Nat.add_zero, ← runs]
        have later := roomy.2
        rw [← freeRun_append_afterRun rest, roomy_append] at later
        exact later.2
      have lone' : freeRun (coalesce none (afterRun rest)) = [] := by
        rcases afterRun_cases rest with none | ⟨length, record, rest, split⟩
        · rw [none]
          rfl
        · rw [split]
          rfl
      have shorter := length_coalesce_le none (afterRun rest)
      have rests := length_afterRun_le rest
      rw [List.length_cons] at enough
      obtain ⟨data', moved, last, run, final, files', free', records⟩ :=
        ih held' rfl (append_file_all all) lone' roomy' (by
          simp only [Option.toList, List.length_nil] at shorter
          omega)
      rw [spanOf_append, spanOf, spanOf] at run
      refine ⟨data', ⟨length, .file record⟩ :: moved, last,
        (step fuel).trans run, ?_, ?_,
        ⟨free'.1, fun same => Slot.noConfusion (free'.2 same)⟩, ?_⟩
      · rw [List.append_assoc] at final
        exact final
      · exact List.forall_mem_cons.mpr ⟨rfl, files'⟩
      · rw [recordsOf_coalesce, recordsOf_afterRun] at records
        exact congrArg (record :: ·) records

/-- At the first file without room, the loop stops after it has moved the file.
Behind the new place of the file nothing has changed. -/
theorem compactLoop_tight (fuel : Nat) {before after : List Entry} {span length : Nat} {slot : Slot}
    (held : Held image (files ++ ⟨span, slot⟩ :: (before ++ ⟨length, .file record⟩ :: after)))
    (merged : Merged (⟨span, slot⟩ :: (before ++ ⟨length, .file record⟩ :: after)))
    (free : slot.isFree = true) (all : ∀ e ∈ files, e.isFree = false) (roomy : Roomy span before)
    (tight : span + freeSpan before < 40 + (length - record.size)) (enough : before.length < fuel) :
    ∃ data moved, compactLoop fuel image (spanOf files + span)
        (some (spanOf files)) = some (false, { image with data }) ∧
      LayoutAt data 0 (files ++ (moved ++ [⟨length, .file record⟩])) ∧
      recordsOf moved = recordsOf before ∧
      spanOf moved + freeSpan before = spanOf before ∧
      SameOutside image.data data 0 (spanOf files + spanOf moved + length) := by
  induction fuel generalizing image files before span slot with
  | zero => omega
  | succ fuel ih =>
    have small := held.small
    have positive := held.parts.1.positive
    change 64 ≤ span at positive
    cases before with
    | nil =>
      obtain ⟨spaceAt, aligned, -⟩ := held.parts
      have shifted : Held image ((files ++ [⟨span, slot⟩]) ++ ⟨length, .file record⟩ :: after) := by
        rwa [List.append_assoc]
      have place : spanOf (files ++ [⟨span, slot⟩]) = spanOf files + span := spanOf_append _ _
      obtain ⟨fileAt, -, inside⟩ := shifted.parts
      rw [place] at fileAt inside
      change spanOf files + span + length ≤ image.size at inside
      obtain ⟨data, swap, copied, change⟩ :=
        swapEntries_of_tight spaceAt fileAt aligned inside small tight
      have layout := held.layout
      rw [layoutAt_append, Nat.zero_add] at layout
      refine ⟨data, [], ?_, ?_, rfl, rfl, change.mono (Nat.zero_le _) le_rfl⟩
      · rw [compactLoop_behind fileAt (fileAt.valid inside), swap, afterSwap]
      · rw [List.nil_append, layoutAt_append, Nat.zero_add]
        exact ⟨layout.1.congr change (.inl (by omega)), copied, trivial⟩
    | cons e before =>
      have file := merged.freeRun_eq_nil free
      rcases e.file_or_free with ⟨length', record', rfl⟩ | free'
      swap
      · rw [List.cons_append, freeRun, List.takeWhile_cons_of_pos free'] at file
        exact absurd file (List.cons_ne_nil _ _)
      rw [List.cons_append] at held merged
      obtain ⟨runEq, afterEq⟩ := @run_append_file before length record after
      have mergedAfter : Merged (afterRun (before ++ ⟨length, .file record⟩ :: after)) := by
        apply @Merged.right (⟨span, slot⟩ :: ⟨length', .file record'⟩ ::
          freeRun (before ++ ⟨length, .file record⟩ :: after))
        rw [List.cons_append, List.cons_append, freeRun_append_afterRun]
        exact merged
      have merged' := merged_coalesce (some span) (before ++ ⟨length, .file record⟩ :: after)
      rw [coalesce_some, mergedAfter.coalesce_eq, runEq, afterEq] at merged'
      obtain ⟨data, step, held', change⟩ := compactLoop_step held all
        (roomy.1.resolve_left (by omega))
      have frame := change mergedAfter
      rw [mergedAfter.coalesce_eq, afterEq] at held'
      rw [runEq] at held' step frame
      have runs : freeSpan (freeRun before) = spanOf (freeRun before) :=
        freeSpan_run (freeRun_all before)
      have total : freeSpan (freeRun before) + freeSpan (afterRun before) = freeSpan before := by
        rw [← freeSpan_append, freeRun_append_afterRun]
      have roomy' : Roomy (span + spanOf (freeRun before)) (afterRun before) := by
        have later := roomy.2
        rw [← freeRun_append_afterRun before, roomy_append, runs] at later
        exact later.2
      change span + freeSpan before < _ at tight
      rw [List.length_cons] at enough
      have rests := length_afterRun_le before
      obtain ⟨data', moved, run, layout, records, spans, change'⟩ :=
        ih held' merged' rfl (append_file_all all) roomy' (by omega) (by omega)
      have spaceAligned := held'.parts.1.header.aligned
      change 64 ∣ span + spanOf (freeRun before) at spaceAligned
      have shifted : Held image ((files ++ ⟨span, slot⟩ ::
          ⟨length', .file record'⟩ :: before) ++ ⟨length, .file record⟩ :: after) := by
        rw [List.append_assoc]
        exact held
      have fileAt := shifted.parts.1
      have most : length < record.size + 64 := by
        rw [← fileAt.fileSize]
        exact fileAt.header.tight
      have least := fileAt.positive
      change 64 ≤ length at least
      rw [spanOf_append, spanOf, spanOf] at run change'
      have parts := spanOf_run before
      refine ⟨data', ⟨length', .file record'⟩ :: moved, (step fuel).trans run, ?_, ?_, ?_, ?_⟩
      · rw [List.append_assoc] at layout
        exact layout
      · rw [recordsOf_afterRun] at records
        exact congrArg (record' :: ·) records
      · rw [spanOf, spanOf]
        show length' + spanOf moved + freeSpan before = length' + _
        omega
      · rw [spanOf]
        change SameOutside data data' 0 (spanOf files + (length' + 0) +
          spanOf moved + length) at change'
        exact (frame.mono (Nat.zero_le _)
          (show _ ≤ spanOf files + (length' + spanOf moved) + length by
            omega)).trans (change'.mono le_rfl (by omega))

end Loop

end Coreboot.Cbfs
