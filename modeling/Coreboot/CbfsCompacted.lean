import Coreboot.CbfsAddedFiles
import Coreboot.CbfsCompaction

/-!
# Compacted images

With room for every file the image is compacted. Otherwise the bytes that the file without room
leaves behind are no entry.
-/

namespace Coreboot.Cbfs

open ByteMemory

def FreeLast (entries : List Entry) : Prop :=
  ∀ before e after, entries = before ++ e :: after → e.isFree = true →
    ∀ later ∈ after, later.isFree = true

/-- The image is compacted: it has a layout with the same files, and the free
entries are the last ones unless the tool reports an error. -/
def Compacts (image : Image) : Prop :=
  ∃ ok data entries,
    cbfsCompactInstance image = some (ok, { image with data }) ∧
      Held { image with data } entries ∧
      (storedFiles { image with data }).map Prod.snd = (storedFiles image).map Prod.snd ∧
      (ok = true → FreeLast entries)

/-- Every file has room to change places with the space in front of it, and a
file follows the first run of free entries only if that is a single entry. -/
structure Compactable (entries : List Entry) : Prop where
  roomy : Roomy 0 entries
  single : ∀ files first second after,
    entries = files ++ first :: second :: after →
      (∀ e ∈ files, e.isFree = false) → first.isFree = true →
        second.isFree = true → ∀ e ∈ after, e.isFree = true

/-- The first file without room leaves bytes behind that happen to be headers of
the rest of the image. -/
def TailReads (image : Image) (entries : List Entry) : Prop :=
  ∃ before length record after reading,
    entries = before ++ ⟨length, .file record⟩ :: after ∧ Roomy 0 before ∧
      freeSpan before ≠ 0 ∧
      freeSpan before < 40 + (length - record.size) ∧
      LayoutAt image.data (spanOf before + length - freeSpan before) reading ∧
      spanOf reading = freeSpan before + spanOf after ∧
      recordsOf reading = recordsOf after

section Compaction

variable {image : Image} {entries : List Entry} {before after : List Entry} {record : Record}
  {files run : List Entry}

theorem freeLast_append (all : ∀ e ∈ files, e.isFree = false)
    (free : ∀ e ∈ run, e.isFree = true) : FreeLast (files ++ run) := by
  intro before e after same free' later member
  rcases List.append_eq_append_iff.mp same with ⟨middle, -, split⟩ | ⟨middle, rfl, split⟩
  · apply free
    rw [split]
    exact List.mem_append_right _ (.tail _ member)
  · cases middle with
    | nil =>
      rw [List.nil_append] at split
      apply free
      rw [← split]
      exact List.mem_cons_of_mem _ member
    | cons e' middle =>
      obtain ⟨rfl, -⟩ := List.cons.inj split
      have file := all e (List.mem_append_right _ (.head _))
      exact absurd (free'.symm.trans file) (by decide)

theorem exists_first_free (entries : List Entry) :
    (∀ e ∈ entries, e.isFree = false) ∨ ∃ files e rest,
      entries = files ++ e :: rest ∧ (∀ e ∈ files, e.isFree = false) ∧ e.isFree = true := by
  induction entries with
  | nil => exact .inl fun _ member => absurd member List.not_mem_nil
  | cons first entries ih =>
    rcases first.file_or_free with ⟨length, record, rfl⟩ | free
    · rcases ih with all | ⟨files, e, rest, rfl, all, free⟩
      · exact .inl (List.forall_mem_cons.mpr ⟨rfl, all⟩)
      · exact .inr ⟨⟨length, .file record⟩ :: files, e, rest, rfl,
          List.forall_mem_cons.mpr ⟨rfl, all⟩, free⟩
    · exact .inr ⟨[], first, entries, rfl, List.forall_mem_nil _, free⟩

theorem exists_tight {space : Nat} (crowded : ¬ Roomy space entries) :
    ∃ before length record after,
      entries = before ++ ⟨length, .file record⟩ :: after ∧
        Roomy space before ∧ space + freeSpan before ≠ 0 ∧
          space + freeSpan before < 40 + (length - record.size) := by
  induction entries generalizing space with
  | nil => exact absurd trivial crowded
  | cons e entries ih =>
    rcases e.file_or_free with ⟨length, record, rfl⟩ | free
    · by_cases room : space = 0 ∨ 40 + (length - record.size) ≤ space
      · obtain ⟨before, length', record', after, rfl, roomy, nonempty, tight⟩ :=
          ih fun later => crowded ⟨room, later⟩
        exact ⟨⟨length, .file record⟩ :: before, length', record', after,
          rfl, ⟨room, roomy⟩, nonempty, tight⟩
      · obtain ⟨nonempty, tight⟩ := not_or.mp room
        exact ⟨[], length, record, entries, rfl, trivial, nonempty, not_le.mp tight⟩
    · rw [roomy_free free] at crowded
      obtain ⟨before, length, record, after, rfl, roomy, nonempty, tight⟩ := ih crowded
      rw [Nat.add_assoc, ← freeSpan_free free] at nonempty tight
      exact ⟨e :: before, length, record, after, rfl,
        (roomy_free free space before).mpr roomy, nonempty, tight⟩

theorem cbfsCompactInstance_run {files run rest : List Entry} {e : Entry}
    (held : Held image (files ++ ((run ++ [e]) ++ rest))) (all : ∀ e ∈ files, e.isFree = false)
    (free : ∀ e' ∈ run ++ [e], e'.isFree = true) :
    ∃ fuel, rest.length < fuel ∧ cbfsCompactInstance image =
      compactLoop fuel image (spanOf files + spanOf (run ++ [e]))
        (some (spanOf files + spanOf run)) := by
  have layout := held.layout
  have whole := held.whole
  have small := held.small
  have enough := held.length_lt
  rw [spanOf_append, spanOf_append] at whole
  rw [List.length_append, List.length_append] at enough
  rw [layoutAt_append, Nat.zero_add, layoutAt_append] at layout
  obtain ⟨front, gap, -⟩ := layout
  refine ⟨image.fuel - files.length - (run ++ [e]).length, by omega, ?_⟩
  have pass := compactLoop_files (image.fuel - files.length) front all
    (by omega) small (Nat.dvd_zero 64)
  have across := compactLoop_run (image.fuel - files.length - (run ++ [e]).length)
    gap free (by omega) small front.aligned none
  rw [Nat.add_sub_cancel' (by omega), Nat.zero_add] at pass
  rw [Nat.add_sub_cancel' (by omega)] at across
  rw [cbfsCompactInstance, cbfsFindFirstEntry, pass, across]

theorem cbfsCompactInstance_done (held : Held image (files ++ run))
    (all : ∀ e ∈ files, e.isFree = false) (free : ∀ e ∈ run, e.isFree = true) :
    cbfsCompactInstance image = some (true, image) := by
  have whole := held.whole
  rcases List.eq_nil_or_concat' run with rfl | ⟨init, last, rfl⟩
  · have enough := held.length_lt
    have small := held.small
    rw [List.append_nil] at whole enough
    have pass := compactLoop_files (image.fuel - files.length)
      (List.append_nil files ▸ held.layout) all (by omega) small
      (Nat.dvd_zero 64)
    obtain ⟨fuel, more⟩ := Nat.exists_eq_succ_of_ne_zero
      (show image.fuel - files.length ≠ 0 by omega)
    rw [Nat.add_sub_cancel' (by omega), Nat.zero_add, whole, more, compactLoop_end] at pass
    rw [cbfsCompactInstance, cbfsFindFirstEntry, pass]
  · obtain ⟨fuel, enough, loop⟩ := @cbfsCompactInstance_run _ files init [] last
      (by rwa [List.append_nil]) all free
    obtain ⟨fuel, rfl⟩ := Nat.exists_eq_succ_of_ne_zero (Nat.ne_of_gt (Nat.zero_lt_of_lt enough))
    rw [loop, ← spanOf_append, whole, compactLoop_end]

theorem storedFiles_eq_of_records {data : Memory} {entries' : List Entry}
    (held : Held image entries) (held' : Held { image with data } entries')
    (same : recordsOf entries' = recordsOf entries) :
    (storedFiles { image with data }).map Prod.snd = (storedFiles image).map Prod.snd := by
  rw [storedFiles_of_held held, storedFiles_of_held held', map_snd_filesOf, map_snd_filesOf, same]

/-- The layout after the compaction of an image with room. -/
theorem exists_compacted (held : Held image entries) (compactable : Compactable entries) :
    ∃ data entries', cbfsCompactInstance image = some (true, { image with data }) ∧
      Held { image with data } entries' ∧ recordsOf entries' = recordsOf entries ∧
      FreeLast entries' ∧
      ((∀ e ∈ entries, e.slot ≠ .deleted) → ∀ e ∈ entries', e.slot ≠ .deleted) := by
  rcases exists_first_free entries with all | ⟨files, e, tail, rfl, all, free⟩
  · have held' : Held image (entries ++ []) := by rwa [List.append_nil]
    have last := @freeLast_append entries [] all (List.forall_mem_nil _)
    rw [List.append_nil] at last
    exact ⟨image.data, entries, cbfsCompactInstance_done held' all
      (List.forall_mem_nil _), held, rfl, last, id⟩
  · have parts := freeRun_append_afterRun tail
    have run : ∀ e' ∈ e :: freeRun tail, e'.isFree = true :=
      List.forall_mem_cons.mpr ⟨free, freeRun_all tail⟩
    rcases afterRun_cases tail with none | ⟨length, record, rest, split⟩
    · rw [none, List.append_nil] at parts
      rw [parts] at run
      exact ⟨image.data, _, cbfsCompactInstance_done held all run, held,
        rfl, freeLast_append all run, id⟩
    · have lone : freeRun tail = [] := by
        cases shape : freeRun tail with
        | nil => rfl
        | cons second more =>
          rw [split, shape] at parts
          have behind := compactable.single files e second
            (more ++ ⟨length, .file record⟩ :: rest)
            (by rw [← parts]; rfl) all free
            (run second (by rw [shape]; simp)) ⟨length, .file record⟩
            (by simp)
          cases behind
      have roomy := compactable.roomy
      rw [roomy_append, freeSpan_files all, roomy_free free, Nat.add_zero, Nat.zero_add] at roomy
      obtain ⟨fuel, enough, loop⟩ := @cbfsCompactInstance_run image files []
        tail e held all (by simpa using free)
      obtain ⟨span, slot⟩ := e
      obtain ⟨data, moved, last, result, final, files', free', records⟩ :=
        compactLoop_roomy fuel held free all lone roomy.2 enough
      have front : ∀ e ∈ files ++ moved, e.isFree = false :=
        List.forall_mem_append.mpr ⟨all, files'⟩
      rw [← List.append_assoc] at final
      refine ⟨data, _, loop.trans result, final, ?_, freeLast_append front ?_, fun merged => ?_⟩
      · rw [recordsOf_append, recordsOf_append, recordsOf_append, records, recordsOf_free free,
          recordsOf_free free'.1, List.append_assoc]
        exact congrArg (_ ++ ·) (List.append_nil _)
      · exact List.forall_mem_singleton.mpr free'.1
      · refine List.forall_mem_append.mpr ⟨fun e member same => ?_,
          List.forall_mem_singleton.mpr fun same => ?_⟩
        · have kept := front e member
          rw [Entry.isFree, same] at kept
          cases kept
        · exact merged _ (List.mem_append_right _ (.head _)) (free'.2 same)

theorem compacts_of_compactable (held : Held image entries)
    (compactable : Compactable entries) : Compacts image := by
  obtain ⟨data, entries', result, held', same, last, -⟩ := exists_compacted held compactable
  exact ⟨true, data, entries', result, held', storedFiles_eq_of_records held held' same,
    fun _ => last⟩

/-- The images reached when compactions come between the other operations. -/
inductive CompactedRun : Image → List AddedFile → Prop
  | added {size : Nat} {image : Image} {files : List AddedFile}
      (run : AddedRun Fitting size image files) : CompactedRun image files
  | add {image image' : Image} {files : List AddedFile} {type contentOffset : Nat}
      {name content : List Byte} {header : Memory} (before : CompactedRun image files)
      (built : Built type content.length name header) (word : type < 4294967296)
      (live : LiveType type) (low : contentOffset < 2147483648)
      (new : cbfsGetEntry image name = some none)
      (met : Fitting image content contentOffset header)
      (added : cbfsAddEntry image content contentOffset header = some (true, image')) :
      CompactedRun image' (⟨name, type, content⟩ :: files)
  | remove {image image' : Image} {files : List AddedFile} {name : List Byte}
      (before : CompactedRun image files) (string : 0 ∉ name)
      (removed : cbfsRemoveEntry image name = some (true, image')) :
      CompactedRun image' (files.filter fun file => !sameLetters file.name name)
  | compact {image image' : Image} {files : List AddedFile} {entries : List Entry} {ok : Bool}
      (before : CompactedRun image files) (held : Held image entries)
      (compactable : Compactable entries)
      (compacted : cbfsCompactInstance image = some (ok, image')) : CompactedRun image' files

section Run

variable {image' : Image} {files : List AddedFile}

theorem Describes.compact {ok : Bool} (describes : Describes image entries files)
    (compactable : Compactable entries)
    (compacted : cbfsCompactInstance image = some (ok, image')) :
    ∃ entries', Describes image' entries' files := by
  have clean := describes.clean
  obtain ⟨data, entries', result, held, records, -, merged⟩ :=
    exists_compacted clean.held compactable
  cases compacted.symm.trans result
  have stored := storedFiles_eq_of_records clean.held held records
  refine ⟨entries', ⟨held, merged clean.merged, fun file member => ?_⟩, ?_,
    describes.apart, describes.named⟩
  · have inImage := List.mem_map_of_mem (f := Prod.snd) member
    rw [stored] at inImage
    obtain ⟨other, before, same⟩ := List.mem_map.mp inImage
    exact same ▸ clean.terminated other before
  · have same := congrArg (List.map Record.toAdded) stored
    rw [List.map_map, List.map_map] at same
    exact (List.Perm.of_eq same).trans describes.same

theorem describes_of_compactedRun (run : CompactedRun image files) :
    ∃ entries, Describes image entries files := by
  induction run with
  | added run => exact (describes_of_addedRun run).imp fun _ => And.left
  | add before built word live low new met added ih =>
    obtain ⟨entries, describes⟩ := ih
    exact (describes.add built.spec word live new met added).imp fun _ => And.left
  | remove before string removed ih =>
    obtain ⟨entries, describes⟩ := ih
    exact (describes.remove string removed).imp fun _ => And.left
  | compact before held compactable compacted ih =>
    obtain ⟨entries, describes⟩ := ih
    obtain rfl := held.unique describes.clean.held
    exact describes.compact compactable compacted

end Run

theorem cbfsCompactInstance_tight {length : Nat}
    (held : Held image (before ++ ⟨length, .file record⟩ :: after))
    (merged : Merged (before ++ ⟨length, .file record⟩ :: after)) (roomy : Roomy 0 before)
    (nonempty : freeSpan before ≠ 0) (tight : freeSpan before < 40 + (length - record.size)) :
    ∃ data front, cbfsCompactInstance image = some (false, { image with data }) ∧
      LayoutAt data 0 (front ++ [⟨length, .file record⟩]) ∧
      recordsOf front = recordsOf before ∧
      spanOf front + freeSpan before = spanOf before ∧
      SameOutside image.data data 0 (spanOf front + length) := by
  rcases exists_first_free before with all | ⟨files, e, rest, rfl, all, free⟩
  · exact absurd (freeSpan_files all) nonempty
  · rw [List.append_assoc, List.cons_append] at held merged
    rw [roomy_append, freeSpan_files all, roomy_free free, Nat.add_zero, Nat.zero_add] at roomy
    rw [freeSpan_append, freeSpan_files all, freeSpan_free free, Nat.zero_add] at tight
    obtain ⟨fuel, enough, loop⟩ := @cbfsCompactInstance_run image files []
      (rest ++ ⟨length, .file record⟩ :: after) e held all
      (by simpa using free)
    rw [List.length_append] at enough
    obtain ⟨span, slot⟩ := e
    obtain ⟨data, moved, result, layout, records, spans, change⟩ :=
      compactLoop_tight fuel held merged.right free all roomy.2 tight (by omega)
    refine ⟨data, files ++ moved, loop.trans result, ?_, ?_, ?_, ?_⟩
    · rwa [List.append_assoc]
    · rw [recordsOf_append, recordsOf_append, records, recordsOf_free free]
    · rw [spanOf_append, spanOf_append, freeSpan_append, freeSpan_files all,
        freeSpan_free free, spanOf]
      omega
    · rw [spanOf_append]
      exact change

/-- A merged layout without room is compacted only if the bytes that are left
behind read as the rest. -/
theorem compacts_iff_of_tight {length : Nat}
    (held : Held image (before ++ ⟨length, .file record⟩ :: after))
    (merged : Merged (before ++ ⟨length, .file record⟩ :: after)) (roomy : Roomy 0 before)
    (nonempty : freeSpan before ≠ 0) (tight : freeSpan before < 40 + (length - record.size)) :
    Compacts image ↔ ∃ reading,
      LayoutAt image.data (spanOf before + length - freeSpan before) reading ∧
        spanOf reading = freeSpan before + spanOf after ∧ recordsOf reading = recordsOf after := by
  obtain ⟨data, front, result, layout, records, spans, change⟩ :=
    cbfsCompactInstance_tight held merged roomy nonempty tight
  have whole := held.whole
  rw [spanOf_append, spanOf] at whole
  change spanOf before + (length + spanOf after) = image.size at whole
  have stop : spanOf (front ++ [⟨length, .file record⟩]) = spanOf front + length :=
    spanOf_append _ _
  have place : spanOf before + length - freeSpan before = spanOf front + length := by
    omega
  rw [place]
  constructor
  · rintro ⟨ok, data', entries', result', held', files, -⟩
    obtain ⟨-, same⟩ := Prod.mk.inj (Option.some.inj (result.symm.trans result'))
    obtain rfl : data = data' := congrArg Image.data same
    have whole' := held'.whole
    change spanOf entries' = image.size at whole'
    obtain ⟨reading, rfl⟩ := layout.exists_append held'.layout (by rw [stop]; omega)
    have rest := (layoutAt_append.mp held'.layout).2
    rw [Nat.zero_add, stop] at rest
    rw [spanOf_append, stop] at whole'
    rw [storedFiles_of_held held, storedFiles_of_held held', map_snd_filesOf, map_snd_filesOf,
      recordsOf_append, recordsOf_append, recordsOf_append, records, List.append_assoc] at files
    refine ⟨reading, rest.congr change.symm (.inr le_rfl), by omega, ?_⟩
    exact (List.cons.inj (List.append_cancel_left files)).2
  · rintro ⟨reading, rest, spanReading, same⟩
    have held' : Held { image with data } ((front ++ [⟨length, .file record⟩]) ++ reading) := by
      refine ⟨layoutAt_append.mpr ⟨layout, ?_⟩, ?_, held.small⟩
      · rw [Nat.zero_add, stop]
        exact rest.congr change (.inr le_rfl)
      · rw [spanOf_append, stop, spanReading]
        show _ = image.size
        omega
    refine ⟨false, data, _, result, held',
      storedFiles_eq_of_records held held' ?_, fun ok => by cases ok⟩
    rw [recordsOf_append, recordsOf_append, recordsOf_append, records, same, List.append_assoc]
    rfl

theorem Merged.single (merged : Merged entries) (roomy : Roomy 0 entries) :
    Compactable entries := by
  refine ⟨roomy, fun files first second after same all free free' => ?_⟩
  rw [same] at merged
  have file := (List.isChain_cons_cons.mp merged.right.chain).1 free
  exact absurd (free'.symm.trans file) (by decide)

/-- Every image with room is compacted, and of the merged ones no others are but
those in which the bytes that are left behind read as the rest. -/
theorem compacts_iff (held : Held image entries) :
    (Compactable entries → Compacts image) ∧
      (Merged entries → (Compacts image ↔ Compactable entries ∨ TailReads image entries)) := by
  refine ⟨compacts_of_compactable held, fun merged => ⟨fun compacts => ?_, ?_⟩⟩
  · by_cases roomy : Roomy 0 entries
    · exact .inl (merged.single roomy)
    · obtain ⟨before, length, record, after, rfl, roomy, nonempty, tight⟩ := exists_tight roomy
      rw [Nat.zero_add] at nonempty tight
      obtain ⟨reading, rest, spans, same⟩ :=
        (compacts_iff_of_tight held merged roomy nonempty tight).mp compacts
      exact .inr ⟨before, length, record, after, reading, rfl, roomy, nonempty,
        tight, rest, spans, same⟩
  · rintro (compactable | ⟨before, length, record, after, reading, rfl, roomy,
      nonempty, tight, rest, spans, same⟩)
    · exact compacts_of_compactable held compactable
    · exact (compacts_iff_of_tight held merged roomy nonempty tight).mpr
        ⟨reading, rest, spans, same⟩

end Compaction

/-- With 128 bytes in front of the file there is room. -/
theorem compacts_iff_twoSpaces :
    ∃ image record,
      Held image [⟨128, .empty⟩, ⟨64, .file record⟩, ⟨64, .empty⟩] ∧ Compacts image := by
  obtain ⟨image, record, -, held⟩ := @exists_twoSpaces (fun _ _ _ _ => True)
    fun _ _ _ _ _ => trivial
  have merged := merged_coalesce none [⟨128, .empty⟩, ⟨64, .file record⟩, ⟨64, .empty⟩]
  have roomy : Roomy 0 [⟨128, .empty⟩, ⟨64, .file record⟩, ⟨64, .empty⟩] :=
    ⟨.inr (show 40 + (64 - record.size) ≤ 128 by omega), trivial⟩
  exact ⟨image, record, held, (compacts_iff held).1 (merged.single roomy)⟩

theorem exists_crowded : ∃ image metadata, metadata.length = 40 ∧
    (Record.mk metadata (List.replicate 40 0)).type = 0x50 ∧
    Held image [⟨64, .empty⟩, ⟨128, .file ⟨metadata, List.replicate 40 0⟩⟩, ⟨64, .empty⟩] := by
  obtain ⟨image, created⟩ : ∃ image, cbfsImageCreate ⟨256, fun _ => 0⟩ 256 = some image := ⟨_, rfl⟩
  obtain ⟨held, -⟩ := held_of_create (by decide) (by decide) created
  have built : Built 0x50 (List.replicate 40 (0 : Byte)).length [0x62]
      (cbfsCreateFileHeader 0x50 40 [0x62]) :=
    .create (by decide) (by decide) (by decide)
  have offset : entryOffset (cbfsCreateFileHeader 0x50 40 [0x62]) 0 = 40 :=
    (header_createFileHeader 0x50 40 (by decide)).1.offset
  have chosen : choose (entryOffset (cbfsCreateFileHeader 0x50 40 [0x62]) 0)
      (List.replicate 40 (0 : Byte)).length 104 0
        (coalesce none [⟨256, .empty⟩]) = some ⟨[], 256, [], 104⟩ := by
    rw [offset]
    rfl
  obtain ⟨data, gap, -, gapLength, kept, -⟩ := cbfsAddEntry_some held
    built.spec ⟨by decide, by decide⟩ chosen (by rw [offset]; decide) (by decide)
  have shape (metadata : List Byte) :
      carve 0 256 104 40 ⟨metadata, List.replicate 40 0⟩ =
        [⟨64, .empty⟩, ⟨128, .file ⟨metadata, List.replicate 40 0⟩⟩, ⟨64, .empty⟩] := by
    simp [carve, fileStart, fileEnd, emptySpan]
  have whole : (List.replicate 40 (0 : Byte)).take
      ((List.replicate 40 (0 : Byte)).length % 2 ^ 32) = List.replicate 40 0 := by
    decide
  rw [offset] at gapLength
  rw [offset, whole, spanOf, shape, List.nil_append, List.append_nil] at kept
  refine ⟨_, _, ?_, ?_, kept⟩
  · rw [length_placedMetadata, offset, gapLength]
    rfl
  · have same := (@toAdded_placed _ _ _ (List.replicate 40 0) gap _ built.spec (by decide)).1
    exact congrArg AddedFile.type same

/-- The file is moved to the start, but its header and padding leave no room for
an empty entry, and the walk stops at bytes of its content. -/
theorem not_compacts_crowded : ¬ ∀ image entries, Held image entries → Compacts image := by
  intro claim
  obtain ⟨image, metadata, length, -, held⟩ := exists_crowded
  have layout := held.layout
  have merged := merged_coalesce none [⟨64, .empty⟩,
    ⟨128, .file ⟨metadata, List.replicate 40 0⟩⟩, ⟨64, .empty⟩]
  have size : Record.size ⟨metadata, List.replicate 40 0⟩ = 80 := by
    rw [Record.size, length]
    rfl
  obtain ⟨reading, readingAt, spans, -⟩ :=
    (@compacts_iff_of_tight image [⟨64, .empty⟩] [⟨64, .empty⟩]
      ⟨metadata, List.replicate 40 0⟩ 128 held merged trivial (by decide)
        (by rw [size]; decide)).mp (claim image _ held)
  have content := layout.2.1.slot.2.2.2
  rw [length] at content
  change load image.data 104 40 = List.replicate 40 0 at content
  have inside := take_drop_load image.data 104 24 8 8
  rw [show 24 + 8 + 8 = 40 by decide, content] at inside
  cases reading with
  | nil => cases spans
  | cons e reading =>
    have magic : load image.data 128 8 = cbfsFileMagic := readingAt.1.header.magic
    exact absurd (inside.trans magic) (by decide)


end Coreboot.Cbfs
