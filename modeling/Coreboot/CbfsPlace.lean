import Coreboot.CbfsMerge

/-!
# Placing a file

A file is carved out of an empty entry: what is left in front of its header and behind its
content stays empty.
-/

namespace Coreboot.Cbfs

open ByteMemory

def emptySpan (span : Nat) : List Entry := if span = 0 then [] else [⟨span, .empty⟩]

def fileStart (contentOffset headerSize : Nat) : Nat := (contentOffset - headerSize) / 64 * 64

def fileEnd (contentOffset length : Nat) : Nat := (contentOffset + length + 63) / 64 * 64

def carve (address span contentOffset headerSize : Nat) (record : Record) : List Entry :=
  let start := fileStart contentOffset headerSize
  let finish := fileEnd contentOffset record.content.length
  emptySpan (start - address) ++ ⟨finish - start, .file record⟩ ::
    emptySpan (address + span - finish)

/-- The header of a file and the bytes between it and the content. -/
def placedMetadata (header : Memory) (gap : List Byte) : List Byte :=
  let headerSize := entryOffset header 0
  let moved := if gap.length ≠ 0 then
    setOffset header 0 (headerSize + gap.length) else header
  load moved 0 headerSize ++ gap

@[simp]
theorem spanOf_emptySpan (span : Nat) : spanOf (emptySpan span) = span := by
  rw [emptySpan]
  split_ifs with none
  · exact none.symm
  · exact Nat.add_zero span

theorem length_placedMetadata (header : Memory) (gap : List Byte) :
    (placedMetadata header gap).length = entryOffset header 0 + gap.length := by
  rw [placedMetadata, List.length_append, length_load]

section Parts

variable {data header : Memory} {address start finish : Nat}

theorem minEntrySize_eq : minEntrySize = 40 := rfl

theorem createBefore_spec (addressAligned : 64 ∣ address) (startAligned : 64 ∣ start)
    (le : address ≤ start) (small : start < 2147483648) :
    ∃ data', createBefore data address start = (data', start) ∧
      LayoutAt data' address (emptySpan (start - address)) ∧
      SameOutside data data' address start := by
  have difference := sub32_of_le le (by omega)
  have spanAligned := Nat.dvd_sub startAligned addressAligned
  by_cases room : start - address = 0
  · have same : address = start := by omega
    have skip : createBefore data address start = (data, address) := by
      rw [createBefore, difference, room]
      exact if_neg (by decide)
    rw [skip, room]
    exact ⟨data, by rw [same], trivial, SameOutside.refl _ _ _⟩
  · have positive : 64 ≤ start - address := by omega
    have length : sub32 (start - address) 40 = start - address - 40 :=
      sub32_of_le (by omega) (by omega)
    obtain ⟨entryAt, change⟩ := @createEmptyEntry_spec data address
      (start - address - 40) (start - address) (by omega) (by omega) spanAligned
      (by omega)
    have next := entryAt.header.findNext addressAligned
      (show address + (start - address) < _ by omega)
    refine ⟨_, ?_, ?_, change.mono le_rfl (by omega)⟩
    · rw [createBefore, difference, minEntrySize_eq,
        if_pos (show start - address > 40 by omega), length]
      dsimp only
      rw [next, Nat.add_sub_cancel' le]
    · rw [emptySpan, if_neg room]
      exact ⟨entryAt, trivial⟩

theorem createAfter_spec {size : Nat} (addressAligned : 64 ∣ address) (finishAligned : 64 ∣ finish)
    (sizeAligned : 64 ∣ size) (le : address ≤ finish) (inside : finish ≤ size)
    (small : size < 2147483648) :
    ∃ data', createAfter size data address finish = some data' ∧
      LayoutAt data' address (emptySpan (finish - address)) ∧
      SameOutside data data' address (min finish (size - 4)) := by
  have spanAligned := Nat.dvd_sub finishAligned addressAligned
  by_cases room : finish - address = 0
  · have skip : createAfter size data address finish = some data := if_pos (by omega)
    rw [skip, room]
    exact ⟨data, rfl, trivial, SameOutside.refl _ _ _⟩
  · have positive : 64 ≤ finish - address := by omega
    have difference := sub32_of_le le (show finish < 4294967296 by omega)
    have length : sub32 (finish - address) 40 = finish - address - 40 :=
      sub32_of_le (by omega) (by omega)
    have unfolded : createAfter size data address finish =
        some (cbfsCreateEmptyEntry data address cbfsComponentNull
          (if finish > size - 4 then finish - address - 40 - 4 else finish - address - 40) []) := by
      have total : address + 40 + (finish - address - 40) = finish := by omega
      rw [createAfter, if_neg (by omega), if_neg (by omega), difference,
        minEntrySize_eq, if_neg (show ¬ finish - address < 40 by omega), length]
      dsimp only
      rw [total, sub32_of_le (by omega) (by omega)]
    rw [unfolded, emptySpan, if_neg room]
    split_ifs with last
    · obtain ⟨entryAt, change⟩ := @createEmptyEntry_spec data address
        (finish - address - 40 - 4) (finish - address) (by omega) (by omega)
        spanAligned (by omega)
      exact ⟨_, rfl, ⟨entryAt, trivial⟩, change.mono le_rfl (by omega)⟩
    · obtain ⟨entryAt, change⟩ := @createEmptyEntry_spec data address
        (finish - address - 40) (finish - address) (by omega) (by omega)
        spanAligned (by omega)
      exact ⟨_, rfl, ⟨entryAt, trivial⟩, change.mono le_rfl (by omega)⟩

theorem moveHeader_spec {type len headerSize gap : Nat} {name : List Byte}
    (created : Header header type len headerSize name) (entry : Nat)
    (large : 24 < headerSize) (fits : headerSize + gap < 4294967296) :
    ∃ moved, (if gap ≠ 0 then
        setOffset (store data entry (load header 0 headerSize)) entry
          (add32 (entryOffset (store data entry (load header 0 headerSize)) entry) gap)
        else store data entry (load header 0 headerSize)) = moved ∧
      load moved entry 8 = cbfsFileMagic ∧
      entryType moved entry = type % 2 ^ 32 ∧
      entryLen moved entry = len % 2 ^ 32 ∧
      entryOffset moved entry = headerSize + gap ∧
      load moved entry headerSize = load (if gap ≠ 0 then
        setOffset header 0 (headerSize + gap) else header) 0 headerSize ∧
      SameOutside data moved entry (entry + headerSize) := by
  obtain ⟨magic, typeEq, lenEq, offset⟩ :=
    @copied_header data _ _ _ _ _ created entry headerSize (by omega)
  have copy : SameOutside data (store data entry (load header 0 headerSize)) entry
      (entry + headerSize) :=
    sameOutside_store le_rfl (by rw [length_load])
  have bytes : ∀ i < headerSize,
      store data entry (load header 0 headerSize) (entry + i) = header (0 + i) := by
    intro i below
    rw [store_load_apply below, Nat.zero_add]
  generalize store data entry (load header 0 headerSize) = copied at *
  by_cases none : gap = 0
  · subst none
    refine ⟨copied, if_neg (not_not.mpr rfl), magic, typeEq, lenEq, offset, ?_, copy⟩
    rw [if_neg (not_not.mpr rfl)]
    exact load_translate bytes
  · have change : SameOutside copied (setOffset copied entry
        (headerSize + gap)) (entry + 20) (entry + 24) :=
      sameOutside_writeBE le_rfl le_rfl
    refine ⟨setOffset copied entry (headerSize + gap), ?_, ?_, ?_, ?_, ?_, ?_, ?_⟩
    · rw [if_pos none, offset, add32_of_lt fits]
    · rw [change.load (by omega)]
      exact magic
    · rw [entryType, change.readBE (by omega)]
      exact typeEq
    · rw [entryLen, change.readBE (by omega)]
      exact lenEq
    · refine (readBE_writeBE_self 4 _ _ _).trans ?_
      exact Nat.mod_eq_of_lt fits
    · rw [if_pos none]
      exact load_translate (store_translate bytes 20 _)
    · exact copy.trans (change.mono (by omega) (by omega))

theorem putFile_spec {type len headerSize contentOffset entry : Nat} {name content : List Byte}
    (created : Header header type len headerSize name) (large : 24 < headerSize)
    (le : entry + headerSize ≤ contentOffset) (small : contentOffset < 2147483648)
    (enough : len % 2 ^ 32 ≤ content.length) :
    ∃ data', putFile data entry content contentOffset header = data' ∧
      load data' entry 8 = cbfsFileMagic ∧
      entryType data' entry = type % 2 ^ 32 ∧
      entryLen data' entry = len % 2 ^ 32 ∧
      entryOffset data' entry = contentOffset - entry ∧
      load data' entry (contentOffset - entry) = placedMetadata header
        (load data (entry + headerSize) (contentOffset - entry - headerSize)) ∧
      load data' contentOffset (len % 2 ^ 32) = content.take (len % 2 ^ 32) ∧
      SameOutside data data' entry (contentOffset + len % 2 ^ 32) := by
  obtain ⟨gap, gapEq⟩ : ∃ gap, gap = contentOffset - entry - headerSize := ⟨_, rfl⟩
  obtain ⟨moved, movedEq, magic, typeEq, lenEq, offset, bytes, change⟩ :=
    @moveHeader_spec data header type len headerSize gap name created entry large (by omega)
  have offset' : entryOffset moved entry = contentOffset - entry := by
    rw [offset]
    omega
  have distance : sub32 contentOffset entry = contentOffset - entry :=
    sub32_of_le (by omega) (by omega)
  have difference : sub32 (sub32 contentOffset entry) headerSize = gap := by
    rw [distance, sub32_of_le (by omega) (by omega), gapEq]
  have written : putFile data entry content contentOffset header =
      store moved contentOffset (content.take (len % 2 ^ 32)) := by
    rw [putFile, created.offset, difference, movedEq, offset', lenEq,
      Nat.add_sub_cancel' (by omega)]
  have length : (content.take (len % 2 ^ 32)).length = len % 2 ^ 32 := by
    rw [List.length_take, Nat.min_eq_left enough]
  have stored : SameOutside moved (store moved contentOffset
      (content.take (len % 2 ^ 32))) contentOffset (contentOffset + len % 2 ^ 32) :=
    sameOutside_store le_rfl (by rw [length])
  have read := load_store_self moved contentOffset (content.take (len % 2 ^ 32))
  rw [length] at read
  refine ⟨_, written, ?_, ?_, ?_, ?_, ?_, read, ?_⟩
  · rw [stored.load (by omega)]
    exact magic
  · rw [entryType, stored.readBE (by omega)]
    exact typeEq
  · rw [entryLen, stored.readBE (by omega)]
    exact lenEq
  · rw [entryOffset, stored.readBE (by omega)]
    exact offset'
  · have split : contentOffset - entry = headerSize + gap := by omega
    rw [stored.load (by omega), split, load_append, bytes,
      change.load (by omega), Nat.add_sub_cancel_left, placedMetadata,
      created.offset, length_load]
  · exact (change.mono le_rfl (by omega)).trans (stored.mono (by omega) le_rfl)

end Parts

section Placement

variable {image : Image} {header : Memory}
  {address span contentOffset type len headerSize : Nat}
  {name content : List Byte}

theorem fileStart_bounds (addressAligned : 64 ∣ address)
    (le : address + headerSize ≤ contentOffset) :
    address ≤ fileStart contentOffset headerSize ∧
      fileStart contentOffset headerSize + headerSize ≤ contentOffset ∧
      contentOffset < fileStart contentOffset headerSize + headerSize + 64 ∧
      64 ∣ fileStart contentOffset headerSize := by
  rw [fileStart]
  omega

theorem fileEnd_bounds (contentOffset length : Nat) :
    contentOffset + length ≤ fileEnd contentOffset length ∧
      fileEnd contentOffset length < contentOffset + length + 64 ∧
      64 ∣ fileEnd contentOffset length := by
  rw [fileEnd]
  omega

theorem cbfsAddEntryAt_spec (created : Header header type len headerSize name)
    (live : type % 2 ^ 32 ≠ cbfsComponentDeleted ∧ type % 2 ^ 32 ≠ cbfsComponentNull)
    (large : 24 < headerSize) (enough : len % 2 ^ 32 ≤ content.length)
    (here : EntryAt image.data address ⟨span, .empty⟩) (addressAligned : 64 ∣ address)
    (sizeAligned : 64 ∣ image.size) (inside : address + span ≤ image.size)
    (small : image.size < 2147483648) (le : address + headerSize ≤ contentOffset)
    (room : contentOffset + len % 2 ^ 32 ≤ address + span) :
    ∃ data record,
      cbfsAddEntryAt image address content contentOffset header = some { image with data } ∧
      record = ⟨placedMetadata header (load image.data
          (fileStart contentOffset headerSize + headerSize)
          (contentOffset - fileStart contentOffset headerSize - headerSize)),
        content.take (len % 2 ^ 32)⟩ ∧
      LayoutAt data address (carve address span contentOffset headerSize record) ∧
      SameOutside image.data data address (address + span) ∧
      (contentOffset + len % 2 ^ 32 ≤ image.size - 4 →
        SameOutside image.data data address (image.size - 4)) := by
  obtain ⟨after, fits, near, startAligned⟩ := fileStart_bounds addressAligned le
  obtain ⟨covers, close, endAligned⟩ := fileEnd_bounds contentOffset (len % 2 ^ 32)
  have spanAligned : 64 ∣ span := here.header.aligned
  have nextAligned := Nat.dvd_add addressAligned spanAligned
  have next := here.header.findNext addressAligned (show address + span < _ by omega)
  have length : (content.take (len % 2 ^ 32)).length = len % 2 ^ 32 := by
    rw [List.length_take, Nat.min_eq_left enough]
  have startEq : sub32 (sub32 contentOffset headerSize)
      (sub32 contentOffset headerSize % cbfsEntryAlignment) =
        fileStart contentOffset headerSize := by
    have difference : sub32 contentOffset headerSize = contentOffset - headerSize :=
      sub32_of_le (by omega) (by omega)
    rw [difference]
    show sub32 _ ((contentOffset - headerSize) % 64) = _
    rw [sub32_of_le (Nat.mod_le _ _) (by omega), fileStart]
    omega
  have endInside : fileEnd contentOffset (len % 2 ^ 32) ≤ address + span := by
    omega
  obtain ⟨start, startDef⟩ : ∃ start, fileStart contentOffset headerSize = start := ⟨_, rfl⟩
  rw [startDef] at after fits near startAligned startEq
  obtain ⟨before, beforeEq, beforeAt, beforeChange⟩ :=
    @createBefore_spec image.data _ _ addressAligned startAligned after (by omega)
  obtain ⟨filed, filedEq, magic, typeEq, lenEq, offset, metadata, stored,
    fileChange⟩ := @putFile_spec before header _ _ _ _ start _ _ created large
      fits (by omega) enough
  have gap : load before (start + headerSize)
      (contentOffset - start - headerSize) = load image.data
        (start + headerSize) (contentOffset - start - headerSize) :=
    beforeChange.load (by omega)
  have staleLength := length_load image.data (start + headerSize)
    (contentOffset - start - headerSize)
  rw [gap] at metadata
  obtain ⟨stale, staleDef⟩ : ∃ stale, load image.data (start + headerSize)
      (contentOffset - start - headerSize) = stale := ⟨_, rfl⟩
  rw [staleDef] at metadata staleLength
  have metadataLength : (placedMetadata header stale).length = contentOffset - start := by
    rw [length_placedMetadata, created.offset, staleLength]
    omega
  have fileAt : EntryAt filed start
      ⟨fileEnd contentOffset (len % 2 ^ 32) - start,
        .file ⟨placedMetadata header stale, content.take (len % 2 ^ 32)⟩⟩ := by
    refine ⟨⟨magic, by omega, ?_, ?_, Nat.dvd_sub endAligned startAligned⟩,
      by rwa [typeEq], ⟨offset.trans metadataLength.symm, lenEq.trans length.symm⟩, ?_, ?_⟩
    · rw [offset, lenEq]
      show _ ≤ _ - start
      omega
    · rw [offset, lenEq]
      show _ - start < _
      omega
    · rw [metadataLength]
      exact metadata
    · rw [metadataLength, Nat.add_sub_cancel' (by omega), length]
      exact stored
  have fileNext : cbfsFindNextEntry filed start = fileEnd contentOffset (len % 2 ^ 32) := by
    rw [fileAt.header.findNext startAligned (show start + (_ - start) < _ by omega)]
    show start + (_ - start) = _
    omega
  obtain ⟨data, afterEq, afterAt, afterChange⟩ := @createAfter_spec filed
    (fileEnd contentOffset (len % 2 ^ 32)) (address + span) image.size endAligned
    nextAligned sizeAligned endInside inside small
  rw [startDef, staleDef]
  refine ⟨data, _, ?_, rfl, ?_, ?_, fun spared => ?_⟩
  · rw [cbfsAddEntryAt, created.offset, startEq, if_neg (by omega), beforeEq]
    dsimp only
    rw [filedEq, fileNext, next, afterEq]
    rfl
  · rw [carve, startDef, layoutAt_append, spanOf_emptySpan, length]
    refine ⟨(beforeAt.congr fileChange (Or.inl ?_)).congr afterChange (Or.inl ?_), ?_⟩
    · rw [spanOf_emptySpan]
      omega
    · rw [spanOf_emptySpan]
      omega
    · rw [Nat.add_sub_cancel' after]
      refine ⟨fileAt.congr afterChange (Or.inl ?_), ?_⟩
      · show start + (_ - start) ≤ _
        omega
      · show LayoutAt data (start + (_ - start)) _
        rw [Nat.add_sub_cancel' (by omega)]
        exact afterAt
  · exact ((beforeChange.mono le_rfl (by omega)).trans
      (fileChange.mono after (by omega))).trans (afterChange.mono (by omega) (min_le_left _ _))
  · exact ((beforeChange.mono le_rfl (by omega)).trans
      (fileChange.mono after (by omega))).trans (afterChange.mono (by omega) (min_le_right _ _))

end Placement

end Coreboot.Cbfs
