import Coreboot.CbfsCompacted
import Coreboot.CbfsCopy

/-!
# Copied images

A copy succeeds if there is room behind every file.
-/

namespace Coreboot.Cbfs

open ByteMemory

/-- A buffer holds a CBFS of some files, followed by an empty entry at most, which
spares the last word. -/
structure CopiedTo (copyEnd : Nat) (data : Memory) (records : List Record)
    (files tail : List Entry) : Prop where
  layout : LayoutAt data 0 (files ++ tail)
  all : ∀ e ∈ files, e.isFree = false
  records : recordsOf files = records
  inside : spanOf files ≤ copyEnd
  single : tail.length ≤ 1
  empty : ∀ e ∈ tail, e.slot = .empty ∧ entryEnd data (spanOf files) + 4 ≤ copyEnd
  stops : cbfsIsValidEntry ⟨copyEnd, data⟩ (spanOf (files ++ tail)) = false
  tiles : copyEnd < spanOf (files ++ tail) + 64

def sourceFiles (source : Image) : List Record :=
  ((storedFiles source).map Prod.snd).filter fun record =>
    record.type ≠ cbfsComponentCbfsheader

/-- One behind the other, the files end inside of the buffer. -/
def FitsIn (copyEnd : Nat) (records : List Record) : Prop :=
  ∀ front last, records = front ++ [last] → paddedSize front + last.size ≤ copyEnd

/-- The copy writes inside of the buffer, leaves a CBFS of the files there if it
succeeds, and reports files that do not fit. -/
def Copies (source : Image) (copyEnd : Nat) (data : Memory) : Prop :=
  ∃ code dst, cbfsCopyInstance source copyEnd data = some (code, dst) ∧
    (∀ w ∈ dst.writes, w.1 + w.2 ≤ copyEnd) ∧
    (code = 0 → ∃ files tail, CopiedTo copyEnd dst.data (sourceFiles source) files tail) ∧
    (¬ FitsIn copyEnd (sourceFiles source) → code = 1)

/-- Behind the files there is room for an empty entry with a length of 32 bits, or
the buffer has no entry there, unless it is an empty one that spares the last
word. -/
def LastClean (copyEnd : Nat) (data : Memory) (place : Nat) : Prop :=
  if place + 44 ≤ copyEnd then copyEnd < place + 44 + 2 ^ 32
  else cbfsIsValidEntry ⟨copyEnd, data⟩ place = false ∨
    ∃ span, EntryAt data place ⟨span, .empty⟩ ∧ entryEnd data place + 4 ≤ copyEnd

/-- The first file without room behind it ends inside of the buffer, and without
such a file the end of the buffer is clean. -/
structure Copyable (copyEnd : Nat) (data : Memory) (records : List Record) :
    Prop where
  inside : EndsInside copyEnd 0 records
  last : RoomBehind copyEnd 0 records → LastClean copyEnd data (paddedSize records)

section Copy

variable {source : Image} {entries : List Entry} {copyEnd : Nat}
  {data : Memory} {records : List Record}

theorem sourceFiles_of_held (held : Held source entries) :
    sourceFiles source = copiedRecords entries := by
  rw [sourceFiles, storedFiles_of_held held, map_snd_filesOf]
  rfl

theorem fitsIn_of_room (room : RoomBehind copyEnd 0 records) : FitsIn copyEnd records := by
  rintro front last rfl
  have total : paddedSize (front ++ [last]) = paddedSize front + last.padded := by
    rw [paddedSize, List.map_append, List.sum_append]
    rfl
  have fits := last.size_le_padded
  have most := (roomBehind_iff.mp room).resolve_left (by simp)
  omega

theorem LayoutAt.spanOf_files {address : Nat} {files : List Entry}
    (layout : LayoutAt data address files) (all : ∀ e ∈ files, e.isFree = false) :
    spanOf files = paddedSize (recordsOf files) := by
  induction files generalizing address with
  | nil => rfl
  | cons e files ih =>
    have file := all e (.head _)
    have later := ih layout.2 (List.forall_mem_cons.mp all).2
    rcases e.file_or_free with ⟨length, record, rfl⟩ | free
    · rw [spanOf, later]
      show length + _ = paddedSize (record :: recordsOf files)
      rw [paddedSize_cons, ← layout.1.span_eq]
    · exact absurd (free.symm.trans file) (by decide)

theorem LayoutAt.paddedSize_le {address : Nat} (layout : LayoutAt data address entries) :
    paddedSize (copiedRecords entries) ≤ spanOf entries := by
  induction entries generalizing address with
  | nil => exact le_rfl
  | cons e rest ih =>
    have later := ih layout.2
    rw [spanOf]
    rcases layout.1.copied_cases rest with ⟨none, -⟩ | ⟨length, record, rfl, -, kept⟩
    · rw [none]
      omega
    · have span : length = record.padded := layout.1.span_eq
      rw [kept, paddedSize_cons]
      show _ ≤ length + spanOf rest
      omega

theorem CopiedTo.tail_cases {files tail : List Entry}
    (copied : CopiedTo copyEnd data records files tail) :
    spanOf files = paddedSize records ∧
      (tail = [] ∧ copyEnd < paddedSize records + 64 ∧
          cbfsIsValidEntry ⟨copyEnd, data⟩ (paddedSize records) = false ∨
        ∃ span, tail = [⟨span, .empty⟩] ∧
          EntryAt data (paddedSize records) ⟨span, .empty⟩ ∧
          entryEnd data (paddedSize records) + 4 ≤ copyEnd ∧
          copyEnd < paddedSize records + span + 64) := by
  obtain ⟨layout, all, same, -, single, empty, stops, tiles⟩ := copied
  obtain ⟨front, behind⟩ := layoutAt_append.mp layout
  have spans := front.spanOf_files all
  rw [same] at spans
  rw [Nat.zero_add, spans] at behind
  rw [spanOf_append, spans] at stops tiles
  rw [spans] at empty
  refine ⟨spans, ?_⟩
  match tail, single, empty, behind, stops, tiles with
  | [], _, _, _, stops, tiles =>
    exact .inl ⟨rfl, tiles, stops⟩
  | [e], _, empty, behind, _, tiles =>
    obtain ⟨slot, spares⟩ := empty e (.head _)
    obtain ⟨span, kind⟩ := e
    change kind = .empty at slot
    subst slot
    exact .inr ⟨span, rfl, behind.1, spares, by
      rw [spanOf, spanOf] at tiles
      exact tiles⟩

variable {place : Nat}

theorem not_valid_behind (behind : copyEnd ≤ place) :
    cbfsIsValidEntry ⟨copyEnd, data⟩ place = false :=
  decide_eq_false fun valid => absurd valid.1 (not_lt.mpr behind)

theorem createLast_of_room {dst : Target} (room : place + 44 ≤ copyEnd)
    (less : copyEnd < place + 44 + 9223372036854775808) :
    createLast copyEnd place dst =
      ⟨cbfsCreateEmptyEntry dst.data place cbfsComponentNull (copyEnd - place - 44) [],
        dst.writes ++ [(place, 40), (place + 40, copyEnd - place - 44)]⟩ := by
  have size : Int.bmod (copyEnd - place - cbfsCalculateFileHeaderSize [] - 4)
      (2 ^ 64) = (copyEnd - place - 44 : Nat) := by
    have value : (copyEnd : Int) - place -
        cbfsCalculateFileHeaderSize [] - 4 = (copyEnd - place - 44 : Nat) := by
      show (copyEnd : Int) - place - (40 : Nat) - 4 = _
      omega
    rw [value]
    exact Int.bmod_eq_of_le (by omega) (by omega)
  rw [createLast, size]
  rw [if_neg (by omega), Int.toNat_natCast]
  rfl

theorem createLast_of_negative {dst : Target} (small : place < 2147483648)
    (word : copyEnd < 18446744073709551616)
    (none : copyEnd < place + 44 ∨ place + 44 + 9223372036854775808 ≤ copyEnd) :
    createLast copyEnd place dst = dst := by
  have negative : Int.bmod (copyEnd - place - cbfsCalculateFileHeaderSize [] - 4) (2 ^ 64) < 0 := by
    have value : (copyEnd : Int) - place - cbfsCalculateFileHeaderSize [] - 4 =
        copyEnd - place - 44 := by
      show (copyEnd : Int) - place - (40 : Nat) - 4 = _
      omega
    rw [value]
    rcases none with short | long
    · rw [Int.bmod_eq_of_le (by omega) (by omega)]
      omega
    · rw [← Int.sub_bmod_right, Int.bmod_eq_of_le (by omega) (by omega)]
      omega
  exact if_pos negative

end Copy

section Last

variable {source : Image} {entries : List Entry} {copyEnd place : Nat}
  {data : Memory} {records : List Record} {dst : Target} {files : List Entry}

theorem copiedTo_createLast (layout : LayoutAt dst.data 0 files)
    (all : ∀ e ∈ files, e.isFree = false) (same : recordsOf files = records)
    (spans : spanOf files = place) (room : place + 44 ≤ copyEnd)
    (narrow : copyEnd < place + 44 + 4294967296) :
    ∃ tail, CopiedTo copyEnd (createLast copyEnd place dst).data records files tail := by
  rw [createLast_of_room room (by omega)]
  obtain ⟨-, -, lenEq, offset, -, -⟩ := createEmptyEntry_fields dst.data place
    (copyEnd - place - 44)
  obtain ⟨span, fits, tight, aligned⟩ : ∃ span,
      40 + (copyEnd - place - 44) ≤ span ∧ span < 40 + (copyEnd - place - 44) + 64 ∧ 64 ∣ span :=
    ⟨(copyEnd - place - 4 + 63) / 64 * 64, by omega, by omega, Nat.dvd_mul_left 64 _⟩
  obtain ⟨emptyAt, change⟩ := @createEmptyEntry_spec dst.data place _ span fits
    tight aligned (by omega)
  generalize cbfsCreateEmptyEntry dst.data place cbfsComponentNull
    (copyEnd - place - 44) [] = data at *
  have last : entryEnd data place + 4 = copyEnd := by
    rw [entryEnd, offset, lenEq]
    omega
  have total : spanOf (files ++ [⟨span, .empty⟩]) = place + span := by
    rw [spanOf_append, spans]
    rfl
  refine ⟨[⟨span, .empty⟩], ?_, all, same, by omega, le_rfl, ?_, ?_, by omega⟩
  · rw [layoutAt_append, Nat.zero_add, spans]
    exact ⟨layout.congr change (.inl (by omega)), emptyAt, trivial⟩
  · rw [spans]
    exact List.forall_mem_singleton.mpr ⟨rfl, last.le⟩
  · rw [total]
    refine decide_eq_false fun valid => ?_
    have enough : 8 ≤ copyEnd - (place + span) := valid.2.1
    omega

theorem copiedTo_iff_of_short (layout : LayoutAt dst.data 0 files)
    (all : ∀ e ∈ files, e.isFree = false) (same : recordsOf files = records)
    (spans : spanOf files = place) (total : paddedSize records = place)
    (change : SameOutside data dst.data 0 place) (inside : place ≤ copyEnd)
    (short : copyEnd < place + 44) :
    (∃ files tail, CopiedTo copyEnd dst.data records files tail) ↔
      cbfsIsValidEntry ⟨copyEnd, data⟩ place = false ∨
        ∃ span, EntryAt data place ⟨span, .empty⟩ ∧ entryEnd data place + 4 ≤ copyEnd := by
  have validEq : cbfsIsValidEntry ⟨copyEnd, dst.data⟩ place =
      cbfsIsValidEntry ⟨copyEnd, data⟩ place := by
    rw [cbfsIsValidEntry, cbfsIsValidEntry, change.load (.inr le_rfl)]
  have endEq : entryEnd dst.data place = entryEnd data place := by
    rw [entryEnd, entryEnd, entryOffset, entryOffset, entryLen, entryLen,
      change.readBE (.inr (by omega)), change.readBE (.inr (by omega))]
  constructor
  · rintro ⟨files', tail, copied⟩
    obtain ⟨-, ⟨-, -, stops⟩ | ⟨span, -, emptyAt, spares, -⟩⟩ := copied.tail_cases
    · rw [total, validEq] at stops
      exact .inl stops
    · rw [total] at emptyAt spares
      rw [endEq] at spares
      exact .inr ⟨span, emptyAt.congr change.symm (.inr le_rfl), spares⟩
  · rintro (invalid | ⟨span, emptyAt, spares⟩)
    · refine ⟨files, [], ?_, all, same, by omega, Nat.zero_le 1,
        List.forall_mem_nil _, ?_, ?_⟩
      · rwa [List.append_nil]
      · rw [List.append_nil, spans, validEq, invalid]
      · rw [List.append_nil]
        omega
    · have positive := emptyAt.positive
      change 64 ≤ span at positive
      have behind : spanOf (files ++ [⟨span, .empty⟩]) = place + span := by
        rw [spanOf_append, spans]
        rfl
      refine ⟨files, [⟨span, .empty⟩], ?_, all, same, by omega, le_rfl, ?_, ?_, by omega⟩
      · rw [layoutAt_append, Nat.zero_add, spans]
        exact ⟨layout, emptyAt.congr change (.inr le_rfl), trivial⟩
      · rw [spans, endEq]
        exact List.forall_mem_singleton.mpr ⟨rfl, spares⟩
      · rw [behind]
        exact not_valid_behind (by omega)

theorem not_copiedTo_of_large (total : paddedSize records = place)
    (large : place + 44 + 4294967296 ≤ copyEnd) (files tail : List Entry) :
    ¬ CopiedTo copyEnd (createLast copyEnd place dst).data records files tail := by
  intro copied
  obtain ⟨-, ⟨-, reaches, -⟩ | ⟨span, -, emptyAt, -, reaches⟩⟩ := copied.tail_cases
  · omega
  · rw [total] at emptyAt reaches
    have tight := emptyAt.header.tight
    change span < _ at tight
    by_cases huge : place + 44 + 9223372036854775808 ≤ copyEnd
    · have offset := readBE_lt 4 (createLast copyEnd place dst).data (place + 20)
      have len := readBE_lt 4 (createLast copyEnd place dst).data (place + 8)
      rw [entryOffset, entryLen] at tight
      omega
    · obtain ⟨-, -, len, offset, -, -⟩ := createEmptyEntry_fields dst.data
        place (copyEnd - place - 44)
      rw [createLast_of_room (by omega) (by omega)] at tight
      dsimp only at tight
      rw [offset, len] at tight
      omega

theorem copiedTo_last_iff (layout : LayoutAt dst.data 0 files)
    (all : ∀ e ∈ files, e.isFree = false) (same : recordsOf files = records)
    (spans : spanOf files = place) (total : paddedSize records = place)
    (change : SameOutside data dst.data 0 place) (inside : place ≤ copyEnd)
    (small : place < 2147483648) (word : copyEnd < 18446744073709551616) :
    (∃ files tail, CopiedTo copyEnd (createLast copyEnd place dst).data records
        files tail) ↔ LastClean copyEnd data place := by
  rw [LastClean]
  split_ifs with room
  · constructor
    · rintro ⟨files', tail, copied⟩
      exact not_le.mp fun large => not_copiedTo_of_large total large files' tail copied
    · intro narrow
      obtain ⟨tail, copied⟩ := copiedTo_createLast layout all same spans room narrow
      exact ⟨files, tail, copied⟩
  · rw [createLast_of_negative small word (.inl (not_le.mp room))]
    exact copiedTo_iff_of_short layout all same spans total change inside (not_le.mp room)

theorem createLast_inside (small : place < 2147483648) (clean : LastClean copyEnd data place)
    (inside : ∀ w ∈ dst.writes, w.1 + w.2 ≤ copyEnd) :
    ∀ w ∈ (createLast copyEnd place dst).writes, w.1 + w.2 ≤ copyEnd := by
  rw [LastClean] at clean
  split_ifs at clean with room
  · rw [createLast_of_room room (by omega)]
    intro w member
    rcases List.mem_append.mp member with before | new
    · exact inside w before
    · rcases List.mem_cons.mp new with rfl | last
      · show place + 40 ≤ copyEnd
        omega
      · rw [List.mem_singleton.mp last]
        show place + 40 + (copyEnd - place - 44) ≤ copyEnd
        omega
  · rw [createLast_of_negative small (by omega) (.inl (not_le.mp room))]
    exact inside

end Last

/-- An image is copied as intended exactly if the first file without room behind
it ends inside of the buffer, and the end of the buffer is clean. -/
theorem copies_iff {source : Image} {entries : List Entry} {copyEnd : Nat}
    (held : Held source entries) (word : copyEnd < 2 ^ 64) (data : Memory) :
    Copies source copyEnd data ↔ Copyable copyEnd data (copiedRecords entries) := by
  have whole := held.whole
  have small := held.small
  have padded := held.layout.paddedSize_le
  by_cases room : RoomBehind copyEnd 0 (copiedRecords entries)
  · obtain ⟨copied, writes, files, run, layout, all, same, spans, change,
      inside⟩ := @copyLoop_of_room source copyEnd 0 0 ⟨data, []⟩
        entries source.fuel held.layout (by omega) small (Nat.dvd_zero 64) held.length_lt room
    rw [Nat.zero_add] at run change inside
    rw [List.nil_append] at run
    have fits : paddedSize (copiedRecords entries) ≤ copyEnd := by
      rcases roomBehind_iff.mp room with none | less
      · rw [none]
        exact Nat.zero_le _
      · omega
    have result : cbfsCopyInstance source copyEnd data = some (0,
        createLast copyEnd (paddedSize (copiedRecords entries)) ⟨copied, writes⟩) := by
      rw [cbfsCopyInstance, cbfsFindFirstEntry, run, Option.map_some]
    have lastIff := @copiedTo_last_iff copyEnd
      (paddedSize (copiedRecords entries)) data (copiedRecords entries)
      ⟨copied, writes⟩ files layout all same spans rfl change fits (by omega)
      word
    constructor
    · rintro ⟨code, dst, result', -, success, -⟩
      obtain ⟨rfl, rfl⟩ := Prod.mk.inj (Option.some.inj (result.symm.trans result'))
      rw [sourceFiles_of_held held] at success
      exact ⟨room.endsInside, fun _ => lastIff.mp (success rfl)⟩
    · intro copyable
      have clean := copyable.last room
      refine ⟨0, _, result, createLast_inside (by omega) clean
        fun w member => (inside w member).trans fits, fun _ => ?_,
        fun tooLarge => ?_⟩
      · rw [sourceFiles_of_held held]
        exact lastIff.mpr clean
      · rw [sourceFiles_of_held held] at tooLarge
        exact absurd (fitsIn_of_room room) tooLarge
  · obtain ⟨copied, writes, run, inside⟩ :=
      @copyLoop_of_full source copyEnd 0 0 ⟨data, []⟩ entries source.fuel
        held.layout (by omega) small (Nat.dvd_zero 64) held.length_lt room
    rw [List.nil_append] at run
    have result : cbfsCopyInstance source copyEnd data = some (1, ⟨copied, writes⟩) := by
      rw [cbfsCopyInstance, cbfsFindFirstEntry, run, Option.map_some]
    constructor
    · rintro ⟨code, dst, result', written, -, -⟩
      obtain ⟨-, rfl⟩ := Prod.mk.inj (Option.some.inj (result.symm.trans result'))
      exact ⟨inside.mp written, fun more => absurd more room⟩
    · intro copyable
      exact ⟨1, _, result, inside.mpr copyable.inside,
        fun code => absurd code (by decide), fun _ => rfl⟩

/-- A buffer of 256 bytes for a file of 80 bytes. -/
theorem copies_iff_crowded : ∃ source entries, Held source entries ∧
    (Copies source 256 (fun _ => 0) ↔ Copyable 256 (fun _ => 0) (copiedRecords entries)) := by
  obtain ⟨source, metadata, -, -, held⟩ := exists_crowded
  exact ⟨source, _, held, copies_iff held (by decide) _⟩

/-- A file of 80 bytes is copied to a buffer of 64 bytes. -/
theorem not_copies_crowded :
    ¬ ∀ source entries copyEnd data, Held source entries → copyEnd < 2 ^ 64 →
      Copies source copyEnd data := by
  intro claim
  obtain ⟨source, metadata, length, type, held⟩ := exists_crowded
  obtain ⟨record, recordEq⟩ : ∃ record : Record,
      (⟨metadata, List.replicate 40 0⟩ : Record) = record := ⟨_, rfl⟩
  have size : record.size = 80 := by
    rw [← recordEq, Record.size, length]
    rfl
  have padded : record.padded = 128 := by
    rw [Record.padded, size]
  rw [recordEq] at type held
  have kept : copiedRecords [⟨64, .empty⟩, ⟨128, .file record⟩, ⟨64, .empty⟩] = [record] :=
    List.filter_cons_of_pos (by rw [type]; decide)
  have full : ¬ RoomBehind 64 0 (copiedRecords
      [⟨64, .empty⟩, ⟨128, .file record⟩, ⟨64, .empty⟩]) := by
    rw [kept, RoomBehind, padded]
    omega
  obtain ⟨copied, writes, run, ends⟩ :=
    @copyLoop_of_full source 64 0 0 ⟨fun _ => 0, []⟩ _ source.fuel held.layout
      ((Nat.zero_add _).trans held.whole) held.small (Nat.dvd_zero 64)
      held.length_lt full
  rw [kept, EndsInside, if_neg (by rw [padded]; decide), size] at ends
  obtain ⟨code, dst, result, inside, -, -⟩ := claim source _ 64 (fun _ => 0) held (by decide)
  rw [cbfsCopyInstance, cbfsFindFirstEntry, run, Option.map_some] at result
  obtain ⟨-, rfl⟩ := Prod.mk.inj (Option.some.inj result)
  exact absurd (ends.mp inside) (by decide)

end Coreboot.Cbfs
