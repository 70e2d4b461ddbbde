import Coreboot.BootmemMap

/-!
# Buffers from the usable memory

A buffer comes from the end of the last entry of usable memory that has enough bytes below 4
GiB, and its pages become unusable.
-/

namespace Coreboot.Selfload

open Memrange IntervalMap

/-- A call of `bootmem_allocate_buffer`: the map before it, its size, the address
that it returns, which is zero for `NULL`, and the map after it. -/
structure BufferCall where
  before : Memranges
  size : Nat
  start : Nat
  after : Memranges

def alignedSize (size : Nat) : Nat := (size + 4095) / 4096 * 4096

def allocateBuffers (platform : Platform) : List Nat → Memranges → Nat → Option (List BufferCall)
  | [], _, _ => some []
  | size :: rest, bootmem, heap =>
    (bootmemAllocateBuffer platform bootmem size heap).bind
      fun (start, after, heap) =>
        (allocateBuffers platform rest after heap).map
          fun calls => ⟨bootmem, size, start, after⟩ :: calls

/-- An entry of usable memory has this many bytes below 4 GiB. -/
def Offers (bytes : Nat) (entry : RangeEntry) : Bool :=
  entry.tag = lbMemRam ∧ entry.rangeBegin.toNat + bytes ≤ min (entry.rangeEnd.toNat + 1) (2 ^ 32)

namespace BufferCall

variable (call : BufferCall)

def HasPage (page : Nat) : Prop :=
  call.start ≤ page * 4096 ∧ page * 4096 < call.start + alignedSize call.size

/-- A buffer is aligned, below 4 GiB and was usable memory; exactly its pages
become unusable.  There is none only if no entry has enough bytes, and then the
map stays as it was. -/
structure Exact : Prop where
  aligned : call.start ≠ 0 → 4096 ∣ call.start
  low : call.start ≠ 0 → call.start + alignedSize call.size ≤ 2 ^ 32
  usable : call.start ≠ 0 → ∀ page, call.HasPage page →
    pageTag call.before.entries page = some lbMemRam
  taken : call.start ≠ 0 → ∀ page, call.HasPage page →
    pageTag call.after.entries page = some lbMemUnusable
  kept : call.start ≠ 0 → ∀ page, ¬ call.HasPage page →
    pageTag call.after.entries page = pageTag call.before.entries page
  missing : call.start = 0 → ∀ entry ∈ call.before.entries,
    Offers (alignedSize call.size) entry = false
  unchanged : call.start = 0 → call.after = call.before

/-- An entry of usable memory from below 4 GiB reaches the last address, and its
wrapped size is large enough. -/
def Overhangs (bytes : Nat) (entry : RangeEntry) : Prop :=
  entry.tag = lbMemRam ∧ entry.rangeEnd.toNat = 2 ^ 64 - 1 ∧
    if entry.rangeBegin.toNat = 0 then bytes ≤ 2 ^ 32
    else entry.rangeBegin.toNat < 2 ^ 32 ∧ bytes ≤ 2 ^ 64 - entry.rangeBegin.toNat

/-- No entry overhangs, and the last one that has enough bytes has more, or does
not begin at address zero. -/
structure Sane : Prop where
  below : ∀ entry ∈ call.before.entries, ¬ Overhangs (alignedSize call.size) entry
  nonzero : ∀ region,
    (call.before.entries.filter (Offers (alignedSize call.size))).getLast? = some region →
    min (region.rangeEnd.toNat + 1) (2 ^ 32) ≠ alignedSize call.size

end BufferCall

structure BuffersExact (calls : List BufferCall) : Prop where
  exact : ∀ call ∈ calls, call.Exact
  disjoint : calls.Pairwise fun first second =>
    first.start ≠ 0 → second.start ≠ 0 → ∀ page, first.HasPage page → ¬ second.HasPage page

variable {platform : Platform} {bootmem : Memranges} {entry region : RangeEntry} {bytes size : Nat}

theorem toNat_maxAddr : maxAddr.toNat = 2 ^ 32 := rfl

theorem toNat_end_of_lt (small : entry.rangeEnd.toNat < 2 ^ 64 - 1) :
    (rangeEntryEnd entry).toNat = entry.rangeEnd.toNat + 1 := by
  rw [rangeEntryEnd, BitVec.toNat_add]
  exact Nat.mod_eq_of_lt (by change _ + 1 < _; omega)

theorem rangeEntryEnd_of_last (last : entry.rangeEnd.toNat = 2 ^ 64 - 1) :
    rangeEntryEnd entry = 0 := by
  apply BitVec.eq_of_toNat_eq
  rw [rangeEntryEnd, BitVec.toNat_add, last]
  rfl

theorem toNat_clampedEnd (small : entry.rangeEnd.toNat < 2 ^ 64 - 1) :
    (clampedEnd entry).toNat = min (entry.rangeEnd.toNat + 1) (2 ^ 32) := by
  have last := toNat_end_of_lt small
  rw [clampedEnd]
  split_ifs with large
  · rw [gt_iff_lt, BitVec.lt_def, last, toNat_maxAddr] at large
    rw [toNat_maxAddr]
    omega
  · rw [gt_iff_lt, BitVec.lt_def, last, toNat_maxAddr] at large
    rw [last]
    omega

theorem clampedEnd_of_last (last : entry.rangeEnd.toNat = 2 ^ 64 - 1) : clampedEnd entry = 0 := by
  rw [clampedEnd, rangeEntryEnd_of_last last]
  rfl

theorem rangeFits_of_lt (filled : entry.rangeBegin.toNat ≤ entry.rangeEnd.toNat)
    (small : entry.rangeEnd.toNat < 2 ^ 64 - 1) (positive : 0 < bytes) (fits : bytes < 2 ^ 64) :
    rangeFits (BitVec.ofNat 64 bytes) entry = Offers bytes entry := by
  have number : (BitVec.ofNat 64 bytes).toNat = bytes := by
    rw [BitVec.toNat_ofNat, Nat.mod_eq_of_lt fits]
  have last := toNat_end_of_lt small
  have clamped := toNat_clampedEnd small
  rw [rangeFits, Offers]
  refine decide_eq_decide.mpr ?_
  simp only [BitVec.lt_def, ge_iff_le, BitVec.le_def, BitVec.toNat_sub, number,
    last, clamped, toNat_maxAddr, rangeEntryBase]
  constructor
  · rintro ⟨long, tag, low, room⟩
    refine ⟨tag, ?_⟩
    omega
  · rintro ⟨tag, room⟩
    refine ⟨?_, tag, ?_, ?_⟩ <;> omega

theorem rangeFits_of_last (last : entry.rangeEnd.toNat = 2 ^ 64 - 1)
    (positive : 0 < bytes) (fits : bytes < 2 ^ 64) :
    rangeFits (BitVec.ofNat 64 bytes) entry = true ↔
      entry.tag = lbMemRam ∧ entry.rangeBegin.toNat ≠ 0 ∧
        entry.rangeBegin.toNat < 2 ^ 32 ∧
        bytes ≤ 2 ^ 64 - entry.rangeBegin.toNat := by
  have number : (BitVec.ofNat 64 bytes).toNat = bytes := by
    rw [BitVec.toNat_ofNat, Nat.mod_eq_of_lt fits]
  have bound := entry.rangeBegin.isLt
  have zero : (0 : Address).toNat = 0 := rfl
  rw [rangeFits, decide_eq_true_eq]
  simp only [rangeEntryEnd_of_last last, clampedEnd_of_last last, BitVec.lt_def, ge_iff_le,
    BitVec.le_def, BitVec.toNat_sub, number, zero, toNat_maxAddr, rangeEntryBase]
  constructor
  · rintro ⟨long, tag, low, -⟩
    refine ⟨tag, ?_, ?_, ?_⟩ <;> omega
  · rintro ⟨tag, nonzero, low, room⟩
    refine ⟨?_, tag, ?_, ?_⟩ <;> omega

theorem rangeFits_eq_offers (filled : entry.rangeBegin.toNat ≤ entry.rangeEnd.toNat)
    (within : ¬ BufferCall.Overhangs bytes entry) (positive : 0 < bytes) (fits : bytes < 2 ^ 64) :
    rangeFits (BitVec.ofNat 64 bytes) entry = Offers bytes entry := by
  have bound := entry.rangeEnd.isLt
  rcases Nat.lt_or_ge entry.rangeEnd.toNat (2 ^ 64 - 1) with small | large
  · exact rangeFits_of_lt filled small positive fits
  · have last : entry.rangeEnd.toNat = 2 ^ 64 - 1 := by omega
    have notTaken : rangeFits (BitVec.ofNat 64 bytes) entry = false := by
      rw [← Bool.not_eq_true, rangeFits_of_last last positive fits]
      rintro ⟨tag, nonzero, low, room⟩
      refine within ⟨tag, last, ?_⟩
      rw [if_neg nonzero]
      exact ⟨low, room⟩
    have notOffered : Offers bytes entry = false := by
      rw [← Bool.not_eq_true, Offers, decide_eq_true_eq]
      rintro ⟨tag, room⟩
      refine within ⟨tag, last, ?_⟩
      split_ifs
      · omega
      · exact ⟨by omega, by omega⟩
    rw [notTaken, notOffered]

theorem bootmemAllocateBuffer_cases {heap heap' start : Nat}
    {after : Memranges} (fits : size + 4095 < 2 ^ platform.bits)
    (call : bootmemAllocateBuffer platform bootmem size heap = some (start, after, heap')) :
    ((bootmem.entries.filter (rangeFits (BitVec.ofNat 64 (alignedSize size)))).getLast? = none ∧
        start = 0 ∧ after = bootmem) ∨
      ∃ region, (bootmem.entries.filter
          (rangeFits (BitVec.ofNat 64 (alignedSize size)))).getLast? = some region ∧
        start = platform.word (clampedEnd region - BitVec.ofNat 64 (alignedSize size)).toNat ∧
        after = memrangesInsert true bootmem
          (clampedEnd region - BitVec.ofNat 64 (alignedSize size))
          (BitVec.ofNat 64 (alignedSize size)) lbMemUnusable := by
  have aligned : platform.word (size + 4095) / 4096 * 4096 = alignedSize size := by
    rw [Platform.word, Nat.mod_eq_of_lt fits, alignedSize]
  rw [bootmemAllocateBuffer, aligned] at call
  cases last : (bootmem.entries.filter
      (rangeFits (BitVec.ofNat 64 (alignedSize size)))).getLast? with
  | none =>
    simp only [last] at call
    cases call
    exact .inl ⟨rfl, rfl, rfl⟩
  | some region =>
    simp only [last, bootmemAddRange, Option.map_map] at call
    obtain ⟨_, -, result⟩ := Option.map_eq_some_iff.mp call
    cases result
    exact .inr ⟨region, rfl, rfl, rfl⟩

theorem pageIn_iff {base extent : Address} (aligned : 4096 ∣ base.toNat)
    (whole : 4096 ∣ extent.toNat) (page : Nat) :
    PageIn base extent page ↔
      base.toNat ≤ page * 4096 ∧ page * 4096 < base.toNat + extent.toNat := by
  constructor
  · rintro ⟨address, above, below, rfl⟩
    omega
  · rintro ⟨above, below⟩
    exact ⟨page * 4096, above, below, by omega⟩

section Call

variable (wellFormed : WellFormed bootmem.entries) (positive : 0 < size)
  (fits : size + 4095 < 2 ^ platform.bits)

include positive fits in
theorem alignedSize_bounds : 0 < alignedSize size ∧
    alignedSize size < 2 ^ platform.bits ∧ alignedSize size < 2 ^ 64 ∧ 4096 ∣ alignedSize size := by
  have bits : 2 ^ platform.bits ≤ 2 ^ 64 := by
    rcases platform.bits_eq with narrow | wide
    · rw [narrow]
      decide
    · rw [wide]
  rw [alignedSize]
  refine ⟨by omega, by omega, by omega, by omega⟩

include wellFormed in
theorem pageTag_insert {base extent : Address} (aligned : 4096 ∣ base.toNat)
    (whole : 4096 ∣ extent.toNat) (room : base.toNat + extent.toNat ≤ 2 ^ 64) :
    WellFormed (memrangesInsert true bootmem base extent lbMemUnusable).entries ∧
      ∀ page, pageTag (memrangesInsert true bootmem base extent lbMemUnusable).entries page =
        if base.toNat ≤ page * 4096 ∧
            page * 4096 < base.toNat + extent.toNat then some lbMemUnusable
        else pageTag bootmem.entries page := by
  have before : Represents bootmem (pageTag bootmem.entries) := ⟨wellFormed, fun _ => rfl⟩
  have represents := @insert_represents base extent bootmem _ before lbMemUnusable room
  refine ⟨represents.wellFormed, fun page => ?_⟩
  rw [represents.pageTag_eq page]
  simp only [Operation.apply]
  by_cases inside : PageIn base extent page
  · rw [if_pos inside, if_pos ((pageIn_iff aligned whole page).mp inside)]
  · rw [if_neg inside, if_neg fun bounds => inside ((pageIn_iff aligned whole page).mpr bounds)]

theorem pageTag_of_mem (ordered : Ordered (segments bootmem.entries))
    (member : entry ∈ bootmem.entries) {page : Nat} (above : entry.rangeBegin.toNat ≤ page * 4096)
    (below : page * 4096 ≤ entry.rangeEnd.toNat) :
    pageTag bootmem.entries page = some entry.tag := by
  rw [pageTag_eq_valueAt]
  exact valueAt_of_mem ordered (mem_segments.mpr ⟨entry, member, rfl⟩)
    ⟨above, Nat.lt_succ_of_le below⟩

theorem getLast?_filter_of_last (ordered : Ordered (segments bootmem.entries))
    (member : entry ∈ bootmem.entries) (last : entry.rangeEnd.toNat = 2 ^ 64 - 1)
    {takes : RangeEntry → Bool} (taken : takes entry = true) :
    (bootmem.entries.filter takes).getLast? = some entry := by
  obtain ⟨before, later, split⟩ := List.append_of_mem member
  have none : later = [] := by
    cases later with
    | nil => rfl
    | cons next rest =>
      rw [split, segments, List.map_append] at ordered
      have separated := (List.pairwise_append.mp ordered.separated).2.1
      have after := (List.pairwise_cons.mp separated).1 next.toSegment (.head _)
      rw [toSegment_upper, toSegment_lower] at after
      have bound := next.rangeBegin.isLt
      omega
  rw [split, none, List.filter_append, List.filter_cons, if_pos taken,
    List.filter_nil, List.getLast?_append, List.getLast?_singleton]
  rfl

end Call

structure BufferCall.Returns (platform : Platform) (call : BufferCall) : Prop where
  wellFormed : WellFormed call.before.entries
  positive : 0 < call.size
  fits : call.size + 4095 < 2 ^ platform.bits
  returns : ∃ heap heap',
    bootmemAllocateBuffer platform call.before call.size heap = some (call.start, call.after, heap')

namespace BufferCall.Returns

variable {call : BufferCall} (returns : call.Returns platform)

include returns

theorem filled {entry : RangeEntry} (member : entry ∈ call.before.entries) :
    entry.rangeBegin.toNat ≤ entry.rangeEnd.toNat :=
  returns.wellFormed.nonempty entry member

theorem toNat_size : (BitVec.ofNat 64 (alignedSize call.size)).toNat = alignedSize call.size := by
  have bounds := alignedSize_bounds returns.positive returns.fits
  rw [BitVec.toNat_ofNat, Nat.mod_eq_of_lt bounds.2.2.1]

variable {region : RangeEntry}

section

variable (member : region ∈ call.before.entries)
include member

theorem not_exact_of_last (last : region.rangeEnd.toNat = 2 ^ 64 - 1)
    (taken : rangeFits (BitVec.ofNat 64 (alignedSize call.size)) region = true) : ¬ call.Exact := by
  intro exact
  obtain ⟨positive, narrow, fits, whole⟩ := alignedSize_bounds returns.positive returns.fits
  obtain ⟨ordered, -, -⟩ := (wellFormed_iff _).mp returns.wellFormed
  obtain ⟨tag, -, low, room⟩ := (rangeFits_of_last last positive fits).mp taken
  obtain ⟨heap, heap', call_eq⟩ := returns.returns
  have chosen := getLast?_filter_of_last ordered member last taken
  rcases bootmemAllocateBuffer_cases returns.fits call_eq with
    ⟨nothing, -⟩ | ⟨other, found, start, after⟩
  · rw [chosen] at nothing
    cases nothing
  · rw [chosen] at found
    cases found
    have number := returns.toNat_size
    have base : (clampedEnd region - BitVec.ofNat 64
        (alignedSize call.size)).toNat = 2 ^ 64 - alignedSize call.size := by
      rw [clampedEnd_of_last last, BitVec.toNat_sub, number]
      change (2 ^ 64 - alignedSize call.size + 0) % 2 ^ 64 = _
      exact Nat.mod_eq_of_lt (by omega)
    rw [base, Platform.word] at start
    rcases platform.bits_eq with bits | bits
    · -- The pointer is cut to 32 bits, and the top of the map has changed.
      rw [bits] at start narrow
      have nonzero : call.start ≠ 0 := by omega
      have outside : ¬ call.HasPage (2 ^ 52 - 1) := by
        rintro ⟨-, below⟩
        have upTo := exact.low nonzero
        omega
      obtain ⟨-, tags⟩ := pageTag_insert returns.wellFormed
        (by rw [base]; omega) (by rw [number]; exact whole)
        (by rw [base, number]; omega)
      have kept := exact.kept nonzero (2 ^ 52 - 1) outside
      rw [after, tags, if_pos (by rw [base, number]; omega),
        pageTag_of_mem ordered member (by omega) (by omega), tag] at kept
      cases kept
    · rw [bits, Nat.mod_eq_of_lt (by omega)] at start
      have upTo := exact.low (by omega)
      omega

omit member in
theorem filter_eq
    (below : ∀ entry ∈ call.before.entries, ¬ BufferCall.Overhangs (alignedSize call.size) entry) :
    call.before.entries.filter (rangeFits (BitVec.ofNat 64 (alignedSize call.size))) =
      call.before.entries.filter (Offers (alignedSize call.size)) := by
  obtain ⟨positive, -, fits, -⟩ := alignedSize_bounds returns.positive returns.fits
  exact List.filter_congr fun entry member =>
    rangeFits_eq_offers (returns.filled member) (below entry member) positive fits

theorem not_exact_of_overhangs (overhangs : BufferCall.Overhangs (alignedSize call.size) region) :
    ¬ call.Exact := by
  obtain ⟨positive, -, fits, -⟩ := alignedSize_bounds returns.positive returns.fits
  obtain ⟨tag, last, room⟩ := overhangs
  split_ifs at room with zero
  · -- The entry is the whole map, and its wrapped size is zero.
    intro exact
    obtain ⟨ordered, -, -⟩ := (wellFormed_iff _).mp returns.wellFormed
    have only : call.before.entries.filter
        (rangeFits (BitVec.ofNat 64 (alignedSize call.size))) = [] := by
      refine List.filter_eq_nil_iff.mpr fun other otherMember taken => ?_
      have otherFilled := returns.filled otherMember
      rcases separated_of_mem ordered
          (mem_segments.mpr ⟨region, member, rfl⟩)
          (mem_segments.mpr ⟨other, otherMember, rfl⟩) with
        same | before | after
      · have first : region.rangeBegin.toNat = other.rangeBegin.toNat := congrArg Segment.lower same
        have upper : region.rangeEnd.toNat + 1 = other.rangeEnd.toNat + 1 :=
          congrArg Segment.upper same
        exact ((rangeFits_of_last (by omega) positive fits).mp taken).2.1 (by omega)
      · rw [toSegment_upper, toSegment_lower] at before
        have bound := other.rangeBegin.isLt
        omega
      · rw [toSegment_upper, toSegment_lower] at after
        omega
    obtain ⟨heap, heap', call_eq⟩ := returns.returns
    rcases bootmemAllocateBuffer_cases returns.fits call_eq with ⟨-, start, -⟩ | ⟨other, found, -⟩
    · have offered : Offers (alignedSize call.size) region = true := decide_eq_true ⟨tag, by omega⟩
      exact absurd (exact.missing start region member) (by rw [offered]; decide)
    · rw [only] at found
      cases found
  · exact returns.not_exact_of_last member last
      ((rangeFits_of_last last positive fits).mpr ⟨tag, zero, room⟩)

theorem region_bounds (within : ¬ BufferCall.Overhangs (alignedSize call.size) region)
    (offers : Offers (alignedSize call.size) region = true) :
    (clampedEnd region - BitVec.ofNat 64 (alignedSize call.size)).toNat =
        min (region.rangeEnd.toNat + 1) (2 ^ 32) - alignedSize call.size ∧
      region.tag = lbMemRam ∧
      region.rangeBegin.toNat + alignedSize call.size ≤ min (region.rangeEnd.toNat + 1) (2 ^ 32) ∧
      4096 ∣ min (region.rangeEnd.toNat + 1) (2 ^ 32) := by
  obtain ⟨positive, -, fits, -⟩ := alignedSize_bounds returns.positive returns.fits
  obtain ⟨tag, room⟩ := of_decide_eq_true offers
  have bound := region.rangeEnd.isLt
  have small : region.rangeEnd.toNat < 2 ^ 64 - 1 := by
    by_contra large
    refine within ⟨tag, by omega, ?_⟩
    split_ifs
    · omega
    · exact ⟨by omega, by omega⟩
  have clamped := toNat_clampedEnd small
  have aligned := (returns.wellFormed.aligned region member).2
  refine ⟨?_, tag, room, by omega⟩
  rw [BitVec.toNat_sub, returns.toNat_size, clamped]
  omega

end

theorem exact_of_sane (sane : call.Sane) : call.Exact := by
  obtain ⟨positive, narrow, fits, whole⟩ := alignedSize_bounds returns.positive returns.fits
  obtain ⟨ordered, -, -⟩ := (wellFormed_iff _).mp returns.wellFormed
  obtain ⟨heap, heap', call_eq⟩ := returns.returns
  have cases' := bootmemAllocateBuffer_cases returns.fits call_eq
  rw [returns.filter_eq sane.below] at cases'
  rcases cases' with ⟨nothing, start, same⟩ | ⟨region, found, start, after⟩
  · have none : call.before.entries.filter (Offers (alignedSize call.size)) =
        [] := List.getLast?_eq_none_iff.mp nothing
    refine
      { aligned := fun nonzero => absurd start nonzero
        low := fun nonzero => absurd start nonzero
        usable := fun nonzero => absurd start nonzero
        taken := fun nonzero => absurd start nonzero
        kept := fun nonzero => absurd start nonzero
        missing := fun _ entry member => ?_
        unchanged := fun _ => same }
    rw [← Bool.not_eq_true]
    exact List.filter_eq_nil_iff.mp none entry member
  · obtain ⟨member, offers⟩ := List.mem_filter.mp (List.mem_of_getLast? found)
    obtain ⟨base, tag, room, aligned⟩ :=
      returns.region_bounds member (sane.below region member) offers
    have more := sane.nonzero region found
    have number := returns.toNat_size
    have start_eq : call.start =
        min (region.rangeEnd.toNat + 1) (2 ^ 32) - alignedSize call.size := by
      rw [start, base, Platform.word]
      apply Nat.mod_eq_of_lt
      rcases platform.bits_eq with bits | bits <;> rw [bits] <;> omega
    obtain ⟨-, tags⟩ := pageTag_insert returns.wellFormed
      (by rw [base]; omega) (by rw [number]; exact whole)
      (by rw [base, number]; omega)
    have taken (page : Nat) :
        pageTag call.after.entries page =
          if call.start ≤ page * 4096 ∧ page * 4096 < call.start + alignedSize call.size then
            some lbMemUnusable
          else pageTag call.before.entries page := by
      rw [after, tags, base, number, start_eq]
    exact
      { aligned := fun _ => by omega
        low := fun _ => by omega
        usable := fun _ page ⟨above, below⟩ => by
          rw [← tag]
          exact pageTag_of_mem ordered member (by omega) (by omega)
        taken := fun _ page inside => (taken page).trans (if_pos inside)
        kept := fun _ page outside => (taken page).trans (if_neg outside)
        missing := fun zero => by omega
        unchanged := fun zero => by omega }

theorem exact_iff_sane : call.Exact ↔ call.Sane := by
  refine ⟨fun exact => ?_, returns.exact_of_sane⟩
  have below : ∀ entry ∈ call.before.entries,
      ¬ BufferCall.Overhangs (alignedSize call.size) entry :=
    fun entry member overhangs =>
      returns.not_exact_of_overhangs member overhangs exact
  refine ⟨below, fun region found zero => ?_⟩
  obtain ⟨member, offers⟩ := List.mem_filter.mp (List.mem_of_getLast? found)
  obtain ⟨base, -⟩ := returns.region_bounds member (below region member) offers
  obtain ⟨heap, heap', call_eq⟩ := returns.returns
  have cases' := bootmemAllocateBuffer_cases returns.fits call_eq
  rw [returns.filter_eq below] at cases'
  rcases cases' with ⟨nothing, -⟩ | ⟨other, chosen, start, -⟩
  · rw [found] at nothing
    cases nothing
  · rw [found] at chosen
    cases chosen
    rw [base, zero, Nat.sub_self, Platform.word, Nat.zero_mod] at start
    exact absurd (exact.missing start region member) (by rw [offers]; decide)

theorem wellFormed_after : WellFormed call.after.entries := by
  obtain ⟨positive, narrow, fits, whole⟩ := alignedSize_bounds returns.positive returns.fits
  obtain ⟨heap, heap', call_eq⟩ := returns.returns
  rcases bootmemAllocateBuffer_cases returns.fits call_eq with
    ⟨-, -, after⟩ | ⟨region, found, -, after⟩
  · rw [after]
    exact returns.wellFormed
  · obtain ⟨member, taken⟩ := List.mem_filter.mp (List.mem_of_getLast? found)
    have number := returns.toNat_size
    have bound := region.rangeEnd.isLt
    rw [after]
    rcases Nat.lt_or_ge region.rangeEnd.toNat (2 ^ 64 - 1) with small | large
    · have within : ¬ BufferCall.Overhangs (alignedSize call.size) region :=
        fun overhangs => by
          have last := overhangs.2.1
          omega
      have offers : Offers (alignedSize call.size) region = true := by
        rwa [← rangeFits_eq_offers (returns.filled member) within positive fits]
      obtain ⟨base, -, room, aligned⟩ := returns.region_bounds member within offers
      exact (pageTag_insert returns.wellFormed (by rw [base]; omega)
        (by rw [number]; exact whole) (by rw [base, number]; omega)).1
    · have base : (clampedEnd region - BitVec.ofNat 64
          (alignedSize call.size)).toNat = 2 ^ 64 - alignedSize call.size := by
        rw [clampedEnd_of_last (by omega), BitVec.toNat_sub, number]
        change (2 ^ 64 - alignedSize call.size + 0) % 2 ^ 64 = _
        exact Nat.mod_eq_of_lt (by omega)
      exact (pageTag_insert returns.wellFormed (by rw [base]; omega)
        (by rw [number]; exact whole) (by rw [base, number]; omega)).1

end BufferCall.Returns

variable {calls : List BufferCall} {sizes : List Nat} {heap : Nat}

theorem allocateBuffers_cons
    (allocates : allocateBuffers platform (size :: sizes) bootmem heap = some calls) :
    ∃ call rest next heap', calls = call :: rest ∧ call.before = bootmem ∧
      call.size = size ∧ call.after = next ∧
      bootmemAllocateBuffer platform call.before call.size heap =
        some (call.start, call.after, heap') ∧
      allocateBuffers platform sizes next heap' = some rest := by
  rw [allocateBuffers] at allocates
  obtain ⟨⟨start, after, heap'⟩, first, later⟩ := Option.bind_eq_some_iff.mp allocates
  obtain ⟨rest, others, rfl⟩ := Option.map_eq_some_iff.mp later
  exact ⟨_, rest, after, heap', rfl, rfl, rfl, rfl, first, others⟩

theorem returns_of_allocateBuffers (wellFormed : WellFormed bootmem.entries)
    (sizesFit : ∀ size ∈ sizes, 0 < size ∧ size + 4095 < 2 ^ platform.bits)
    (allocates : allocateBuffers platform sizes bootmem heap = some calls) :
    ∀ call ∈ calls, call.Returns platform := by
  induction sizes generalizing bootmem heap calls with
  | nil =>
    cases allocates
    simp
  | cons size sizes ih =>
    obtain ⟨call, rest, next, heap', rfl, before, same, after, first, later⟩ :=
      allocateBuffers_cons allocates
    obtain ⟨positive, fits⟩ := sizesFit size (.head _)
    have returns : call.Returns platform :=
      { wellFormed := by rwa [before]
        positive := by rwa [same]
        fits := by rwa [same]
        returns := ⟨heap, heap', first⟩ }
    intro other member
    rcases List.mem_cons.mp member with rfl | member
    · exact returns
    · exact ih (after ▸ returns.wellFormed_after) (List.forall_mem_cons.mp sizesFit).2
        later other member

theorem not_hasPage_of_unusable {page : Nat}
    (allocates : allocateBuffers platform sizes bootmem heap = some calls)
    (exact : ∀ call ∈ calls, call.Exact)
    (unusable : pageTag bootmem.entries page = some lbMemUnusable) :
    ∀ call ∈ calls, call.start ≠ 0 → ¬ call.HasPage page := by
  induction sizes generalizing bootmem heap calls with
  | nil =>
    cases allocates
    simp
  | cons size sizes ih =>
    obtain ⟨call, rest, next, heap', rfl, before, same, after, first, later⟩ :=
      allocateBuffers_cons allocates
    have exactFirst := exact call (.head _)
    have outside : call.start ≠ 0 → ¬ call.HasPage page := by
      intro nonzero inside
      have usable := exactFirst.usable nonzero page inside
      rw [before, unusable] at usable
      cases usable
    have still : pageTag next.entries page = some lbMemUnusable := by
      rw [← after]
      by_cases nonzero : call.start = 0
      · rw [exactFirst.unchanged nonzero, before, unusable]
      · rw [exactFirst.kept nonzero page (outside nonzero), before, unusable]
    intro other member
    rcases List.mem_cons.mp member with rfl | member
    · exact outside
    · exact ih later (List.forall_mem_cons.mp exact).2 still
        other member

theorem pairwise_of_exact (allocates : allocateBuffers platform sizes bootmem heap = some calls)
    (exact : ∀ call ∈ calls, call.Exact) :
    calls.Pairwise fun first second =>
      first.start ≠ 0 → second.start ≠ 0 → ∀ page, first.HasPage page → ¬ second.HasPage page := by
  induction sizes generalizing bootmem heap calls with
  | nil =>
    cases allocates
    exact .nil
  | cons size sizes ih =>
    obtain ⟨call, rest, next, heap', rfl, -, -, after, -, later⟩ := allocateBuffers_cons allocates
    have others : ∀ call ∈ rest, call.Exact := (List.forall_mem_cons.mp exact).2
    refine List.pairwise_cons.mpr ⟨?_, ih later others⟩
    intro second member firstNonzero secondNonzero page inside
    have taken := (exact call (.head _)).taken firstNonzero page inside
    rw [after] at taken
    exact not_hasPage_of_unusable later others taken second member secondNonzero

/-- The calls of a sequence are exact, and their buffers apart, if and only if
each call meets a sane map. -/
theorem buffersExact_iff_sane (platform : Platform) (bootmem : Memranges)
    (wellFormed : WellFormed bootmem.entries) (sizes : List Nat)
    (sizesFit : ∀ size ∈ sizes, 0 < size ∧ size + 4095 < 2 ^ platform.bits)
    (heap : Nat) (calls : List BufferCall)
    (allocates : allocateBuffers platform sizes bootmem heap = some calls) :
    BuffersExact calls ↔ ∀ call ∈ calls, call.Sane := by
  have returns := returns_of_allocateBuffers wellFormed sizesFit allocates
  constructor
  · exact fun exact call member =>
      (returns call member).exact_iff_sane.mp (exact.exact call member)
  · intro sane
    have exact : ∀ call ∈ calls, call.Exact := fun call member =>
      (returns call member).exact_of_sane (sane call member)
    exact ⟨exact, pairwise_of_exact allocates exact⟩

def roomyPlatform : Platform where
  bits := 64
  lbStart := 0x100000
  lbEnd := 0x200000
  heapEnd := 0x10000
  archSupportsBounceBuffer := false
  relocatableRamstage := false
  bits_eq := .inr rfl
  start_lt := by decide
  end_lt := by decide

def smallMapAfter : Memranges := memrangesInsert true smallMap 0x4000 0x1000 lbMemUnusable

theorem buffersExact_onePage :
    BuffersExact [⟨smallMap, 100, 0x4000, smallMapAfter⟩] ↔
      ∀ call ∈ [BufferCall.mk smallMap 100 0x4000 smallMapAfter], call.Sane := by
  have wellFormed : WellFormed smallMap.entries := ⟨by decide, by decide, by decide, by decide⟩
  exact buffersExact_iff_sane roomyPlatform smallMap wellFormed [100] (by decide) 0 _ rfl

/-- The usable memory is the first page, and the buffer is `NULL`. -/
def firstPageMap : Memranges := memrangesInsert true (memrangesInitEmpty 0) 0 0x1000 lbMemRam

theorem not_buffersExact_firstPage :
    ¬ ∀ (platform : Platform) (bootmem : Memranges),
      WellFormed bootmem.entries → ∀ sizes : List Nat,
      (∀ size ∈ sizes, 0 < size ∧ size + 4095 < 2 ^ platform.bits) →
      ∀ heap calls,
        allocateBuffers platform sizes bootmem heap = some calls →
        BuffersExact calls := by
  intro claim
  have wellFormed : WellFormed firstPageMap.entries := ⟨by decide, by decide, by decide, by decide⟩
  have exact := claim roomyPlatform firstPageMap wellFormed [0x1000] (by decide) 0 _ rfl
  have missing := (exact.exact _ List.mem_cons_self).missing rfl ⟨0, 0xfff, lbMemRam⟩ (by decide)
  exact absurd missing (by decide)

end Coreboot.Selfload
