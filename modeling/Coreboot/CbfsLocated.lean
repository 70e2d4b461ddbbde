import Coreboot.CbfsLocate
import Mathlib.Data.Nat.ModEq

/-!
# Where a located file goes

A position keeps within one page if it is tested for that.
-/

namespace Coreboot.Cbfs

open ByteMemory

/-- How far a multiple of the granule in the image is moved up to reach one in
the flash. -/
def alignShift (regionOffset granule : Nat) : Nat := (granule - regionOffset % granule) % granule

variable {granule value align : Nat} {before after : List Entry}

theorem alignShift_lt (regionOffset : Nat) (positive : 0 < granule) :
    alignShift regionOffset granule < granule :=
  Nat.mod_lt _ positive

theorem dvd_add_alignShift (regionOffset : Nat) (positive : 0 < granule) :
    granule ∣ regionOffset + alignShift regionOffset granule := by
  have below := Nat.mod_lt regionOffset positive
  rw [Nat.dvd_iff_mod_eq_zero, alignShift, Nat.add_mod_mod, Nat.add_mod, ← Nat.add_mod,
    ← Nat.mod_add_mod, Nat.add_sub_cancel' below.le, Nat.mod_self]

theorem alignShift_congr {first second : Nat} (same : first % granule = second % granule) :
    alignShift first granule = alignShift second granule := by
  rw [alignShift, same, alignShift]

theorem alignUp_eq_mod (small : value < 2 ^ 32) (positive : 0 < align) :
    alignUp value align = (value + alignShift value align) % 2 ^ 32 := by
  have below := Nat.mod_lt value positive
  rw [alignUp, alignShift]
  split_ifs with misaligned
  · rw [Nat.mod_eq_of_lt (show align - value % align < align by omega), add32]
  · rw [not_not.mp misaligned, Nat.sub_zero, Nat.mod_self, Nat.add_zero, Nat.mod_eq_of_lt small]

theorem alignUp_lt (small : value < 2 ^ 32) (positive : 0 < align) :
    alignUp value align < 2 ^ 32 := by
  rw [alignUp_eq_mod small positive]
  exact Nat.mod_lt _ (by decide)

theorem dvd_alignUp (small : value < 2 ^ 32) (positive : 0 < align)
    (power : align ∣ 2 ^ 32) : align ∣ alignUp value align := by
  rw [alignUp_eq_mod small positive, Nat.dvd_mod_iff power]
  exact dvd_add_alignShift value positive

theorem alignedAddress_modEq {regionOffset value align page : Nat} (positive : 0 < align)
    (small : align < 2 ^ 32) (pages : page ∣ 2 ^ 32) (power : align ∣ 2 ^ 32)
    (nested : align ∣ page ∨ page ∣ align) (start : page ∣ value) :
    alignedAddress regionOffset value align ≡
      regionOffset + alignShift regionOffset (min align page) [MOD page] := by
  have wide : page ∣ 2 ^ 64 := pages.trans (by decide)
  have positivePage : 0 < page := Nat.pos_of_dvd_of_pos pages (by decide)
  have word : addSize value regionOffset % 2 ^ 32 < 2 ^ 32 := Nat.mod_lt _ (by decide)
  have same : addSize value regionOffset % 2 ^ 32 ≡ regionOffset [MOD page] := by
    rw [Nat.ModEq, Nat.mod_mod_of_dvd _ pages, addSize, Nat.mod_mod_of_dvd _ wide, Nat.add_mod,
      Nat.mod_eq_zero_of_dvd start, Nat.zero_add, Nat.mod_mod]
  rw [alignedAddress, Nat.mod_eq_of_lt small]
  rcases nested with finer | coarser
  · rw [min_eq_left (Nat.le_of_dvd positivePage finer), alignUp_eq_mod word positive]
    have moved : alignShift (addSize value regionOffset % 2 ^ 32) align =
        alignShift regionOffset align :=
      alignShift_congr (same.of_dvd finer)
    rw [moved, Nat.ModEq, Nat.mod_mod_of_dvd _ pages]
    exact same.add_right _
  · rw [min_eq_right (Nat.le_of_dvd positive coarser)]
    have multiple := coarser.trans (dvd_alignUp word positive power)
    exact (Nat.modEq_zero_iff_dvd.mpr multiple).trans
      (Nat.modEq_zero_iff_dvd.mpr (dvd_add_alignShift regionOffset positivePage)).symm

theorem mod_page_of_address {regionOffset value align page : Nat} (positive : 0 < align)
    (small : align < 2 ^ 32) (pages : page ∣ 2 ^ 32) (power : align ∣ 2 ^ 32)
    (nested : align ∣ page ∨ page ∣ align) (start : page ∣ value)
    (above : regionOffset ≤ alignedAddress regionOffset value align) :
    (alignedAddress regionOffset value align - regionOffset) % page =
      alignShift regionOffset (min align page) := by
  have positivePage : 0 < page := Nat.pos_of_dvd_of_pos pages (by decide)
  have shifted := alignShift_lt regionOffset (lt_min positive positivePage)
  have inPage := lt_of_lt_of_le shifted (min_le_right align page)
  have same := @alignedAddress_modEq regionOffset value align page positive
    small pages power nested start
  have split : regionOffset +
      (alignedAddress regionOffset value align - regionOffset) ≡
        regionOffset + alignShift regionOffset (min align page) [MOD page] := by
    rw [Nat.add_sub_cancel' above]
    exact same
  rw [← Nat.mod_eq_of_lt inPage]
  exact Nat.ModEq.add_left_cancel' regionOffset split

theorem samePage_iff {offset size page : Nat} (positive : 0 < page) (content : 0 < size) :
    offset / page = (offset + size - 1) / page ↔ offset % page + size ≤ page := by
  have division := Nat.div_add_mod offset page
  have below := Nat.mod_lt offset positive
  have shifted : offset + size - 1 = page * (offset / page) + (offset % page + size - 1) := by omega
  rw [shifted, Nat.mul_add_div positive, Nat.left_eq_add, Nat.div_eq_zero_iff_lt positive]
  omega

theorem toInt32_of_lt (small : value < 2147483648) : toInt32 value = value := by
  unfold toInt32
  exact Int.bmod_eq_of_le (by omega) (by omega)

/-- A `size_t` just below its limit is a negative `int32_t`. -/
theorem toInt32_of_front {distance : Nat} (small : distance ≤ 2147483648) :
    toInt32 (2 ^ 64 - distance) = -distance := by
  have wrapped : ((2 ^ 64 - distance : Nat) : Int) =
      -distance + (2 ^ 32 : Nat) * (2 ^ 32 : Int) := by omega
  unfold toInt32
  rw [wrapped, Int.add_mul_bmod_self_left]
  exact Int.bmod_eq_of_le (by omega) (by omega)

/-- A `size_t` that passes `is_in_range` with enough room is in the range, or
wraps around. -/
theorem position_cases {address regionOffset metadata size addr addrNext : Nat}
    (aligned : address < 4294967296) (region : regionOffset ≤ 4294967296) (header : metadata ≤ 1024)
    (content : size < 2 ^ 63) (ordered : addr ≤ addrNext) (small : addrNext < 2147483648)
    (room : addSize metadata size ≤ subSize addrNext addr)
    (front : addSize addr metadata ≤ subSize address regionOffset)
    (back : addSize (subSize address regionOffset) size ≤ addrNext) :
    regionOffset ≤ address ∧
        subSize address regionOffset = address - regionOffset ∧
        addr + metadata ≤ address - regionOffset ∧
        address - regionOffset + size ≤ addrNext ∨
      address < regionOffset ∧ regionOffset - address ≤ 2147483648 ∧
        subSize address regionOffset = 2 ^ 64 - (regionOffset - address) := by
  rw [addSize] at front back room
  rw [subSize] at front back room ⊢
  omega

namespace Demand

variable {demand : Demand} {addr addrNext : Nat} {page : Page}

theorem position_of_qualifies (header : demand.metadataSize ≤ 1024) (content : demand.size < 2 ^ 63)
    (align : 0 < demand.align) (word : demand.align < 2 ^ 32)
    (region : demand.regionOffset ≤ 2 ^ 32) (ordered : addr ≤ addrNext)
    (small : addrNext < 2147483648) (qualifies : demand.qualifies addr addrNext page = true) :
    demand.regionOffset ≤ demand.address addr page ∧
        demand.position addr page = demand.address addr page - demand.regionOffset ∧
        addr + demand.metadataSize ≤ demand.position addr page ∧
        demand.position addr page + demand.size ≤ addrNext ∧
        toInt32 (demand.position addr page) = demand.position addr page ∨
      demand.address addr page < demand.regionOffset ∧
        toInt32 (demand.position addr page) =
          (demand.address addr page : Int) - demand.regionOffset := by
  have aligned : demand.address addr page < 2 ^ 32 := by
    rw [address, alignedAddress, Nat.mod_eq_of_lt word]
    exact alignUp_lt (Nat.mod_lt _ (by decide)) align
  rw [Demand.qualifies, Bool.and_eq_true, Bool.and_eq_true, decide_eq_true_iff] at qualifies
  obtain ⟨⟨room, -⟩, fits⟩ := qualifies
  rw [isInRange, decide_eq_true_iff] at fits
  rcases position_cases aligned region header content ordered small room fits.1
    fits.2 with ⟨above, same, after, before⟩ | ⟨front, near, same⟩
  · have place : demand.position addr page = demand.address addr page - demand.regionOffset := same
    refine .inl ⟨above, place, by rwa [place], by rwa [place], ?_⟩
    exact toInt32_of_lt (by omega)
  · refine .inr ⟨front, ?_⟩
    rw [position, same, toInt32_of_front near, Nat.cast_sub front.le, neg_sub]

end Demand

/-- The content is not empty, page and alignment are powers of two or left to
their defaults, and header and content are no larger than a page. -/
structure Demand.Proper (demand : Demand) (imageSize : Nat) : Prop where
  content : 0 < demand.size
  bounded : demand.size < 2 ^ 63
  header : demand.metadataSize ≤ 1024
  page : demand.pageSize = 0 ∨ (∃ power < 32, demand.pageSize = 2 ^ power) ∧
    demand.metadataSize ≤ demand.pageSize ∧ demand.size ≤ demand.pageSize
  align : demand.align = 0 ∨ ∃ power < 32, demand.align = 2 ^ power
  region : demand.regionOffset + imageSize ≤ 2 ^ 32

section Proper

variable {demand : Demand} {imageSize : Nat}

theorem Demand.Proper.align_spec (proper : demand.Proper imageSize) :
    ∃ power < 32, (demand.defaults imageSize).align = 2 ^ power := by
  rcases proper.align with none' | ⟨power, small, same⟩
  · exact ⟨0, by decide, if_pos none'⟩
  · have positive : 2 ^ power ≠ 0 := (Nat.two_pow_pos power).ne'
    exact ⟨power, small, (if_neg (same ▸ positive)).trans same⟩

theorem Demand.Proper.align_bounds (proper : demand.Proper imageSize) :
    0 < (demand.defaults imageSize).align ∧
      (demand.defaults imageSize).align < 2 ^ 32 ∧
      (demand.defaults imageSize).align ∣ 2 ^ 32 := by
  obtain ⟨power, small, same⟩ := proper.align_spec
  rw [same]
  exact ⟨Nat.two_pow_pos power, Nat.pow_lt_pow_right (by decide) small, Nat.pow_dvd_pow 2 small.le⟩

@[simp]
theorem Demand.regionOffset_defaults (demand : Demand) (imageSize : Nat) :
    (demand.defaults imageSize).regionOffset = demand.regionOffset :=
  rfl

@[simp]
theorem Demand.size_defaults (demand : Demand) (imageSize : Nat) :
    (demand.defaults imageSize).size = demand.size :=
  rfl

@[simp]
theorem Demand.metadataSize_defaults (demand : Demand) (imageSize : Nat) :
    (demand.defaults imageSize).metadataSize = demand.metadataSize :=
  rfl

theorem Demand.Proper.dvd_address (proper : demand.Proper imageSize)
    (addr : Nat) (page : Page) : (demand.defaults imageSize).align ∣
      (demand.defaults imageSize).address addr page := by
  obtain ⟨positive, word, power⟩ := proper.align_bounds
  rw [Demand.address, alignedAddress, Nat.mod_eq_of_lt word]
  exact dvd_alignUp (Nat.mod_lt _ (by decide)) positive power

theorem Demand.Proper.asserted (proper : demand.Proper imageSize) (small : imageSize < 2147483648) :
    (demand.defaults imageSize).Asserted imageSize := by
  intro addr addrNext ordered inside room
  rcases proper.page with none' | ⟨-, header, -⟩
  · have bounds := proper.bounded
    have header := proper.header
    have size : (demand.defaults imageSize).pageSize = imageSize := if_pos none'
    rw [size]
    change addSize demand.metadataSize demand.size ≤ _ at room
    change demand.metadataSize ≤ _
    rw [addSize, subSize] at room
    omega
  · by_cases none' : demand.pageSize = 0
    · have size : (demand.defaults imageSize).pageSize = imageSize := if_pos none'
      rw [none'] at header
      exact header.trans (Nat.zero_le _)
    · have size : (demand.defaults imageSize).pageSize = demand.pageSize := if_neg none'
      rw [size]
      exact header

theorem samePage_of_first {demand : Demand} {addr addrNext : Nat} (positive : 0 < demand.pageSize)
    (word : demand.pageSize < 2 ^ 32) (content : 0 < demand.size) (small : addrNext < 2147483648)
    (inside : demand.position addr .first + demand.size ≤ addrNext)
    (qualifies : demand.qualifies addr addrNext .first = true) :
    demand.position addr .first / demand.pageSize =
      (demand.position addr .first + demand.size - 1) / demand.pageSize := by
  rw [Demand.qualifies, Bool.and_eq_true, Bool.and_eq_true] at qualifies
  obtain ⟨⟨-, same⟩, -⟩ := qualifies
  rw [show decide (Page.first ≠ .first) = false from rfl, Bool.false_or,
    isInSamePage, Nat.mod_eq_of_lt word, if_neg positive.ne',
    decide_eq_true_iff] at same
  generalize demand.position addr .first = offset at same inside ⊢
  generalize demand.size = size at same inside content ⊢
  rw [Nat.mod_eq_of_lt (by omega), Nat.mod_eq_of_lt (by omega),
    add32_of_lt (by omega), sub32_of_le (by omega) (by omega)] at same
  exact same

theorem samePage_iff_of_later {demand : Demand} {addr power exponent : Nat} {page : Page}
    (pageSize : demand.pageSize = 2 ^ power) (pages : power < 32)
    (align : demand.align = 2 ^ exponent) (aligns : exponent < 32) (content : 0 < demand.size)
    (later : page ≠ .first) (above : demand.regionOffset ≤ demand.address addr page) :
    (demand.address addr page - demand.regionOffset) / demand.pageSize =
        (demand.address addr page - demand.regionOffset + demand.size - 1) / demand.pageSize ↔
      alignShift demand.regionOffset (min demand.align demand.pageSize) +
        demand.size ≤ demand.pageSize := by
  have positive : 0 < demand.pageSize := pageSize ▸ Nat.two_pow_pos power
  have word : demand.pageSize < 2 ^ 32 := pageSize ▸ Nat.pow_lt_pow_right (by decide) pages
  have divides : demand.pageSize ∣ 2 ^ 32 := pageSize ▸ Nat.pow_dvd_pow 2 pages.le
  have nested : demand.align ∣ demand.pageSize ∨ demand.pageSize ∣ demand.align := by
    rw [align, pageSize]
    exact (Nat.le_total exponent power).imp (Nat.pow_dvd_pow 2) (Nat.pow_dvd_pow 2)
  have second : demand.pageSize ∣ alignUp (addr % 2 ^ 32) (demand.pageSize % 2 ^ 32) := by
    rw [Nat.mod_eq_of_lt word]
    exact dvd_alignUp (Nat.mod_lt _ (by decide)) positive divides
  have start : demand.pageSize ∣ demand.trial addr page := by
    cases page with
    | first => exact absurd rfl later
    | second => exact second
    | third =>
      exact (Nat.dvd_mod_iff (divides.trans (by decide))).mpr (Nat.dvd_add second (Nat.dvd_refl _))
  have place := @mod_page_of_address demand.regionOffset
    (demand.trial addr page) demand.align demand.pageSize
    (align ▸ Nat.two_pow_pos exponent)
    (align ▸ Nat.pow_lt_pow_right (by decide) aligns) divides
    (align ▸ Nat.pow_dvd_pow 2 aligns.le) nested start above
  rw [samePage_iff positive content]
  change (demand.address addr page - demand.regionOffset) % _ = _ at place
  rw [place]

end Proper

section Adding

theorem choose_append {before : List Entry} {headerSize size contentOffset : Nat}
    (positive : 0 < contentOffset) (addr : Nat) (rest : List Entry)
    (front : addr + spanOf before < contentOffset) :
    choose headerSize size contentOffset addr (before ++ rest) =
      (choose headerSize size contentOffset (addr + spanOf before) rest).map
        fun site => { site with before := before ++ site.before } := by
  induction before generalizing addr with
  | nil =>
    rw [List.nil_append, spanOf, Nat.add_zero]
    exact Option.map_id'.symm
  | cons e before ih =>
    rw [spanOf] at front
    have skipped : e.verdict addr headerSize size contentOffset = .skip := by
      obtain ⟨span, slot⟩ := e
      change addr + (span + spanOf before) < contentOffset at front
      cases slot with
      | empty =>
        rw [Entry.verdict, verdict]
        rw [if_pos positive, if_pos (show addr + span < contentOffset by
          omega), ite_self]
      | deleted => rfl
      | file record => rfl
    rw [List.cons_append, choose, skipped]
    rw [ih (addr + e.span) (by omega), Option.map_map, spanOf, Nat.add_assoc]
    rfl

theorem choose_of_room {span headerSize size contentOffset : Nat}
    (positive : 0 < headerSize) (small : spanOf before + span < 4294967296)
    (front : spanOf before + headerSize ≤ contentOffset)
    (back : contentOffset + size ≤ spanOf before + span) :
    choose headerSize size contentOffset 0 (before ++ ⟨span, .empty⟩ :: after) =
      some ⟨before, span, after, contentOffset⟩ := by
  have here : (Entry.mk span .empty).verdict (spanOf before) headerSize size
      contentOffset = .place contentOffset := by
    rw [Entry.verdict, verdict]
    dsimp only
    rw [@add32_of_lt headerSize size (by omega),
      @add32_of_lt (spanOf before) (headerSize + size) (by omega),
      @add32_of_lt (spanOf before) headerSize (by omega), if_neg (by omega),
      if_pos (by omega), if_neg (by omega), if_neg (by omega),
      if_neg (by omega), if_neg (by omega)]
  rw [choose_append (by omega) 0 _ (by omega), Nat.zero_add, choose, here,
    Option.map_some, List.append_nil]

theorem cbfsAddEntry_of_room {image : Image}
    {span type contentOffset : Nat} {name content : List Byte}
    {header : Memory} (held : Held image (before ++ ⟨span, .empty⟩ :: after))
    (merged : Merged (before ++ ⟨span, .empty⟩ :: after))
    (built : BuiltHeader type content.length name header)
    (live : type % 2 ^ 32 ≠ cbfsComponentDeleted ∧ type % 2 ^ 32 ≠ cbfsComponentNull)
    (front : spanOf before + entryOffset header 0 ≤ contentOffset)
    (back : contentOffset + content.length ≤ spanOf before + span) :
    ∃ image', cbfsAddEntry image content contentOffset header = some (true, image') := by
  have whole := held.whole
  have small := held.small
  have named := built.named
  have length := Nat.mod_le content.length 4294967296
  rw [spanOf_append, spanOf] at whole
  change spanOf before + (span + spanOf after) = image.size at whole
  have chosen := @choose_of_room before after span (entryOffset header 0)
    content.length contentOffset (by omega) (by omega) front back
  rw [← merged.coalesce_eq] at chosen
  obtain ⟨data, gap, added, -⟩ := cbfsAddEntry_some held built live chosen front
    (by
      change contentOffset + content.length % 4294967296 ≤ spanOf before + span
      omega)
  exact ⟨_, added⟩

end Adding

/-- The content at an offset is aligned in the flash, in one page and in one
empty entry with its header, and the file can be added there. -/
structure Suits (image : Image) (demand : Demand) (entries : List Entry)
    (content : List Byte) (header : Memory) (offset : Nat) : Prop where
  aligned : demand.align ∣ offset + demand.regionOffset
  paged : offset / demand.pageSize = (offset + demand.size - 1) / demand.pageSize
  space : ∃ before span after, entries = before ++ ⟨span, .empty⟩ :: after ∧
    spanOf before + demand.metadataSize ≤ offset ∧
    offset + demand.size ≤ spanOf before + span
  added : ∃ image', cbfsAddEntry image content offset header = some (true, image')

/-- An offset that is returned suits the file, and without one no candidate
position qualifies. -/
def Locates (image : Image) (demand : Demand) (entries : List Entry)
    (content : List Byte) (header : Memory) : Prop :=
  ∃ image' result, cbfsLocateEntry image demand = some (image', result) ∧
    (∀ offset : Nat, result = offset →
      Suits image' (demand.defaults image.size) (coalesce none entries) content header offset) ∧
    (result = -1 → (demand.defaults image.size).NoneQualifies (coalesce none entries))

/-- In the first empty entry with a candidate position that qualifies, the first
such position is the one behind the header, or the content stays in its page
after the shift.  Its address is not in front of the image by one byte. -/
def KeepsPage (imageSize : Nat) (demand : Demand) (entries : List Entry) : Prop :=
  let full := demand.defaults imageSize
  ∀ before span after page, entries = before ++ ⟨span, .empty⟩ :: after →
    full.NoneQualifies before →
    full.chosen (spanOf before) (spanOf before + span) = some page →
    full.address (spanOf before) page + 1 ≠ demand.regionOffset ∧
      (demand.regionOffset ≤ full.address (spanOf before) page →
        page = .first ∨ demand.pageSize = 0 ∨
          alignShift demand.regionOffset (min full.align demand.pageSize) +
            demand.size ≤ demand.pageSize)

section Promise

variable {image : Image} {demand : Demand} {entries : List Entry} {imageSize : Nat}

/-- The content of a position that qualifies stays in its page if and only if it
is the first position or the shift leaves room. -/
theorem paged_iff (proper : demand.Proper imageSize) (small : imageSize < 2147483648)
    {addr addrNext : Nat} {page : Page} (inside : addrNext ≤ imageSize)
    (qualifies : (demand.defaults imageSize).qualifies addr addrNext page = true)
    (above : demand.regionOffset ≤ (demand.defaults imageSize).address addr page)
    (place : (demand.defaults imageSize).position addr page =
      (demand.defaults imageSize).address addr page - demand.regionOffset)
    (back : (demand.defaults imageSize).position addr page + demand.size ≤ addrNext) :
    (demand.defaults imageSize).position addr page / (demand.defaults imageSize).pageSize =
        ((demand.defaults imageSize).position addr page + demand.size - 1) /
          (demand.defaults imageSize).pageSize ↔
      page = .first ∨ demand.pageSize = 0 ∨
        alignShift demand.regionOffset
          (min (demand.defaults imageSize).align demand.pageSize) +
            demand.size ≤ demand.pageSize := by
  have content := proper.content
  by_cases default : demand.pageSize = 0
  · have size : (demand.defaults imageSize).pageSize = imageSize := if_pos default
    refine iff_of_true ?_ (.inr (.inl default))
    rw [size, Nat.div_eq_of_lt (by omega), Nat.div_eq_of_lt (by omega)]
  · have size : (demand.defaults imageSize).pageSize = demand.pageSize := if_neg default
    obtain ⟨⟨power, pages, pageSize⟩, -⟩ := proper.page.resolve_left default
    obtain ⟨exponent, aligns, align⟩ := proper.align_spec
    by_cases first : page = .first
    · subst first
      refine iff_of_true ?_ (.inl rfl)
      refine samePage_of_first ?_ ?_ content (by omega) back qualifies
      · rw [size]
        omega
      · rw [size, pageSize]
        exact Nat.pow_lt_pow_right (by decide) pages
    · have later := @samePage_iff_of_later (demand.defaults imageSize) addr
        power exponent page (size.trans pageSize) pages align aligns content
        first above
      rw [place]
      refine later.trans ?_
      rw [size, or_iff_right first, or_iff_right default]
      rfl

theorem position_of_chosen (whole : spanOf entries = imageSize)
    (small : imageSize < 2147483648) (proper : demand.Proper imageSize)
    {span : Nat} {page : Page}
    (split : entries = before ++ ⟨span, .empty⟩ :: after)
    (choice : (demand.defaults imageSize).chosen (spanOf before)
      (spanOf before + span) = some page) :
    spanOf before + span ≤ imageSize ∧
      (demand.defaults imageSize).qualifies (spanOf before) (spanOf before + span) page = true ∧
      (demand.regionOffset ≤ (demand.defaults imageSize).address (spanOf before) page ∧
          (demand.defaults imageSize).position (spanOf before) page =
            (demand.defaults imageSize).address (spanOf before) page - demand.regionOffset ∧
          spanOf before + demand.metadataSize ≤
            (demand.defaults imageSize).position (spanOf before) page ∧
          (demand.defaults imageSize).position (spanOf before) page +
            demand.size ≤ spanOf before + span ∧
          toInt32 ((demand.defaults imageSize).position (spanOf before) page) =
            (demand.defaults imageSize).position (spanOf before) page ∨
        (demand.defaults imageSize).address (spanOf before) page < demand.regionOffset ∧
          toInt32 ((demand.defaults imageSize).position (spanOf before) page) =
            ((demand.defaults imageSize).address (spanOf before) page : Int) -
              demand.regionOffset) := by
  obtain ⟨positive, word, -⟩ := proper.align_bounds
  have region := proper.region
  rw [split, spanOf_append, spanOf] at whole
  change spanOf before + (span + spanOf after) = imageSize at whole
  have inside : spanOf before + span ≤ imageSize := by omega
  have qualifies := List.find?_some choice
  have place := Demand.position_of_qualifies
    (by rw [Demand.metadataSize_defaults]; exact proper.header)
    (by rw [Demand.size_defaults]; exact proper.bounded) positive word
    (by rw [Demand.regionOffset_defaults]; omega) (Nat.le_add_right _ _)
    (by omega) qualifies
  rw [Demand.regionOffset_defaults, Demand.metadataSize_defaults, Demand.size_defaults] at place
  exact ⟨inside, qualifies, place⟩

theorem front_spec {address regionOffset : Nat} (front : address < regionOffset) :
    (∀ offset : Nat, (address : Int) - regionOffset ≠ offset) ∧
      ((address : Int) - regionOffset = -1 ↔ address + 1 = regionOffset) := by
  refine ⟨fun offset => ?_, ?_⟩
  · omega
  · omega

theorem natCast_ne_neg_one (offset : Nat) : (offset : Int) ≠ -1 := by
  omega

/-- The offset that `cbfs_locate_entry` returns suits the file, and it returns
none only if there is none, exactly when the content stays in its page. -/
theorem locates_iff {type : Nat} {name content : List Byte} {header : Memory}
    (held : Held image entries) (proper : demand.Proper image.size)
    (built : BuiltHeader type content.length name header)
    (live : type % 2 ^ 32 ≠ cbfsComponentDeleted ∧ type % 2 ^ 32 ≠ cbfsComponentNull)
    (metadataSize : demand.metadataSize = entryOffset header 0)
    (size : demand.size = content.length) :
    Locates image demand entries content header ↔
      KeepsPage image.size demand (coalesce none entries) := by
  obtain ⟨data, merged, located⟩ := cbfsLocateEntry_spec held (proper.asserted held.small)
  have whole : spanOf (coalesce none entries) = image.size := merged.whole
  have small := held.small
  constructor
  · rintro ⟨image', result, run, suits, missing⟩
    obtain ⟨sameImage, sameResult⟩ := Prod.mk.inj (Option.some.inj (located.symm.trans run))
    intro before span after page split front choice
    have found := @Demand.find_of_chosen _ before after span page front choice
    rw [split, found, Option.elim_some] at sameResult
    obtain ⟨inside, qualifies, place⟩ := position_of_chosen whole small proper split choice
    rcases place with ⟨above, place, -, back, offset⟩ | ⟨front, offset⟩
    · refine ⟨by omega, fun _ => ?_⟩
      have paged := (suits _ (sameResult.symm.trans offset)).paged
      exact (paged_iff proper small inside qualifies above place back).mp paged
    · refine ⟨fun near => ?_, fun above => absurd above (Nat.not_le.mpr front)⟩
      have missed := (sameResult.symm.trans offset).trans ((front_spec front).2.mpr near)
      have none' := missing missed before span after split page
      exact absurd qualifies (by rw [none']; decide)
  · intro keeps
    refine ⟨_, _, located, ?_⟩
    cases found : (demand.defaults image.size).find 0 (coalesce none entries) with
    | none =>
      rw [Option.elim_none]
      refine ⟨fun offset same => absurd same.symm (natCast_ne_neg_one offset), fun _ => ?_⟩
      exact (Demand.find_zero_eq_none _).mp found
    | some position =>
      obtain ⟨before, span, after, page, split, skipped, choice, same⟩ :=
        Demand.exists_of_find _ found
      rw [Nat.zero_add] at choice same
      obtain ⟨apart, stays⟩ := keeps before span after page split
        ((Demand.find_zero_eq_none _).mp skipped) choice
      obtain ⟨inside, qualifies, place⟩ := position_of_chosen whole small proper split choice
      rw [Option.elim_some, same]
      rcases place with ⟨above, place, front, back, offset⟩ | ⟨front, offset⟩
      · refine ⟨fun other equal => ?_, fun missing => ?_⟩
        · obtain rfl : (demand.defaults image.size).position (spanOf before)
              page = other := Int.ofNat.inj (offset.symm.trans equal)
          have mergedEntries := merged_coalesce none entries
          rw [split] at merged mergedEntries
          have added := @cbfsAddEntry_of_room before after { image with data }
            span type ((demand.defaults image.size).position (spanOf before)
              page) name content header merged mergedEntries built live
            (by rw [← metadataSize]; exact front)
            (by rw [← size]; exact back)
          have aligned : (demand.defaults image.size).align ∣
              (demand.defaults image.size).position (spanOf before) page + demand.regionOffset := by
            rw [place, Nat.sub_add_cancel above]
            exact proper.dvd_address _ page
          have paged := (paged_iff proper small inside qualifies above place back).mpr (stays above)
          rw [split]
          exact ⟨aligned, paged, ⟨before, span, after, rfl, front, back⟩, added⟩
        · exact absurd (offset.symm.trans missing) (natCast_ne_neg_one _)
      · refine ⟨fun other equal => ?_, fun missing => ?_⟩
        · exact absurd (offset.symm.trans equal) ((front_spec front).1 other)
        · exact absurd ((front_spec front).2.mp (offset.symm.trans missing)) apart

end Promise

theorem exists_emptyImage (size length : Nat) (whole : 64 ∣ size)
    (room : 64 ≤ size) (small : size < 2147483648) :
    ∃ image header, image.size = size ∧ Held image [⟨size, .empty⟩] ∧
      BuiltHeader 0x50 length [0x62] header ∧ entryOffset header 0 = 40 := by
  obtain ⟨image, created⟩ : ∃ image, cbfsImageCreate ⟨size, fun _ => 0⟩ size = some image := by
    rw [cbfsImageCreate, minEntrySize_eq, if_neg (by decide),
      if_neg (lt_irrefl _), if_neg (by omega)]
    exact ⟨_, rfl⟩
  obtain ⟨held, same⟩ := held_of_create whole small created
  have built : Built 0x50 length [0x62] (cbfsCreateFileHeader 0x50 length [0x62]) :=
    .create (by decide) (by decide) (by decide)
  exact ⟨image, _, same, held, built.spec,
    (header_createFileHeader 0x50 length (by decide)).1.offset⟩

/-- A content smaller than a page goes behind its header. -/
theorem locates_iff_onePage : ∃ image header,
    Held image [⟨256, .empty⟩] ∧
      Locates image ⟨0, 40, 128, 64, 40⟩ [⟨256, .empty⟩] (List.replicate 40 0) header := by
  obtain ⟨image, header, size, held, built, offset⟩ :=
    exists_emptyImage 256 40 (by decide) (by decide) (by decide)
  refine ⟨image, header, held, (locates_iff held ?_ built (by decide) offset.symm rfl).mpr ?_⟩
  · rw [size]
    exact ⟨by decide, by decide, by decide,
      .inr ⟨⟨7, by decide, rfl⟩, by decide, by decide⟩,
      .inr ⟨6, by decide, rfl⟩, by decide⟩
  · intro before span after page split skipped choice
    exact ⟨Nat.succ_ne_zero _, fun _ => .inr (.inr (by rw [size]; decide))⟩

/-- The first position crosses a page and is rejected; the second, which is moved
up by the alignment in the flash, is the same and is taken. -/
theorem not_locates_shifted : ∃ image header,
    Held image [⟨16384, .empty⟩] ∧
      BuiltHeader 0x50 (List.replicate 4096 (0 : Byte)).length [0x62] header ∧
      entryOffset header 0 = 40 ∧
      ¬ Locates image ⟨512, 4096, 4096, 1024, 40⟩ [⟨16384, .empty⟩]
        (List.replicate 4096 0) header := by
  obtain ⟨image, header, size, held, built, offset⟩ :=
    exists_emptyImage 16384 4096 (by decide) (by decide) (by decide)
  refine ⟨image, header, held, by rwa [List.length_replicate], offset, ?_⟩
  rintro ⟨image', result, run, suits, -⟩
  have proper : (Demand.mk 512 4096 4096 1024 40).Proper image.size := by
    rw [size]
    exact ⟨by decide, by decide, by decide,
      .inr ⟨⟨12, by decide, rfl⟩, by decide, by decide⟩,
      .inr ⟨10, by decide, rfl⟩, by decide⟩
  obtain ⟨data, -, located⟩ := cbfsLocateEntry_spec held (proper.asserted held.small)
  obtain ⟨-, sameResult⟩ := Prod.mk.inj (Option.some.inj (located.symm.trans run))
  have found : ((Demand.mk 512 4096 4096 1024 40).defaults image.size).find 0
      (coalesce none [⟨16384, .empty⟩]) = some 512 := by
    rw [size]
    decide
  rw [found, Option.elim_some, toInt32_of_lt (by decide)] at sameResult
  have paged := (suits 512 sameResult.symm).paged
  rw [size] at paged
  exact absurd paged (by decide)

end Coreboot.Cbfs
