import Coreboot.SteppedRun
import Mathlib.Data.Nat.Basic
import Mathlib.Tactic.Ring

/-!
# The attributes of a file

The metadata of a file ends with a chain of attributes.
-/

namespace Coreboot.CbfsAttributeWalk

open SteppedRun

abbrev Byte := BitVec 8

def cbfsFileAttrTagCompression : Nat := 0x42435a4c

def cbfsCompressNone : Nat := 0

def cbfsFileSize : Nat := 24

def cbfsFileAttributeSize : Nat := 8

/-- The bytes are read from inside the metadata, or the read is at fault. -/
def readBe32 (metadata : List Byte) (offset : Nat) : Option Nat := do
  let first ← metadata[offset]?
  let second ← metadata[offset + 1]?
  let third ← metadata[offset + 2]?
  let fourth ← metadata[offset + 3]?
  return ((first.toNat * 256 + second.toNat) * 256 + third.toNat) * 256 + fourth.toNat

section Walk

variable (width : Nat) (metadata : List Byte)

/-- `cbfs_for_each_attr`; no value when it reads outside the metadata.  Offsets
are of type `size_t`. -/
def cbfsForEachAttr (lastOffset : Nat) : Option Nat :=
  if lastOffset = 0 then do
    let startOffset ← readBe32 metadata 16
    if startOffset ≤ cbfsFileSize ∨
        metadata.length < (startOffset + cbfsFileAttributeSize) % 2 ^ width then
      return 0
    else return startOffset
  else do
    let len ← readBe32 metadata (lastOffset + 4)
    let nextOffset := (lastOffset + len) % 2 ^ width
    if metadata.length < (nextOffset + cbfsFileAttributeSize) % 2 ^ width then
      return 0
    else return nextOffset

/-- What `cbfsf_decompression_info` does at an attribute: it goes on, or it has
an algorithm and a size. -/
def visitAttr (offs : Nat) : Nat ⊕ Option (Nat × Nat) :=
  match readBe32 metadata offs with
  | none => .inr none
  | some tag =>
    if tag ≠ cbfsFileAttrTagCompression then .inl offs
    else .inr do
      let algo ← readBe32 metadata (offs + 8)
      let size ← readBe32 metadata (offs + 12)
      return (algo, size)

/-- A turn of the loop of `cbfsf_decompression_info`. -/
def walkStep (dataSize : Nat) (offs : Nat) : Nat ⊕ Option (Nat × Nat) :=
  match cbfsForEachAttr width metadata offs with
  | none => .inr none
  | some 0 => .inr (some (cbfsCompressNone, dataSize))
  | some (offs + 1) => visitAttr metadata (offs + 1)

def cbfsfDecompressionInfo (fuel dataSize : Nat) : Option (Option (Nat × Nat)) :=
  run (walkStep width metadata dataSize) fuel 0

end Walk

section Chain

variable (metadata : List Byte)

def startOffset : Nat := (readBe32 metadata 16).getD 0

def attrTag (offset : Nat) : Nat := (readBe32 metadata offset).getD 0

def attrLen (offset : Nat) : Nat := (readBe32 metadata (offset + 4)).getD 0

def HeaderInside (offset : Nat) : Prop := offset + cbfsFileAttributeSize ≤ metadata.length

/-- From an attribute the lengths lead to a compression attribute, the first
one. -/
inductive LeadsTo : Nat → Nat → Prop
  | here {offset : Nat} (inside : HeaderInside metadata offset)
      (tag : attrTag metadata offset = cbfsFileAttrTagCompression) :
      LeadsTo offset offset
  | next {offset found : Nat} (inside : HeaderInside metadata offset)
      (tag : attrTag metadata offset ≠ cbfsFileAttrTagCompression)
      (later : LeadsTo (offset + attrLen metadata offset) found) :
      LeadsTo offset found

def FirstCompression (found : Nat) : Prop :=
  cbfsFileSize < startOffset metadata ∧ LeadsTo metadata (startOffset metadata) found

def Expected (dataSize : Nat) (result : Nat × Nat) : Prop :=
  (∃ found, FirstCompression metadata found ∧
    readBe32 metadata (found + 8) = some result.1 ∧
    readBe32 metadata (found + 12) = some result.2) ∨
  (¬ ∃ found, FirstCompression metadata found) ∧ result = (cbfsCompressNone, dataSize)

/-- The walk ends, reads inside the metadata only, and has the expected
result. -/
def WalkCorrect (width dataSize : Nat) : Prop :=
  ∃ fuel result, cbfsfDecompressionInfo width metadata fuel dataSize =
    some (some result) ∧ Expected metadata dataSize result

/-- The attributes that are reachable up to the first compression attribute. -/
inductive Reachable : Nat → Prop
  | first (behind : cbfsFileSize < startOffset metadata)
      (inside : HeaderInside metadata (startOffset metadata)) :
      Reachable (startOffset metadata)
  | next {offset : Nat} (reachable : Reachable offset)
      (tag : attrTag metadata offset ≠ cbfsFileAttrTagCompression)
      (inside : HeaderInside metadata (offset + attrLen metadata offset)) :
      Reachable (offset + attrLen metadata offset)

/-- From an attribute the walk, with offsets that wrap around, ends inside the
metadata with no compression or with a compression attribute that says so. -/
inductive Quiet (width dataSize : Nat) : Nat → Prop
  | none {offset : Nat}
      (tag : attrTag metadata offset = cbfsFileAttrTagCompression)
      (algo : readBe32 metadata (offset + 8) = some cbfsCompressNone)
      (size : readBe32 metadata (offset + 12) = some dataSize) :
      Quiet width dataSize offset
  | stop {offset next : Nat}
      (tag : attrTag metadata offset ≠ cbfsFileAttrTagCompression)
      (is : next = (offset + attrLen metadata offset) % 2 ^ width)
      (outside : next = 0 ∨ metadata.length < (next + cbfsFileAttributeSize) % 2 ^ width) :
      Quiet width dataSize offset
  | next {offset next : Nat}
      (tag : attrTag metadata offset ≠ cbfsFileAttrTagCompression)
      (is : next = (offset + attrLen metadata offset) % 2 ^ width)
      (positive : next ≠ 0) (inside : HeaderInside metadata next)
      (later : Quiet width dataSize next) : Quiet width dataSize offset

/-- The metadata holds the field `attributes_offset`; no attribute in front of
the first compression attribute has the length 0 or leads beyond the largest
offset; and the compression attribute is inside. -/
structure Sane (width dataSize : Nat) : Prop where
  header : 20 ≤ metadata.length
  start : cbfsFileSize < startOffset metadata →
    startOffset metadata + cbfsFileAttributeSize < 2 ^ width
  progress : ∀ offset, Reachable metadata offset →
    attrTag metadata offset ≠ cbfsFileAttrTagCompression →
    attrLen metadata offset ≠ 0
  wrap : ∀ offset, Reachable metadata offset →
    attrTag metadata offset ≠ cbfsFileAttrTagCompression →
    offset + attrLen metadata offset + cbfsFileAttributeSize < 2 ^ width ∨
      offset + attrLen metadata offset = 2 ^ width ∨
      2 ^ width < offset + attrLen metadata offset ∧
        Quiet metadata width dataSize (offset + attrLen metadata offset - 2 ^ width)
  room : ∀ offset, Reachable metadata offset →
    attrTag metadata offset = cbfsFileAttrTagCompression →
    offset + 16 ≤ metadata.length

end Chain

section Reads

variable {metadata : List Byte} {offset : Nat}

theorem readBe32_eq_none (outside : metadata.length < offset + 4) :
    readBe32 metadata offset = none := by
  have last : metadata[offset + 3]? = none := List.getElem?_eq_none (by omega)
  rw [readBe32, last]
  cases metadata[offset]? <;> cases metadata[offset + 1]? <;> cases metadata[offset + 2]? <;> rfl

theorem exists_readBe32 (metadata : List Byte) (offset : Nat)
    (inside : offset + 4 ≤ metadata.length) :
    ∃ value < 2 ^ 32, readBe32 metadata offset = some value := by
  rw [readBe32, List.getElem?_eq_getElem (show offset < _ by omega),
    List.getElem?_eq_getElem (show offset + 1 < _ by omega),
    List.getElem?_eq_getElem (show offset + 2 < _ by omega),
    List.getElem?_eq_getElem (show offset + 3 < _ by omega)]
  have first := metadata[offset].isLt
  have second := metadata[offset + 1].isLt
  have third := metadata[offset + 2].isLt
  have fourth := metadata[offset + 3].isLt
  exact ⟨_, by omega, rfl⟩

end Reads

section Visits

variable (width : Nat) (metadata : List Byte) (dataSize : Nat)

def Visits (offset : Nat) (result : Nat × Nat) : Prop :=
  match visitAttr metadata offset with
  | .inl next => EndsWith (walkStep width metadata dataSize) next (some result)
  | .inr outcome => outcome = some result

variable {width metadata dataSize} {offset : Nat} {result : Nat × Nat}

theorem readBe32_tag (inside : HeaderInside metadata offset) :
    readBe32 metadata offset = some (attrTag metadata offset) := by
  obtain ⟨value, -, read⟩ := exists_readBe32 metadata offset
    (by unfold HeaderInside cbfsFileAttributeSize at inside; omega)
  rw [attrTag, read]
  rfl

theorem readBe32_len (inside : HeaderInside metadata offset) :
    readBe32 metadata (offset + 4) = some (attrLen metadata offset) ∧
      attrLen metadata offset < 2 ^ 32 := by
  obtain ⟨value, small, read⟩ := exists_readBe32 metadata (offset + 4)
    (by unfold HeaderInside cbfsFileAttributeSize at inside; omega)
  rw [attrLen, read]
  exact ⟨rfl, small⟩

variable {next : Nat}

theorem endsWith_iff (found : cbfsForEachAttr width metadata offset = some next) :
    EndsWith (walkStep width metadata dataSize) offset (some result) ↔
      next = 0 ∧ result = (cbfsCompressNone, dataSize) ∨
        next ≠ 0 ∧ Visits width metadata dataSize next result := by
  cases next with
  | zero =>
    have step : walkStep width metadata dataSize offset =
        .inr (some (cbfsCompressNone, dataSize)) := by
      rw [walkStep, found]
    rw [endsWith_iff_of_ended step, Option.some.injEq]
    exact ⟨fun same => .inl ⟨rfl, same.symm⟩, fun either =>
      either.elim (fun stops => stops.2.symm) fun visits => absurd rfl visits.1⟩
  | succ offs =>
    have step : walkStep width metadata dataSize offset = visitAttr metadata (offs + 1) := by
      rw [walkStep, found]
    have nonzero : offs + 1 ≠ 0 := Nat.succ_ne_zero offs
    rw [or_iff_right fun stops => nonzero stops.1, and_iff_right nonzero, Visits]
    cases visit : visitAttr metadata (offs + 1) with
    | inl next => exact endsWith_iff_of_moves (step.trans visit)
    | inr outcome => exact endsWith_iff_of_ended (step.trans visit)

theorem not_endsWith_of_fault (fault : cbfsForEachAttr width metadata offset = none) :
    ¬ EndsWith (walkStep width metadata dataSize) offset (some result) := by
  have step : walkStep width metadata dataSize offset = .inr none := by
    rw [walkStep, fault]
  rw [endsWith_iff_of_ended step]
  exact nofun

theorem visits_iff (inside : HeaderInside metadata offset) :
    Visits width metadata dataSize offset result ↔
      attrTag metadata offset = cbfsFileAttrTagCompression ∧
          readBe32 metadata (offset + 8) = some result.1 ∧
          readBe32 metadata (offset + 12) = some result.2 ∨
        attrTag metadata offset ≠ cbfsFileAttrTagCompression ∧
          EndsWith (walkStep width metadata dataSize) offset (some result) := by
  rw [Visits, visitAttr, readBe32_tag inside]
  by_cases compression : attrTag metadata offset = cbfsFileAttrTagCompression
  · simp only [compression, ne_eq, not_true, if_false, true_and, false_and, or_false]
    constructor
    · intro read
      obtain ⟨algo, algoRead, rest⟩ := Option.bind_eq_some_iff.mp read
      obtain ⟨size, sizeRead, same⟩ := Option.bind_eq_some_iff.mp rest
      cases same
      exact ⟨algoRead, sizeRead⟩
    · rintro ⟨algoRead, sizeRead⟩
      rw [algoRead, sizeRead]
      rfl
  · simp only [compression, ne_eq, not_false_iff, if_true, false_and, true_and, false_or]

theorem not_visits_of_outside (positive : offset ≠ 0) (outside : ¬ HeaderInside metadata offset) :
    ¬ Visits width metadata dataSize offset result := by
  unfold HeaderInside cbfsFileAttributeSize at outside
  rw [Visits, visitAttr]
  cases readBe32 metadata offset with
  | none => exact nofun
  | some tag =>
    by_cases compression : tag = cbfsFileAttrTagCompression
    · simp only [compression, ne_eq, not_true, if_false]
      rw [readBe32_eq_none (by omega)]
      exact nofun
    · simp only [compression, ne_eq, not_false_iff, if_true]
      apply not_endsWith_of_fault
      rw [cbfsForEachAttr, if_neg positive, readBe32_eq_none (by omega)]
      rfl

theorem cbfsForEachAttr_next (width : Nat) (positive : offset ≠ 0)
    (inside : HeaderInside metadata offset)
    (is : next = (offset + attrLen metadata offset) % 2 ^ width) :
    cbfsForEachAttr width metadata offset =
      if metadata.length < (next + cbfsFileAttributeSize) % 2 ^ width then some 0
      else some next := by
  rw [cbfsForEachAttr, if_neg positive, (readBe32_len inside).1]
  simp only [Option.bind_eq_bind, Option.bind_some, ← is]
  rfl

theorem visits_next_iff (positive : offset ≠ 0) (inside : HeaderInside metadata offset)
    (tag : attrTag metadata offset ≠ cbfsFileAttrTagCompression)
    (is : next = (offset + attrLen metadata offset) % 2 ^ width) :
    Visits width metadata dataSize offset result ↔
      (next = 0 ∨ metadata.length <
          (next + cbfsFileAttributeSize) % 2 ^ width) ∧
          result = (cbfsCompressNone, dataSize) ∨
        next ≠ 0 ∧ (next + cbfsFileAttributeSize) % 2 ^ width ≤ metadata.length ∧
          Visits width metadata dataSize next result := by
  rw [visits_iff inside, or_iff_right fun here => tag here.1, and_iff_right tag]
  have found := cbfsForEachAttr_next width positive inside is
  by_cases ends : metadata.length < (next + cbfsFileAttributeSize) % 2 ^ width
  · rw [endsWith_iff (found.trans (if_pos ends))]
    constructor
    · rintro (⟨-, same⟩ | ⟨absurdity, -⟩)
      · exact .inl ⟨.inr ends, same⟩
      · exact absurd rfl absurdity
    · rintro (⟨-, same⟩ | ⟨-, notEnds, -⟩)
      · exact .inl ⟨rfl, same⟩
      · exact absurd ends (Nat.not_lt.mpr notEnds)
  · rw [endsWith_iff (found.trans (if_neg ends))]
    constructor
    · rintro (⟨zero, same⟩ | ⟨nonzero, visits⟩)
      · exact .inl ⟨.inl zero, same⟩
      · exact .inr ⟨nonzero, Nat.not_lt.mp ends, visits⟩
    · rintro (⟨zero | ends', same⟩ | ⟨nonzero, -, visits⟩)
      · exact .inl ⟨zero, same⟩
      · exact absurd ends' ends
      · exact .inr ⟨nonzero, visits⟩

theorem HeaderInside.mod (inside : HeaderInside metadata offset)
    (fits : metadata.length < 2 ^ width) :
    (offset + cbfsFileAttributeSize) % 2 ^ width ≤ metadata.length := by
  rw [Nat.mod_eq_of_lt (Nat.lt_of_le_of_lt inside fits)]
  exact inside

theorem visits_of_quiet (fits : metadata.length < 2 ^ width)
    (quiet : Quiet metadata width dataSize offset) (positive : offset ≠ 0)
    (inside : HeaderInside metadata offset) :
    Visits width metadata dataSize offset (cbfsCompressNone, dataSize) := by
  induction quiet with
  | none tag algo size => exact (visits_iff inside).mpr (.inl ⟨tag, algo, size⟩)
  | stop tag is outside =>
    exact (visits_next_iff positive inside tag is).mpr (.inl ⟨outside, rfl⟩)
  | next tag is nextPositive nextInside _ ih =>
    exact (visits_next_iff positive inside tag is).mpr
      (.inr ⟨nextPositive, nextInside.mod fits, ih nextPositive nextInside⟩)

theorem quiet_of_run (fuel : Nat) (positive : offset ≠ 0) (inside : HeaderInside metadata offset)
    (tag : attrTag metadata offset ≠ cbfsFileAttrTagCompression)
    (ran : run (walkStep width metadata dataSize) fuel offset =
      some (some (cbfsCompressNone, dataSize))) : Quiet metadata width dataSize offset := by
  induction fuel generalizing offset with
  | zero => cases ran
  | succ fuel ih =>
    obtain ⟨next, is⟩ : ∃ next, next = (offset + attrLen metadata offset) % 2 ^ width := ⟨_, rfl⟩
    have visits : Visits width metadata dataSize offset (cbfsCompressNone, dataSize) :=
      (visits_iff inside).mpr (.inr ⟨tag, exists_run_iff.mp ⟨fuel + 1, ran⟩⟩)
    rcases (visits_next_iff positive inside tag is).mp visits with
      ⟨outside, -⟩ | ⟨nextPositive, check, later⟩
    · exact .stop tag is outside
    · have nextInside : HeaderInside metadata next := by
        by_contra outside
        exact not_visits_of_outside nextPositive outside later
      refine .next tag is nextPositive nextInside ?_
      rcases (visits_iff nextInside).mp later with ⟨compression, algo, size⟩ | ⟨nextTag, -⟩
      · exact .none compression algo size
      · refine ih nextPositive nextInside nextTag ?_
        have moves : walkStep width metadata dataSize offset = .inl next := by
          rw [walkStep, cbfsForEachAttr_next width positive inside is,
            if_neg (Nat.not_lt.mpr check)]
          cases next with
          | zero => exact absurd rfl nextPositive
          | succ offs =>
            simp only [visitAttr, readBe32_tag nextInside, nextTag, ne_eq, not_false_iff, if_true]
        rwa [run, moves] at ran

theorem quiet_iff (fits : metadata.length < 2 ^ width) (positive : offset ≠ 0)
    (inside : HeaderInside metadata offset) :
    Quiet metadata width dataSize offset ↔
      Visits width metadata dataSize offset (cbfsCompressNone, dataSize) := by
  refine ⟨fun quiet => visits_of_quiet fits quiet positive inside, fun visits => ?_⟩
  rcases (visits_iff inside).mp visits with ⟨tag, algo, size⟩ | ⟨tag, ends⟩
  · exact .none tag algo size
  · obtain ⟨fuel, ran⟩ := exists_run_iff.mpr ends
    exact quiet_of_run fuel positive inside tag ran

end Visits

section Chain

variable {width : Nat} {metadata : List Byte} {dataSize offset found : Nat} {result : Nat × Nat}

theorem LeadsTo.inside (leads : LeadsTo metadata offset found) : HeaderInside metadata offset := by
  cases leads with
  | here inside _ => exact inside
  | next inside _ _ => exact inside

theorem leadsTo_iff_of_other (inside : HeaderInside metadata offset)
    (tag : attrTag metadata offset ≠ cbfsFileAttrTagCompression) :
    LeadsTo metadata offset found ↔ LeadsTo metadata (offset + attrLen metadata offset) found := by
  constructor
  · intro leads
    cases leads with
    | here _ other => exact absurd other tag
    | next _ _ later => exact later
  · exact .next inside tag

section

variable (reachable : Reachable metadata offset)
include reachable

theorem Reachable.inside :
    HeaderInside metadata offset := by
  cases reachable with
  | first _ inside => exact inside
  | next _ _ inside => exact inside

theorem Reachable.positive : offset ≠ 0 := by
  induction reachable with
  | first behind _ => exact Nat.ne_of_gt (Nat.zero_lt_of_lt behind)
  | next _ _ _ ih => exact fun zero => ih (Nat.eq_zero_of_add_eq_zero_right zero)

theorem Reachable.firstCompression_iff :
    FirstCompression metadata found ↔ LeadsTo metadata offset found := by
  induction reachable with
  | first behind _ => exact and_iff_right behind
  | next reachable tag _ ih => exact ih.trans (leadsTo_iff_of_other reachable.inside tag)

end

theorem startOffset_lt (header : 20 ≤ metadata.length) :
    readBe32 metadata 16 = some (startOffset metadata) ∧ startOffset metadata < 2 ^ 32 := by
  obtain ⟨value, small, read⟩ := exists_readBe32 metadata 16 header
  rw [startOffset, read]
  exact ⟨rfl, small⟩

theorem cbfsForEachAttr_zero (width : Nat) (header : 20 ≤ metadata.length) :
    cbfsForEachAttr width metadata 0 =
      if startOffset metadata ≤ cbfsFileSize ∨ metadata.length <
          (startOffset metadata + cbfsFileAttributeSize) % 2 ^ width then some 0
      else some (startOffset metadata) := by
  rw [cbfsForEachAttr, if_pos rfl, (startOffset_lt header).1]
  rfl

theorem walkCorrect_iff : WalkCorrect metadata width dataSize ↔
    ∃ result, EndsWith (walkStep width metadata dataSize) 0 (some result) ∧
      Expected metadata dataSize result := by
  constructor
  · rintro ⟨fuel, result, ran, expected⟩
    exact ⟨result, exists_run_iff.mp ⟨fuel, ran⟩, expected⟩
  · rintro ⟨result, ends, expected⟩
    obtain ⟨fuel, ran⟩ := exists_run_iff.mpr ends
    exact ⟨fuel, result, ran, expected⟩

theorem wrapped_next (wide : 32 ≤ width) (fits : metadata.length < 2 ^ width)
    (inside : HeaderInside metadata offset)
    (beyond : 2 ^ width < offset + attrLen metadata offset) :
    (offset + attrLen metadata offset) % 2 ^ width = offset + attrLen metadata offset - 2 ^ width ∧
      offset + attrLen metadata offset - 2 ^ width ≠ 0 ∧
      HeaderInside metadata (offset + attrLen metadata offset - 2 ^ width) := by
  have small : attrLen metadata offset < 2 ^ width :=
    (readBe32_len inside).2.trans_le (Nat.pow_le_pow_right Nat.two_pos wide)
  have eight : cbfsFileAttributeSize = 8 := rfl
  unfold HeaderInside at inside ⊢
  refine ⟨?_, by omega, by omega⟩
  rw [Nat.mod_eq_sub_mod beyond.le, Nat.mod_eq_of_lt (by omega)]

theorem visits_of_sane (wide : 32 ≤ width) (fits : metadata.length < 2 ^ width)
    (sane : Sane metadata width dataSize) (reachable : Reachable metadata offset) :
    ∃ result, Visits width metadata dataSize offset result ∧ Expected metadata dataSize result := by
  obtain ⟨left, is⟩ : ∃ left, left = metadata.length - offset := ⟨_, rfl⟩
  induction left using Nat.strong_induction_on generalizing offset with
  | _ left ih =>
    have inside := reachable.inside
    have eight : cbfsFileAttributeSize = 8 := rfl
    by_cases tag : attrTag metadata offset = cbfsFileAttrTagCompression
    · have room := sane.room offset reachable tag
      obtain ⟨algo, -, algoRead⟩ := exists_readBe32 metadata (offset + 8) (by omega)
      obtain ⟨size, -, sizeRead⟩ := exists_readBe32 metadata (offset + 12) (by omega)
      exact ⟨(algo, size), (visits_iff inside).mpr (.inl ⟨tag, algoRead, sizeRead⟩),
        .inl ⟨offset, reachable.firstCompression_iff.mpr (.here inside tag), algoRead, sizeRead⟩⟩
    · have progress := sane.progress offset reachable tag
      by_cases more : HeaderInside metadata (offset + attrLen metadata offset)
      · obtain ⟨result, visits, expected⟩ :=
          ih (metadata.length - (offset + attrLen metadata offset))
            (by unfold HeaderInside at inside; omega)
            (reachable.next tag more) rfl
        refine ⟨result, (visits_next_iff reachable.positive inside tag rfl).mpr (.inr ?_), expected⟩
        have less : offset + attrLen metadata offset < 2 ^ width := by
          unfold HeaderInside at more
          omega
        rw [Nat.mod_eq_of_lt less]
        exact ⟨(reachable.next tag more).positive, more.mod fits, visits⟩
      · have expected : Expected metadata dataSize (cbfsCompressNone, dataSize) := by
          refine .inr ⟨?_, rfl⟩
          rintro ⟨found, first⟩
          have leads := (leadsTo_iff_of_other inside tag).mp
            (reachable.firstCompression_iff.mp first)
          exact more leads.inside
        refine ⟨_, (visits_next_iff reachable.positive inside tag rfl).mpr ?_, expected⟩
        unfold HeaderInside at more
        rcases sane.wrap offset reachable tag with small | exact | ⟨beyond, quiet⟩
        · refine .inl ⟨.inr ?_, rfl⟩
          have less : offset + attrLen metadata offset < 2 ^ width := by omega
          rw [Nat.mod_eq_of_lt less, Nat.mod_eq_of_lt small]
          omega
        · exact .inl ⟨.inl (by rw [exact, Nat.mod_self]), rfl⟩
        · obtain ⟨is, positive, nextInside⟩ := wrapped_next wide fits inside beyond
          rw [is]
          exact .inr ⟨positive, nextInside.mod fits, visits_of_quiet fits quiet positive nextInside⟩

theorem walkCorrect_of_sane (wide : 32 ≤ width) (fits : metadata.length < 2 ^ width)
    (sane : Sane metadata width dataSize) : WalkCorrect metadata width dataSize := by
  rw [walkCorrect_iff]
  have start := cbfsForEachAttr_zero width sane.header
  rcases Nat.lt_or_ge cbfsFileSize (startOffset metadata) with behind | without
  · by_cases inside : HeaderInside metadata (startOffset metadata)
    · rw [if_neg (not_or.mpr ⟨Nat.not_le.mpr behind, Nat.not_lt.mpr (inside.mod fits)⟩)] at start
      obtain ⟨result, visits, expected⟩ := visits_of_sane wide fits sane (.first behind inside)
      exact ⟨result, (endsWith_iff start).mpr
        (.inr ⟨(Reachable.first behind inside).positive, visits⟩), expected⟩
    · rw [Nat.mod_eq_of_lt (sane.start behind), if_pos (.inr (Nat.not_le.mp inside))] at start
      refine ⟨_, (endsWith_iff start).mpr (.inl ⟨rfl, rfl⟩), .inr ⟨?_, rfl⟩⟩
      rintro ⟨found, -, leads⟩
      exact inside leads.inside
  · rw [if_pos (.inl without)] at start
    refine ⟨_, (endsWith_iff start).mpr (.inl ⟨rfl, rfl⟩), .inr ⟨?_, rfl⟩⟩
    rintro ⟨found, behind, -⟩
    exact absurd behind (Nat.not_lt.mpr without)

theorem visits_of_reachable (fits : metadata.length < 2 ^ width) (header : 20 ≤ metadata.length)
    (ends : EndsWith (walkStep width metadata dataSize) 0 (some result))
    (reachable : Reachable metadata offset) : Visits width metadata dataSize offset result := by
  induction reachable with
  | first behind inside =>
    have start := cbfsForEachAttr_zero width header
    rw [if_neg (not_or.mpr ⟨Nat.not_le.mpr behind, Nat.not_lt.mpr (inside.mod fits)⟩)] at start
    rcases (endsWith_iff start).mp ends with ⟨zero, -⟩ | ⟨-, visits⟩
    · exact absurd zero (Reachable.first behind inside).positive
    · exact visits
  | @next offset reachable tag inside ih =>
    have less : offset + attrLen metadata offset < 2 ^ width := by
      unfold HeaderInside at inside
      omega
    have positive := (Reachable.next reachable tag inside).positive
    rcases (visits_next_iff reachable.positive reachable.inside tag rfl).mp ih
      with ⟨outside, -⟩ | ⟨-, -, visits⟩
    · rw [Nat.mod_eq_of_lt less] at outside
      exact outside.elim (fun zero => absurd zero positive) fun above =>
        absurd (inside.mod fits) (Nat.not_le.mpr above)
    · rwa [Nat.mod_eq_of_lt less] at visits

theorem not_endsWith_of_loop (moves : Moves (walkStep width metadata dataSize) offset offset) :
    ¬ EndsWith (walkStep width metadata dataSize) offset (some result) := by
  rintro ⟨last, reaches, ended⟩
  have stays : last = offset :=
    reaches.invariant (· = offset) rfl fun state next same step => by
      subst same
      exact (Sum.inl.inj (moves.symm.trans step)).symm
  rw [stays] at ended
  cases moves.symm.trans ended

theorem moves_of_length_zero (fits : metadata.length < 2 ^ width)
    (inside : HeaderInside metadata offset) (positive : offset ≠ 0)
    (tag : attrTag metadata offset ≠ cbfsFileAttrTagCompression)
    (zero : attrLen metadata offset = 0) :
    Moves (walkStep width metadata dataSize) offset offset := by
  have less : offset < 2 ^ width := by
    unfold HeaderInside at inside
    omega
  have next := cbfsForEachAttr_next width positive inside rfl
  rw [zero, Nat.add_zero, Nat.mod_eq_of_lt less, if_neg (Nat.not_lt.mpr (inside.mod fits))] at next
  rw [Moves, walkStep, next]
  cases offset with
  | zero => exact absurd rfl positive
  | succ offs =>
    simp only [visitAttr, readBe32_tag inside, tag, ne_eq, not_false_iff, if_true]

theorem mod_le_of_wraps (header : 20 ≤ metadata.length) (low : offset < 2 ^ width)
    (high : 2 ^ width ≤ offset + cbfsFileAttributeSize) :
    ¬ metadata.length < (offset + cbfsFileAttributeSize) % 2 ^ width := by
  have eight : cbfsFileAttributeSize = 8 := rfl
  have bound : (offset + cbfsFileAttributeSize) % 2 ^ width ≤
      offset + cbfsFileAttributeSize - 2 ^ width := by
    rw [Nat.mod_eq_sub_mod high]
    exact Nat.mod_le _ _
  omega

theorem sane_of_walkCorrect (wide : 32 ≤ width) (fits : metadata.length < 2 ^ width)
    (correct : WalkCorrect metadata width dataSize) : Sane metadata width dataSize := by
  obtain ⟨result, ends, expected⟩ := walkCorrect_iff.mp correct
  have eight : cbfsFileAttributeSize = 8 := rfl
  have header : 20 ≤ metadata.length := by
    by_contra short
    refine not_endsWith_of_fault ?_ ends
    rw [cbfsForEachAttr, if_pos rfl, readBe32_eq_none (by omega)]
    rfl
  have visits {offset : Nat} (reachable : Reachable metadata offset) :=
    visits_of_reachable fits header ends reachable
  have leaves {offset : Nat} (reachable : Reachable metadata offset)
      (tag : attrTag metadata offset ≠ cbfsFileAttrTagCompression) :=
    (visits_next_iff reachable.positive reachable.inside tag rfl).mp (visits reachable)
  refine ⟨header, fun behind => ?_, fun offset reachable tag zero => ?_,
    fun offset reachable tag => ?_, fun offset reachable tag => ?_⟩
  · by_contra high
    have small := (startOffset_lt header).2.trans_le (Nat.pow_le_pow_right Nat.two_pos wide)
    have start := cbfsForEachAttr_zero width header
    rw [if_neg (not_or.mpr ⟨Nat.not_le.mpr behind,
      mod_le_of_wraps header small (Nat.not_lt.mp high)⟩)] at start
    rcases (endsWith_iff start).mp ends with ⟨zero, -⟩ | ⟨nonzero, outside⟩
    · omega
    · refine not_visits_of_outside nonzero ?_ outside
      unfold HeaderInside
      omega
  · have again : EndsWith (walkStep width metadata dataSize) offset (some result) :=
      ((visits_iff reachable.inside).mp (visits reachable)).elim
        (fun here => absurd here.1 tag) And.right
    exact not_endsWith_of_loop (moves_of_length_zero fits reachable.inside
      reachable.positive tag zero) again
  · -- The end of the next header is beyond the largest offset.
    refine or_iff_not_imp_left.mpr fun high => or_iff_not_imp_left.mpr fun differ => ?_
    have noneFound : ¬ ∃ found, FirstCompression metadata found := by
      rintro ⟨found, first⟩
      have leads := (leadsTo_iff_of_other reachable.inside tag).mp
        (reachable.firstCompression_iff.mp first)
      have inside := leads.inside
      unfold HeaderInside at inside
      omega
    have same : result = (cbfsCompressNone, dataSize) := by
      rcases expected with ⟨found, first, -⟩ | ⟨-, same⟩
      · exact absurd ⟨found, first⟩ noneFound
      · exact same
    rcases Nat.lt_or_ge (offset + attrLen metadata offset) (2 ^ width) with
      low | beyond
    · -- The check of the next attribute wraps around.
      have leave := leaves reachable tag
      rw [Nat.mod_eq_of_lt low] at leave
      have check := mod_le_of_wraps header low (Nat.not_lt.mp high)
      rcases leave with ⟨zero | outside, -⟩ | ⟨nonzero, -, next⟩
      · exact absurd ((Nat.add_eq_zero_iff.mp zero).1) reachable.positive
      · exact absurd outside check
      · refine absurd next (not_visits_of_outside nonzero ?_)
        unfold HeaderInside
        omega
    · have beyond : 2 ^ width < offset + attrLen metadata offset :=
        lt_of_le_of_ne beyond (Ne.symm differ)
      obtain ⟨is, positive, inside⟩ := wrapped_next wide fits reachable.inside beyond
      refine ⟨beyond, (quiet_iff fits positive inside).mpr ?_⟩
      have leave := leaves reachable tag
      rw [is] at leave
      rcases leave with ⟨zero | outside, -⟩ | ⟨-, -, next⟩
      · exact absurd zero positive
      · exact absurd (inside.mod fits) (Nat.not_le.mpr outside)
      · rwa [same] at next
  · rcases (visits_iff reachable.inside).mp (visits reachable) with ⟨-, -, size⟩ | ⟨other, -⟩
    · by_contra short
      rw [readBe32_eq_none (by omega)] at size
      cases size
    · exact absurd tag other

/-- The walk does what it promises exactly when the chain is sane. -/
theorem walkCorrect_iff_sane {metadata : List Byte} {width : Nat} (dataSize : Nat)
    (wide : 32 ≤ width) (fits : metadata.length < 2 ^ width) :
    WalkCorrect metadata width dataSize ↔ Sane metadata width dataSize :=
  ⟨sane_of_walkCorrect wide fits, walkCorrect_of_sane wide fits⟩

end Chain

/-- The metadata of a file named by a `c` with a compression attribute behind an
unused one. -/
def compressedFile : List Byte :=
  [0x4c, 0x41, 0x52, 0x43, 0x48, 0x49, 0x56, 0x45, 0, 0, 1, 0, 0, 0, 0, 0x50,
    0, 0, 0, 28, 0, 0, 0, 52, 0x63, 0, 0, 0,
    0, 0, 0, 0, 0, 0, 0, 8,
    0x42, 0x43, 0x5a, 0x4c, 0, 0, 0, 16, 0, 0, 0, 2, 0, 0, 0x10, 0]

theorem walkCorrect_iff_sane_compressedFile :
    WalkCorrect compressedFile 32 0x100 ↔ Sane compressedFile 32 0x100 :=
  walkCorrect_iff_sane 0x100 (by decide) (by decide)

example : cbfsfDecompressionInfo 32 compressedFile 3 0x100 = some (some (2, 0x1000)) := by decide

def zeroAttributes : List Byte := compressedFile.take 28 ++ List.replicate 24 0

/-- The walk stays at an attribute of length 0. -/
theorem not_walkCorrect_zeroAttributes : ¬ WalkCorrect zeroAttributes 32 0x100 := by
  intro correct
  obtain ⟨result, ends, -⟩ := walkCorrect_iff.mp correct
  have first : walkStep 32 zeroAttributes 0x100 0 = .inl 28 := by decide
  have stays : walkStep 32 zeroAttributes 0x100 28 = .inl 28 := by decide
  exact not_endsWith_of_loop stays ((endsWith_iff_of_moves first).mp ends)

end Coreboot.CbfsAttributeWalk
