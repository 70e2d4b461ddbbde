import Coreboot.CbfsConservation
import Mathlib.Data.List.Chain

/-!
# Files and space of a layout

What a layout stores and how much room it has, apart from where things are.
-/

namespace Coreboot.Cbfs

open ByteMemory

def Record.size (record : Record) : Nat := record.metadata.length + record.content.length

def recordsOf : List Entry → List Record
  | [] => []
  | ⟨_, .file record⟩ :: rest => record :: recordsOf rest
  | _ :: rest => recordsOf rest

def freeSpan : List Entry → Nat
  | [] => 0
  | ⟨_, .file _⟩ :: rest => freeSpan rest
  | e :: rest => e.span + freeSpan rest

/-- Every file has no space in front of it, or room for the header of an empty
entry and for its own padding. -/
def Roomy : Nat → List Entry → Prop
  | _, [] => True
  | space, ⟨length, .file record⟩ :: rest =>
    (space = 0 ∨ 40 + (length - record.size) ≤ space) ∧ Roomy space rest
  | space, e :: rest => Roomy (space + e.span) rest

variable {files : List Entry} {first second : List Entry}

section Lists

variable {e : Entry}

theorem recordsOf_free (free : e.isFree = true) (rest : List Entry) :
    recordsOf (e :: rest) = recordsOf rest := by
  obtain ⟨span, slot⟩ := e
  cases slot with
  | file record => cases free
  | empty => rfl
  | deleted => rfl

theorem freeSpan_free (free : e.isFree = true) (rest : List Entry) :
    freeSpan (e :: rest) = e.span + freeSpan rest := by
  obtain ⟨span, slot⟩ := e
  cases slot with
  | file record => cases free
  | empty => rfl
  | deleted => rfl

theorem roomy_free (free : e.isFree = true) (space : Nat) (rest : List Entry) :
    Roomy space (e :: rest) ↔ Roomy (space + e.span) rest := by
  obtain ⟨span, slot⟩ := e
  cases slot with
  | file record => cases free
  | empty => rfl
  | deleted => rfl

theorem Entry.file_or_free (e : Entry) :
    (∃ length record, e = ⟨length, .file record⟩) ∨ e.isFree = true := by
  obtain ⟨length, slot⟩ := e
  cases slot with
  | file record => exact .inl ⟨length, record, rfl⟩
  | empty => exact .inr rfl
  | deleted => exact .inr rfl

theorem map_snd_filesOf (address : Nat) (entries : List Entry) :
    (filesOf address entries).map Prod.snd = recordsOf entries := by
  induction entries generalizing address with
  | nil => rfl
  | cons e rest ih =>
    rcases e.file_or_free with ⟨length, record, rfl⟩ | free
    · exact congrArg (record :: ·) (ih _)
    · rw [recordsOf_free free, ← ih (address + e.span)]
      obtain ⟨span, slot⟩ := e
      rw [filesOf_cons_free free]

@[simp]
theorem recordsOf_append (first second : List Entry) :
    recordsOf (first ++ second) = recordsOf first ++ recordsOf second := by
  induction first with
  | nil => rfl
  | cons e rest ih =>
    rcases e.file_or_free with ⟨length, record, rfl⟩ | free
    · exact congrArg (record :: ·) ih
    · rw [List.cons_append, recordsOf_free free, recordsOf_free free, ih]

@[simp]
theorem freeSpan_append (first second : List Entry) :
    freeSpan (first ++ second) = freeSpan first + freeSpan second := by
  induction first with
  | nil => exact (Nat.zero_add _).symm
  | cons e rest ih =>
    rcases e.file_or_free with ⟨length, record, rfl⟩ | free
    · exact ih
    · rw [List.cons_append, freeSpan_free free, freeSpan_free free, ih, Nat.add_assoc]

theorem roomy_append {space : Nat} :
    Roomy space (first ++ second) ↔ Roomy space first ∧ Roomy (space + freeSpan first) second := by
  induction first generalizing space with
  | nil => exact (and_iff_right trivial).symm
  | cons e rest ih =>
    rcases e.file_or_free with ⟨length, record, rfl⟩ | free
    · exact (and_congr_right fun _ => ih).trans and_assoc.symm
    · rw [List.cons_append, roomy_free free, roomy_free free, ih, freeSpan_free free, Nat.add_assoc]

theorem recordsOf_coalesce (begun : Option Nat) (entries : List Entry) :
    recordsOf (coalesce begun entries) = recordsOf entries := by
  induction entries generalizing begun with
  | nil =>
    cases begun with
    | none => rfl
    | some span => rfl
  | cons e rest ih =>
    rcases e.file_or_free with ⟨length, record, rfl⟩ | free
    · cases begun with
      | none => exact congrArg (record :: ·) (ih none)
      | some span => exact congrArg (record :: ·) (ih none)
    · rw [coalesce_cons_free free, recordsOf_free free, ih]

theorem roomy_coalesce (begun : Option Nat) (space : Nat) (entries : List Entry) :
    Roomy space (coalesce begun entries) ↔ Roomy (space + begun.getD 0) entries := by
  induction entries generalizing begun space with
  | nil =>
    cases begun with
    | none => rfl
    | some span => rfl
  | cons e rest ih =>
    rcases e.file_or_free with ⟨length, record, rfl⟩ | free
    · cases begun with
      | none => exact and_congr_right fun _ => ih none space
      | some span => exact and_congr_right fun _ => ih none (space + span)
    · rw [coalesce_cons_free free, roomy_free free, ih, Option.getD_some, Nat.add_assoc]

theorem length_coalesce_le (begun : Option Nat) (entries : List Entry) :
    (coalesce begun entries).length ≤ begun.toList.length + entries.length := by
  induction entries generalizing begun with
  | nil =>
    cases begun with
    | none => exact le_rfl
    | some span => exact le_rfl
  | cons e rest ih =>
    rcases e.file_or_free with ⟨length, record, rfl⟩ | free
    · have later := ih none
      rw [coalesce_cons_file rfl, List.length_append, List.length_cons, List.length_cons]
      cases begun with
      | none =>
        simp only [Option.toList, Option.map, List.length_nil] at *
        omega
      | some span =>
        simp only [Option.toList, Option.map, List.length_nil, List.length_cons] at *
        omega
    · have later := ih (some (begun.getD 0 + e.span))
      rw [coalesce_cons_free free, List.length_cons]
      simp only [Option.toList, List.length_cons, List.length_nil] at *
      omega

theorem coalesce_append_files (all : ∀ e ∈ files, e.isFree = false)
    (rest : List Entry) : coalesce none (files ++ rest) = files ++ coalesce none rest := by
  induction files with
  | nil => rfl
  | cons e files ih =>
    rw [List.cons_append, coalesce_cons_file (all e (.head _)),
      ih (List.forall_mem_cons.mp all).2]
    rfl

theorem freeSpan_files (all : ∀ e ∈ files, e.isFree = false) : freeSpan files = 0 := by
  induction files with
  | nil => rfl
  | cons e files ih =>
    have file := all e (.head _)
    rcases e.file_or_free with ⟨length, record, rfl⟩ | free
    · exact ih (List.forall_mem_cons.mp all).2
    · exact absurd (free.symm.trans file) (by decide)

theorem freeSpan_run {run : List Entry} (all : ∀ e ∈ run, e.isFree = true) :
    freeSpan run = spanOf run := by
  induction run with
  | nil => rfl
  | cons e run ih =>
    rw [freeSpan_free (all e (.head _)), spanOf,
      ih (List.forall_mem_cons.mp all).2]

end Lists

/-- No two free entries follow each other, and none is still marked. -/
structure Merged (entries : List Entry) : Prop where
  chain : entries.IsChain fun first second =>
    first.isFree = true → second.isFree = false
  recycled : ∀ e ∈ entries, e.slot ≠ .deleted

theorem Merged.right (merged : Merged (first ++ second)) : Merged second :=
  ⟨merged.chain.right_of_append, fun e member => merged.recycled e (List.mem_append_right _ member)⟩

theorem Merged.freeRun_eq_nil {e : Entry} {rest : List Entry} (merged : Merged (e :: rest))
    (free : e.isFree = true) : freeRun rest = [] := by
  cases rest with
  | nil => rfl
  | cons second rest =>
    have file := (List.isChain_cons_cons.mp merged.chain).1 free
    rw [freeRun, List.takeWhile_cons_of_neg (by rw [file]; decide)]

theorem Merged.slot_eq {e : Entry} {rest : List Entry} (merged : Merged (e :: rest))
    (free : e.isFree = true) : e.slot = .empty := by
  have unmarked := merged.recycled e (.head _)
  obtain ⟨span, slot⟩ := e
  cases slot with
  | file record => cases free
  | deleted => exact absurd rfl unmarked
  | empty => rfl

variable {entries : List Entry}

theorem Merged.coalesce_eq (merged : Merged entries) :
    coalesce none entries = entries := by
  induction entries with
  | nil => rfl
  | cons e rest ih =>
    have later := ih (@Merged.right [e] rest merged)
    rcases e.file_or_free with ⟨length, record, rfl⟩ | free
    · exact congrArg (_ :: ·) later
    · have lone := merged.freeRun_eq_nil free
      have parts := freeRun_append_afterRun rest
      rw [lone, List.nil_append] at parts
      rw [coalesce_free free, lone, parts, later, ← merged.slot_eq free]
      rfl

theorem run_append_file {before : List Entry} {length : Nat} {record : Record}
    {after : List Entry} :
    freeRun (before ++ ⟨length, .file record⟩ :: after) = freeRun before ∧
      afterRun (before ++ ⟨length, .file record⟩ :: after) =
        afterRun before ++ ⟨length, .file record⟩ :: after := by
  induction before with
  | nil => exact ⟨rfl, rfl⟩
  | cons e before ih =>
    rcases e.file_or_free with ⟨length', record', rfl⟩ | free
    · exact ⟨rfl, rfl⟩
    · rw [List.cons_append, freeRun, afterRun, freeRun, afterRun,
        List.takeWhile_cons_of_pos free, List.dropWhile_cons_of_pos free,
        List.takeWhile_cons_of_pos free, List.dropWhile_cons_of_pos free]
      exact ⟨congrArg (e :: ·) ih.1, ih.2⟩

theorem freeRun_all (entries : List Entry) : ∀ e ∈ freeRun entries, e.isFree = true :=
  fun e member => List.all_eq_true.mp List.all_takeWhile e member

theorem recordsOf_afterRun (entries : List Entry) :
    recordsOf (afterRun entries) = recordsOf entries := by
  induction entries with
  | nil => rfl
  | cons e entries ih =>
    rcases e.file_or_free with ⟨length, record, rfl⟩ | free
    · rfl
    · rw [recordsOf_free free, afterRun, List.dropWhile_cons_of_pos free]
      exact ih

theorem afterRun_cases (entries : List Entry) :
    afterRun entries = [] ∨ ∃ length record rest,
      afterRun entries = ⟨length, .file record⟩ :: rest := by
  induction entries with
  | nil => exact .inl rfl
  | cons e entries ih =>
    rcases e.file_or_free with ⟨length, record, rfl⟩ | free
    · exact .inr ⟨length, record, entries, rfl⟩
    · rwa [afterRun, List.dropWhile_cons_of_pos free]

theorem merged_coalesce (begun : Option Nat) (entries : List Entry) :
    Merged (coalesce begun entries) := by
  induction entries generalizing begun with
  | nil =>
    cases begun with
    | none => exact ⟨List.IsChain.nil, fun e member => by cases member⟩
    | some span =>
      refine ⟨List.IsChain.singleton _, fun e member => ?_⟩
      rw [List.mem_singleton.mp member]
      exact Slot.noConfusion
  | cons e rest ih =>
    rcases e.file_or_free with ⟨length, record, rfl⟩ | free
    · obtain ⟨chain, recycled⟩ := ih none
      have chain' := chain.cons (x := ⟨length, .file record⟩) fun y _ free' =>
        absurd free' Bool.noConfusion
      have recycled' : ∀ e' ∈ ⟨length, .file record⟩ :: coalesce none rest, e'.slot ≠ .deleted :=
        List.forall_mem_cons.mpr ⟨Slot.noConfusion, recycled⟩
      cases begun with
      | none => exact ⟨chain', recycled'⟩
      | some span =>
        exact ⟨List.IsChain.cons_cons (fun _ => rfl) chain',
          List.forall_mem_cons.mpr ⟨Slot.noConfusion, recycled'⟩⟩
    · rw [coalesce_cons_free free]
      exact ih _

section Walk

variable {image : Image} {entry : Nat}

variable {rest : List Entry}

theorem cbfsMergeEmptyEntry_lone {e : Entry} (entryAt : EntryAt image.data entry e)
    (empty : e.slot = .empty) (layout : LayoutAt image.data (entry + e.span) rest)
    (lone : freeRun rest = []) (whole : entry + e.span + spanOf rest = image.size)
    (small : image.size < 2147483648) (aligned : 64 ∣ entry) :
    cbfsMergeEmptyEntry image entry = some image := by
  obtain ⟨span, slot⟩ := e
  subst empty
  have type : entryType image.data entry = cbfsComponentNull := entryAt.slot.1
  have length := layout.length_le
  have same : recycle image.data entry = image.data := if_neg (by rw [type]; decide)
  have next := entryAt.header.findNext aligned
    (show entry + span < 4294967296 by
      change entry + span + _ = _ at whole
      omega)
  obtain ⟨data, run, -, -, unchanged⟩ :=
    @mergeNext_spec image entry span rest image.fuel entryAt layout whole small
      aligned (by show _ < image.size + 1; omega)
  rw [cbfsMergeEmptyEntry, same, if_neg (not_not.mpr type), next, run, unchanged lone]

theorem walkMerge_files (fuel : Nat)
    (layout : LayoutAt image.data entry (files ++ rest)) (all : ∀ e ∈ files, e.isFree = false)
    (inside : entry + spanOf files ≤ image.size) (small : image.size < 2147483648)
    (aligned : 64 ∣ entry) :
    walkMerge (files.length + fuel) image entry = walkMerge fuel image (entry + spanOf files) := by
  induction files generalizing entry with
  | nil => rw [List.length_nil, Nat.zero_add, spanOf, Nat.add_zero]
  | cons e files ih =>
    obtain ⟨entryAt, later⟩ := layout
    rw [spanOf] at inside
    have next := entryAt.header.findNext aligned (show entry + e.span < 4294967296 by omega)
    have step := ih later (List.forall_mem_cons.mp all).2
      (by omega) (Nat.dvd_add aligned entryAt.header.aligned)
    rw [List.length_cons, Nat.add_right_comm, walkMerge,
      entryAt.valid (by omega),
      cbfsMergeEmptyEntry_file entryAt (all e (.head _))]
    simp only [Bool.not_true, Bool.false_eq_true, if_false]
    rw [next, step, spanOf, Nat.add_assoc]

theorem walkMerge_merged (fuel : Nat)
    (layout : LayoutAt image.data entry entries) (merged : Merged entries)
    (whole : entry + spanOf entries = image.size) (small : image.size < 2147483648)
    (aligned : 64 ∣ entry) (enough : entries.length < fuel) :
    walkMerge fuel image entry = some image := by
  induction entries generalizing entry fuel with
  | nil =>
    rcases fuel with _ | fuel
    · omega
    rw [walkMerge, show entry = image.size from whole, not_valid_end]
    rfl
  | cons e rest ih =>
    rcases fuel with _ | fuel
    · omega
    obtain ⟨entryAt, later⟩ := layout
    rw [spanOf] at whole
    rw [List.length_cons] at enough
    have next := entryAt.header.findNext aligned (show entry + e.span < 4294967296 by omega)
    have step := ih fuel later (@Merged.right [e] rest merged) (by omega)
      (Nat.dvd_add aligned entryAt.header.aligned) (by omega)
    have alone : cbfsMergeEmptyEntry image entry = some image := by
      cases free : e.isFree with
      | false => exact cbfsMergeEmptyEntry_file entryAt free
      | true =>
        exact cbfsMergeEmptyEntry_lone entryAt (merged.slot_eq free) later
          (merged.freeRun_eq_nil free) (by omega) small aligned
    rw [walkMerge, entryAt.valid (by omega), alone]
    simp only [Bool.not_true, Bool.false_eq_true, if_false]
    rw [next, step]

theorem walkMerge_run {e : Entry} (held : Held image (files ++ e :: rest))
    (all : ∀ e ∈ files, e.isFree = false) (free : e.isFree = true)
    (merged : Merged (afterRun rest)) :
    ∃ data, cbfsWalkMerge image = some { image with data } ∧
      SameOutside image.data data (spanOf files)
        (spanOf files + e.span + spanOf (freeRun rest)) := by
  have layout := held.layout
  have whole := held.whole
  have small := held.small
  have enough := held.length_lt
  rw [spanOf_append, spanOf] at whole
  rw [List.length_append, List.length_cons] at enough
  have pass := walkMerge_files (image.fuel - files.length) layout all
    (by omega) small (Nat.dvd_zero 64)
  rw [Nat.add_sub_cancel' (by omega), Nat.zero_add] at pass
  rw [layoutAt_append, Nat.zero_add] at layout
  obtain ⟨front, entryAt, later⟩ := layout
  have aligned : 64 ∣ spanOf files := front.aligned
  obtain ⟨data, merge, mergedAt, change, -⟩ :=
    cbfsMergeEmptyEntry_free entryAt free later (by omega) small aligned
  have parts := spanOf_run rest
  have laterAll := layoutAt_append.mp ((freeRun_append_afterRun rest).symm ▸ later)
  have after : LayoutAt data (spanOf files + (e.span + spanOf (freeRun rest))) (afterRun rest) := by
    rw [← Nat.add_assoc]
    exact laterAll.2.congr change (.inr le_rfl)
  have next := mergedAt.header.findNext aligned
    (show spanOf files + (e.span + spanOf (freeRun rest)) < 4294967296 by
      omega)
  obtain ⟨fuel, more⟩ := Nat.exists_eq_succ_of_ne_zero (show image.fuel - files.length ≠ 0 by omega)
  have rests := length_afterRun_le rest
  have stop := @walkMerge_merged _ { image with data } _ fuel after merged
    (by show _ = image.size; omega) small
    (Nat.dvd_add aligned mergedAt.header.aligned) (by omega)
  refine ⟨data, ?_, change⟩
  rw [cbfsWalkMerge, cbfsFindFirstEntry, pass, more, walkMerge, entryAt.valid (by omega)]
  simp only [Bool.not_true, Bool.false_eq_true, if_false, merge]
  rw [next, stop]

end Walk

section Unique

variable {data : Memory} {address : Nat}

theorem HeaderAt.span_unique {first second : Nat} (one : HeaderAt data address first)
    (other : HeaderAt data address second) : first = second := by
  obtain ⟨blocks, rfl⟩ := one.aligned
  obtain ⟨blocks', rfl⟩ := other.aligned
  have fits := one.fits
  have fits' := other.fits
  have tight := one.tight
  have tight' := other.tight
  omega

theorem EntryAt.unique {first second : Entry} (one : EntryAt data address first)
    (other : EntryAt data address second) : first = second := by
  have spans := one.header.span_unique other.header
  obtain ⟨span, slot⟩ := first
  obtain ⟨span', slot'⟩ := second
  have here := one.slot
  have there := other.slot
  change span = span' at spans
  subst spans
  congr 1
  cases slot with
  | empty =>
    cases slot' with
    | empty => rfl
    | deleted => exact absurd (here.1.symm.trans there) (by decide)
    | file record => exact absurd here.1 there.1.2
  | deleted =>
    cases slot' with
    | empty => exact absurd (there.1.symm.trans here) (by decide)
    | deleted => rfl
    | file record => exact absurd here there.1.1
  | file record =>
    cases slot' with
    | empty => exact absurd there.1 here.1.2
    | deleted => exact absurd there here.1.1
    | file record' =>
      obtain ⟨metadata, content⟩ := record
      obtain ⟨metadata', content'⟩ := record'
      obtain ⟨-, ⟨offset, len⟩, bytes, more⟩ := here
      obtain ⟨-, ⟨offset', len'⟩, bytes', more'⟩ := there
      have lengths : metadata.length = metadata'.length := offset.symm.trans offset'
      have contents : content.length = content'.length := len.symm.trans len'
      change load data address metadata.length = metadata at bytes
      change load data (address + metadata.length) content.length = content at more
      rw [lengths] at bytes more
      rw [contents] at more
      have first : metadata = metadata' := bytes.symm.trans bytes'
      have second : content = content' := more.symm.trans more'
      rw [first, second]

theorem LayoutAt.exists_append (one : LayoutAt data address first)
    (other : LayoutAt data address second) (shorter : spanOf first ≤ spanOf second) :
    ∃ rest, second = first ++ rest := by
  induction first generalizing address second with
  | nil => exact ⟨second, rfl⟩
  | cons e first ih =>
    have positive := one.1.positive
    cases second with
    | nil =>
      rw [spanOf, spanOf] at shorter
      omega
    | cons e' second =>
      obtain rfl := one.1.unique other.1
      rw [spanOf, spanOf] at shorter
      obtain ⟨rest, rfl⟩ := ih one.2 other.2 (by omega)
      exact ⟨rest, rfl⟩

theorem Held.unique {image : Image} (one : Held image first) (other : Held image second) :
    first = second := by
  have whole := other.whole
  rw [← one.whole] at whole
  obtain ⟨rest, rfl⟩ := one.layout.exists_append other.layout whole.ge
  rw [spanOf_append] at whole
  cases rest with
  | nil => exact (List.append_nil first).symm
  | cons e rest =>
    have positive := other.parts.1.positive
    rw [spanOf] at whole
    omega

end Unique

end Coreboot.Cbfs
