import Coreboot.CbfsRun

/-!
# Space is conserved

Adding a file and removing it again gives the layout that was there before, once it is merged.
-/

namespace Coreboot.Cbfs

open ByteMemory

variable {e : Entry} {address : Nat}

theorem coalesce_cons_free (free : e.isFree = true) (begun : Option Nat) (rest : List Entry) :
    coalesce begun (e :: rest) = coalesce (some (begun.getD 0 + e.span)) rest := by
  obtain ⟨span, slot⟩ := e
  cases begun with
  | none =>
    rw [Option.getD_none, Nat.zero_add]
    cases slot with
    | file record => cases free
    | empty => rfl
    | deleted => rfl
  | some length =>
    cases slot with
    | file record => cases free
    | empty => rfl
    | deleted => rfl

theorem coalesce_cons_file (file : e.isFree = false) (begun : Option Nat) (rest : List Entry) :
    coalesce begun (e :: rest) =
      (begun.map fun span => Entry.mk span .empty).toList ++ e :: coalesce none rest := by
  obtain ⟨span, slot⟩ := e
  cases slot with
  | empty => cases file
  | deleted => cases file
  | file record =>
    cases begun with
    | none => rfl
    | some length => rfl

theorem coalesce_append_congr {first second : List Entry}
    (same : ∀ begun, coalesce begun first = coalesce begun second)
    (before : List Entry) (begun : Option Nat) :
    coalesce begun (before ++ first) = coalesce begun (before ++ second) := by
  induction before generalizing begun with
  | nil => exact same begun
  | cons e rest ih =>
    rw [List.cons_append, List.cons_append]
    cases free : e.isFree with
    | true => rw [coalesce_cons_free free, coalesce_cons_free free, ih]
    | false => rw [coalesce_cons_file free, coalesce_cons_file free, ih]

theorem coalesce_free_append {run : List Entry} (free : ∀ e ∈ run, e.isFree = true)
    (nonempty : run ≠ []) (begun : Option Nat) (after : List Entry) :
    coalesce begun (run ++ after) = coalesce (some (begun.getD 0 + spanOf run)) after := by
  induction run generalizing begun with
  | nil => exact absurd rfl nonempty
  | cons e rest ih =>
    rw [List.cons_append, coalesce_cons_free (free e (.head _)), spanOf, ← Nat.add_assoc]
    cases rest with
    | nil => rfl
    | cons e' rest =>
      exact ih (fun other member => free other
        (.tail _ member)) (List.cons_ne_nil _ _) _

theorem coalesce_coalesce (begun : Option Nat) (entries : List Entry) :
    coalesce none (coalesce begun entries) = coalesce begun entries := by
  induction entries generalizing begun with
  | nil =>
    cases begun with
    | none => rfl
    | some span => rfl
  | cons e rest ih =>
    cases free : e.isFree with
    | true =>
      rw [coalesce_cons_free free]
      exact ih _
    | false =>
      rw [coalesce_cons_file free]
      cases begun with
      | none =>
        show coalesce none (e :: coalesce none rest) = _
        rw [coalesce_cons_file free, ih]
      | some span =>
        show coalesce (some span) (e :: coalesce none rest) = _
        rw [coalesce_cons_file free, ih]

theorem split_unique {before after before' after' : List Entry} {e' : Entry}
    (same : before ++ e :: after = before' ++ e' :: after') (spans : spanOf before = spanOf before')
    (positive : ∀ other ∈ before ++ e :: after, 0 < other.span) :
    before = before' ∧ e = e' ∧ after = after' := by
  induction before generalizing before' with
  | nil =>
    cases before' with
    | nil =>
      cases same
      exact ⟨rfl, rfl, rfl⟩
    | cons first rest =>
      have here := positive e (.head _)
      rw [(List.cons.inj same).1] at here
      rw [spanOf, spanOf] at spans
      omega
  | cons first rest ih =>
    have here := positive first (.head _)
    cases before' with
    | nil =>
      rw [spanOf, spanOf] at spans
      omega
    | cons first' rest' =>
      obtain ⟨rfl, later⟩ := List.cons.inj same
      rw [spanOf, spanOf] at spans
      obtain ⟨rfl, rest⟩ := ih later (by omega) (List.forall_mem_cons.mp positive).2
      exact ⟨rfl, rest⟩

theorem LayoutAt.positive {data : Memory} {entries : List Entry}
    (layout : LayoutAt data address entries) : ∀ e ∈ entries, 0 < e.span := by
  induction entries generalizing address with
  | nil =>
    intro e member
    cases member
  | cons first rest ih =>
    intro e member
    rcases List.mem_cons.mp member with rfl | later
    · have positive := layout.1.positive
      omega
    · exact ih layout.2 e later

theorem coalesce_carve {span contentOffset headerSize : Nat} {content : List Byte}
    (aligned : 64 ∣ address) (spanAligned : 64 ∣ span)
    (front : address + headerSize ≤ contentOffset)
    (back : contentOffset + content.length ≤ address + span) (before after : List Entry) :
    coalesce none (before ++ (emptySpan (fileStart contentOffset headerSize - address) ++
      ⟨fileEnd contentOffset content.length - fileStart contentOffset headerSize, .deleted⟩ ::
      (emptySpan (address + span - fileEnd contentOffset content.length) ++
        after))) = coalesce none (before ++ ⟨span, .empty⟩ :: after) := by
  have total := spanOf_carve ⟨[], content⟩ aligned spanAligned front back
  rw [carve, spanOf_append, spanOf] at total
  have free (length : Nat) : ∀ e ∈ emptySpan length, e.isFree = true := by
    rw [emptySpan]
    split_ifs
    · exact List.forall_mem_nil _
    · exact List.forall_mem_singleton.mpr rfl
  refine coalesce_append_congr (fun begun => ?_) before none
  rw [← List.cons_append, ← List.append_assoc, coalesce_free_append, spanOf_append,
    spanOf, coalesce_cons_free rfl]
  · exact congrArg (fun span => coalesce (some (begun.getD 0 + span)) after) total
  · exact List.forall_mem_append.mpr ⟨free _, List.forall_mem_cons.mpr ⟨rfl, free _⟩⟩
  · exact List.append_ne_nil_of_right_ne_nil _ (List.cons_ne_nil _ _)

/-- The aligned addresses between an empty entry and the next one, once the image
is merged. -/
def freeAddresses (image : Image) : Set Nat :=
  { address | 64 ∣ address ∧ ∃ merged entries stop entry,
    cbfsWalkMerge image = some merged ∧
      visited merged = some (entries, stop) ∧ entry ∈ entries ∧
      entryType merged.data entry = cbfsComponentNull ∧ entry ≤ address ∧
      address < cbfsFindNextEntry merged.data entry }

def emptyAddresses (entries : List Entry) : Set Nat :=
  { address | 64 ∣ address ∧ ∃ before span after,
    entries = before ++ ⟨span, .empty⟩ :: after ∧ spanOf before ≤ address ∧
      address < spanOf before + span }

section Space

variable {image : Image} {entries : List Entry}

theorem Held.parts {before after : List Entry} {e : Entry}
    (held : Held image (before ++ e :: after)) :
    EntryAt image.data (spanOf before) e ∧ 64 ∣ spanOf before ∧
      spanOf before + e.span ≤ image.size := by
  have layout := held.layout
  have whole := held.whole
  rw [layoutAt_append, Nat.zero_add] at layout
  rw [spanOf_append, spanOf] at whole
  exact ⟨layout.2.1, layout.1.aligned, by omega⟩

theorem freeAddresses_of_held (held : Held image entries) :
    freeAddresses image = emptyAddresses (coalesce none entries) := by
  obtain ⟨data, walk, merged, -⟩ := cbfsWalkMerge_spec held
  have small := held.small
  ext address
  refine and_congr_right fun _ => ⟨?_, ?_⟩
  · rintro ⟨image', found, stop, entry, walk', visits, member, type, above, below⟩
    cases walk.symm.trans walk'
    cases (visited_of_held merged).symm.trans visits
    obtain ⟨before, e, after, split, same⟩ := exists_of_mem_startsOf member
    rw [Nat.zero_add] at same
    subst same
    rw [split] at merged ⊢
    obtain ⟨entryAt, aligned, inside⟩ := merged.parts
    change _ ≤ image.size at inside
    rw [entryAt.header.findNext aligned (by omega)] at below
    obtain ⟨span, slot⟩ := e
    have slotAt := entryAt.slot
    cases slot with
    | empty => exact ⟨before, span, after, rfl, above, below⟩
    | deleted =>
      have deleted : entryType data (spanOf before) = cbfsComponentDeleted := slotAt
      exact absurd (deleted.symm.trans type) (by decide)
    | file record => exact absurd type slotAt.1.2
  · rintro ⟨before, span, after, split, above, below⟩
    rw [split] at merged
    obtain ⟨entryAt, aligned, inside⟩ := merged.parts
    change _ ≤ image.size at inside
    refine ⟨_, _, _, spanOf before, walk, visited_of_held merged, ?_, entryAt.slot.1, above, ?_⟩
    · have member := @mem_startsOf 0 before ⟨span, .empty⟩ after
      rwa [Nat.zero_add] at member
    · rw [entryAt.header.findNext aligned (by omega)]
      exact below

theorem add_succeeds_iff {type contentOffset : Nat} {name content : List Byte} {header : Memory}
    (held : Held image entries) (built : BuiltHeader type content.length name header)
    (live : LiveType type) (met : Unwrapped image content contentOffset header) {image' : Image}
    {entries' : List Entry} (held' : Held image' entries')
    (same : coalesce none entries' = coalesce none entries) (ok : Bool) :
    (∃ result, cbfsAddEntry image' content contentOffset header = some (ok, result)) ↔
      ∃ result, cbfsAddEntry image content contentOffset header = some (ok, result) := by
  have decided {first second : Option (Bool × Image)} {ok' : Bool}
      {a b : Image} (left : first = some (ok', a)) (right : second = some (ok', b)) :
      (∃ result, first = some (ok, result)) ↔ ∃ result, second = some (ok, result) := by
    subst left right
    constructor
    · rintro ⟨result, equal⟩
      cases equal
      exact ⟨b, rfl⟩
    · rintro ⟨result, equal⟩
      cases equal
      exact ⟨a, rfl⟩
  cases chosen : choose (entryOffset header 0) content.length contentOffset 0
      (coalesce none entries) with
  | none =>
    obtain ⟨data, failed, -⟩ := cbfsAddEntry_none held chosen
    rw [← same] at chosen
    obtain ⟨data', failed', -⟩ := cbfsAddEntry_none held' chosen
    exact decided failed' failed
  | some site =>
    obtain ⟨front, back, -⟩ := site_bounds held built met chosen
    obtain ⟨data, gap, added, -⟩ := cbfsAddEntry_some held built live chosen front back
    rw [← same] at chosen
    obtain ⟨data', gap', added', -⟩ := cbfsAddEntry_some held' built live chosen front back
    exact decided added' added

end Space

/-- After an addition and the removal of the file, the empty entries take the
same addresses, and every later addition succeeds as it would have before. -/
def ConservesAt (condition : Condition) (image : Image) : Prop :=
  ∀ type name content contentOffset header image',
    Built type content.length name header → LiveType type →
      contentOffset < 2147483648 →
        condition image content contentOffset header →
          cbfsAddEntry image content contentOffset header = some (true, image') →
            ∀ given entry, cbfsGetEntry image' given = some (some entry) →
              entry ∈ (storedFiles image').map Prod.fst →
                entry ∉ (storedFiles image).map Prod.fst →
                  ∃ image'', cbfsRemoveEntry image' given = some (true, image'') ∧
                    freeAddresses image'' = freeAddresses image ∧
                    ∀ type name content contentOffset header,
                      Built type content.length name header →
                        LiveType type → contentOffset < 2147483648 →
                          condition image content contentOffset header →
                            ∀ ok, (∃ result, cbfsAddEntry image'' content
                                contentOffset header = some (ok, result)) ↔
                              ∃ result, cbfsAddEntry image content
                                contentOffset header = some (ok, result)

/-- In every run whose additions meet a condition, space is conserved. -/
def ConservesUnder (condition : Condition) : Prop :=
  ∀ size image, Reached condition size image → ConservesAt condition image

theorem remove_placed {image : Image} {entries : List Entry} {site : Site} {headerSize : Nat}
    {record : Record} {given : List Byte}
    (split : coalesce none entries = site.before ++ ⟨site.span, .empty⟩ :: site.after)
    (spanAligned : 64 ∣ site.span) (front : spanOf site.before + headerSize ≤ site.contentOffset)
    (back : site.contentOffset + record.content.length ≤ spanOf site.before + site.span)
    (placed : Held image (site.before ++ carve (spanOf site.before) site.span
      site.contentOffset headerSize record ++ site.after))
    (found : cbfsGetEntry image given = some (some (fileStart site.contentOffset headerSize))) :
    ∃ data, cbfsRemoveEntry image given = some (true, { image with data }) ∧
      Held { image with data } (coalesce none entries) := by
  have shape : site.before ++ carve (spanOf site.before) site.span
      site.contentOffset headerSize record ++ site.after =
        (site.before ++ emptySpan (fileStart site.contentOffset headerSize - spanOf site.before)) ++
        ⟨fileEnd site.contentOffset record.content.length -
          fileStart site.contentOffset headerSize, .file record⟩ ::
        (emptySpan (spanOf site.before + site.span -
          fileEnd site.contentOffset record.content.length) ++ site.after) := by
    rw [carve]
    simp only [List.append_assoc, List.cons_append]
  have aligned := aligned_of_placed placed
  obtain ⟨after, -⟩ := fileStart_bounds aligned front
  have lookedUp := cbfsGetEntry_spec placed given
  rw [found] at lookedUp
  obtain ⟨⟨before', e, after'⟩, looked, place⟩ :=
    Option.map_eq_some_iff.mp (Option.some.inj lookedUp).symm
  obtain ⟨same, -⟩ := lookup_spec looked
  obtain ⟨rfl, rfl, rfl⟩ := split_unique (shape.symm.trans same)
    (by rw [spanOf_append, spanOf_emptySpan, place]; omega)
    (by rw [← shape]; exact placed.layout.positive)
  obtain ⟨data, removed, merged, -⟩ := cbfsRemoveEntry_some placed looked
  refine ⟨data, removed, ?_⟩
  rw [List.append_assoc, coalesce_carve aligned spanAligned front back,
    ← split, coalesce_coalesce] at merged
  exact merged

/-- Without overflow, space is conserved in every run. -/
theorem conserves_of_unwrapped (size : Nat) (image : Image)
    (reached : Reached Unwrapped size image) :
    ConservesAt Unwrapped image := by
  intro type name content contentOffset header image' built live low met added
    given entry found member fresh
  obtain ⟨⟨entries, held⟩, -⟩ := held_of_reached reached
  cases chosen : choose (entryOffset header 0) content.length contentOffset 0
      (coalesce none entries) with
  | none =>
    obtain ⟨data, failed, -⟩ := cbfsAddEntry_none held chosen
    cases failed.symm.trans added
  | some site =>
    obtain ⟨front, back, -⟩ := site_bounds held built.spec met chosen
    obtain ⟨split, -⟩ := choose_spec chosen
    obtain ⟨data, gap, added', -, placed, -⟩ :=
      cbfsAddEntry_some held built.spec live chosen front back
    cases added'.symm.trans added
    have length : (content.take (content.length % 2 ^ 32)).length = content.length % 2 ^ 32 := by
      rw [List.length_take, Nat.min_eq_left (Nat.mod_le _ _)]
    have spanAligned := span_dvd held split
    rw [← length] at back
    rw [storedFiles_site held split] at fresh
    rw [storedFiles_carve placed spanAligned front back] at member
    have place : entry = fileStart site.contentOffset (entryOffset header 0) := by
      rw [List.map_append, List.map_cons, List.mem_append, List.mem_cons] at member
      rw [List.map_append, List.mem_append] at fresh
      tauto
    subst place
    obtain ⟨data', removed, again⟩ := remove_placed split spanAligned front back placed found
    have same := coalesce_coalesce none entries
    refine ⟨_, removed, ?_, ?_⟩
    · rw [freeAddresses_of_held again, freeAddresses_of_held held, same]
    · intro type name content contentOffset header built live _ met ok
      exact add_succeeds_iff held built.spec live met again same ok

section Overflow

variable {size span : Nat} {data : Memory}

theorem Stopped.congr {data' : Memory} {lower upper : Nat} (stopped : Stopped size span data)
    (change : SameOutside data data' lower upper) (place : 12 ≤ lower ∧ upper ≤ 20 ∨ 24 ≤ lower)
    (inside : upper ≤ span) : Stopped size span data' := by
  obtain ⟨valid, next, invalid⟩ := stopped
  have offset : entryOffset data' 0 = entryOffset data 0 := change.readBE (by omega)
  have len : entryLen data' 0 = entryLen data 0 := change.readBE (by omega)
  have start : load data' 0 8 = load data 0 8 := change.load (by omega)
  have stop : load data' span 8 = load data span 8 := change.load (by omega)
  refine ⟨?_, ?_, ?_⟩
  · rw [← valid]
    show decide (0 < size ∧ 8 ≤ size - 0 ∧ load data' 0 8 = cbfsFileMagic) = _
    rw [start]
    rfl
  · rw [cbfsFindNextEntry, offset, len]
    exact next
  · rw [← invalid]
    show decide (span < size ∧ 8 ≤ size - span ∧ load data' span 8 = cbfsFileMagic) = _
    rw [stop]
    rfl

theorem Stopped.recycle (stopped : Stopped size span data)
    (inside : 25 ≤ span) : Stopped size span (recycle data 0) := by
  by_cases deleted : entryType data 0 = cbfsComponentDeleted
  · have typed := stopped.congr (@sameOutside_writeBE data 4 12
      cbfsComponentNull 12 16 le_rfl le_rfl) (by omega) (by omega)
    have cleared := typed.congr (@sameOutside_store
      (setType data 0 cbfsComponentNull) 24 [0] 24 25 le_rfl le_rfl)
      (by omega) (by omega)
    rw [Cbfs.recycle, if_pos deleted]
    exact cleared
  · rw [Cbfs.recycle, if_neg deleted]
    exact stopped

theorem entryType_recycle
    (free : entryType data 0 = cbfsComponentDeleted ∨ entryType data 0 = cbfsComponentNull) :
    entryType (recycle data 0) 0 = cbfsComponentNull := by
  by_cases deleted : entryType data 0 = cbfsComponentDeleted
  · have cleared : SameOutside (setType data 0 cbfsComponentNull)
        (store (setType data 0 cbfsComponentNull) 24 [0]) 24 25 :=
      sameOutside_store le_rfl le_rfl
    rw [recycle, if_pos deleted, entryType]
    refine (cleared.readBE (by omega)).trans ?_
    exact readBE_writeBE_self 4 cbfsComponentNull _ _
  · rw [recycle, if_neg deleted]
    exact free.resolve_left deleted

theorem Stopped.walkMerge (stopped : Stopped size span data) (inside : 25 ≤ span)
    (free : entryType data 0 = cbfsComponentDeleted ∨ entryType data 0 = cbfsComponentNull) :
    cbfsWalkMerge ⟨size, data⟩ = some ⟨size, Cbfs.recycle data 0⟩ := by
  have recycled := stopped.recycle inside
  have null := entryType_recycle free
  have merge : cbfsMergeEmptyEntry ⟨size, data⟩ 0 = some ⟨size, Cbfs.recycle data 0⟩ := by
    rw [cbfsMergeEmptyEntry, if_neg (not_not.mpr null), recycled.next]
    show mergeNext 0 (size + 1) ⟨size, Cbfs.recycle data 0⟩ span = _
    rw [mergeNext, recycled.invalid]
    rfl
  have large : 0 < size := (of_decide_eq_true stopped.valid).1
  obtain ⟨fuel, rfl⟩ : ∃ fuel, size = fuel + 1 := ⟨size - 1, by omega⟩
  show Cbfs.walkMerge (fuel + 1 + 1) ⟨fuel + 1, data⟩ 0 = _
  rw [Cbfs.walkMerge, stopped.valid, if_neg (by decide), merge]
  show Cbfs.walkMerge (fuel + 1) ⟨fuel + 1, Cbfs.recycle data 0⟩
    (cbfsFindNextEntry (Cbfs.recycle data 0) 0) = _
  rw [recycled.next, Cbfs.walkMerge, recycled.invalid]
  rfl

theorem Stopped.not_free {address : Nat} (stopped : Stopped size span data) (inside : 25 ≤ span)
    (free : entryType data 0 = cbfsComponentDeleted ∨ entryType data 0 = cbfsComponentNull)
    (above : span ≤ address) : address ∉ freeAddresses ⟨size, data⟩ := by
  rintro ⟨-, merged, entries, stop, entry, walk, visits, member, -, -, below⟩
  cases (stopped.walkMerge inside free).symm.trans walk
  have recycled := stopped.recycle inside
  cases recycled.visited.symm.trans visits
  rw [List.mem_singleton.mp member, recycled.next] at below
  omega

end Overflow

theorem strcasecmpEq_of_load {data : Memory} {name : List Byte}
    (stored : load data address (name.length + 1) = name ++ [0]) :
    strcasecmpEq data address name = true := by
  induction name generalizing address with
  | nil =>
    have first : data address = 0 := (List.cons.inj stored).1
    rw [strcasecmpEq, first]
    rfl
  | cons c rest ih =>
    obtain ⟨first, later⟩ := List.cons.inj stored
    rw [strcasecmpEq, first, ih later, beq_self_eq_true]
    rfl

theorem conserves_twoSpaces :
    ∃ image, Reached Unwrapped 256 image ∧ ConservesAt Unwrapped image := by
  obtain ⟨image, record, reached, -⟩ := @exists_twoSpaces Unwrapped
    fun _ _ _ _ offset => .inl offset
  exact ⟨image, reached, conserves_of_unwrapped 256 image reached⟩

/-- Removing the content of almost 4 GiB gives the space in front of the second
file back, but not the one behind it. -/
theorem not_conserves_overflow : ¬ ConservesUnder fun _ _ _ _ => True := by
  intro conserves
  obtain ⟨image, record, data, content, reached, held, built, added, type, metadata, stopped⟩ :=
    exists_overflow
  have name : load data 24 41 = List.replicate 40 0x61 ++ [0] := by
    have part := take_drop_load data 0 24 41 7
    rw [metadata, take_drop_load longHeader 0 24 41 7] at part
    exact part.symm.trans built.spec.fields.name
  have found : cbfsGetEntry { image with data } (List.replicate 40 0x61) = some (some 0) := by
    show getEntry { image with data } _ (image.size + 1) 0 = _
    rw [getEntry, stopped.valid, if_neg (by decide), if_pos (strcasecmpEq_of_load name)]
  have files : storedFiles { image with data } = [(0, recordAt data 0)] := by
    have file : isFile data 0 = true := by
      rw [isFile, type]
      decide
    rw [storedFiles, stopped.visited]
    show List.map _ (List.filter (isFile data) [0]) = _
    rw [List.filter_cons_of_pos file]
    rfl
  have fresh : 0 ∉ (storedFiles image).map Prod.fst := by
    rw [storedFiles_of_held held]
    show 0 ∉ [128]
    decide
  obtain ⟨image'', removed, same, -⟩ := conserves 256 image reached 0x50 _
    content 0 longHeader _ built ⟨by decide, by decide⟩ (by decide) trivial added
    (List.replicate 40 0x61) 0 found
    (by rw [files]; exact List.mem_singleton_self _) fresh
  have before : 192 ∈ freeAddresses image := by
    rw [freeAddresses_of_held held]
    exact ⟨by decide, [⟨128, .empty⟩, ⟨64, .file record⟩], 64, [], rfl,
      show 192 ≤ 192 from le_rfl, show 192 < 256 by decide⟩
  have deleted := stopped.congr (@sameOutside_writeBE data 4 12
    cbfsComponentDeleted 12 16 le_rfl le_rfl) (by omega) (by decide)
  have free : entryType (setType data 0 cbfsComponentDeleted) 0 = cbfsComponentDeleted :=
    readBE_writeBE_self 4 cbfsComponentDeleted _ _
  have walk := deleted.walkMerge (by decide) (Or.inl free)
  rw [cbfsRemoveEntry_of_found found] at removed
  obtain rfl : ⟨image.size, recycle (setType data 0 cbfsComponentDeleted) 0⟩ = image'' := by
    have result := (congrArg (Option.map _) walk).symm.trans removed
    exact (Prod.mk.inj (Option.some.inj result)).2
  rw [← same] at before
  exact (deleted.recycle (by decide)).not_free (by decide)
    (Or.inr (entryType_recycle (Or.inl free))) (by decide) before

end Coreboot.Cbfs
