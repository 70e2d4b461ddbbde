import Coreboot.ImdRun
import Mathlib.Data.List.Nodup

/-!
# The ids of the entries

An entry is found by its id. Both directories are searched, the small one first, and an addition
does not look for its id before.
-/

namespace Coreboot.Imd

open ByteMemory

def liveIds (width : Nat) (imdr : Imdr) (memory : Memory) : List Nat :=
  if imdr.r = 0 then []
  else (List.range' 1 (rootNumEntries memory imdr.r - 1)).map fun i =>
    entryId memory (rootEntry width imdr.r i)

/-- The entry that a tiered imd has from its creation on, with its id. -/
def smallRegionEntry (width : Nat) (imd : Handle) : List (Nat × Nat) :=
  if imd.sm.r = 0 then [] else [(smallRegionId, rootEntry width imd.lg.r 1)]

/-- The memories reached by additions that meet a condition and by removals, with
the entries that were added and not removed since.  Entries are removed by their
ids. -/
inductive IdRun (width : Nat) (imd : Handle)
    (condition : Memory → BitVec 32 → Prop) (start : Memory) :
    Memory → List (Nat × Nat) → Prop
  | start : IdRun width imd condition start start (smallRegionEntry width imd)
  | added {memory memory' : Memory} {entries : List (Nat × Nat)}
      {id : BitVec 32} {size entry : Nat}
      (before : IdRun width imd condition start memory entries)
      (meets : condition memory id)
      (added : imdEntryAdd width imd memory id.toNat size = some (entry, memory')) :
      IdRun width imd condition start memory' ((id.toNat, entry) :: entries)
  | found {memory memory' : Memory} {entries : List (Nat × Nat)}
      {id : BitVec 32} {size entry other : Nat}
      (before : IdRun width imd condition start memory entries)
      (present : imdEntryFind width imd memory id.toNat = some other)
      (found : imdEntryFindOrAdd width imd memory id.toNat size = some (entry, memory')) :
      IdRun width imd condition start memory' entries
  | foundOrAdded {memory memory' : Memory} {entries : List (Nat × Nat)}
      {id : BitVec 32} {size entry : Nat}
      (before : IdRun width imd condition start memory entries)
      (missing : imdEntryFind width imd memory id.toNat = none)
      (added : imdEntryFindOrAdd width imd memory id.toNat size = some (entry, memory')) :
      IdRun width imd condition start memory' ((id.toNat, entry) :: entries)
  | removed {memory memory' : Memory} {entries : List (Nat × Nat)}
      {id entry : Nat} (before : IdRun width imd condition start memory entries)
      (present : imdEntryFind width imd memory id = some entry)
      (removed : imdEntryRemove width imd memory entry = some memory') :
      IdRun width imd condition start memory' (entries.filter fun added => added ≠ (id, entry))

/-- No id is live twice, and every id leads to the entry that was added for it. -/
structure IdsUnique (width : Nat) (imd : Handle) (memory : Memory)
    (entries : List (Nat × Nat)) : Prop where
  once : (liveIds width imd.sm memory ++ liveIds width imd.lg memory).Nodup
  finds : ∀ id entry, imdEntryFind width imd memory id = some entry ↔ (id, entry) ∈ entries

def Unknown (width : Nat) (imd : Handle) (memory : Memory) (id : BitVec 32) : Prop :=
  imdEntryFind width imd memory id.toNat = none

/-- A root whose table has these ids behind the entry of the root.  Regions do not
matter. -/
structure TableAt (width : Nat) (memory : Memory) (imdr : Imdr)
    (maxEntries : Nat) (ids : List Nat) : Prop where
  positive : 0 < imdr.r
  limit_lt : imdr.limit < 2 ^ width
  table : imdr.r + 28 + 16 * maxEntries ≤ imdr.limit
  small : maxEntries < 4096
  room : ids.length < maxEntries
  maxEntries : rootMaxEntries memory imdr.r = maxEntries
  numEntries : rootNumEntries memory imdr.r = ids.length + 1
  ids : ∀ i (inside : i < ids.length), entryId memory (rootEntry width imdr.r (i + 1)) = ids[i]

variable {i : Nat}

section Tables

variable {width : Nat} {memory memory' : Memory} {imdr : Imdr} {maxEntries : Nat} {ids : List Nat}

theorem DirectoryAt.tableAt {d : Directory} (directory : DirectoryAt width memory imdr d) :
    TableAt width memory imdr d.maxEntries (d.others.map Entry.id) := by
  have table := d.table
  have small := d.rootSize_le
  have room := d.room
  have limit := directory.limit_eq
  refine ⟨directory.positive, directory.limit_lt, by omega, by omega, ?_,
    directory.root.maxEntries, ?_, fun i inside => ?_⟩
  · rw [List.length_map]
    omega
  · rw [List.length_map]
    exact directory.root.numEntries
  · rw [List.length_map] at inside
    rw [List.getElem_map]
    refine (directory.entryAt_of_getElem? ?_).id
    rw [Directory.entries, List.getElem?_cons_succ]
    exact List.getElem?_eq_getElem inside

section

variable (table : TableAt width memory imdr maxEntries ids) {lower upper : Nat}
include table

theorem TableAt.rootEntry_eq (inside : i ≤ maxEntries) :
    rootEntry width imdr.r i = imdr.r + 20 + 16 * i := by
  have room := table.table
  have limit := table.limit_lt
  exact Imd.rootEntry_eq (by omega)

theorem TableAt.congr (change : SameOutside memory memory' lower upper)
    (outside : imdr.limit ≤ lower ∨ upper ≤ imdr.r) :
    TableAt width memory' imdr maxEntries ids := by
  have space := table.table
  have room := table.room
  refine
    { table with
      maxEntries := (readUint32_congr change (by omega)).trans table.maxEntries
      numEntries := (readUint32_congr change (by omega)).trans table.numEntries
      ids := fun i inside => ?_ }
  rw [← table.ids i inside, entryId]
  rw [table.rootEntry_eq (by omega)]
  exact readUint32_congr change (by omega)

def Listed (width : Nat) (imdr : Imdr) (ids : List Nat) (id entry : Nat) : Prop :=
  ∃ i, ids[i]? = some id ∧ entry = rootEntry width imdr.r (i + 1)

theorem TableAt.liveIds_eq : liveIds width imdr memory = ids := by
  have positive := table.positive
  rw [liveIds, if_neg (by omega), table.numEntries, Nat.add_sub_cancel]
  refine List.ext_getElem (by simp) fun i first second => ?_
  rw [List.getElem_map, List.getElem_range', Nat.one_mul, Nat.add_comm 1]
  exact table.ids i second

theorem TableAt.find (once : ids.Nodup) (id entry : Nat) :
    imdrEntryFind width imdr memory id = some entry ↔ Listed width imdr ids id entry := by
  have positive := table.positive
  have here (i : Nat) (inside : i <
      ((List.range' 1 ids.length).map (rootEntry width imdr.r)).length) :
      ((List.range' 1 ids.length).map (rootEntry width imdr.r))[i] =
        rootEntry width imdr.r (i + 1) := by
    rw [List.getElem_map, List.getElem_range', Nat.one_mul, Nat.add_comm 1]
  rw [imdrEntryFind, if_neg (by omega), table.numEntries, Nat.add_sub_cancel,
    List.find?_eq_some_iff_getElem]
  constructor
  · rintro ⟨same, i, bound, rfl, -⟩
    have inside : i < ids.length := by simpa using bound
    have same := of_decide_eq_true same
    rw [here i bound, table.ids i inside] at same
    exact ⟨i, by rw [same, List.getElem?_eq_getElem inside], here i bound⟩
  · rintro ⟨i, at', rfl⟩
    obtain ⟨inside, rfl⟩ := List.getElem?_eq_some_iff.mp at'
    refine ⟨decide_eq_true (table.ids i inside).symm, i, by simpa using inside,
      here i _, fun j before => ?_⟩
    have earlier : j < ids.length := before.trans inside
    rw [here j, table.ids j earlier, Bool.not_eq_true', decide_eq_false_iff_not]
    intro same
    exact Nat.ne_of_lt before ((once.getElem_inj_iff).mp same.symm)

theorem TableAt.rootLastEntry_eq :
    rootLastEntry width memory imdr.r = rootEntry width imdr.r ids.length := by
  have small := table.small
  have room := table.room
  rw [rootLastEntry, table.numEntries]
  congr 1
  exact toUnsigned_of_lt (by omega) (by omega)

theorem TableAt.ids_congr (change : SameOutside memory memory' lower upper)
    (header : upper ≤ imdr.r + 20) (inside : i < ids.length) :
    entryId memory' (rootEntry width imdr.r (i + 1)) = ids[i] := by
  have room := table.room
  rw [← table.ids i inside, table.rootEntry_eq (by omega)]
  exact readUint32_congr change (by omega)

theorem TableAt.add {id size entry : Nat} (narrow : id < 2 ^ 32)
    (added : imdrEntryAdd width imdr memory id size = some (entry, memory')) :
    entry = rootEntry width imdr.r (ids.length + 1) ∧
      TableAt width memory' imdr maxEntries (ids ++ [id]) ∧
        SameOutside memory memory' imdr.r imdr.limit := by
  have positive := table.positive
  have limit := table.limit_lt
  have space := table.table
  have small := table.small
  have room := table.room
  have last := table.rootLastEntry_eq
  rw [table.rootEntry_eq (by omega)] at last
  rw [imdrEntryAdd, if_neg (by omega)] at added
  split_ifs at added with locked
  rw [imdEntryAddToRoot, last, table.numEntries, table.maxEntries] at added
  split_ifs at added with full
  have more : ids.length + 1 < maxEntries := by omega
  dsimp only at added
  split_ifs at added with large below
  cases added
  generalize toSigned width _ = offset
  have place : relativePointer width (imdr.r + 20 + 16 * ids.length)
      sizeofEntry = imdr.r + 20 + 16 * (ids.length + 1) := by
    apply relativePointer_of_eq _ (by omega)
    rw [sizeofEntry]
    omega
  rw [place]
  obtain ⟨counted, countedEq⟩ : ∃ counted,
      writeUint32 memory (imdr.r + 4) (ids.length + 1 + 1) = counted :=
    ⟨_, rfl⟩
  have count : SameOutside memory counted (imdr.r + 4) (imdr.r + 8) := by
    rw [← countedEq]
    exact sameOutside_writeUint32 le_rfl (by omega)
  have assigned := sameOutside_imdEntryAssign counted
    (imdr.r + 20 + 16 * (ids.length + 1)) id offset size
  rw [countedEq]
  refine ⟨(table.rootEntry_eq (by omega)).symm, ⟨positive, limit, space, small,
    ?_, ?_, ?_, fun i inside => ?_⟩,
    (count.mono (by omega) (by omega)).trans (assigned.mono (by omega) (by omega))⟩
  · rw [List.length_append, List.length_singleton]
    exact more
  · rw [rootMaxEntries, readUint32_congr assigned (by omega), readUint32_congr count (by omega)]
    exact table.maxEntries
  · rw [rootNumEntries, readUint32_congr assigned (by omega), ← countedEq,
      readUint32_write_self (by omega), List.length_append,
      List.length_singleton]
  · rw [List.length_append, List.length_singleton] at inside
    rcases Nat.lt_or_ge i ids.length with old | new
    · rw [List.getElem_append_left old, entryId, table.rootEntry_eq (by omega),
        readUint32_congr assigned (by omega), ← table.rootEntry_eq (by omega)]
      exact table.ids_congr count (by omega) old
    · obtain rfl : i = ids.length := by omega
      rw [List.getElem_append_right le_rfl, table.rootEntry_eq (by omega),
        entryId, imdEntryAssign, readUint32_write_self narrow]
      simp

end

theorem TableAt.remove (table : TableAt width memory imdr maxEntries ids) (more : ids ≠ []) :
    TableAt width (writeUint32 memory (imdr.r + 4)
        (toUnsigned 32 (rootNumEntries memory imdr.r - 1))) imdr maxEntries
        ids.dropLast ∧
      SameOutside memory (writeUint32 memory (imdr.r + 4)
        (toUnsigned 32 (rootNumEntries memory imdr.r - 1))) imdr.r imdr.limit := by
  have space := table.table
  have small := table.small
  have room := table.room
  have some := List.length_pos_of_ne_nil more
  have length : ids.dropLast.length = ids.length - 1 := List.length_dropLast
  have count : SameOutside memory (writeUint32 memory (imdr.r + 4)
      (toUnsigned 32 (rootNumEntries memory imdr.r - 1))) (imdr.r + 4)
      (imdr.r + 8) :=
    sameOutside_writeUint32 le_rfl (by omega)
  have fewer : toUnsigned 32 (rootNumEntries memory imdr.r - 1) = ids.length :=
    toUnsigned_of_lt (by rw [table.numEntries]; omega) (by omega)
  refine ⟨⟨table.positive, table.limit_lt, space, small, by omega,
    (readUint32_congr count (by omega)).trans table.maxEntries, ?_,
    fun i inside => ?_⟩, count.mono (by omega) (by omega)⟩
  · rw [rootNumEntries, readUint32_write_self (by omega), fewer, length]
    omega
  · rw [List.getElem_dropLast]
    exact table.ids_congr count (by omega) (by omega)

end Tables

structure TablesAt (width : Nat) (imd : Handle) (memory : Memory)
    (lgMax smMax : Nat) (lgIds smIds : List Nat) : Prop where
  large : TableAt width memory imd.lg lgMax lgIds
  small : imd.sm.r = 0 ∧ smIds = [] ∨
    TableAt width memory imd.sm smMax smIds ∧ imd.sm.limit ≤ imd.lg.r
  once : (smIds ++ lgIds).Nodup

def Records (width : Nat) (imd : Handle) (lgIds smIds : List Nat)
    (entries : List (Nat × Nat)) : Prop :=
  ∀ id entry, (id, entry) ∈ entries ↔
    Listed width imd.sm smIds id entry ∨ Listed width imd.lg lgIds id entry

section Handle

variable {width : Nat} {imd : Handle} {memory memory' : Memory}
  {lgMax smMax : Nat} {lgIds smIds : List Nat} {entries : List (Nat × Nat)}

variable {imdr : Imdr} {id entry maxEntries size : Nat} {ids : List Nat}

theorem not_listed_nil : ¬ Listed width imdr [] id entry := by
  rintro ⟨i, at', -⟩
  cases at'

theorem listed_append {imdr : Imdr} {ids : List Nat} {new id entry : Nat} :
    Listed width imdr (ids ++ [new]) id entry ↔ Listed width imdr ids id entry ∨
      id = new ∧ entry = rootEntry width imdr.r (ids.length + 1) := by
  constructor
  · rintro ⟨i, at', rfl⟩
    rcases Nat.lt_or_ge i ids.length with old | behind
    · rw [List.getElem?_append_left old] at at'
      exact .inl ⟨i, at', rfl⟩
    · rw [List.getElem?_append_right behind, List.getElem?_singleton] at at'
      split_ifs at at' with last
      obtain rfl : i = ids.length := by omega
      exact .inr ⟨(Option.some.inj at').symm, rfl⟩
  · rintro (⟨i, at', rfl⟩ | ⟨rfl, rfl⟩)
    · obtain ⟨inside, -⟩ := List.getElem?_eq_some_iff.mp at'
      exact ⟨i, by rw [List.getElem?_append_left inside, at'], rfl⟩
    · exact ⟨ids.length, by simp, rfl⟩

theorem Listed.mem (listed : Listed width imdr ids id entry) : id ∈ ids := by
  obtain ⟨i, at', -⟩ := listed
  exact List.mem_of_getElem? at'

section

variable (table : TableAt width memory imdr maxEntries ids)
include table

theorem TableAt.bounds (inside : i ≤ ids.length) : imdr.r ≤ rootEntry width imdr.r i ∧
      rootEntry width imdr.r i < imdr.limit := by
  have space := table.table
  have room := table.room
  rw [table.rootEntry_eq (by omega)]
  omega

theorem TableAt.rootEntry_inj {i j : Nat} (first : i ≤ ids.length) (second : j ≤ ids.length)
    (same : rootEntry width imdr.r i = rootEntry width imdr.r j) : i = j := by
  have room := table.room
  rw [table.rootEntry_eq (by omega), table.rootEntry_eq (by omega)] at same
  omega

theorem TableAt.listed_dropLast :
    Listed width imdr ids.dropLast id entry ↔ Listed width imdr ids id entry ∧
      entry ≠ rootEntry width imdr.r ids.length := by
  constructor
  · rintro ⟨i, at', rfl⟩
    obtain ⟨inside, rfl⟩ := List.getElem?_eq_some_iff.mp at'
    rw [List.length_dropLast] at inside
    refine ⟨⟨i, ?_, rfl⟩, fun same => ?_⟩
    · rw [List.getElem_dropLast]
      exact List.getElem?_eq_getElem (by omega)
    · have last := table.rootEntry_inj (by omega) le_rfl same
      omega
  · rintro ⟨⟨i, at', rfl⟩, other⟩
    obtain ⟨inside, rfl⟩ := List.getElem?_eq_some_iff.mp at'
    have before : i < ids.length - 1 := by
      by_contra last
      exact other (congrArg _ (by omega))
    refine ⟨i, ?_, rfl⟩
    rw [List.getElem?_dropLast, if_pos before]
    exact List.getElem?_eq_getElem inside

theorem TableAt.id_eq {first second : Nat} (one : Listed width imdr ids first entry)
    (other : Listed width imdr ids second entry) : first = second := by
  obtain ⟨i, firstAt, rfl⟩ := one
  obtain ⟨j, secondAt, same⟩ := other
  obtain ⟨iInside, -⟩ := List.getElem?_eq_some_iff.mp firstAt
  obtain ⟨jInside, -⟩ := List.getElem?_eq_some_iff.mp secondAt
  obtain rfl : i = j := Nat.succ.inj (table.rootEntry_inj (by omega) (by omega) same)
  exact Option.some.inj (firstAt.symm.trans secondAt)

end

theorem imdrEntryFind_null (null : imdr.r = 0) (id : Nat) :
    imdrEntryFind width imdr memory id = none :=
  if_pos null

section

variable (tables : TablesAt width imd memory lgMax smMax lgIds smIds)
include tables

theorem TablesAt.find (id entry : Nat) :
    imdEntryFind width imd memory id = some entry ↔
      Listed width imd.sm smIds id entry ∨ Listed width imd.lg lgIds id entry := by
  obtain ⟨large, small, once⟩ := tables
  obtain ⟨smOnce, lgOnce, apart⟩ := List.nodup_append.mp once
  have inLarge := large.find lgOnce id
  rw [imdEntryFind]
  rcases small with ⟨null, rfl⟩ | ⟨small, -⟩
  · rw [imdrEntryFind_null null, or_iff_right not_listed_nil]
    exact inLarge entry
  · have inSmall := small.find smOnce id
    cases found : imdrEntryFind width imd.sm memory id with
    | none =>
      have missing : ¬ Listed width imd.sm smIds id entry := by
        rw [← inSmall, found]
        exact nofun
      rw [or_iff_right missing]
      exact inLarge entry
    | some other =>
      have listed := (inSmall other).mp found
      constructor
      · intro same
        exact .inl (Option.some.inj same ▸ listed)
      · rintro (here | elsewhere)
        · exact found.symm.trans ((inSmall entry).mpr here)
        · exact absurd rfl (apart id listed.mem id elsewhere.mem)

theorem TablesAt.unique (records : Records width imd lgIds smIds entries) :
    IdsUnique width imd memory entries := by
  refine ⟨?_, fun id entry => (tables.find id entry).trans (records id entry).symm⟩
  rw [tables.large.liveIds_eq]
  rcases tables.small with ⟨null, empty⟩ | ⟨small, -⟩
  · have once := tables.once
    rw [empty] at once
    rw [liveIds, if_pos null]
    exact once
  · rw [small.liveIds_eq]
    exact tables.once

theorem TablesAt.not_mem (unknown : imdEntryFind width imd memory id = none) :
    id ∉ smIds ++ lgIds := by
  intro member
  have listed : ∃ entry, Listed width imd.sm smIds id entry ∨
      Listed width imd.lg lgIds id entry := by
    rcases List.mem_append.mp member with small | large
    · obtain ⟨i, at'⟩ := List.mem_iff_getElem?.mp small
      exact ⟨_, .inl ⟨i, at', rfl⟩⟩
    · obtain ⟨i, at'⟩ := List.mem_iff_getElem?.mp large
      exact ⟨_, .inr ⟨i, at', rfl⟩⟩
  obtain ⟨entry, listed⟩ := listed
  exact Option.some_ne_none _ (((tables.find id entry).mpr listed).symm.trans unknown)

omit tables in
theorem imdEntryAdd_eq_some {result : Nat × Memory}
    (added : imdEntryAdd width imd memory id size = some result) :
    imdrEntryAdd width imd.lg memory id size = some result ∨
      imd.sm.r ≠ 0 ∧ imdrEntryAdd width imd.sm memory id size = some result := by
  rw [imdEntryAdd] at added
  split_ifs at added with plain fits
  · exact .inl added
  · cases inSmall : imdrEntryAdd width imd.sm memory id size with
    | none =>
      rw [inSmall] at added
      exact .inl added
    | some other =>
      rw [inSmall] at added
      exact .inr ⟨plain, added⟩
  · exact .inl added

theorem TablesAt.add (records : Records width imd lgIds smIds entries) {id : BitVec 32}
    (unknown : Unknown width imd memory id)
    (added : imdEntryAdd width imd memory id.toNat size = some (entry, memory')) :
    ∃ lgIds' smIds', TablesAt width imd memory' lgMax smMax lgIds' smIds' ∧
      Records width imd lgIds' smIds' ((id.toNat, entry) :: entries) := by
  have fresh := List.nodup_cons.mpr ⟨tables.not_mem unknown, tables.once⟩
  have recorded (other place : Nat) :
      (other, place) ∈ (id.toNat, entry) :: entries ↔
        (other = id.toNat ∧ place = entry) ∨ Listed width imd.sm smIds other place ∨
          Listed width imd.lg lgIds other place := by
    rw [List.mem_cons, Prod.mk.injEq, records other place]
  rcases imdEntryAdd_eq_some added with large | ⟨tiered, small⟩
  · obtain ⟨rfl, table, change⟩ := tables.large.add id.isLt large
    refine ⟨lgIds ++ [id.toNat], smIds, ⟨table, ?_, ?_⟩, fun other place => ?_⟩
    · refine tables.small.imp_right fun ⟨small, below⟩ => ⟨?_, below⟩
      exact small.congr change (.inl below)
    · rw [← List.append_assoc]
      exact (List.perm_append_singleton _ _).nodup_iff.mpr fresh
    · rw [recorded, listed_append]
      tauto
  · obtain ⟨smallTable, below⟩ := tables.small.resolve_left fun null => tiered null.1
    obtain ⟨rfl, table, change⟩ := smallTable.add id.isLt small
    refine ⟨lgIds, smIds ++ [id.toNat], ⟨?_, .inr ⟨table, below⟩, ?_⟩, fun other place => ?_⟩
    · exact tables.large.congr change (.inr below)
    · rw [List.append_assoc]
      exact List.perm_middle.nodup_iff.mpr fresh
    · rw [recorded, listed_append]
      tauto

end

theorem records_dropLast {P Q R : Nat → Nat → Prop} {last : Nat}
    (records : ∀ other place, (other, place) ∈ entries ↔ P other place ∨ Q other place)
    (dropped : ∀ other place, R other place ↔ Q other place ∧ place ≠ last)
    (here : entry = last) (apart : ∀ other, ¬ P other last)
    (single : ∀ other, Q other last → other = id) (other place : Nat) :
    (other, place) ∈ entries.filter (fun added => added ≠ (id, entry)) ↔
      P other place ∨ R other place := by
  subst here
  rw [List.mem_filter, records, dropped, decide_eq_true_iff, Ne, Prod.mk.injEq]
  constructor
  · rintro ⟨left | right, different⟩
    · exact .inl left
    · exact .inr ⟨right, fun same =>
        different ⟨single other (same ▸ right), same⟩⟩
  · rintro (left | ⟨right, different⟩)
    · exact ⟨.inl left, fun same => apart other (same.2 ▸ left)⟩
    · exact ⟨.inr right, fun same => different same.2⟩

theorem TablesAt.remove (tables : TablesAt width imd memory lgMax smMax lgIds smIds)
    (records : Records width imd lgIds smIds entries) {id entry : Nat}
    (present : imdEntryFind width imd memory id = some entry)
    (removed : imdEntryRemove width imd memory entry = some memory') :
    ∃ lgIds' smIds', TablesAt width imd memory' lgMax smMax lgIds' smIds' ∧
      Records width imd lgIds' smIds' (entries.filter fun added => added ≠ (id, entry)) := by
  have listed := (tables.find id entry).mp present
  obtain ⟨imdr, owner, last, rfl⟩ := imdEntryRemove_eq_some removed
  obtain ⟨large, small, once⟩ := tables
  rcases owner with rfl | ⟨rfl, tiered⟩
  · -- The entry is not one of the small table, which is below.
    rw [large.rootLastEntry_eq] at last
    have apart (other : Nat) : ¬ Listed width imd.sm smIds other
        (rootEntry width imd.lg.r lgIds.length) := by
      rintro ⟨i, at', same⟩
      rcases small with ⟨-, rfl⟩ | ⟨small, below⟩
      · cases at'
      · obtain ⟨inside, -⟩ := List.getElem?_eq_some_iff.mp at'
        have low := (small.bounds (show i + 1 ≤ smIds.length by omega)).2
        have high := (large.bounds le_rfl).1
        omega
    have here : Listed width imd.lg lgIds id entry :=
      listed.resolve_left fun inSmall => apart id (last ▸ inSmall)
    have more : lgIds ≠ [] := by
      rintro rfl
      exact not_listed_nil here
    obtain ⟨table, change⟩ := large.remove more
    refine ⟨lgIds.dropLast, smIds, ⟨table, ?_, ?_⟩, ?_⟩
    · exact small.imp_right fun ⟨small, below⟩ =>
        ⟨small.congr change (.inl below), below⟩
    · exact once.sublist ((List.dropLast_sublist lgIds).append_left smIds)
    · exact records_dropLast records
        (fun other place => large.listed_dropLast) last apart
        fun other same => large.id_eq same (last ▸ here)
  · obtain ⟨small, below⟩ := small.resolve_left fun null => tiered null.1
    rw [small.rootLastEntry_eq] at last
    have apart (other : Nat) : ¬ Listed width imd.lg lgIds other
        (rootEntry width imd.sm.r smIds.length) := by
      rintro ⟨i, at', same⟩
      obtain ⟨inside, -⟩ := List.getElem?_eq_some_iff.mp at'
      have low := (small.bounds le_rfl).2
      have high := (large.bounds (show i + 1 ≤ lgIds.length by omega)).1
      omega
    have here : Listed width imd.sm smIds id entry :=
      listed.resolve_right fun inLarge => apart id (last ▸ inLarge)
    have more : smIds ≠ [] := by
      rintro rfl
      exact not_listed_nil here
    obtain ⟨table, change⟩ := small.remove more
    refine ⟨lgIds, smIds.dropLast, ⟨large.congr change (.inr below),
      .inr ⟨table, below⟩, ?_⟩, fun other place => ?_⟩
    · exact once.sublist ((List.dropLast_sublist smIds).append_right lgIds)
    · rw [or_comm]
      exact records_dropLast (fun other place => (records other place).trans
        or_comm) (fun other place => small.listed_dropLast) last apart
        (fun other same => small.id_eq same (last ▸ here)) other place

theorem imdEntryFindOrAdd_present {other : Nat}
    (present : imdEntryFind width imd memory id = some other)
    (found : imdEntryFindOrAdd width imd memory id size = some (entry, memory')) :
    memory' = memory := by
  rw [imdEntryFindOrAdd, present] at found
  exact (Prod.mk.inj (Option.some.inj found)).2.symm

theorem imdEntryFindOrAdd_missing (missing : imdEntryFind width imd memory id = none) :
    imdEntryFindOrAdd width imd memory id size = imdEntryAdd width imd memory id size := by
  rw [imdEntryFindOrAdd, missing]

theorem TablesAt.run {start : Memory} (tables : TablesAt width imd start lgMax smMax lgIds smIds)
    (records : Records width imd lgIds smIds (smallRegionEntry width imd))
    (run : IdRun width imd (Unknown width imd) start memory entries) :
    ∃ lgIds' smIds', TablesAt width imd memory lgMax smMax lgIds' smIds' ∧
      Records width imd lgIds' smIds' entries := by
  induction run with
  | start => exact ⟨lgIds, smIds, tables, records⟩
  | added _ meets added ih =>
    obtain ⟨_, _, tables, records⟩ := ih
    exact tables.add records meets added
  | found _ present found ih =>
    rw [imdEntryFindOrAdd_present present found]
    exact ih
  | foundOrAdded _ missing added ih =>
    obtain ⟨_, _, tables, records⟩ := ih
    rw [imdEntryFindOrAdd_missing missing] at added
    exact tables.add records missing added
  | removed _ present removed ih =>
    obtain ⟨_, _, tables, records⟩ := ih
    exact tables.remove records present removed

/-- A plain imd starts with the entry of its root, and a tiered one with those of
the roots and of the small region. -/
structure Fresh (imd : Handle) (memory : Memory) : Prop where
  plain : imd.sm.r = 0 → rootNumEntries memory imd.lg.r = 1
  tiered : imd.sm.r ≠ 0 → rootNumEntries memory imd.lg.r = 2 ∧ rootNumEntries memory imd.sm.r = 1

theorem HandleAt.tablesAt {powers : Powers} {limit : Option Nat} {lg : Directory}
    (handle : HandleAt width imd powers memory limit lg) (fresh : Fresh imd memory) :
    ∃ lgMax smMax lgIds smIds,
      TablesAt width imd memory lgMax smMax lgIds smIds ∧
        Records width imd lgIds smIds (smallRegionEntry width imd) := by
  have large := handle.large.tableAt
  have count := handle.large.root.numEntries
  by_cases plain : imd.sm.r = 0
  · have none : lg.others = [] := by
      have single := fresh.plain plain
      exact List.eq_nil_of_length_eq_zero (by omega)
    rw [none, List.map_nil] at large
    refine ⟨_, 0, [], [], ⟨large, .inl ⟨plain, rfl⟩, List.nodup_nil⟩, fun id entry => ?_⟩
    rw [smallRegionEntry, if_pos plain]
    simp [not_listed_nil]
  · obtain ⟨lgCount, smCount⟩ := fresh.tiered plain
    obtain ⟨sm, size, small⟩ := handle.small.resolve_left plain
    have smLength := small.directory.root.numEntries
    have none : sm.others = [] := List.eq_nil_of_length_eq_zero (by omega)
    have one : lg.others = [⟨-size, size, smallRegionId⟩] := by
      have region := small.region
      obtain ⟨only, others⟩ := List.length_eq_one_iff.mp (show lg.others.length = 1 by omega)
      rw [others] at region ⊢
      rw [Option.some.inj region]
    have smTable := small.directory.tableAt
    rw [none, List.map_nil] at smTable
    rw [one, List.map_singleton] at large
    refine ⟨_, _, _, _, ⟨large, .inr ⟨smTable, small.limit.le⟩, ?_⟩, fun id entry => ?_⟩
    · exact List.nodup_singleton _
    · rw [smallRegionEntry, if_neg plain, List.mem_singleton, Prod.mk.injEq,
        or_iff_right not_listed_nil]
      have single := @listed_append width imd.lg [] smallRegionId id entry
      rw [or_iff_right not_listed_nil] at single
      exact single.symm

end Handle

theorem Created.fresh (wide : 32 ≤ width) {upperLimit : Nat}
    (fits : upperLimit < 2 ^ width) {imd : Handle} {memory : Memory}
    (created : Created width upperLimit imd memory) : Fresh imd memory := by
  cases created with
  | @plain memory memory' imd rootPower power large below created =>
    rw [imdHandleInit_eq fits, imdCreateEmpty] at created
    obtain ⟨⟨lgImdr, lgMemory⟩, accepted, same⟩ := Option.map_eq_some_iff.mp created
    cases same
    obtain ⟨-, -, -, d, directory, -, -, -, -, none⟩ :=
      imdrCreateEmpty_spec (show Imdr.limit ⟨upperLimit / 4096 * 4096, 0⟩ =
        upperLimit / 4096 * 4096 from rfl) (by omega) large below accepted
    have count := directory.root.numEntries
    rw [none] at count
    exact ⟨fun _ => count, fun tiered => absurd rfl tiered⟩
  | @tiered memory memory' imd lgRootPower lgPower smRootPower smPower lgLarge
      smLarge smAligned region created =>
    obtain ⟨-, -, -, -, positive, counts, -⟩ :=
      imdCreateTieredEmpty_spec wide fits lgLarge smLarge region created
    exact ⟨fun plain => absurd plain positive.ne', fun _ => counts⟩

/-- As long as no id is added that can be found, the ids are unique. -/
theorem unique_of_unknown (wide : 32 ≤ width) {upperLimit : Nat}
    (fits : upperLimit < 2 ^ width) {imd : Handle} {start memory : Memory}
    {entries : List (Nat × Nat)} (created : Created width upperLimit imd start)
    (run : IdRun width imd (Unknown width imd) start memory entries) :
    IdsUnique width imd memory entries := by
  obtain ⟨powers, lg, handle, -, -⟩ := created.handleAt wide fits
  obtain ⟨lgMax, smMax, lgIds, smIds, tables, records⟩ := handle.tablesAt (created.fresh wide fits)
  obtain ⟨_, _, tables, records⟩ := tables.run records run
  exact tables.unique records

/-- A plain imd with a root of 128 bytes below 8 KiB, in cleared memory. -/
def idRoot : Handle × Memory :=
  (imdCreateEmpty 32 (imdHandleInit 32 8192) (fun _ => 0) (2 ^ 7) (2 ^ 0)).get (by decide +kernel)

theorem created_idRoot : Created 32 8192 idRoot.1 idRoot.2 := by
  refine @Created.plain 32 8192 (fun _ => 0) _ _ 7 0 (by decide) (by decide) ?_
  rw [idRoot, Prod.mk.eta, Option.some_get]

/-- An entry of 8 bytes that was added to an empty directory. -/
theorem unique_of_unknown_idRoot :
    ∃ entry memory,
      imdEntryAdd 32 idRoot.1 idRoot.2 7 8 = some (entry, memory) ∧
        IdsUnique 32 idRoot.1 memory [(7, entry)] := by
  obtain ⟨⟨entry, memory⟩, added⟩ := Option.isSome_iff_exists.mp
    (show (imdEntryAdd 32 idRoot.1 idRoot.2 7 8).isSome = true by
      decide +kernel)
  have unknown : Unknown 32 idRoot.1 idRoot.2 7 := by
    show imdEntryFind 32 idRoot.1 idRoot.2 7 = none
    decide +kernel
  have start : smallRegionEntry 32 idRoot.1 = [] := by decide +kernel
  have run : IdRun 32 idRoot.1 (Unknown 32 idRoot.1) idRoot.2 memory
      (((7 : BitVec 32).toNat, entry) :: smallRegionEntry 32 idRoot.1) :=
    .added .start unknown added
  rw [start] at run
  exact ⟨entry, memory, added, unique_of_unknown (by decide) (by decide) created_idRoot run⟩

/-- Without the condition, an id is added twice. -/
theorem not_unique_idTwice :
    ¬ ∀ (width upperLimit : Nat) (imd : Handle) (start memory : Memory)
      (entries : List (Nat × Nat)), 32 ≤ width → upperLimit < 2 ^ width →
      Created width upperLimit imd start →
      IdRun width imd (fun _ _ => True) start memory entries →
      IdsUnique width imd memory entries := by
  intro claim
  obtain ⟨⟨first, memory⟩, added⟩ := Option.isSome_iff_exists.mp
    (show (imdEntryAdd 32 idRoot.1 idRoot.2 7 8).isSome = true by
      decide +kernel)
  obtain ⟨⟨second, memory'⟩, again⟩ := Option.isSome_iff_exists.mp
    (show ((imdEntryAdd 32 idRoot.1 idRoot.2 7 8).bind fun added =>
        imdEntryAdd 32 idRoot.1 added.2 7 8).isSome = true by
      decide +kernel)
  have twice : (((imdEntryAdd 32 idRoot.1 idRoot.2 7 8).bind fun added =>
      imdEntryAdd 32 idRoot.1 added.2 7 8).map fun added =>
        liveIds 32 idRoot.1.sm added.2 ++ liveIds 32 idRoot.1.lg added.2) =
      some [7, 7] := by
    decide +kernel
  rw [again, Option.map_some, Option.some_inj] at twice
  rw [added] at again
  have unique := claim 32 8192 idRoot.1 idRoot.2 memory' _ (by decide)
    (by decide) created_idRoot (@IdRun.added _ _ _ _ _ _ _ 7 8 second
      (@IdRun.added _ _ _ _ _ _ _ 7 8 first .start trivial added) trivial again)
  have once := unique.once
  rw [twice] at once
  exact absurd once (by decide)

end Coreboot.Imd
