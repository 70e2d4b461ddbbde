import Mathlib.Data.List.Basic
import Mathlib.Tactic.Common

/-!
# Timestamps across the stages

Events are logged to a cache until CBMEM comes up, and to a table in CBMEM from then on. Their
times are relative to the base of the table they are in.
-/

namespace Coreboot.Timestamp

abbrev Time := BitVec 64

/-- `struct timestamp_entry`. -/
structure Entry where
  entryId : BitVec 32
  entryStamp : Time
deriving DecidableEq, Repr

/-- `struct timestamp_table`, with the entries that are used. -/
structure Table where
  baseTime : Time
  maxEntries : Nat
  entries : List Entry
deriving DecidableEq, Repr

inductive CacheState where
  | uninitialized
  | initialized
  | notNeeded
deriving DecidableEq, Repr

/-- `struct timestamp_cache`. -/
structure Cache where
  cacheState : CacheState
  table : Table
deriving DecidableEq, Repr

def maxTimestamps : Nat := 84
def maxBssTimestampCache : Nat := 16

def clearedCache : Cache := ⟨.uninitialized, ⟨0, 0, []⟩⟩

def timestampAddTableEntry (table : Table) (id : BitVec 32) (time : Time) : Table :=
  if table.entries.length ≥ table.maxEntries then table
  else
    { table with
      entries := table.entries ++ [⟨id, time - table.baseTime⟩] }

inductive Stage where
  | bootblock
  | verstage
  | romstage
  | postcar
  | ramstage
deriving DecidableEq, Repr

namespace Stage

def rank : Stage → Nat
  | bootblock => 0
  | verstage => 1
  | romstage => 2
  | postcar => 3
  | ramstage => 4

def preRam (stage : Stage) : Bool := decide (stage.rank ≤ 2)

def hasCbmem (stage : Stage) : Bool := decide (2 ≤ stage.rank)

end Stage

/-- What the stages are built for.  CBMEM is initialised in romstage, and then
there is a region for the cache, or it is initialised in ramstage only. -/
structure Config where
  earlyCbmemInit : Bool
  archX86 : Bool
  archRomstageX86 : Bool
  regionSize : Nat
  listed : earlyCbmemInit → 212 ≤ regionSize

/-- The caches, the table in CBMEM, whether CBMEM has come up in this stage, and
whether the stage has found the table before. -/
structure State where
  stage : Stage
  region : Cache
  bss : Cache
  cbmem : Option Table
  online : Bool
  tsTable : Bool
deriving DecidableEq, Repr

/-- What happens during a boot.  Calls come from the boot processor or from
another one; CBMEM comes up with a sync, or without one in postcar; there may be
no room in it for a new table. -/
inductive Op where
  | timestampInit (bootCpu : Bool) (base : Time)
  | timestampAdd (bootCpu : Bool) (id : BitVec 32) (time : Time)
  | cbmemSync (bootCpu isRecovery room : Bool)
  | cbmemOnline
  | enter (stage : Stage)
deriving DecidableEq, Repr

variable (config : Config)

def compiled (stage : Stage) : Bool := config.earlyCbmemInit || ! stage.preRam

def timestampShouldRun (stage : Stage) (bootCpu : Bool) : Bool :=
  stage == .ramstage || ! config.archX86 || bootCpu

/-- The functions run on a processor. -/
def runs (state : State) (bootCpu : Bool) : Bool :=
  compiled config state.stage && timestampShouldRun config state.stage bootCpu

def regionEntries : Nat := (config.regionSize - 20) / 12 % 65536

def timestampCacheInit (stage : Stage) (base : Time) : Cache :=
  ⟨.initialized, ⟨base, if stage.preRam then regionEntries config else maxBssTimestampCache, []⟩⟩

/-- `timestamp_cache_get`; the stages before RAM that are compiled have a
region. -/
def timestampCacheGet (state : State) : Option Cache :=
  if state.stage = .ramstage then some state.bss
  else if state.stage.preRam then some state.region
  else none

def State.setCache (state : State) (cache : Cache) : State :=
  if state.stage = .ramstage then { state with bss := cache }
  else if state.stage.preRam then { state with region := cache }
  else state

def State.cbmemFind (state : State) : Option Table := if state.online then state.cbmem else none

/-- A table that is found. -/
inductive Target where
  | cache (cache : Cache)
  | cbmem (table : Table)
deriving DecidableEq, Repr

def timestampTableGet (state : State) : Option Target :=
  if state.tsTable then state.cbmem.map .cbmem
  else
    match timestampCacheGet state with
    | none => state.cbmemFind.map .cbmem
    | some cache =>
      if cache.cacheState ≠ .notNeeded then some (.cache cache)
      else if ¬ state.stage.hasCbmem then none
      else state.cbmemFind.map .cbmem

/-- An event is put into the table that was found.  Only the stages with RAM keep
the table for the next time. -/
def State.add (state : State) (target : Target) (id : BitVec 32) (time : Time) : State :=
  match target with
  | .cache cache =>
    state.setCache { cache with table := timestampAddTableEntry cache.table id time }
  | .cbmem table =>
    { state with
      cbmem := some (timestampAddTableEntry table id time)
      tsTable := ! state.stage.preRam }

/-- `timestamp_init` does not honour a cache in ramstage that was synced. -/
def initTakesEffect (state : State) (bootCpu : Bool) : Bool :=
  runs config state bootCpu &&
    match timestampCacheGet state with
    | none => false
    | some cache =>
      ! (state.stage == .ramstage && config.earlyCbmemInit && cache.cacheState != .uninitialized)

/-- The table in CBMEM when it comes up; it is empty unless it is recovered. -/
def survivingTable (state : State) (isRecovery : Bool) : Option Table :=
  if isRecovery then state.cbmem else none

def timestampAllocCbmemTable (existing : Option Table) (room : Bool) : Option Table :=
  if existing.isSome || room then some ⟨0, maxTimestamps, []⟩ else none

/-- A sync uses the table there is, and does not make or reset one. -/
def usesExisting (state : State) (isRecovery : Bool) : Bool :=
  isRecovery && ! (config.archRomstageX86 && state.stage == .romstage) && state.cbmem.isSome

def syncTable (state : State) (isRecovery room : Bool) : Option Table :=
  if usesExisting config state isRecovery then state.cbmem
  else timestampAllocCbmemTable (survivingTable state isRecovery) room

/-- The entries of the cache are copied, and the base is inherited. -/
def copyEntries (cacheTable cbmemTable : Table) : Table :=
  let copied := cacheTable.entries.foldl
    (fun table entry =>
      timestampAddTableEntry table entry.entryId entry.entryStamp) cbmemTable
  if copied.baseTime = 0 then { copied with baseTime := cacheTable.baseTime }
  else copied

/-- CBMEM comes up in a stage that has it, and `timestamp_sync_cache_to_cbmem` is
called. -/
def sync (state : State) (bootCpu isRecovery room : Bool) : State :=
  if ¬ state.stage.hasCbmem then state
  else
    let up := { state with cbmem := survivingTable state isRecovery, online := true }
    if ¬ runs config state bootCpu then up
    else
      match timestampCacheGet state, syncTable config state isRecovery room with
      | some cache, some table =>
        { up.setCache ⟨.notNeeded, { cache.table with entries := [] }⟩ with
          cbmem := some (copyEntries cache.table table) }
      | _, _ => up

/-- A later stage starts; the BSS of ramstage is cleared. -/
def enterStage (state : State) (stage : Stage) : State :=
  if state.stage.rank < stage.rank then
    { state with
      stage := stage
      bss := clearedCache
      online := false
      tsTable := false }
  else state

def step (state : State) : Op → State
  | .timestampInit bootCpu base =>
    if initTakesEffect config state bootCpu then
      state.setCache (timestampCacheInit config state.stage base)
    else state
  | .timestampAdd bootCpu id time =>
    if ¬ runs config state bootCpu then state
    else
      match timestampTableGet state with
      | none => state
      | some target => state.add target id time
  | .cbmemSync bootCpu isRecovery room =>
    sync config state bootCpu isRecovery room
  | .cbmemOnline => { state with online := true }
  | .enter stage => enterStage state stage

/-- A boot starts in the bootblock, maybe with the table of an earlier boot. -/
def startState (stale : Option Table) : State :=
  ⟨.bootblock, clearedCache, clearedCache, stale, false, false⟩

abbrev Event := BitVec 32 × Time

def Table.events (table : Table) : List Event :=
  table.entries.map fun entry =>
    (entry.entryId, table.baseTime + entry.entryStamp)

/-- What was logged in a boot: the events that wait in the cache, those the table
in CBMEM had room for, and whether there was a sync. -/
structure Log where
  pending : List Event
  kept : List Event
  synced : Bool
deriving DecidableEq, Repr

def noLog : Log := ⟨[], [], false⟩

def Table.hasRoom (table : Table) : Bool := decide (table.entries.length < table.maxEntries)

/-- The log after an operation: an event is logged if the table that receives it
is not full, and a sync takes as many events as the table has room for. -/
def Log.record (state : State) (log : Log) : Op → Log
  | .timestampAdd bootCpu id time =>
    if ¬ runs config state bootCpu then log
    else
      match timestampTableGet state with
      | none => log
      | some (.cache cache) =>
        if cache.table.hasRoom then
          { log with pending := log.pending ++ [(id, time)] }
        else log
      | some (.cbmem table) =>
        if table.hasRoom then { log with kept := log.kept ++ [(id, time)] }
        else log
  | .cbmemSync bootCpu isRecovery room =>
    if ¬ (state.stage.hasCbmem && runs config state bootCpu) then log
    else
      match timestampCacheGet state, syncTable config state isRecovery room with
      | some _, some table =>
        ⟨[], log.kept ++ log.pending.take (table.maxEntries - table.entries.length), true⟩
      | _, _ => log
  | _ => log

def boot : State → Log → List Op → State × Log
  | state, log, [] => (state, log)
  | state, log, op :: ops =>
    boot (step config state op) (log.record config state op) ops

def Table.Bounded (table : Table) : Prop := table.entries.length ≤ table.maxEntries

/-- After a sync the table in CBMEM holds the events of the log, in their order
and at their times, and none waits in a cache.  No table has more entries than it
has room for. -/
structure Survives (state : State) (log : Log) : Prop where
  events : log.synced → ∃ table, state.cbmem = some table ∧ table.events = log.kept
  pending : log.synced → log.pending = []
  region : state.region.table.Bounded
  bss : state.bss.table.Bounded
  cbmem : ∀ table ∈ state.cbmem, table.Bounded

/-- An operation is made as the configurations have it.  The cache is initialised
while no event waits in it, and before the first sync.  No event is logged to the
table of an earlier boot.  The first sync makes or resets the table, and later
ones find it.  The stages before RAM are left with no event in the cache. -/
def Careful (state : State) (log : Log) : Op → Prop
  | .timestampInit bootCpu _ =>
    initTakesEffect config state bootCpu → log.pending = [] ∧ ¬ log.synced
  | .timestampAdd bootCpu _ _ =>
    runs config state bootCpu →
      (timestampTableGet state).any (fun target =>
        match target with
        | .cache _ => false
        | .cbmem _ => true) → log.synced
  | .cbmemSync _ isRecovery _ =>
    state.stage.hasCbmem → (usesExisting config state isRecovery ↔ log.synced)
  | .cbmemOnline => True
  | .enter stage => stage.preRam ∨ log.pending = []

instance (state : State) (log : Log) : (op : Op) → Decidable (Careful config state log op)
  | .timestampInit _ _ => inferInstanceAs (Decidable (_ → _ ∧ _))
  | .timestampAdd _ _ _ => inferInstanceAs (Decidable (_ → _ → _))
  | .cbmemSync _ _ _ => inferInstanceAs (Decidable (_ → (_ ↔ _)))
  | .cbmemOnline => inferInstanceAs (Decidable True)
  | .enter _ => inferInstanceAs (Decidable (_ ∨ _))

/-- Every operation of a boot is made as the configurations have it. -/
def CarefulBoot : State → Log → List Op → Prop
  | _, _, [] => True
  | state, log, op :: ops =>
    Careful config state log op ∧
      CarefulBoot (step config state op) (log.record config state op) ops

def decidableCarefulBoot : (state : State) → (log : Log) → (ops : List Op) →
    Decidable (CarefulBoot config state log ops)
  | _, _, [] => isTrue trivial
  | state, log, op :: ops =>
    have := decidableCarefulBoot (step config state op) (log.record config state op) ops
    inferInstanceAs (Decidable (_ ∧ _))

instance (state : State) (log : Log) (ops : List Op) :
    Decidable (CarefulBoot config state log ops) :=
  decidableCarefulBoot config state log ops

section Tables

variable {table cacheTable : Table}

@[simp]
theorem timestampAddTableEntry_baseTime (id : BitVec 32) (time : Time) :
    (timestampAddTableEntry table id time).baseTime = table.baseTime := by
  rw [timestampAddTableEntry]
  split_ifs <;> rfl

@[simp]
theorem timestampAddTableEntry_maxEntries (id : BitVec 32) (time : Time) :
    (timestampAddTableEntry table id time).maxEntries = table.maxEntries := by
  rw [timestampAddTableEntry]
  split_ifs <;> rfl

theorem timestampAddTableEntry_full (full : ¬ table.hasRoom) (id : BitVec 32)
    (time : Time) : timestampAddTableEntry table id time = table := by
  rw [Table.hasRoom, decide_eq_true_eq, Nat.not_lt] at full
  exact if_pos full

theorem timestampAddTableEntry_entries (room : table.hasRoom) (id : BitVec 32) (time : Time) :
    (timestampAddTableEntry table id time).entries =
      table.entries ++ [⟨id, time - table.baseTime⟩] := by
  rw [Table.hasRoom, decide_eq_true_eq] at room
  rw [timestampAddTableEntry, if_neg (Nat.not_le.mpr room)]

theorem timestampAddTableEntry_events (room : table.hasRoom) (id : BitVec 32) (time : Time) :
    (timestampAddTableEntry table id time).events = table.events ++ [(id, time)] := by
  have time_eq : table.baseTime + (time - table.baseTime) = time := by
    rw [BitVec.add_comm, BitVec.sub_add_cancel]
  rw [Table.events, timestampAddTableEntry_entries room,
    timestampAddTableEntry_baseTime, List.map_append, List.map_singleton, time_eq]
  rfl

theorem Table.Bounded.add (bounded : table.Bounded) (id : BitVec 32)
    (time : Time) : (timestampAddTableEntry table id time).Bounded := by
  by_cases room : table.hasRoom
  · rw [Table.Bounded, timestampAddTableEntry_entries room,
      timestampAddTableEntry_maxEntries, List.length_append, List.length_singleton]
    rw [Table.hasRoom, decide_eq_true_eq] at room
    omega
  · rwa [timestampAddTableEntry_full room]

theorem copied_entries (entries : List Entry) (table : Table) :
    let copied := entries.foldl (fun table entry =>
      timestampAddTableEntry table entry.entryId entry.entryStamp) table
    copied.baseTime = table.baseTime ∧ copied.maxEntries = table.maxEntries ∧
      copied.entries = table.entries ++
        (entries.take (table.maxEntries - table.entries.length)).map fun entry =>
          ⟨entry.entryId, entry.entryStamp - table.baseTime⟩ := by
  induction entries generalizing table with
  | nil => exact ⟨rfl, rfl, by rw [List.take_nil]; exact (List.append_nil _).symm⟩
  | cons entry rest ih =>
    obtain ⟨base, most, listed⟩ := ih (timestampAddTableEntry table entry.entryId entry.entryStamp)
    refine ⟨base.trans (by simp), most.trans (by simp), ?_⟩
    rw [List.foldl_cons, listed]
    by_cases room : table.hasRoom
    · rw [timestampAddTableEntry_entries room, timestampAddTableEntry_maxEntries,
        timestampAddTableEntry_baseTime, List.length_append,
        List.length_singleton, List.append_assoc, List.singleton_append]
      rw [Table.hasRoom, decide_eq_true_eq] at room
      obtain ⟨more, left⟩ : ∃ more, table.maxEntries - table.entries.length = more + 1 :=
        ⟨table.maxEntries - table.entries.length - 1, by omega⟩
      have less : table.maxEntries - (table.entries.length + 1) = more := by
        omega
      rw [left, less, List.take_succ_cons, List.map_cons]
    · rw [timestampAddTableEntry_full room]
      rw [Table.hasRoom, decide_eq_true_eq] at room
      have none : table.maxEntries - table.entries.length = 0 := by omega
      rw [none, List.take_zero, List.take_zero]

theorem copyEntries_new (cacheTable : Table) (most : Nat) :
    (copyEntries cacheTable ⟨0, most, []⟩).events = cacheTable.events.take most ∧
      (copyEntries cacheTable ⟨0, most, []⟩).Bounded ∧
      (copyEntries cacheTable ⟨0, most, []⟩).baseTime = cacheTable.baseTime := by
  obtain ⟨base, limit, listed⟩ := copied_entries cacheTable.entries ⟨0, most, []⟩
  rw [copyEntries]
  rw [if_pos base]
  refine ⟨?_, ?_, rfl⟩
  · rw [Table.events, listed, List.nil_append, List.length_nil, Nat.sub_zero,
      Table.events, List.map_map, List.map_take]
    congr 2
    funext entry
    simp
  · rw [Table.Bounded, listed, limit, List.nil_append, List.length_map,
      List.length_take, List.length_nil]
    omega

theorem copyEntries_nil (empty : cacheTable.entries = [])
    (based : cacheTable.baseTime = 0 ∨ table.baseTime ≠ 0) :
    copyEntries cacheTable table = table := by
  rw [copyEntries, empty, List.foldl_nil]
  split_ifs with zero
  · rcases based with same | nonzero
    · rw [same, ← zero]
    · exact absurd zero nonzero
  · rfl

end Tables

section Steps

variable {config : Config} {state : State} {log : Log} {cache other : Cache}

def waitingEvents (state : State) : List Event :=
  (timestampCacheGet state).elim [] fun cache => cache.table.events

/-- What holds of a careful boot: the log says what waits in the cache, and what
is in CBMEM since the first sync.  From then on the cache takes no events, and
the base in CBMEM is that of the cache unless one of the two is set. -/
structure Invariant (state : State) (log : Log) : Prop where
  waiting : log.pending = waitingEvents state
  unsynced : ¬ log.synced → log.kept = []
  events : log.synced →
    ∃ table, state.cbmem = some table ∧ table.events = log.kept ∧
      ∀ cache, timestampCacheGet state = some cache → cache.table.baseTime = 0 ∨ table.baseTime ≠ 0
  settled : log.synced → ∀ cache, timestampCacheGet state = some cache →
    cache.table.entries = [] ∧ (cache.cacheState = .notNeeded ∨ cache.table.maxEntries = 0)
  region : state.region.table.Bounded
  bss : state.bss.table.Bounded
  cbmem : ∀ table ∈ state.cbmem, table.Bounded

theorem Invariant.survives (invariant : Invariant state log) : Survives state log where
  events synced := by
    obtain ⟨table, found, same, -⟩ := invariant.events synced
    exact ⟨table, found, same⟩
  pending synced := by
    rw [invariant.waiting, waitingEvents]
    cases found : timestampCacheGet state with
    | none => rfl
    | some cache =>
      rw [Option.elim_some, Table.events, (invariant.settled synced cache found).1]
      rfl
  region := invariant.region
  bss := invariant.bss
  cbmem := invariant.cbmem

theorem timestampCacheGet_setCache (found : timestampCacheGet state = some cache) :
    timestampCacheGet (state.setCache other) = some other := by
  rw [timestampCacheGet] at found
  rw [State.setCache]
  split_ifs at found ⊢ with ramstage preRam
  · exact if_pos ramstage
  · exact (if_neg ramstage).trans (if_pos preRam)

theorem setCache_cbmem (state : State) (cache : Cache) :
    (state.setCache cache).cbmem = state.cbmem := by
  rw [State.setCache]
  split_ifs <;> rfl

theorem bounded_cache (region : state.region.table.Bounded) (bss : state.bss.table.Bounded)
    (found : timestampCacheGet state = some cache) : cache.table.Bounded := by
  rw [timestampCacheGet] at found
  split_ifs at found
  · cases found
    exact bss
  · cases found
    exact region

theorem setCache_region (region : state.region.table.Bounded) (bounded : cache.table.Bounded) :
    (state.setCache cache).region.table.Bounded := by
  rw [State.setCache]
  split_ifs
  · exact region
  · exact bounded
  · exact region

theorem setCache_bss (bss : state.bss.table.Bounded) (bounded : cache.table.Bounded) :
    (state.setCache cache).bss.table.Bounded := by
  rw [State.setCache]
  split_ifs
  · exact bounded
  · exact bss
  · exact bss

section

variable (invariant : Invariant state log)
include invariant

theorem Invariant.timestampInit (bootCpu : Bool) (base : Time)
    (careful : Careful config state log (.timestampInit bootCpu base)) :
    Invariant (step config state (.timestampInit bootCpu base)) log := by
  rw [step]
  by_cases effect : initTakesEffect config state bootCpu
  · rw [if_pos effect]
    obtain ⟨nothing, unsynced⟩ := careful effect
    obtain ⟨cache, found⟩ : ∃ cache, timestampCacheGet state = some cache := by
      rw [initTakesEffect] at effect
      cases found : timestampCacheGet state with
      | none => simp [found] at effect
      | some cache => exact ⟨cache, rfl⟩
    have empty : (timestampCacheInit config state.stage base).table.Bounded := Nat.zero_le _
    exact
      { waiting := by
          rw [nothing, waitingEvents, timestampCacheGet_setCache found]
          rfl
        unsynced := invariant.unsynced
        events := fun synced => absurd synced unsynced
        settled := fun synced => absurd synced unsynced
        region := setCache_region invariant.region empty
        bss := setCache_bss invariant.bss empty
        cbmem := by
          rw [setCache_cbmem]
          exact invariant.cbmem }
  · rw [if_neg effect]
    exact invariant

omit invariant in
theorem timestampTableGet_cases {target : Target} (found : timestampTableGet state = some target) :
    (∃ cache, target = .cache cache ∧ timestampCacheGet state = some cache ∧
      cache.cacheState ≠ .notNeeded) ∨
    (∃ table, target = .cbmem table ∧ state.cbmem = some table) := by
  have inCbmem : ∀ {target : Target},
      state.cbmemFind.map Target.cbmem = some target →
        ∃ table, target = .cbmem table ∧ state.cbmem = some table := by
    intro target found
    obtain ⟨table, present, rfl⟩ := Option.map_eq_some_iff.mp found
    rw [State.cbmemFind] at present
    split_ifs at present
    exact ⟨table, rfl, present⟩
  rw [timestampTableGet] at found
  by_cases kept : state.tsTable
  · rw [if_pos kept] at found
    obtain ⟨table, present, rfl⟩ := Option.map_eq_some_iff.mp found
    exact .inr ⟨table, rfl, present⟩
  · rw [if_neg kept] at found
    split at found
    next => exact .inr (inCbmem found)
    next cache present =>
      split_ifs at found with needed
      · cases found
        exact .inl ⟨cache, rfl, present, needed⟩
      · exact .inr (inCbmem found)

theorem Invariant.timestampAdd (bootCpu : Bool) (id : BitVec 32) (time : Time)
    (careful : Careful config state log (.timestampAdd bootCpu id time)) :
    Invariant (step config state (.timestampAdd bootCpu id time))
      (log.record config state (.timestampAdd bootCpu id time)) := by
  rw [step, Log.record]
  by_cases running : runs config state bootCpu
  · rw [if_neg (not_not.mpr running), if_neg (not_not.mpr running)]
    cases found : timestampTableGet state with
    | none => exact invariant
    | some target =>
      rcases timestampTableGet_cases found with
        ⟨cache, rfl, present, needed⟩ | ⟨table, rfl, present⟩
      · have bounded := bounded_cache invariant.region invariant.bss present
        dsimp only
        by_cases room : cache.table.hasRoom
        · have unsynced : ¬ log.synced := by
            intro synced
            obtain ⟨empty, closed⟩ := invariant.settled synced cache present
            rw [Table.hasRoom, decide_eq_true_eq, empty, closed.resolve_left needed] at room
            exact absurd room (Nat.lt_irrefl 0)
          have waiting : log.pending = cache.table.events := by
            rw [invariant.waiting, waitingEvents, present]
            rfl
          rw [if_pos room, State.add]
          exact
            { waiting := by
                rw [waitingEvents, timestampCacheGet_setCache present,
                  Option.elim_some, timestampAddTableEntry_events room, waiting]
              unsynced := invariant.unsynced
              events := fun synced => absurd synced unsynced
              settled := fun synced => absurd synced unsynced
              region := setCache_region invariant.region (bounded.add id time)
              bss := setCache_bss invariant.bss (bounded.add id time)
              cbmem := by
                rw [setCache_cbmem]
                exact invariant.cbmem }
        · have same : state.setCache cache = state := by
            rw [timestampCacheGet] at present
            rw [State.setCache]
            split_ifs at present ⊢ <;> cases present <;> rfl
          rw [if_neg room, State.add, timestampAddTableEntry_full room, same]
          exact invariant
      · have synced : log.synced := by
          refine careful running ?_
          rw [found]
          rfl
        obtain ⟨kept, here, same, based⟩ := invariant.events synced
        obtain rfl := Option.some.inj (here.symm.trans present)
        have bounded := invariant.cbmem kept present
        dsimp only
        rw [State.add]
        have cases_room : Invariant
            { state with
              cbmem := some (timestampAddTableEntry kept id time)
              tsTable := ! state.stage.preRam }
            { log with
              kept := (timestampAddTableEntry kept id time).events } :=
          { waiting := invariant.waiting
            unsynced := fun unsynced => absurd synced unsynced
            events := fun _ => ⟨_, rfl, rfl, fun cache cacheFound => by
              rw [timestampAddTableEntry_baseTime]
              exact based cache cacheFound⟩
            settled := invariant.settled
            region := invariant.region
            bss := invariant.bss
            cbmem := fun table member => by
              cases member
              exact bounded.add id time }
        by_cases room : kept.hasRoom
        · rw [if_pos room]
          rwa [timestampAddTableEntry_events room, same] at cases_room
        · rw [if_neg room]
          rwa [timestampAddTableEntry_full room, same,
            ← timestampAddTableEntry_full room id time] at cases_room
  · rw [if_pos running, if_pos running]
    exact invariant

variable {isRecovery : Bool}

theorem Invariant.cbmemUp (kept : log.synced → isRecovery) :
    Invariant
      { state with cbmem := survivingTable state isRecovery, online := true }
      log where
  waiting := invariant.waiting
  unsynced := invariant.unsynced
  events synced := by
    rw [kept synced]
    exact invariant.events synced
  settled := invariant.settled
  region := invariant.region
  bss := invariant.bss
  cbmem table member := by
    rw [survivingTable] at member
    split_ifs at member
    · exact invariant.cbmem table member
    · cases member

omit invariant in
theorem syncTable_new {room : Bool} {table : Table} (fresh : ¬ usesExisting config state isRecovery)
    (found : syncTable config state isRecovery room = some table) :
    table = ⟨0, maxTimestamps, []⟩ := by
  rw [syncTable, if_neg fresh, timestampAllocCbmemTable] at found
  split_ifs at found
  cases found
  rfl

theorem Invariant.copied {room : Bool} {table : Table}
    (careful : usesExisting config state isRecovery ↔ log.synced)
    (present : timestampCacheGet state = some cache)
    (found : syncTable config state isRecovery room = some table) :
    (copyEntries cache.table table).Bounded ∧
      (copyEntries cache.table table).events =
        log.kept ++ log.pending.take (table.maxEntries - table.entries.length) ∧
      (cache.table.baseTime = 0 ∨ (copyEntries cache.table table).baseTime ≠ 0) := by
  have waiting : log.pending = cache.table.events := by
    rw [invariant.waiting, waitingEvents, present]
    rfl
  by_cases uses : usesExisting config state isRecovery
  · have synced := careful.mp uses
    obtain ⟨held, here, same, based⟩ := invariant.events synced
    rw [syncTable, if_pos uses] at found
    obtain rfl := Option.some.inj (here.symm.trans found)
    have empty := (invariant.settled synced cache present).1
    have nothing : cache.table.events = [] := by
      rw [Table.events, empty]
      rfl
    rw [copyEntries_nil empty (based cache present), waiting, nothing,
      List.take_nil, List.append_nil]
    exact ⟨invariant.cbmem held here, same, based cache present⟩
  · obtain rfl := syncTable_new uses found
    have unsynced : ¬ log.synced := fun synced => uses (careful.mpr synced)
    obtain ⟨events, bounded, base⟩ := copyEntries_new cache.table maxTimestamps
    refine ⟨bounded, ?_, ?_⟩
    · rw [events, invariant.unsynced unsynced, waiting]
      rfl
    · rw [base]
      exact Classical.em _

theorem Invariant.cbmemSync (bootCpu isRecovery room : Bool)
    (careful : Careful config state log (.cbmemSync bootCpu isRecovery room)) :
    Invariant (step config state (.cbmemSync bootCpu isRecovery room))
      (log.record config state (.cbmemSync bootCpu isRecovery room)) := by
  rw [step, sync, Log.record]
  by_cases has : state.stage.hasCbmem
  · have kept : log.synced → isRecovery := by
      intro synced
      have uses := (careful has).mpr synced
      rw [usesExisting, Bool.and_eq_true, Bool.and_eq_true] at uses
      exact uses.1.1
    have up := invariant.cbmemUp kept
    rw [if_neg (not_not.mpr has), has, Bool.true_and]
    by_cases running : runs config state bootCpu
    · rw [if_neg (not_not.mpr running), if_neg (not_not.mpr running)]
      cases present : timestampCacheGet state with
      | none => exact up
      | some cache =>
        cases found : syncTable config state isRecovery room with
        | none => exact up
        | some table =>
          obtain ⟨bounded, events, based⟩ := invariant.copied (careful has) present found
          have emptied :
              (⟨cache.table.baseTime, cache.table.maxEntries, []⟩ : Table).Bounded := Nat.zero_le _
          have put : timestampCacheGet
              ({ state with
                  cbmem := survivingTable state isRecovery
                  online := true }.setCache
                ⟨.notNeeded, { cache.table with entries := [] }⟩) =
              some ⟨.notNeeded, { cache.table with entries := [] }⟩ :=
            timestampCacheGet_setCache present
          exact
            { waiting := (congrArg (fun found => Option.elim found []
                fun cache : Cache => cache.table.events) put).symm
              unsynced := fun unsynced => absurd rfl unsynced
              events := fun _ => ⟨_, rfl, events, fun other found => by
                cases found.symm.trans put
                exact based⟩
              settled := fun _ other found => by
                cases found.symm.trans put
                exact ⟨rfl, .inl rfl⟩
              region := setCache_region up.region emptied
              bss := setCache_bss up.bss emptied
              cbmem := fun table member => by
                cases member
                exact bounded }
    · rw [if_pos running, if_pos running]
      exact up
  · rw [if_pos has, if_pos (by rw [Bool.and_eq_true]; exact fun both => has both.1)]
    exact invariant

theorem Invariant.enter (stage : Stage) (careful : Careful config state log (.enter stage)) :
    Invariant (step config state (.enter stage)) log := by
  rw [step, enterStage]
  by_cases later : state.stage.rank < stage.rank
  · rw [if_pos later]
    by_cases preRam : stage.preRam
    · have same : timestampCacheGet
          { state with
            stage := stage, bss := clearedCache, online := false,
            tsTable := false } = timestampCacheGet state := by
        have before : state.stage ≠ .ramstage ∧ state.stage.preRam ∧ stage ≠ .ramstage := by
          cases here : state.stage <;> cases stage <;> simp_all [Stage.rank, Stage.preRam]
        rw [timestampCacheGet, timestampCacheGet, if_neg before.1,
          if_pos before.2.1, if_neg before.2.2, if_pos preRam]
      exact
        { waiting := by
            rw [waitingEvents, same]
            exact invariant.waiting
          unsynced := invariant.unsynced
          events := by
            rw [same]
            exact invariant.events
          settled := by
            rw [same]
            exact invariant.settled
          region := invariant.region
          bss := Nat.zero_le _
          cbmem := invariant.cbmem }
    · have cleared : ∀ cache, timestampCacheGet
          { state with
            stage := stage, bss := clearedCache, online := false,
            tsTable := false } = some cache → cache = clearedCache := by
        intro cache found
        rw [timestampCacheGet] at found
        split_ifs at found
        exact (Option.some.inj found).symm
      exact
        { waiting := by
            rw [careful.resolve_left preRam, waitingEvents]
            cases found : timestampCacheGet _ with
            | none => rfl
            | some cache =>
              rw [cleared cache found]
              rfl
          unsynced := invariant.unsynced
          events := fun synced => by
            obtain ⟨table, here, same, -⟩ := invariant.events synced
            refine ⟨table, here, same, fun cache found => .inl ?_⟩
            rw [cleared cache found]
            rfl
          settled := fun _ cache found => by
            rw [cleared cache found]
            exact ⟨rfl, .inr rfl⟩
          region := invariant.region
          bss := Nat.zero_le _
          cbmem := invariant.cbmem }
  · rw [if_neg later]
    exact invariant

end

theorem Invariant.step (invariant : Invariant state log) {op : Op}
    (careful : Careful config state log op) :
    Invariant (step config state op) (log.record config state op) := by
  cases op with
  | timestampInit bootCpu base =>
    exact invariant.timestampInit bootCpu base careful
  | timestampAdd bootCpu id time =>
    exact invariant.timestampAdd bootCpu id time careful
  | cbmemSync bootCpu isRecovery room =>
    exact invariant.cbmemSync bootCpu isRecovery room careful
  | cbmemOnline =>
    exact
      { waiting := invariant.waiting
        unsynced := invariant.unsynced
        events := invariant.events
        settled := invariant.settled
        region := invariant.region
        bss := invariant.bss
        cbmem := invariant.cbmem }
  | enter stage => exact invariant.enter stage careful

end Steps

section Boots

variable {config : Config}

theorem invariant_startState {stale : Option Table} (bounded : ∀ table ∈ stale, table.Bounded) :
    Invariant (startState stale) noLog where
  waiting := rfl
  unsynced _ := rfl
  events synced := absurd synced Bool.false_ne_true
  settled synced := absurd synced Bool.false_ne_true
  region := Nat.zero_le _
  bss := Nat.zero_le _
  cbmem := bounded

theorem Invariant.boot {ops : List Op} {state : State} {log : Log} (invariant : Invariant state log)
    (careful : CarefulBoot config state log ops) :
    Invariant (boot config state log ops).1 (boot config state log ops).2 := by
  induction ops generalizing state log with
  | nil => exact invariant
  | cons op ops ih => exact ih (invariant.step careful.1) careful.2

/-- The events of a careful boot are in CBMEM after a sync, in their order and at
their times. -/
theorem survives_of_carefulBoot {stale : Option Table} {ops : List Op}
    (bounded : ∀ table ∈ stale, table.Bounded)
    (careful : CarefulBoot config (startState stale) noLog ops) :
    Survives (boot config (startState stale) noLog ops).1
      (boot config (startState stale) noLog ops).2 :=
  ((invariant_startState bounded).boot careful).survives

end Boots

/-- An x86 board with a region for the cache. -/
def x86Early : Config where
  earlyCbmemInit := true
  archX86 := true
  archRomstageX86 := true
  regionSize := 256
  listed := by decide

/-- A boot with events in every stage. -/
def usualBoot : List Op :=
  [.timestampInit true 100, .timestampAdd true 11 105, .enter .romstage,
    .timestampAdd true 1 120, .cbmemSync true false true,
    .timestampAdd true 4 150, .enter .ramstage, .timestampAdd true 9 160,
    .cbmemSync true true true, .timestampInit true 170,
    .timestampAdd true 10 175]

theorem survives_usualBoot :
    Survives (boot x86Early (startState none) noLog usualBoot).1
      (boot x86Early (startState none) noLog usualBoot).2 :=
  survives_of_carefulBoot (fun _ member => absurd member (Option.not_mem_none _)) (by decide)

/-- A second initialisation of the cache loses the event in it. -/
theorem not_survives_initTwice :
    ¬ ∀ (config : Config) (stale : Option Table) (ops : List Op),
      (∀ table ∈ stale, table.Bounded) →
        Survives (boot config (startState stale) noLog ops).1
          (boot config (startState stale) noLog ops).2 := by
  intro always
  have survives := always x86Early none
    [.timestampInit true 100, .timestampAdd true 11 105, .timestampInit true 110,
      .enter .romstage, .cbmemSync true false true]
    (fun _ member => absurd member (Option.not_mem_none _))
  obtain ⟨table, found, same⟩ := survives.events rfl
  obtain rfl : (⟨110, 84, []⟩ : Table) = table := Option.some.inj found
  exact absurd same (by decide)

end Coreboot.Timestamp
