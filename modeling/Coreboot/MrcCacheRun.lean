import Coreboot.MrcCache

/-!
# Training data over the boots

Every boot that stashes data and updates the cache leaves a region file whose latest data begin
with the stashed entry.
-/

namespace Coreboot.Mrc

open ByteMemory Regf

variable {size : Nat}

/-- A region of 16 bytes to 1 MiB that holds a log, is erased, or is found in
need of being emptied. -/
structure Usable (size : Nat) (memory : Memory) : Prop where
  large : 16 ≤ size
  bounded : size ≤ 2 ^ 20
  contents : Recoverable size memory ∨
    ∃ f : RegionFile, regionFileInit ⟨0, size⟩ memory = (f, 0) ∧
      f.rdev = ⟨0, size⟩ ∧ f.slot = rfNeedToEmpty

theorem Usable.init {memory : Memory} (usable : Usable size memory) :
    (regionFileInit ⟨0, size⟩ memory).2 = 0 := by
  rcases usable.contents with (erased | ⟨count, log⟩) | ⟨f, found, -, -⟩
  · rw [regionFileInit_of_erased usable.large erased]
  · rw [regionFileInit_of_log log]
  · rw [found]

variable {memory : Memory} {fuel : Nat} {ops : List DeviceOp} {done : Int × RegionFile}
  {bytes : List Byte} {latest : Latest}

theorem Usable.tracks (usable : Usable size memory) :
    Tracks size memory (regionFileInit ⟨0, size⟩ memory).1 := by
  rcases usable.contents with recoverable | ⟨f, found, rdev, slot⟩
  · exact recoverable.tracks usable.large
  · rw [found]
    exact Tracks.needToEmpty rdev slot

theorem Usable.update {memory : Memory} (usable : Usable size memory)
    {buf : Buffer} (fits : FitsRegion size buf.blocks) :
    ∃ fuel f', (regionFileUpdateData fuel
      (regionFileInit ⟨0, size⟩ memory).1 buf.bytes).1 = some (0, f') := by
  rcases usable.contents with recoverable | ⟨f, found, rdev, slot⟩
  · exact recoverable.update usable.bounded fits
  · rw [found]
    obtain ⟨turn, erased⟩ := handleNeedToEmpty_eq rdev memory
    have emptied := (updateStep_of_needToEmpty slot buf.blocks buf.bytes).trans turn
    obtain ⟨f', success⟩ := updateLoop_of_erased usable.bounded erased fits
      (show { f with slot := rfEmpty }.rdev = ⟨0, size⟩ from rdev) rfl
    refine ⟨3, f', ?_⟩
    rw [regionFileUpdateData_eq, result_of_continue emptied rfl
      (show rfEmpty ≤ rfOnlyMetadata by decide)]
    exact success

/-- An entry of `count` bytes fits the region file. -/
def FitsEntry (size count : Nat) : Prop := FitsRegion size ((count + 15) / 16)

theorem FitsEntry.small (bounded : size ≤ 2 ^ 20) {count : Nat}
    (fits : FitsEntry size count) : count < 2 ^ 20 := by
  have inRegion := fits.1
  omega

theorem mrcHeaderValid_inside {rdev trimmed : Region} {md : MrcMetadata}
    (header : mrcHeaderValid rdev memory = some (trimmed, md)) :
    trimmed.offset = rdev.offset ∧ trimmed.size ≤ rdev.size := by
  rw [mrcHeaderValid] at header
  cases read : rdevReadat rdev memory 0 16 with
  | none =>
    rw [read] at header
    exact absurd header (by simp)
  | some bytes =>
    rw [read] at header
    dsimp only at header
    split_ifs at header with signature checksum
    obtain ⟨chained, accepted, same⟩ := Option.map_eq_some_iff.mp header
    obtain ⟨rfl, -⟩ := Prod.mk.inj same
    rw [rdevChain, Regf.normalizeAndOk_eq] at accepted
    split_ifs at accepted with inside
    cases accepted
    dsimp only
    omega

/-- The latest region of a file that need not be valid is without data, or the
latest data with a part cut off. -/
theorem exists_latest (init : (regionFileInit ⟨0, size⟩ memory).2 = 0) :
    ∃ latest, mrcCacheLatest ⟨0, size⟩ memory false = some latest ∧
      latest.cacheFile = (regionFileInit ⟨0, size⟩ memory).1 ∧
        (latest.rdev.size = 0 ∨ ∃ rdev,
          regionFileData (regionFileInit ⟨0, size⟩ memory).1 = some rdev ∧
            latest.rdev.offset = rdev.offset ∧ latest.rdev.size ≤ rdev.size) := by
  have succeeded : ¬ (regionFileInit ⟨0, size⟩ memory).2 < 0 := by
    rw [init]
    decide
  rw [mrcCacheLatest]
  rw [if_neg succeeded]
  cases found : regionFileData (regionFileInit ⟨0, size⟩ memory).1 with
  | none => exact ⟨_, rfl, rfl, Or.inl rfl⟩
  | some rdev =>
    cases header : mrcHeaderValid rdev memory with
    | none =>
      refine ⟨⟨none, _, rdev⟩, ?_, rfl, Or.inr ⟨rdev, rfl, rfl, le_refl _⟩⟩
      dsimp only
      rw [header]
      rfl
    | some trimmed =>
      obtain ⟨trimmed, md⟩ := trimmed
      refine ⟨⟨some md, _, trimmed⟩, ?_, rfl, Or.inr ⟨rdev, rfl, ?_⟩⟩
      · dsimp only
        rw [header]
        dsimp only
        rw [Bool.and_false, if_neg (by decide)]
      · exact mrcHeaderValid_inside header

theorem stored_of_upToDate {entry : CbmemEntry} (init : (regionFileInit ⟨0, size⟩ memory).2 = 0)
    (nonempty : 0 < entry.bytes.length) (inside : latest.rdev.size = 0 ∨ ∃ rdev,
      regionFileData (regionFileInit ⟨0, size⟩ memory).1 = some rdev ∧
        latest.rdev.offset = rdev.offset ∧ latest.rdev.size ≤ rdev.size)
    (upToDate : mrcCacheNeedsUpdate latest.rdev memory entry = false) :
    ∃ rdev, Stored size memory entry.bytes rdev := by
  rw [mrcCacheNeedsUpdate] at upToDate
  split_ifs at upToDate with sized
  have sameSize := not_not.mp sized
  have same : entry.bytes = load memory latest.rdev.offset latest.rdev.size :=
    not_not.mp (of_decide_eq_false upToDate)
  rcases inside with noData | ⟨rdev, data, offset, below⟩
  · omega
  · refine ⟨rdev, init, data, by omega, ?_⟩
    rw [sameSize, ← offset]
    exact same.symm

theorem updateLoop_mono {d : Nat} {f : RegionFile}
    (ended : updateLoop d bytes fuel f = (some done, ops)) (more : Nat) :
    updateLoop d bytes (fuel + more) f = (some done, ops) := by
  induction fuel generalizing f ops with
  | zero => simp [updateLoop] at ended
  | succ fuel ih =>
    rw [Nat.succ_add]
    rw [updateLoop] at ended ⊢
    split_ifs at ended ⊢ with failed finished
    · exact ended
    · exact ended
    · obtain ⟨later, rfl⟩ := Prod.mk.inj ended
      rw [ih (Prod.ext later rfl)]

theorem Usable.stored (usable : Usable size memory) {buf : Buffer}
    (fits : FitsRegion size buf.blocks)
    (ended : regionFileUpdateData fuel (regionFileInit ⟨0, size⟩ memory).1
      buf.bytes = (some done, ops)) :
    done.1 = 0 ∧ Recoverable size (applyOps memory ops) ∧
      ∃ rdev, Stored size (applyOps memory ops) buf.bytes rdev := by
  obtain ⟨ret, f'⟩ := done
  rw [regionFileUpdateData_eq] at ended
  obtain ⟨enough, final, success⟩ := usable.update fits
  rw [regionFileUpdateData_eq] at success
  have zero : ret = 0 := by
    have first := updateLoop_mono ended enough
    have second := updateLoop_mono (Prod.ext success rfl) fuel
    rw [Nat.add_comm] at second
    have same := Option.some.inj (Prod.mk.inj (first.symm.trans second)).1
    exact (Prod.mk.inj same).1
  rcases finished_of_updateLoop usable.large usable.bounded usable.tracks
    ended with ⟨-, holds⟩ | ⟨failed, -⟩
  · obtain ⟨rdev, returned⟩ := holds.init.returns
    obtain ⟨count, log, -, -, -⟩ := holds
    have init : (regionFileInit ⟨0, size⟩ (applyOps memory ops)).2 = 0 := by
      rw [regionFileInit_of_log log]
    have length := returned.length
    exact ⟨zero, Or.inr ⟨_, log⟩, rdev, init, returned.data, by omega, returned.bytes⟩
  · exact absurd zero failed

def bufferOf (bytes : List Byte) (nonempty : 0 < bytes.length)
    (small : bytes.length < 2 ^ 20) : Buffer where
  bytes := bytes
  nonempty := List.ne_nil_of_length_pos nonempty
  small := by omega

theorem FitsEntry.buffer (fits : FitsEntry size bytes.length)
    (nonempty : 0 < bytes.length) (small : bytes.length < 2 ^ 20) :
    FitsRegion size (bufferOf bytes nonempty small).blocks := by
  rw [Buffer.blocks_eq]
  exact fits

variable {board : Board} {flash : Region → Memory} {recovery : Bool}
  {kind : Int} {cr : CacheRegion} {region : Region} {entry : CbmemEntry}

section

variable (located : lookupRegion board recovery kind = some (cr, region))
include located

theorem updateMrcCacheByType_eq (identified : entry.id = cr.cbmemId)
    (found : mrcCacheLatest ⟨0, region.size⟩ (flash region) false = some latest) (fuel : Nat) :
    updateMrcCacheByType board fuel flash recovery kind [entry] =
      if !mrcCacheNeedsUpdate latest.rdev (flash region) entry then
        (some .alreadyUptodate, [])
      else
        let update := regionFileUpdateData fuel latest.cacheFile entry.bytes
        (update.1.map fun done =>
          if done.1 < 0 then .updateFailure else .updateSuccess,
          update.2) := by
  have first : [entry].find? (fun entry => entry.id = cr.cbmemId) = some entry := by
    rw [List.find?_cons_of_pos (by simpa using identified)]
  rw [updateMrcCacheByType, located]
  dsimp only
  rw [first]
  rw [found]

omit located in
theorem update_spec (usable : Usable region.size (flash region))
    (located : lookupRegion board recovery kind = some (cr, region))
    (identified : entry.id = cr.cbmemId) (nonempty : 0 < entry.bytes.length)
    (fits : FitsEntry region.size entry.bytes.length) {result : Result}
    (updates : updateMrcCacheByType board fuel flash recovery kind [entry] = (some result, ops)) :
    result ≠ .updateFailure ∧
      Usable region.size (applyOps (flash region) ops) ∧
        ∃ rdev, Stored region.size (applyOps (flash region) ops) entry.bytes rdev := by
  obtain ⟨latest, found, file, inside⟩ := exists_latest usable.init
  rw [updateMrcCacheByType_eq located identified found] at updates
  cases needed : mrcCacheNeedsUpdate latest.rdev (flash region) entry with
  | false =>
    rw [needed, if_pos (by decide)] at updates
    obtain ⟨ended, rfl⟩ := Prod.mk.inj updates
    cases ended
    exact ⟨by decide, usable, stored_of_upToDate usable.init nonempty inside needed⟩
  | true =>
    rw [needed, if_neg (by decide), file] at updates
    obtain ⟨ended, rfl⟩ := Prod.mk.inj updates
    obtain ⟨done, finished, rfl⟩ := Option.map_eq_some_iff.mp ended
    obtain ⟨zero, recoverable, stored⟩ := usable.stored
      (fits.buffer nonempty (fits.small usable.bounded))
      (Prod.ext finished rfl)
    refine ⟨?_, ⟨usable.large, usable.bounded, Or.inl recoverable⟩, stored⟩
    rw [if_neg (by rw [zero]; decide)]
    decide

omit located in
theorem exists_update (usable : Usable region.size (flash region))
    (located : lookupRegion board recovery kind = some (cr, region))
    (identified : entry.id = cr.cbmemId) (nonempty : 0 < entry.bytes.length)
    (fits : FitsEntry region.size entry.bytes.length) :
    ∃ fuel result ops, updateMrcCacheByType board fuel flash recovery kind
      [entry] = (some result, ops) := by
  obtain ⟨latest, found, file, -⟩ := exists_latest usable.init
  obtain ⟨fuel, f', success⟩ := usable.update (fits.buffer nonempty (fits.small usable.bounded))
  simp only [updateMrcCacheByType_eq located identified found, file]
  refine ⟨fuel, ?_⟩
  cases mrcCacheNeedsUpdate latest.rdev (flash region) entry with
  | false => exact ⟨_, _, rfl⟩
  | true =>
    rw [if_neg (by decide)]
    exact ⟨_, _, Prod.ext (congrArg (Option.map _) success) rfl⟩

/-- The stashed data are handed out for their version and no other, and
stashing them again writes nothing. -/
structure Cached (board : Board) (flash : Region → Memory) (recovery : Bool)
    (kind : Int) (region : Region) (version : BitVec 32) (data : List Byte) :
    Prop where
  current : ∃ rdev,
    mrcCacheGetCurrent board flash recovery kind version = some rdev ∧
      rdev.size = data.length ∧ load (flash region) rdev.offset rdev.size = data
  otherVersion : ∀ other, other ≠ version →
    mrcCacheGetCurrent board flash recovery kind other = none
  restash : ∀ entry fuel,
    mrcCacheStashData board recovery kind version data = some entry →
      updateMrcCacheByType board fuel flash recovery kind [entry] = (some .alreadyUptodate, [])

theorem stash_of_lookupRegion (version : BitVec 32) (data : List Byte) :
    mrcCacheStashData board recovery kind version data =
      some ⟨cr.cbmemId, stashedBytes version data⟩ := by
  rw [lookupRegion] at located
  rw [mrcCacheStashData]
  cases found : lookupRegionType board recovery kind with
  | none =>
    rw [found] at located
    exact absurd located (by simp)
  | some other =>
    rw [found] at located
    obtain ⟨r, -, same⟩ := Option.map_eq_some_iff.mp located
    rw [Option.map_some, (Prod.mk.inj same).1]

theorem Stored.cached {version : BitVec 32} {data : List Byte} {rdev : Region}
    (stored : Stored region.size (flash region) (stashedBytes version data) rdev)
    (small : 16 + data.length < 2 ^ 32) : Cached board flash recovery kind region version data := by
  have sized : (stashedMetadata version data).dataSize = data.length := Nat.mod_eq_of_lt (by omega)
  have latest := stored.latest small
  refine ⟨⟨⟨16 + rdev.offset, data.length⟩, ?_, rfl, (stored.dataValid small).1⟩, ?_, ?_⟩
  · rw [mrcCacheGetCurrent, located]
    dsimp only
    rw [latest true]
    dsimp only
    rw [if_neg (fun different => different rfl), sized, rdevChain_of_le (le_refl _)]
  · intro other different
    rw [mrcCacheGetCurrent, located]
    dsimp only
    rw [latest true]
    dsimp only
    rw [if_pos]
    exact fun same => different (BitVec.eq_of_toNat_eq same)
  · intro entry fuel stash
    rw [stash_of_lookupRegion located] at stash
    cases stash
    have whole := stored.bytes
    rw [length_stashedBytes] at whole
    rw [updateMrcCacheByType_eq located rfl (latest false)]
    rw [if_pos]
    rw [mrcCacheNeedsUpdate, if_neg (not_not.mpr (length_stashedBytes _ _))]
    rw [whole]
    simp

end

/-- A boot that stashes data of one type and updates the cache of the type.
The types have entries of their own in CBMEM, so that a boot that does so for
both is two of these. -/
structure Boot where
  recovery : Bool
  kind : Int
  version : BitVec 32
  data : List Byte

/-- The cache region that a boot looks up. -/
def regionOf (board : Board) (recovery : Bool) (kind : Int) : Option Region :=
  (lookupRegion board recovery kind).map Prod.snd

/-- The flash after boots with a fresh CBMEM each, the latest boot first.  The
entries fit their region files. -/
inductive Run (board : Board) : (Region → Memory) → List Boot → Prop
  | start {flash : Region → Memory}
      (usable : ∀ recovery kind region,
        regionOf board recovery kind = some region → Usable region.size (flash region)) :
      Run board flash []
  | boot {flash : Region → Memory} {history : List Boot}
      (before : Run board flash history) {b : Boot} {region : Region}
      (located : regionOf board b.recovery b.kind = some region)
      {entry : CbmemEntry}
      (stash : mrcCacheStashData board b.recovery b.kind b.version b.data = some entry)
      (fits : FitsEntry region.size (16 + b.data.length)) {fuel : Nat}
      {result : Result} {ops : List DeviceOp}
      (updates : updateMrcCacheByType board fuel flash b.recovery b.kind
        [entry] = (some result, ops)) :
      Run board (Function.update flash region (applyOps (flash region) ops)) (b :: history)

def lastBoot (board : Board) (region : Region) (history : List Boot) : Option Boot :=
  history.find? fun b => regionOf board b.recovery b.kind = some region

/-- A region takes updates and holds the entry of the last boot that looked it
up. -/
structure RegionInvariant (board : Board) (flash : Region → Memory)
    (history : List Boot) (region : Region) : Prop where
  usable : Usable region.size (flash region)
  stored : ∀ b, lastBoot board region history = some b →
    FitsEntry region.size (16 + b.data.length) ∧
      ∃ rdev, Stored region.size (flash region) (stashedBytes b.version b.data) rdev

theorem Run.invariant {history : List Boot} (run : Run board flash history)
    (located : regionOf board recovery kind = some region) :
    RegionInvariant board flash history region := by
  induction run with
  | start usable =>
    exact ⟨usable _ _ _ located, fun b latest => by simp [lastBoot] at latest⟩
  | @boot flash history _ b used lookup entry stash fits fuel result ops
      updates ih =>
    by_cases same : used = region
    · subst same
      obtain ⟨⟨cr, found⟩, lookupFound, rfl⟩ := Option.map_eq_some_iff.mp lookup
      rw [stash_of_lookupRegion lookupFound] at stash
      cases stash
      obtain ⟨-, usable, stored⟩ := update_spec ih.usable lookupFound rfl
        (by rw [length_stashedBytes]; omega)
        (by rw [length_stashedBytes]; exact fits) updates
      refine ⟨?_, fun latest isLatest => ?_⟩
      · rw [Function.update_self]
        exact usable
      · rw [lastBoot, List.find?_cons_of_pos (by simpa using lookup)] at isLatest
        cases isLatest
        rw [Function.update_self]
        exact ⟨fits, stored⟩
    · have untouched : Function.update flash used
          (applyOps (flash used) ops) region = flash region :=
        Function.update_of_ne (Ne.symm same) _ _
      have skipped : lastBoot board region (b :: history) = lastBoot board region history := by
        rw [lastBoot, List.find?_cons_of_neg]
        · rfl
        · rw [lookup]
          simpa using same
      obtain ⟨usable, stored⟩ := ih
      refine ⟨?_, ?_⟩
      · rw [untouched]
        exact usable
      · rw [untouched, skipped]
        exact stored

/-- After any boots, a boot that looks up a region is handed the data of the
last boot that looked up the same region, and an update of the cache with an
entry that fits comes to a result and does not fail. -/
theorem cached_of_run {history : List Boot} (run : Run board flash history)
    (located : regionOf board recovery kind = some region) :
    (∀ b, lastBoot board region history = some b →
        Cached board flash recovery kind region b.version b.data) ∧
      ∀ version data, FitsEntry region.size (16 + data.length) →
        ∃ entry fuel result ops,
          mrcCacheStashData board recovery kind version data = some entry ∧
            updateMrcCacheByType board fuel flash recovery kind [entry] =
              (some result, ops) ∧ result ≠ .updateFailure := by
  have invariant := run.invariant located
  obtain ⟨⟨cr, found⟩, lookupFound, rfl⟩ := Option.map_eq_some_iff.mp located
  refine ⟨fun b latest => ?_, fun version data fits => ?_⟩
  · obtain ⟨fits, rdev, stored⟩ := invariant.stored b latest
    have small := fits.small invariant.usable.bounded
    exact stored.cached lookupFound (by omega)
  · have nonempty : 0 < (stashedBytes version data).length := by
      rw [length_stashedBytes]
      omega
    have entryFits : FitsEntry found.size (stashedBytes version data).length := by
      rw [length_stashedBytes]
      exact fits
    have identified : (CbmemEntry.mk cr.cbmemId (stashedBytes version data)).id = cr.cbmemId := rfl
    obtain ⟨fuel, result, ops, updates⟩ := exists_update invariant.usable
      lookupFound identified nonempty entryFits
    exact ⟨_, fuel, result, ops, stash_of_lookupRegion lookupFound _ _,
      updates, (update_spec invariant.usable lookupFound rfl nonempty entryFits updates).1⟩

def recoveryBoard : Board where
  fmapLocateArea := fun name =>
    if name = "RECOVERY_MRC_CACHE" then some ⟨0, 64⟩
    else if name = "RW_MRC_CACHE" then some ⟨64, 64⟩
    else some ⟨128, 64⟩
  hasRecoveryMrcCache := true
  chromeos := true
  bootDeviceMemoryMapped := true
  romSize := 2 ^ 23
  mrcSettingsCacheBase := 0xfffe0000
  mrcSettingsCacheSize := 0x10000

def recoveryBoot : Boot := ⟨true, mrcTrainingData, 5, []⟩

theorem recoveryBoard_size (located : regionOf recoveryBoard recovery kind =
    some region) : region.size = 64 := by
  obtain ⟨⟨cr, found⟩, lookupFound, rfl⟩ := Option.map_eq_some_iff.mp located
  rw [lookupRegion] at lookupFound
  cases typed : lookupRegionType recoveryBoard recovery kind with
  | none =>
    rw [typed] at lookupFound
    exact absurd lookupFound (by simp)
  | some other =>
    rw [typed] at lookupFound
    obtain ⟨r, named, same⟩ := Option.map_eq_some_iff.mp lookupFound
    obtain ⟨-, rfl⟩ := Prod.mk.inj same
    simp only [lookupRegionByName, recoveryBoard] at named
    split_ifs at named <;> (obtain rfl := Option.some.inj named; rfl)

theorem lookupRegion_recovery :
    lookupRegion recoveryBoard true mrcTrainingData =
      some (recoveryTraining recoveryBoard, ⟨0, 64⟩) := by
  decide

theorem lookupRegion_normal :
    lookupRegion recoveryBoard false mrcTrainingData = some (normalTraining, ⟨64, 64⟩) := by
  decide

def erasedFlash : Region → Memory := fun _ => erasedMemory

theorem regionOf_recoveryBoot :
    regionOf recoveryBoard recoveryBoot.recovery recoveryBoot.kind = some ⟨0, 64⟩ :=
  congrArg (Option.map Prod.snd) lookupRegion_recovery

theorem exists_recoveryRun :
    ∃ flash, Run recoveryBoard flash [recoveryBoot] ∧ flash ⟨64, 64⟩ = erasedMemory := by
  have usable (region : Region) (sized : region.size = 64) :
      Usable region.size (erasedFlash region) := by
    rw [sized]
    exact ⟨by decide, by decide, Or.inl (Or.inl fun _ _ => rfl)⟩
  have start : Run recoveryBoard erasedFlash [] :=
    Run.start fun _ _ region located =>
      usable region (recoveryBoard_size located)
  have stash : mrcCacheStashData recoveryBoard recoveryBoot.recovery
      recoveryBoot.kind recoveryBoot.version recoveryBoot.data =
        some ⟨(recoveryTraining recoveryBoard).cbmemId, stashedBytes 5 []⟩ :=
    stash_of_lookupRegion lookupRegion_recovery 5 []
  have identified : (CbmemEntry.mk (recoveryTraining recoveryBoard).cbmemId
      (stashedBytes 5 [])).id = (recoveryTraining recoveryBoard).cbmemId := rfl
  have length : (stashedBytes 5 []).length = 16 := length_stashedBytes 5 []
  have fits : FitsEntry (Region.mk 0 64).size 16 := ⟨by decide, by decide⟩
  obtain ⟨fuel, result, ops, updates⟩ := exists_update (usable ⟨0, 64⟩ rfl)
    lookupRegion_recovery identified
    (show 0 < (stashedBytes 5 []).length by rw [length]; decide)
    (show FitsEntry _ (stashedBytes 5 []).length by rw [length]; exact fits)
  exact ⟨_, Run.boot start regionOf_recoveryBoot stash fits updates,
    Function.update_of_ne (by simp) _ _⟩

theorem cached_recoveryBoot :
    ∃ flash, Run recoveryBoard flash [recoveryBoot] ∧
      Cached recoveryBoard flash true mrcTrainingData ⟨0, 64⟩ 5 [] := by
  obtain ⟨flash, run, -⟩ := exists_recoveryRun
  have latest : lastBoot recoveryBoard ⟨0, 64⟩ [recoveryBoot] = some recoveryBoot :=
    List.find?_cons_of_pos (decide_eq_true regionOf_recoveryBoot)
  exact ⟨flash, run, (cached_of_run run regionOf_recoveryBoot).1 recoveryBoot latest⟩

/-- Every boot is handed the data of the boot before, in whichever mode the two
are. -/
def CachedInEveryMode (board : Board) : Prop :=
  ∀ (flash : Region → Memory) (b : Boot) (history : List Boot),
    Run board flash (b :: history) → ∀ recovery region,
      regionOf board recovery b.kind = some region →
        Cached board flash recovery b.kind region b.version b.data

/-- What is stashed in recovery mode goes to a cache of its own. -/
theorem not_cachedInEveryMode_recoveryBoot : ¬ CachedInEveryMode recoveryBoard := by
  intro cached
  obtain ⟨flash, run, untouched⟩ := exists_recoveryRun
  have located : regionOf recoveryBoard false recoveryBoot.kind = some ⟨64, 64⟩ :=
    congrArg (Option.map Prod.snd) lookupRegion_normal
  obtain ⟨rdev, current, -⟩ := (cached flash recoveryBoot [] run false _ located).current
  have erased : Erased 64 (flash ⟨64, 64⟩) := by
    rw [untouched]
    exact fun _ _ => rfl
  have nothing : mrcCacheLatest ⟨0, 64⟩ (flash ⟨64, 64⟩) true = none := by
    rw [mrcCacheLatest, regionFileInit_of_erased (by decide) erased]
    dsimp only
    rw [regionFileData_emptyFile]
    rfl
  rw [mrcCacheGetCurrent, show lookupRegion recoveryBoard false
    recoveryBoot.kind = _ from lookupRegion_normal] at current
  dsimp only at current
  rw [nothing] at current
  exact absurd current (by simp)

end Coreboot.Mrc
