import Coreboot.RegionFileUpdate

/-!
# Reading back the last update

The turns of the update loop are collected in one relation.
-/

namespace Coreboot.Regf

open ByteMemory

variable {size : Nat}

/-- The file is in step with the device. -/
inductive Tracks (size : Nat) (memory : Memory) : RegionFile → Prop
  | empty {f : RegionFile} (rdev : f.rdev = ⟨0, size⟩)
      (slot : f.slot = rfEmpty) (erased : Erased size memory) :
      Tracks size memory f
  | needToEmpty {f : RegionFile} (rdev : f.rdev = ⟨0, size⟩)
      (slot : f.slot = rfNeedToEmpty) : Tracks size memory f
  | log {count : Nat} (log : Log size memory count) :
      Tracks size memory (fileOf size memory count)
  | fatal {f : RegionFile} (slot : f.slot = rfFatal) : Tracks size memory f

/-- Everything that a turn of the loop can do. -/
inductive Turn (size : Nat) (memory : Memory) (buf : Buffer) :
    RegionFile → Outcome → Prop
  | metadata {f : RegionFile} {op : DeviceOp} (slot : f.slot = rfEmpty)
      (fits : buf.blocks + 1 ≤ size / 16)
      (log : Log size (op.apply memory) 0)
      (first : slotAt (op.apply memory) 0 = metadataBlocks (size / 16) buf.blocks) :
      Turn size memory buf f ⟨0, fileOf size (op.apply memory) 0, [op]⟩
  | oversize {f : RegionFile} (slot : f.slot = rfEmpty)
      (erased : Erased size memory)
      (oversize : size / 16 < buf.blocks + 1) :
      Turn size memory buf f ⟨-1, f, []⟩
  | erase {f : RegionFile} (slot : f.slot = rfNeedToEmpty)
      (rdev : f.rdev = ⟨0, size⟩)
      (erased : Erased size ((DeviceOp.eraseat 0 size).apply memory)) :
      Turn size memory buf f ⟨0, { f with slot := rfEmpty }, [.eraseat 0 size]⟩
  | append {count : Nat} (log : Log size memory count)
      (fits : CanFit size memory count buf.blocks) :
      Turn size memory buf (fileOf size memory count)
        ⟨0, fileOf size (applyOps memory (appendOps memory count buf.blocks buf.bytes)) (count + 1),
          appendOps memory count buf.blocks buf.bytes⟩
  | full {count : Nat} (log : Log size memory count)
      (full : ¬ CanFit size memory count buf.blocks) :
      Turn size memory buf (fileOf size memory count)
        ⟨0, { fileOf size memory count with slot := rfNeedToEmpty }, []⟩
  | fatal {f : RegionFile} (slot : f.slot = rfFatal) :
      Turn size memory buf f ⟨-1, f, []⟩

variable {f : RegionFile} {memory : Memory} {d : Nat} {bytes : List Byte}
  {history : List (Buffer × Int)} {buf : Buffer}

theorem updateStep_of_empty (slot : f.slot = rfEmpty) (d : Nat)
    (bytes : List Byte) : updateStep f d bytes = handleEmpty f d := by
  rw [updateStep, if_pos slot]

theorem updateStep_of_needToEmpty (slot : f.slot = rfNeedToEmpty) (d : Nat)
    (bytes : List Byte) : updateStep f d bytes = handleNeedToEmpty f := by
  rw [updateStep, if_neg (by rw [slot]; decide), if_pos slot]

theorem updateStep_of_fatal (slot : f.slot = rfFatal) (d : Nat)
    (bytes : List Byte) : updateStep f d bytes = ⟨-1, f, []⟩ := by
  rw [updateStep, if_neg (by rw [slot]; decide), if_neg (by rw [slot]; decide), if_pos slot]

theorem updateStep_fileOf (memory : Memory) (count d : Nat) (bytes : List Byte) :
    updateStep (fileOf size memory count) d bytes =
      handleUpdate (fileOf size memory count) d bytes := by
  have positive : (0 : Int) ≤ (fileOf size memory count).slot := Int.natCast_nonneg count
  rw [updateStep, if_neg (by rw [rfEmpty]; omega),
    if_neg (by rw [rfNeedToEmpty]; omega), if_neg (by rw [rfFatal]; omega)]

theorem Tracks.turn (large : 16 ≤ size) (bounded : size ≤ 2 ^ 20) (tracks : Tracks size memory f)
    (buf : Buffer) : Turn size memory buf f (updateStep f buf.blocks buf.bytes) := by
  cases tracks with
  | empty rdev slot erased =>
    rw [updateStep_of_empty slot]
    by_cases fits : buf.blocks + 1 ≤ size / 16
    · obtain ⟨turn, log, first⟩ := handleEmpty_of_le erased bounded buf.blocks_pos fits rdev
      rw [turn]
      exact Turn.metadata slot fits log first
    · rw [handleEmpty_of_gt bounded large (not_le.mp fits) rdev]
      exact Turn.oversize slot erased (not_le.mp fits)
  | needToEmpty rdev slot =>
    obtain ⟨turn, erased⟩ := handleNeedToEmpty_eq rdev memory
    rw [updateStep_of_needToEmpty slot, turn]
    exact Turn.erase slot rdev erased
  | @log count log =>
    rw [updateStep_fileOf]
    by_cases fits : CanFit size memory count buf.blocks
    · rw [(handleUpdate_of_canFit log fits).1]
      exact Turn.append log fits
    · rw [handleUpdate_of_not_canFit fits]
      exact Turn.full log fits
  | fatal slot =>
    rw [updateStep_of_fatal slot]
    exact Turn.fatal slot

theorem updateLoop_of_fail {turn : Outcome} (step : updateStep f d bytes = turn)
    (failed : turn.ret ≠ 0) (fuel : Nat) :
    updateLoop d bytes (fuel + 1) f =
      (some (turn.ret, { turn.file with slot := rfFatal }), turn.ops) := by
  simp only [updateLoop, step, if_pos failed]

theorem updateLoop_of_done {turn : Outcome} (step : updateStep f d bytes = turn)
    (succeeded : turn.ret = 0) (done : turn.file.slot > rfOnlyMetadata ∧ f.slot ≠ turn.file.slot)
    (fuel : Nat) : updateLoop d bytes (fuel + 1) f = (some (0, turn.file), turn.ops) := by
  simp only [updateLoop, step, succeeded, ne_eq, not_true, if_false, if_pos done]

theorem updateLoop_of_continue {turn : Outcome} (step : updateStep f d bytes = turn)
    (succeeded : turn.ret = 0) (unfinished : turn.file.slot ≤ rfOnlyMetadata) (fuel : Nat) :
    updateLoop d bytes (fuel + 1) f =
      ((updateLoop d bytes fuel turn.file).1,
        turn.ops ++ (updateLoop d bytes fuel turn.file).2) := by
  have noFailure : ¬ turn.ret ≠ 0 := fun failed => failed succeeded
  have goesOn : ¬ (turn.file.slot > rfOnlyMetadata ∧
      f.slot ≠ turn.file.slot) := fun done => absurd done.1 (by omega)
  simp only [updateLoop, step, if_neg noFailure, if_neg goesOn]

theorem regionFileUpdateData_eq (fuel : Nat) (f : RegionFile) (buf : Buffer) :
    regionFileUpdateData fuel f buf.bytes = updateLoop buf.blocks buf.bytes fuel f :=
  rfl

theorem slot_fileOf_zero_le (memory : Memory) : (fileOf size memory 0).slot ≤ rfOnlyMetadata :=
  le_refl (0 : Int)

theorem applyOps_append (memory : Memory) (first second : List DeviceOp) :
    applyOps memory (first ++ second) = applyOps (applyOps memory first) second :=
  List.foldl_append

structure Holds (size : Nat) (memory : Memory) (buf : Buffer) (f : RegionFile) :
    Prop where
  holds : ∃ count, Log size memory (count + 1) ∧
    f = fileOf size memory (count + 1) ∧
      slotAt memory (count + 1) = slotAt memory count + buf.blocks ∧
        load memory (slotAt memory count * 16) buf.bytes.length = buf.bytes

theorem Holds.init {memory : Memory} {f : RegionFile} (holds : Holds size memory buf f) :
    Holds size memory buf (regionFileInit ⟨0, size⟩ memory).1 := by
  obtain ⟨count, log, -, range, data⟩ := holds
  rw [regionFileInit_of_log log]
  exact ⟨count, log, rfl, range, data⟩

/-- What a terminating update leaves: the buffer at the end of a log, or a
fatal file, on an erased device if the file was not fatal before. -/
def Finished (size : Nat) (memory final : Memory) (buf : Buffer)
    (f : RegionFile) (ret : Int) (f' : RegionFile) : Prop :=
  ret = 0 ∧ Holds size final buf f' ∨
    ret ≠ 0 ∧ f'.slot = rfFatal ∧ (Erased size final ∨ f.slot = rfFatal ∧ final = memory)

theorem finished_of_updateLoop (large : 16 ≤ size) (bounded : size ≤ 2 ^ 20)
    {fuel : Nat} (tracks : Tracks size memory f) {ret : Int} {f' : RegionFile} {ops : List DeviceOp}
    (result : updateLoop buf.blocks buf.bytes fuel f = (some (ret, f'), ops)) :
    Finished size memory (applyOps memory ops) buf f ret f' := by
  have minusOne_ne : (-1 : Int) ≠ 0 := by decide
  induction fuel generalizing memory f ops with
  | zero => simp [updateLoop] at result
  | succ fuel ih =>
    have turn := tracks.turn large bounded buf
    generalize step : updateStep f buf.blocks buf.bytes = outcome at turn
    cases turn with
    | metadata slot fits log first =>
      rw [updateLoop_of_continue step rfl (slot_fileOf_zero_le _)] at result
      obtain ⟨ended, rfl⟩ := Prod.mk.inj result
      have later := ih (Tracks.log log) (Prod.ext ended rfl)
      rw [applyOps_append]
      rcases later with success | ⟨failed, fatal, erased | ⟨slot, -⟩⟩
      · exact Or.inl success
      · exact Or.inr ⟨failed, fatal, Or.inl erased⟩
      · exact absurd (show (0 : Int) = rfFatal from slot) (by decide)
    | oversize slot erased _ =>
      rw [updateLoop_of_fail step minusOne_ne] at result
      obtain ⟨ended, rfl⟩ := Prod.mk.inj result
      cases ended
      exact Or.inr ⟨minusOne_ne, rfl, Or.inl erased⟩
    | erase slot rdev erased =>
      rw [updateLoop_of_continue step rfl (show rfEmpty ≤ rfOnlyMetadata by decide)] at result
      obtain ⟨ended, rfl⟩ := Prod.mk.inj result
      have empty : Tracks size _ { f with slot := rfEmpty } := Tracks.empty rdev rfl erased
      have later := ih empty (Prod.ext ended rfl)
      rw [applyOps_append]
      rcases later with success | ⟨failed, fatal, final | ⟨slot, -⟩⟩
      · exact Or.inl success
      · exact Or.inr ⟨failed, fatal, Or.inl final⟩
      · exact absurd (show rfEmpty = rfFatal from slot) (by decide)
    | @append count log fits =>
      obtain ⟨-, finalLog, last, data⟩ := handleUpdate_of_canFit log fits
      have done : (fileOf size (applyOps memory (appendOps memory count
          buf.blocks buf.bytes)) (count + 1)).slot > rfOnlyMetadata ∧
          (fileOf size memory count).slot ≠ (fileOf size (applyOps memory
            (appendOps memory count buf.blocks buf.bytes))
            (count + 1)).slot := by
        simp only [fileOf, rfOnlyMetadata]
        omega
      rw [updateLoop_of_done step rfl done] at result
      obtain ⟨ended, rfl⟩ := Prod.mk.inj result
      cases ended
      exact Or.inl ⟨rfl, ⟨count, finalLog, rfl, last, data⟩⟩
    | @full count log full =>
      rw [updateLoop_of_continue step rfl (show rfNeedToEmpty ≤ rfOnlyMetadata by decide)] at result
      obtain ⟨ended, rfl⟩ := Prod.mk.inj result
      have toEmpty : Tracks size memory { fileOf size memory count with slot := rfNeedToEmpty } :=
        Tracks.needToEmpty rfl rfl
      have later := ih toEmpty (Prod.ext ended rfl)
      rw [applyOps_append]
      rcases later with success | ⟨failed, fatal, final | ⟨slot, -⟩⟩
      · exact Or.inl success
      · exact Or.inr ⟨failed, fatal, Or.inl final⟩
      · exact absurd (show rfNeedToEmpty = rfFatal from slot) (by decide)
    | fatal slot =>
      rw [updateLoop_of_fail step minusOne_ne] at result
      obtain ⟨ended, rfl⟩ := Prod.mk.inj result
      cases ended
      exact Or.inr ⟨minusOne_ne, rfl, Or.inr ⟨slot, rfl⟩⟩

/-- The states that terminating updates and initialisations reach from an
erased device, with the buffer and the return value of every update, the latest
one first. -/
inductive Run (size : Nat) :
    Memory → RegionFile → List (Buffer × Int) → Prop
  | start {memory : Memory} (erased : Erased size memory) :
      Run size memory (regionFileInit ⟨0, size⟩ memory).1 []
  | init {memory : Memory} {f : RegionFile} {history : List (Buffer × Int)}
      (before : Run size memory f history) :
      Run size memory (regionFileInit ⟨0, size⟩ memory).1 history
  | update {memory : Memory} {f f' : RegionFile}
      {history : List (Buffer × Int)} {fuel : Nat} {buf : Buffer} {ret : Int}
      {ops : List DeviceOp} (before : Run size memory f history)
      (terminates : regionFileUpdateData fuel f buf.bytes = (some (ret, f'), ops)) :
      Run size (applyOps memory ops) f' ((buf, ret) :: history)

def lastSuccessful (history : List (Buffer × Int)) : Option Buffer :=
  (history.find? fun update => update.2 = 0).map Prod.fst

def lastUpdate : List (Buffer × Int) → Option Buffer
  | [] => none
  | (buf, ret) :: _ => if ret = 0 then some buf else none

/-- What holds in every state of a run: the last update is at the end of the
log, or the device is erased and the file is empty or fatal. -/
def RunInvariant (size : Nat) (memory : Memory) (f : RegionFile) : Option Buffer → Prop
  | some buf => Holds size memory buf f
  | none => Erased size memory ∧
      (f = (regionFileInit ⟨0, size⟩ memory).1 ∨ f.slot = rfFatal)

theorem RunInvariant.tracks (large : 16 ≤ size) {last : Option Buffer}
    (invariant : RunInvariant size memory f last) : Tracks size memory f := by
  cases last with
  | some buf =>
    obtain ⟨count, log, rfl, -, -⟩ := invariant
    exact Tracks.log log
  | none =>
    obtain ⟨erased, rfl | fatal⟩ := invariant
    · rw [regionFileInit_of_erased large erased]
      exact Tracks.empty rfl rfl erased
    · exact Tracks.fatal fatal

theorem Run.small (small : size < 16)
    (run : Run size memory f history) : f.slot = rfFatal ∧ lastUpdate history = none := by
  induction run with
  | start => exact ⟨by rw [regionFileInit_of_small small], rfl⟩
  | init _ ih => exact ⟨by rw [regionFileInit_of_small small], ih.2⟩
  | @update memory f f' history fuel buf ret ops _ terminates ih =>
    have fatal := updateStep_of_fatal ih.1 buf.blocks buf.bytes
    cases fuel with
    | zero => simp [regionFileUpdateData, updateLoop] at terminates
    | succ fuel =>
      have ended := updateLoop_of_fail fatal (show (-1 : Int) ≠ 0 by decide) fuel
      rw [regionFileUpdateData_eq, ended] at terminates
      obtain ⟨rfl, rfl⟩ := Prod.mk.inj (Option.some.inj (Prod.mk.inj terminates).1)
      exact ⟨rfl, rfl⟩

theorem Run.invariant (large : 16 ≤ size) (bounded : size ≤ 2 ^ 20)
    (run : Run size memory f history) : RunInvariant size memory f (lastUpdate history) := by
  induction run with
  | start erased => exact ⟨erased, Or.inl rfl⟩
  | @init memory f history _ ih =>
    cases latest : lastUpdate history with
    | some buf =>
      rw [latest] at ih
      exact Holds.init ih
    | none =>
      rw [latest] at ih
      exact ⟨ih.1, Or.inl rfl⟩
  | @update memory f f' history fuel buf ret ops _ terminates ih =>
    rcases finished_of_updateLoop large bounded (ih.tracks large)
      terminates with ⟨rfl, holds⟩ | ⟨failed, fatal, kept⟩
    · exact holds
    · rw [lastUpdate, if_neg failed]
      rcases kept with erased | ⟨wasFatal, unchanged⟩
      · exact ⟨erased, Or.inr fatal⟩
      · rw [unchanged]
        cases latest : lastUpdate history with
        | some other =>
          rw [latest] at ih
          obtain ⟨count, -, rfl, -, -⟩ := ih
          exact absurd wasFatal (by simp [fileOf, rfFatal]; omega)
        | none =>
          rw [latest] at ih
          exact ⟨ih.1, Or.inr fatal⟩

theorem regionFileData_of_log {count : Nat} (log : Log size memory (count + 1)) :
    regionFileData (fileOf size memory (count + 1)) =
      some ⟨slotAt memory count * 16, (slotAt memory (count + 1) - slotAt memory count) * 16⟩ := by
  have increasing := log.increasing count (Nat.lt_succ_self _)
  have inRegion := log.inRegion
  have firstNarrow := slotAt_lt memory count
  have lastNarrow := slotAt_lt memory (count + 1)
  have notEmpty : ¬ (fileOf size memory (count + 1)).slot ≤ rfOnlyMetadata := by
    simp only [fileOf, rfOnlyMetadata]
    omega
  have offset : blockToBytes (slotAt memory count) = slotAt memory count * 16 := by
    rw [blockToBytes, Nat.mod_eq_of_lt firstNarrow]
  have length : sizeSub (blockToBytes (slotAt memory (count + 1)))
      (slotAt memory count * 16) = (slotAt memory (count + 1) - slotAt memory count) * 16 := by
    rw [sizeSub, blockToBytes]
    omega
  rw [regionFileData, if_neg notEmpty]
  simp only [fileOf, Nat.add_sub_cancel, offset, length]
  apply rdevChain_of_le
  change slotAt memory count * 16 + (slotAt memory (count + 1) - slotAt memory count) * 16 ≤ size
  omega

/-- The file returns a region with the buffer at its start, with the size of
the buffer rounded up to whole blocks, in the region device and behind the
metadata. -/
structure Returns (size : Nat) (memory : Memory) (f : RegionFile)
    (buf : Buffer) (rdev : Region) : Prop where
  data : regionFileData f = some rdev
  bytes : load memory rdev.offset buf.bytes.length = buf.bytes
  length : rdev.size = (buf.bytes.length + 15) / 16 * 16
  inRegion : rdev.offset + rdev.size ≤ size
  behindMetadata : f.metadata.offset + f.metadata.size ≤ rdev.offset

theorem Holds.returns (holds : Holds size memory buf f) :
    ∃ rdev, Returns size memory f buf rdev := by
  obtain ⟨count, log, rfl, last, data⟩ := holds
  have inRegion := log.inRegion
  have first := log.mono (Nat.zero_le count) (Nat.le_succ count)
  have blocks := buf.blocks_eq
  refine ⟨_, regionFileData_of_log log, data, ?_, ?_, ?_⟩
  · change (slotAt memory (count + 1) - slotAt memory count) * 16 = _
    omega
  · change slotAt memory count * 16 + (slotAt memory (count + 1) - slotAt memory count) * 16 ≤ size
    omega
  · change 0 + slotAt memory 0 * 16 ≤ slotAt memory count * 16
    omega

theorem regionFileData_of_le (slot : f.slot ≤ rfOnlyMetadata) : regionFileData f = none := by
  rw [regionFileData, if_pos slot]

theorem regionFileData_emptyFile (size : Nat) : regionFileData (emptyFile size) = none :=
  regionFileData_of_le (show rfEmpty ≤ rfOnlyMetadata by decide)

theorem RunInvariant.noData (large : 16 ≤ size) (invariant : RunInvariant size memory f none) :
    regionFileData f = none := by
  obtain ⟨erased, rfl | fatal⟩ := invariant
  · rw [regionFileInit_of_erased large erased]
    exact regionFileData_emptyFile size
  · exact regionFileData_of_le (by rw [fatal]; decide)

/-- After any run of terminating updates and initialisations, the file returns
the last update if it was successful, and no data otherwise. -/
theorem run_returns_last_update (bounded : size ≤ 2 ^ 20) {memory : Memory} {f : RegionFile}
    {history : List (Buffer × Int)} (run : Run size memory f history) :
    (∀ buf, lastUpdate history = some buf → ∃ rdev, Returns size memory f buf rdev) ∧
      (lastUpdate history = none → regionFileData f = none) := by
  rcases Nat.lt_or_ge size 16 with small | large
  · obtain ⟨fatal, failed⟩ := run.small small
    refine ⟨fun buf latest => ?_, fun _ => ?_⟩
    · rw [failed] at latest
      exact absurd latest (by simp)
    · exact regionFileData_of_le (by rw [fatal]; decide)
  · have invariant := run.invariant large bounded
    refine ⟨fun buf latest => ?_, fun latest => ?_⟩
    · rw [latest] at invariant
      exact Holds.returns invariant
    · rw [latest] at invariant
      exact invariant.noData large

def erasedMemory : Memory := fun _ => 0xff

def oneByte : Buffer := ⟨[0x2a], by decide, by decide⟩

def fourBlocks : Buffer := ⟨List.replicate 64 0x55, by decide, by decide⟩

def smallUpdate : Option (Int × RegionFile) × List DeviceOp :=
  regionFileUpdateData 2 (emptyFile 64) oneByte.bytes

theorem run_smallUpdate :
    Run 64 (applyOps erasedMemory smallUpdate.2) ⟨⟨0, 64⟩, ⟨0, 16⟩, 1, 2, 1⟩ [(oneByte, 0)] := by
  have erased : Erased 64 erasedMemory := fun _ _ => rfl
  have start := Run.start erased
  rw [regionFileInit_of_erased (by decide) erased] at start
  exact start.update (show smallUpdate = (some (0, _), smallUpdate.2) by
    decide +kernel)

theorem run_returns_last_update_smallUpdate :
    ∃ rdev, Returns 64 (applyOps erasedMemory smallUpdate.2)
      ⟨⟨0, 64⟩, ⟨0, 16⟩, 1, 2, 1⟩ oneByte rdev :=
  (run_returns_last_update (by decide) run_smallUpdate).1 oneByte rfl

/-- An update that is too large for the region fails after it has erased the
last successful one. -/
theorem not_returns_lastSuccessful_fourBlocks :
    ¬ ∀ (memory : Memory) (f : RegionFile) (history : List (Buffer × Int))
        (buf : Buffer), Run 64 memory f history →
      lastSuccessful history = some buf → ∃ rdev, Returns 64 memory f buf rdev := by
  intro claim
  have failure : (regionFileUpdateData 3 ⟨⟨0, 64⟩, ⟨0, 16⟩, 1, 2, 1⟩
      fourBlocks.bytes) = (some (-1, ⟨⟨0, 64⟩, ⟨0, 16⟩, 1, 2, rfFatal⟩), [.eraseat 0 64]) := by
    decide +kernel
  obtain ⟨rdev, returns⟩ := claim _ _ _ oneByte (run_smallUpdate.update failure) rfl
  have none := regionFileData_of_le
    (show (⟨⟨0, 64⟩, ⟨0, 16⟩, 1, 2, rfFatal⟩ : RegionFile).slot ≤ rfOnlyMetadata by decide)
  exact absurd (none.symm.trans returns.data) (by simp)

end Coreboot.Regf
