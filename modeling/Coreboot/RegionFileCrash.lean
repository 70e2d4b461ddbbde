import Coreboot.RegionFileRun

/-!
# Losing power during an update

An update that is cut between two device operations leaves the device as it was, without data,
or with the blocks of the update allocated.
-/

namespace Coreboot.Regf

open ByteMemory

variable {size : Nat}

/-- What the device holds once an update of a file in step with it has issued
some operations. -/
inductive Cut (size : Nat) (memory : Memory) (d : Nat) (f : RegionFile)
    (issued : List DeviceOp) (cut : Memory) : Prop
  | unchanged (same : cut = memory) : Cut size memory d f issued cut
  | noData (nothing : Erased size cut ∨ Log size cut 0)
      (since : f.slot = rfEmpty ∨ DeviceOp.eraseat 0 size ∈ issued) :
      Cut size memory d f issued cut
  | allocated {count : Nat} (log : Log size cut (count + 1))
      (range : slotAt cut (count + 1) = slotAt cut count + d)
      (written : DeviceOp.writeat (2 * (count + 1))
        (encodeLE 2 (slotAt cut (count + 1))) ∈ issued) :
      Cut size memory d f issued cut

variable {memory : Memory} {f : RegionFile} {buf : Buffer}

theorem Cut.afterTurn {d : Nat} {next : RegionFile} {op : DeviceOp} {later : List DeviceOp}
    {cut : Memory} (rest : Cut size (op.apply memory) d next later cut)
    (nothing : Erased size (op.apply memory) ∨ Log size (op.apply memory) 0)
    (since : f.slot = rfEmpty ∨ op = .eraseat 0 size) : Cut size memory d f (op :: later) cut := by
  have erased (member : DeviceOp.eraseat 0 size ∈ later) :
      f.slot = rfEmpty ∨ DeviceOp.eraseat 0 size ∈ op :: later :=
    Or.inr (.tail _ member)
  have early : f.slot = rfEmpty ∨ DeviceOp.eraseat 0 size ∈ op :: later :=
    since.imp_right fun same => by rw [same]; exact .head _
  cases rest with
  | unchanged same => exact Cut.noData (by rwa [same]) early
  | noData nothing _ => exact Cut.noData nothing early
  | allocated log range written =>
    exact Cut.allocated log range (.tail _ written)

theorem cut_of_updateLoop (large : 16 ≤ size) (bounded : size ≤ 2 ^ 20)
    (buf : Buffer) (fuel : Nat) (tracks : Tracks size memory f) (done : Nat) :
    let issued := (updateLoop buf.blocks buf.bytes fuel f).2.take done
    Cut size memory buf.blocks f issued (applyOps memory issued) := by
  have minusOne_ne : (-1 : Int) ≠ 0 := by decide
  intro issued
  induction fuel generalizing memory f done with
  | zero =>
    have nothing : issued = [] := List.take_nil
    exact Cut.unchanged (by rw [nothing]; rfl)
  | succ fuel ih =>
    have turn := tracks.turn large bounded buf
    generalize step : updateStep f buf.blocks buf.bytes = outcome at turn
    cases turn with
    | metadata slot fits log first =>
      simp only [issued, updateLoop_of_continue step rfl (slot_fileOf_zero_le _)]
      cases done with
      | zero => exact Cut.unchanged rfl
      | succ done =>
        exact (ih (Tracks.log log) done).afterTurn (Or.inr log) (Or.inl slot)
    | oversize slot erased _ =>
      simp only [issued, updateLoop_of_fail step minusOne_ne, List.take_nil]
      exact Cut.unchanged rfl
    | erase slot rdev erased =>
      simp only [issued, updateLoop_of_continue step rfl (show rfEmpty ≤ rfOnlyMetadata by decide)]
      have empty : Tracks size _ { f with slot := rfEmpty } := Tracks.empty rdev rfl erased
      cases done with
      | zero => exact Cut.unchanged rfl
      | succ done =>
        exact (ih empty done).afterTurn (Or.inl erased) (Or.inr rfl)
    | @append count log fits =>
      have increases : (fileOf size (applyOps memory (appendOps memory
          count buf.blocks buf.bytes)) (count + 1)).slot > rfOnlyMetadata ∧
          (fileOf size memory count).slot ≠ (fileOf size (applyOps memory
            (appendOps memory count buf.blocks buf.bytes))
            (count + 1)).slot := by
        simp only [fileOf, rfOnlyMetadata]
        omega
      simp only [issued, updateLoop_of_done step rfl increases]
      cases done with
      | zero => exact Cut.unchanged rfl
      | succ done =>
        obtain ⟨cutLog, last, before⟩ := log.appended buf.blocks_pos
          fits buf.bytes (Nat.succ_pos done)
        refine Cut.allocated cutLog ?_ ?_
        · rw [last, before count le_rfl]
        · rw [last]
          exact .head _
    | @full count log full =>
      simp only [issued, updateLoop_of_continue step rfl
        (show rfNeedToEmpty ≤ rfOnlyMetadata by decide), List.nil_append]
      have toEmpty : Tracks size memory { fileOf size memory count with slot := rfNeedToEmpty } :=
        Tracks.needToEmpty rfl rfl
      cases ih toEmpty done with
      | unchanged same => exact Cut.unchanged same
      | noData nothing since =>
        refine Cut.noData nothing (Or.inr (since.resolve_left ?_))
        exact fun slot =>
          absurd (show rfNeedToEmpty = rfEmpty from slot) (by decide)
      | allocated log range written =>
        exact Cut.allocated log range written
    | fatal slot =>
      simp only [issued, updateLoop_of_fail step minusOne_ne, List.take_nil]
      exact Cut.unchanged rfl

/-- An update of `d` blocks fits an erased region, next to a metadata block and
below the last block offset. -/
def FitsRegion (size d : Nat) : Prop := d + 1 ≤ size / 16 ∧ d + 1 < regfUnallocatedBlock

theorem result_of_continue {d : Nat} {bytes : List Byte} {turn : Outcome}
    (step : updateStep f d bytes = turn) (succeeded : turn.ret = 0)
    (unfinished : turn.file.slot ≤ rfOnlyMetadata) (fuel : Nat) :
    (updateLoop d bytes (fuel + 1) f).1 = (updateLoop d bytes fuel turn.file).1 := by
  rw [updateLoop_of_continue step succeeded unfinished]

theorem updateLoop_of_canFit {count : Nat} (log : Log size memory count)
    (fits : CanFit size memory count buf.blocks) :
    ∃ f', (updateLoop buf.blocks buf.bytes 1 (fileOf size memory count)).1 = some (0, f') := by
  have step := (updateStep_fileOf memory count buf.blocks buf.bytes).trans
    (handleUpdate_of_canFit log fits).1
  rw [updateLoop_of_done step rfl]
  · exact ⟨_, rfl⟩
  · simp only [fileOf, rfOnlyMetadata]
    omega

theorem updateLoop_of_erased (bounded : size ≤ 2 ^ 20) (erased : Erased size memory)
    (fits : FitsRegion size buf.blocks) (rdev : f.rdev = ⟨0, size⟩) (slot : f.slot = rfEmpty) :
    ∃ f', (updateLoop buf.blocks buf.bytes 2 f).1 = some (0, f') := by
  obtain ⟨inRegion, addressable⟩ := fits
  have small : size / 16 ≤ 2 ^ 16 := by omega
  obtain ⟨positive, total⟩ := metadataBlocks_add_le inRegion small
  have below := metadataBlocks_add_lt buf.blocks_pos inRegion small addressable
  have room : 0 + 1 < 8 * metadataBlocks (size / 16) buf.blocks := by omega
  obtain ⟨step, log, first⟩ := handleEmpty_of_le erased bounded buf.blocks_pos inRegion rdev
  have turn := (updateStep_of_empty slot buf.blocks buf.bytes).trans step
  rw [result_of_continue turn rfl (slot_fileOf_zero_le _)]
  apply updateLoop_of_canFit log
  rw [CanFit, first]
  exact ⟨room, below, total⟩

theorem Recoverable.update (bounded : size ≤ 2 ^ 20) {memory : Memory}
    (recoverable : Recoverable size memory) (fits : FitsRegion size buf.blocks) :
    ∃ fuel f', (regionFileUpdateData fuel
      (regionFileInit ⟨0, size⟩ memory).1 buf.bytes).1 = some (0, f') := by
  have large : 16 ≤ size := by
    have inRegion := fits.1
    omega
  simp only [regionFileUpdateData_eq]
  rcases recoverable with erased | ⟨count, log⟩
  · rw [regionFileInit_of_erased large erased]
    exact ⟨2, updateLoop_of_erased bounded erased fits rfl rfl⟩
  · rw [regionFileInit_of_log log]
    by_cases canFit : CanFit size memory count buf.blocks
    · exact ⟨1, updateLoop_of_canFit log canFit⟩
    · -- The update asks for the region to be emptied, which it then is.
      let full : RegionFile := { fileOf size memory count with slot := rfNeedToEmpty }
      have refused : updateStep (fileOf size memory count) buf.blocks buf.bytes = ⟨0, full, []⟩ :=
        (updateStep_fileOf memory count buf.blocks buf.bytes).trans
          (handleUpdate_of_not_canFit canFit buf.bytes)
      obtain ⟨turn, erased⟩ := handleNeedToEmpty_eq (show full.rdev = ⟨0, size⟩ from rfl) memory
      have emptied := (updateStep_of_needToEmpty
        (show full.slot = rfNeedToEmpty from rfl) buf.blocks buf.bytes).trans turn
      obtain ⟨f', success⟩ := updateLoop_of_erased bounded erased fits
        (show { full with slot := rfEmpty }.rdev = ⟨0, size⟩ from rfl) rfl
      refine ⟨4, f', ?_⟩
      rw [result_of_continue refused rfl (show rfNeedToEmpty ≤ rfOnlyMetadata by decide),
        result_of_continue emptied rfl (show rfEmpty ≤ rfOnlyMetadata by decide)]
      exact success

/-- The next update that fits the region is read back after it and another
initialisation. -/
def UpdatesReadBack (size : Nat) (memory : Memory) : Prop :=
  ∀ buf : Buffer, FitsRegion size buf.blocks → ∃ fuel f' ops,
    regionFileUpdateData fuel (regionFileInit ⟨0, size⟩ memory).1 buf.bytes = (some (0, f'), ops) ∧
      ∃ rdev, Returns size (applyOps memory ops)
        (regionFileInit ⟨0, size⟩ (applyOps memory ops)).1 buf rdev

theorem Recoverable.tracks (large : 16 ≤ size) (recoverable : Recoverable size memory) :
    Tracks size memory (regionFileInit ⟨0, size⟩ memory).1 := by
  rcases recoverable with erased | ⟨count, log⟩
  · rw [regionFileInit_of_erased large erased]
    exact Tracks.empty rfl rfl erased
  · rw [regionFileInit_of_log log]
    exact Tracks.log log

theorem Recoverable.updatesReadBack (large : 16 ≤ size) (bounded : size ≤ 2 ^ 20)
    (recoverable : Recoverable size memory) : UpdatesReadBack size memory := by
  intro buf fits
  obtain ⟨fuel, f', success⟩ := recoverable.update bounded fits
  refine ⟨fuel, f', _, Prod.ext success rfl, ?_⟩
  rcases finished_of_updateLoop large bounded (recoverable.tracks large)
    (Prod.ext success rfl) with ⟨-, holds⟩ | ⟨failed, -⟩
  · exact holds.init.returns
  · exact absurd rfl failed

/-- The data that `region_file_init` finds after an update has issued some
operations: the last committed update, the blocks allocated for the update, or
nothing if no update was committed or it has been erased. -/
inductive CutData (size : Nat) (d : Nat) (last : Option Buffer)
    (issued : List DeviceOp) (cut : Memory) (f : RegionFile) : Prop
  | committed (buf : Buffer) (latest : last = some buf)
      (returns : ∃ rdev, Returns size cut f buf rdev) :
      CutData size d last issued cut f
  | allocated (slot start : Nat)
      (data : regionFileData f = some ⟨start * 16, d * 16⟩)
      (written : DeviceOp.writeat (2 * slot) (encodeLE 2 (start + d)) ∈ issued)
      (boundaries : f.slot = slot ∧ f.dataBlocks0 = start ∧
        f.dataBlocks1 = start + d) : CutData size d last issued cut f
  | nothing (data : regionFileData f = none)
      (since : last = none ∨ DeviceOp.eraseat 0 size ∈ issued) :
      CutData size d last issued cut f

/-- Wherever an update of a run is cut, `region_file_init` succeeds, finds one
of the three kinds of data, and the next update that fits is read back. -/
theorem init_after_cut (large : 16 ≤ size) (bounded : size ≤ 2 ^ 20)
    {memory : Memory} {f : RegionFile} {history : List (Buffer × Int)}
    (run : Run size memory f history) (buf : Buffer) (fuel done : Nat) :
    let issued := (regionFileUpdateData fuel f buf.bytes).2.take done
    let cut := applyOps memory issued
    (regionFileInit ⟨0, size⟩ cut).2 = 0 ∧
      CutData size buf.blocks (lastUpdate history) issued cut (regionFileInit ⟨0, size⟩ cut).1 ∧
        UpdatesReadBack size cut := by
  intro issued cut
  have invariant := run.invariant large bounded
  have contents : Cut size memory buf.blocks f issued cut :=
    cut_of_updateLoop large bounded buf fuel (invariant.tracks large) done
  have ofNothing (nothing : Erased size cut ∨ Log size cut 0)
      (since : lastUpdate history = none ∨ DeviceOp.eraseat 0 size ∈ issued) :
      (regionFileInit ⟨0, size⟩ cut).2 = 0 ∧
        CutData size buf.blocks (lastUpdate history) issued cut
          (regionFileInit ⟨0, size⟩ cut).1 ∧ UpdatesReadBack size cut := by
    rcases nothing with erased | log
    · rw [regionFileInit_of_erased large erased]
      exact ⟨rfl, CutData.nothing (regionFileData_emptyFile size) since,
        Recoverable.updatesReadBack large bounded (Or.inl erased)⟩
    · rw [regionFileInit_of_log log]
      have noData : regionFileData (fileOf size cut 0) = none :=
        regionFileData_of_le (slot_fileOf_zero_le cut)
      exact ⟨rfl, CutData.nothing noData since,
        Recoverable.updatesReadBack large bounded (Or.inr ⟨0, log⟩)⟩
  cases contents with
  | unchanged same =>
    cases latest : lastUpdate history with
    | none =>
      rw [latest] at invariant ofNothing
      exact ofNothing (Or.inl (by rw [same]; exact invariant.1)) (Or.inl rfl)
    | some old =>
      rw [latest] at invariant
      rw [same]
      obtain ⟨count, log, rfl, range, data⟩ := invariant
      have holds : Holds size memory old (fileOf size memory (count + 1)) :=
        ⟨count, log, rfl, range, data⟩
      rw [regionFileInit_of_log log]
      exact ⟨rfl, CutData.committed old rfl holds.returns,
        Recoverable.updatesReadBack large bounded (Or.inr ⟨_, log⟩)⟩
  | noData nothing since =>
    refine ofNothing nothing (since.imp_left fun slot => ?_)
    cases latest : lastUpdate history with
    | none => rfl
    | some old =>
      rw [latest] at invariant
      obtain ⟨count, -, rfl, -, -⟩ := invariant
      exact absurd slot (by simp [fileOf, rfEmpty]; omega)
  | @allocated count log range written =>
    rw [regionFileInit_of_log log]
    refine ⟨rfl, CutData.allocated (count + 1) (slotAt cut count) ?_ ?_ ⟨rfl, rfl, range⟩,
      Recoverable.updatesReadBack large bounded (Or.inr ⟨_, log⟩)⟩
    · rw [regionFileData_of_log log, range, Nat.add_sub_cancel_left]
    · rw [← range]
      exact written

theorem init_after_cut_smallUpdate :
    let issued := (regionFileUpdateData 2 ⟨⟨0, 64⟩, ⟨0, 16⟩, 1, 2, 1⟩ oneByte.bytes).2.take 1
    let cut := applyOps (applyOps erasedMemory smallUpdate.2) issued
    (regionFileInit ⟨0, 64⟩ cut).2 = 0 ∧
      CutData 64 oneByte.blocks (lastUpdate [(oneByte, 0)]) issued cut
          (regionFileInit ⟨0, 64⟩ cut).1 ∧
        UpdatesReadBack 64 cut :=
  init_after_cut (by decide) (by decide) run_smallUpdate oneByte 2 1

/-- Wherever an update is cut, `region_file_init` succeeds and finds the last
committed update, the blocks allocated for the update, or nothing if the update
has erased the region, and the next update that fits is read back. -/
def AlwaysClassified (size : Nat) : Prop :=
  ∀ (memory : Memory) (f : RegionFile) (history : List (Buffer × Int))
    (buf : Buffer) (fuel done : Nat), Run size memory f history →
    let issued := (regionFileUpdateData fuel f buf.bytes).2.take done
    let cut := applyOps memory issued
    let found := regionFileInit ⟨0, size⟩ cut
    found.2 = 0 ∧
      ((∃ old, lastUpdate history = some old ∧ ∃ rdev, Returns size cut found.1 old rdev) ∨
        (∃ start, regionFileData found.1 = some ⟨start * 16, buf.blocks * 16⟩) ∨
        (DeviceOp.eraseat 0 size ∈ issued ∧ regionFileData found.1 = none)) ∧
        UpdatesReadBack size cut

/-- The first update can be cut before anything is committed, and nothing was
erased for it. -/
theorem not_alwaysClassified_firstUpdate : ¬ AlwaysClassified 64 := by
  intro classified
  have erased : Erased 64 erasedMemory := fun _ _ => rfl
  obtain ⟨-, data, -⟩ := classified _ _ _ oneByte 0 0 (Run.start erased)
  have nothing : regionFileData (regionFileInit ⟨0, 64⟩ (applyOps erasedMemory [])).1 = none := by
    rw [regionFileInit_of_erased (by decide)
      (show Erased 64 (applyOps erasedMemory []) from erased)]
    exact regionFileData_emptyFile 64
  rcases data with ⟨old, latest, -⟩ | ⟨start, allocated⟩ | ⟨member, -⟩
  · exact absurd latest (by simp [lastUpdate])
  · exact absurd (nothing.symm.trans allocated) (by simp)
  · exact absurd member (by simp [regionFileUpdateData, updateLoop])

theorem not_alwaysClassified_small : ¬ AlwaysClassified 8 := by
  intro classified
  obtain ⟨success, -⟩ := classified _ _ _ oneByte 0 0
    (Run.start (show Erased 8 erasedMemory from fun _ _ => rfl))
  rw [regionFileInit_of_small (by decide)] at success
  cases success

/-- On a region of 9 MiB, the number of metadata blocks for one-block updates
wraps around to zero, and an update erases and allocates forever. -/
theorem updateLoop_nineMebibytes (fuel : Nat) :
    let f := emptyFile (9 * 2 ^ 20)
    (updateLoop 1 [0x2a] fuel f).1 = none ∧
      (updateLoop 1 [0x2a] fuel { f with slot := rfOnlyMetadata }).1 = none ∧
        (updateLoop 1 [0x2a] fuel { f with slot := rfNeedToEmpty }).1 = none := by
  intro f
  have allocate : updateStep f 1 [0x2a] =
      ⟨0, { f with slot := rfOnlyMetadata }, [.writeat 0 [0, 0]]⟩ := by
    decide +kernel
  have full : updateStep { f with slot := rfOnlyMetadata } 1 [0x2a] =
      ⟨0, { f with slot := rfNeedToEmpty }, []⟩ := by
    decide +kernel
  have erase : updateStep { f with slot := rfNeedToEmpty } 1 [0x2a] =
      ⟨0, f, [.eraseat 0 (9 * 2 ^ 20)]⟩ := by
    decide +kernel
  induction fuel with
  | zero => exact ⟨rfl, rfl, rfl⟩
  | succ fuel ih =>
    obtain ⟨empty, metadata, needToEmpty⟩ := ih
    refine ⟨?_, ?_, ?_⟩
    · rw [result_of_continue allocate rfl (le_refl rfOnlyMetadata)]
      exact metadata
    · rw [result_of_continue full rfl (show rfNeedToEmpty ≤ rfOnlyMetadata by decide)]
      exact needToEmpty
    · rw [result_of_continue erase rfl (show rfEmpty ≤ rfOnlyMetadata by decide)]
      exact empty

theorem not_alwaysClassified_nineMebibytes : ¬ AlwaysClassified (9 * 2 ^ 20) := by
  intro classified
  have erased : Erased (9 * 2 ^ 20) erasedMemory := fun _ _ => rfl
  obtain ⟨-, -, readBack⟩ := classified _ _ _ oneByte 0 0 (Run.start erased)
  obtain ⟨fuel, f', ops, terminates, -⟩ := readBack oneByte ⟨by
    decide +kernel, by decide +kernel⟩
  have never := (updateLoop_nineMebibytes fuel).1
  have blocks : oneByte.blocks = 1 := by decide +kernel
  rw [regionFileUpdateData_eq, blocks, List.take_zero,
    regionFileInit_of_erased (by decide)
      (show Erased (9 * 2 ^ 20) (applyOps erasedMemory []) from erased)]
    at terminates
  rw [show oneByte.bytes = [0x2a] from rfl] at terminates
  rw [terminates] at never
  exact absurd never (by simp)

/-- Regions of all three kinds escape the classification. -/
theorem not_alwaysClassified :
    ¬ AlwaysClassified 64 ∧ ¬ AlwaysClassified 8 ∧ ¬ AlwaysClassified (9 * 2 ^ 20) :=
  ⟨not_alwaysClassified_firstUpdate, not_alwaysClassified_small, not_alwaysClassified_nineMebibytes⟩

end Coreboot.Regf
