import Coreboot.RegionFileUpdate

/-!
# Termination of the updates of a region file

The device may fail any operation of an update.
-/

namespace Coreboot.Regf

open ByteMemory

/-- What a step returns, the file it leaves, and the number of operations that
have been issued so far. -/
structure Attempt where
  ret : Int
  file : RegionFile
  next : Nat
deriving DecidableEq, Repr

variable (works : Nat → Bool) {memory : Memory}

/-- An operation inside its region is issued, and works or fails. -/
def issue (next : Nat) : Option DeviceOp → Bool × Nat
  | none => (false, next)
  | some _ => (works next, next + 1)

def allocateMetadataUnder (next : Nat) (f : RegionFile) (dataBlks : Nat) : Attempt :=
  let t := bytesToBlock (alignDown f.rdev.size 16)
  let m := bytesToBlock (alignUp 16 16)
  if dataBlks > sizeSub t m then ⟨-1, f, next⟩
  else
    let totMetadata := m * metadataBlocks t dataBlks % 2 ^ 16
    let written := issue works next (rdevWriteat f.rdev (encodeLE 2 totMetadata) 0)
    if written.1 = false then ⟨-1, f, written.2⟩
    else
      match rdevChain f.rdev 0 (blockToBytes totMetadata) with
      | none => ⟨-1, f, written.2⟩
      | some metadata =>
        ⟨0, { f with
            metadata
            dataBlocks0 := totMetadata
            dataBlocks1 := totMetadata }, written.2⟩

def handleEmptyUnder (next : Nat) (f : RegionFile) (dataBlks : Nat) : Attempt :=
  let attempt := allocateMetadataUnder works next f dataBlks
  if attempt.ret ≠ 0 then { attempt with ret := -1 }
  else { attempt with
    file := { attempt.file with slot := rfOnlyMetadata } }

def handleNeedToEmptyUnder (next : Nat) (f : RegionFile) : Attempt :=
  let erased := issue works next (rdevEraseat f.rdev 0 f.rdev.size)
  if erased.1 = false then ⟨-1, f, erased.2⟩
  else ⟨0, { f with slot := rfEmpty }, erased.2⟩

def commitDataAllocationUnder (next : Nat) (f : RegionFile) (dataBlks : Nat) : Attempt :=
  let f := { f with slot := f.slot + 1 }
  let f := { f with dataBlocks0 := f.dataBlocks1 }
  let f := { f with dataBlocks1 := (f.dataBlocks0 + dataBlks) % 2 ^ 16 }
  let written := issue works next (rdevWriteat f.metadata
    (encodeLE 2 f.dataBlocks1) (f.slot.toNat * 2))
  if written.1 = false then ⟨-1, f, written.2⟩ else ⟨0, f, written.2⟩

def commitDataUnder (next : Nat) (f : RegionFile) (buf : List Byte) : Attempt :=
  let written := issue works next (rdevWriteat f.rdev buf (blockToBytes f.dataBlocks0))
  if written.1 = false then ⟨-1, f, written.2⟩ else ⟨0, f, written.2⟩

def handleUpdateUnder (next : Nat) (f : RegionFile) (blocks : Nat) (buf : List Byte) : Attempt :=
  if !updateCanFit f blocks then ⟨0, { f with slot := rfNeedToEmpty }, next⟩
  else
    let allocation := commitDataAllocationUnder works next f blocks
    if allocation.ret ≠ 0 then { allocation with ret := -1 }
    else
      let commit := commitDataUnder works allocation.next allocation.file buf
      { commit with ret := if commit.ret ≠ 0 then -1 else 0 }

def updateStepUnder (next : Nat) (f : RegionFile) (blocks : Nat) (buf : List Byte) : Attempt :=
  if f.slot = rfEmpty then handleEmptyUnder works next f blocks
  else if f.slot = rfNeedToEmpty then handleNeedToEmptyUnder works next f
  else if f.slot = rfFatal then ⟨-1, f, next⟩
  else handleUpdateUnder works next f blocks buf

/-- The loop of `region_file_update_data` for at most `fuel` turns: its return
value and file if it has ended. -/
def updateLoopUnder (blocks : Nat) (buf : List Byte) :
    Nat → Nat → RegionFile → Option (Int × RegionFile)
  | 0, _, _ => none
  | fuel + 1, next, f =>
    let turn := updateStepUnder works next f blocks buf
    if turn.ret ≠ 0 then
      some (turn.ret, { turn.file with slot := rfFatal })
    else if turn.file.slot > rfOnlyMetadata ∧ f.slot ≠ turn.file.slot then
      some (turn.ret, turn.file)
    else updateLoopUnder blocks buf fuel turn.next turn.file

def regionFileUpdateDataUnder (fuel : Nat) (f : RegionFile)
    (buf : List Byte) : Option (Int × RegionFile) :=
  updateLoopUnder works (dataBlocksOf buf) buf fuel 0 f

/-- What an outcome is when all its operations work. -/
def Outcome.attempt (outcome : Outcome) (next : Nat) : Attempt where
  ret := outcome.ret
  file := outcome.file
  next := next + outcome.ops.length

section

variable (next : Nat)
include next

theorem issue_true (op : Option DeviceOp) :
    issue (fun _ => true) next op = (op.isSome, next + op.toList.length) := by
  cases op <;> rfl

theorem allocateMetadataUnder_true (f : RegionFile) (d : Nat) :
    allocateMetadataUnder (fun _ => true) next f d = (allocateMetadata f d).attempt next := by
  simp only [allocateMetadataUnder, allocateMetadata, issue_true]
  generalize bytesToBlock (alignUp 16 16) * metadataBlocks
    (bytesToBlock (alignDown f.rdev.size 16)) d % 2 ^ 16 = totMetadata
  by_cases many : d >
      sizeSub (bytesToBlock (alignDown f.rdev.size 16)) (bytesToBlock (alignUp 16 16))
  · rw [if_pos many, if_pos many]
    rfl
  rw [if_neg many, if_neg many]
  cases rdevWriteat f.rdev (encodeLE 2 totMetadata) 0 with
  | none => rfl
  | some op =>
    cases rdevChain f.rdev 0 (blockToBytes totMetadata) with
    | none => rfl
    | some metadata => rfl

omit next in
private theorem attempt_slot {attempt : Attempt} {outcome : Outcome} {next : Nat}
    (same : attempt = outcome.attempt next) : (if attempt.ret ≠ 0 then { attempt with ret := -1 }
      else { attempt with
        file := { attempt.file with slot := rfOnlyMetadata } }) =
      (if outcome.ret ≠ 0 then { outcome with ret := -1 }
        else { outcome with
          file := { outcome.file with
            slot := rfOnlyMetadata } }).attempt next := by
  subst same
  by_cases failed : outcome.ret = 0 <;> simp [failed, Outcome.attempt]

section

variable (f : RegionFile)
include f

theorem handleEmptyUnder_true (d : Nat) :
    handleEmptyUnder (fun _ => true) next f d = (handleEmpty f d).attempt next :=
  attempt_slot (allocateMetadataUnder_true next f d)

theorem handleNeedToEmptyUnder_true :
    handleNeedToEmptyUnder (fun _ => true) next f = (handleNeedToEmpty f).attempt next := by
  rw [handleNeedToEmptyUnder, handleNeedToEmpty, issue_true]
  cases rdevEraseat f.rdev 0 f.rdev.size <;> rfl

theorem commitDataAllocationUnder_true (d : Nat) :
    commitDataAllocationUnder (fun _ => true) next f d =
      (commitDataAllocation f d).attempt next := by
  simp only [commitDataAllocationUnder, commitDataAllocation, issue_true]
  generalize rdevWriteat f.metadata _ _ = op
  cases op <;> rfl

theorem commitDataUnder_true (buf : List Byte) :
    commitDataUnder (fun _ => true) next f buf = (commitData f buf).attempt next := by
  simp only [commitDataUnder, commitData, issue_true]
  cases rdevWriteat f.rdev buf (blockToBytes f.dataBlocks0) <;> rfl

theorem handleUpdateUnder_true (blocks : Nat) (buf : List Byte) :
    handleUpdateUnder (fun _ => true) next f blocks buf =
      (handleUpdate f blocks buf).attempt next := by
  rw [handleUpdateUnder, handleUpdate]
  cases updateCanFit f blocks with
  | false => simp [Outcome.attempt]
  | true =>
    by_cases failed : (commitDataAllocation f blocks).ret = 0
    · simp [commitDataAllocationUnder_true, commitDataUnder_true, failed,
        Outcome.attempt, Nat.add_assoc]
    · simp [commitDataAllocationUnder_true, failed, Outcome.attempt]

theorem updateStepUnder_true (blocks : Nat) (buf : List Byte) :
    updateStepUnder (fun _ => true) next f blocks buf = (updateStep f blocks buf).attempt next := by
  rw [updateStepUnder, updateStep]
  split_ifs
  · exact handleEmptyUnder_true next f blocks
  · exact handleNeedToEmptyUnder_true next f
  · rfl
  · exact handleUpdateUnder_true next f blocks buf

end

end

theorem updateLoopUnder_true (blocks : Nat) (buf : List Byte) (fuel next : Nat) (f : RegionFile) :
    updateLoopUnder (fun _ => true) blocks buf fuel next f = (updateLoop blocks buf fuel f).1 := by
  induction fuel generalizing next f with
  | zero => rfl
  | succ fuel ih =>
    rw [updateLoopUnder, updateLoop]
    simp only [updateStepUnder_true, Outcome.attempt]
    split_ifs
    · rfl
    · rfl
    · exact ih _ _

/-- The metadata that are allocated in an empty region leave no room for the
buffer: its blocks and they reach the end of the block addresses, or there are
none of them. -/
def Stuck (size d : Nat) : Prop := 65535 ≤ size / 16 ∧ (d = 0 ∨ 65534 ≤ d) ∧ d < size / 16

instance (size d : Nat) : Decidable (Stuck size d) := inferInstanceAs (Decidable (_ ∧ _ ∧ _))

section

variable {works}

theorem metadataBlocks_of_small (d : Nat) : metadataBlocks 0 d = 1 := by
  rw [metadataBlocks, regfUpdatesPerMetadataBlock, Nat.zero_mul, Nat.zero_div]
  rfl

theorem metadataBlocks_of_noData {t : Nat} (positive : 0 < t)
    (small : t ≤ 2 ^ 16) : metadataBlocks t 0 = t := by
  rw [metadataBlocks_eq (by omega) small]
  omega

def allocatedFile (f : RegionFile) (totMetadata : Nat) : RegionFile where
  rdev := f.rdev
  metadata := ⟨f.rdev.offset, blockToBytes totMetadata⟩
  dataBlocks0 := totMetadata
  dataBlocks1 := totMetadata
  slot := rfOnlyMetadata

/-- The metadata that are allocated for an update, as they are stored. -/
def totMetadataOf (size d : Nat) : Nat := metadataBlocks (size / 16) d % 2 ^ 16

theorem bytesToBlock_alignDown (size : Nat) : bytesToBlock (alignDown size 16) = size / 16 := by
  rw [bytesToBlock, alignDown]
  omega

theorem handleEmptyUnder_eq (next : Nat) (f : RegionFile) (d : Nat) :
    handleEmptyUnder works next f d =
      if d ≤ sizeSub (f.rdev.size / 16) 1 ∧ 2 ≤ f.rdev.size then
        if works next = true ∧ blockToBytes (totMetadataOf f.rdev.size d) ≤ f.rdev.size then
          ⟨0, allocatedFile f (totMetadataOf f.rdev.size d), next + 1⟩
        else ⟨-1, f, next + 1⟩
      else ⟨-1, f, next⟩ := by
  have blocks : bytesToBlock (alignUp 16 16) = 1 := rfl
  have one : 1 * metadataBlocks (f.rdev.size / 16) d % 2 ^ 16 = totMetadataOf f.rdev.size d := by
    rw [Nat.one_mul, totMetadataOf]
  simp only [handleEmptyUnder, allocateMetadataUnder, bytesToBlock_alignDown, blocks, one]
  by_cases many : d > sizeSub (f.rdev.size / 16) 1
  · simp [many, Nat.not_le_of_lt many]
  rw [if_neg many, rdevWriteat, normalizeAndOk_eq, length_encodeLE, rdevChain,
    normalizeAndOk_eq, Nat.zero_add, Nat.zero_add]
  by_cases large : 2 ≤ f.rdev.size
  · cases worked : works next with
    | false => simp [large, Nat.le_of_not_lt many, issue, worked]
    | true =>
      by_cases fits : blockToBytes (totMetadataOf f.rdev.size d) ≤ f.rdev.size
      · simp [large, Nat.le_of_not_lt many, issue, worked, fits, allocatedFile]
      · simp [large, Nat.le_of_not_lt many, issue, worked, fits]
  · simp [large, issue]

theorem updateCanFit_allocatedFile {f : RegionFile} {d : Nat} (bounded : f.rdev.size ≤ 2 ^ 20)
    (allocates : d ≤ sizeSub (f.rdev.size / 16) 1)
    (fits : blockToBytes (totMetadataOf f.rdev.size d) ≤ f.rdev.size) :
    updateCanFit (allocatedFile f (totMetadataOf f.rdev.size d)) d = true ↔
      ¬ Stuck f.rdev.size d := by
  have slots : (allocatedFile f (totMetadataOf f.rdev.size d)).metadata.size / 2 =
      totMetadataOf f.rdev.size d * 8 := by
    have small : totMetadataOf f.rdev.size d < 2 ^ 16 := Nat.mod_lt _ (by decide)
    change blockToBytes (totMetadataOf f.rdev.size d) / 2 = _
    rw [blockToBytes, Nat.mod_eq_of_lt small]
    omega
  have room : updateCanFit (allocatedFile f (totMetadataOf f.rdev.size d)) d =
      true ↔ 0 < totMetadataOf f.rdev.size d ∧
        d + totMetadataOf f.rdev.size d < 65535 ∧
          d + totMetadataOf f.rdev.size d ≤ f.rdev.size / 16 := by
    simp only [updateCanFit, slots]
    simp only [allocatedFile, rfOnlyMetadata, regfUnallocatedBlock, bytesToBlock]
    split_ifs <;> simp <;> omega
  rw [room, Stuck]
  rcases Nat.eq_zero_or_pos (f.rdev.size / 16) with tiny | positive
  · -- one metadata block does not fit
    rw [totMetadataOf, tiny, metadataBlocks_of_small] at fits
    have size : blockToBytes (1 % 2 ^ 16) = 16 := rfl
    omega
  have spare : d + 1 ≤ f.rdev.size / 16 := by
    rw [sizeSub] at allocates
    omega
  rcases Nat.eq_zero_or_pos d with rfl | nonempty
  · rw [totMetadataOf, metadataBlocks_of_noData positive (by omega)]
    omega
  · have few := metadataBlocks_lt nonempty spare (by omega)
    obtain ⟨some, within⟩ := metadataBlocks_add_le spare (by omega)
    have whole : totMetadataOf f.rdev.size d = metadataBlocks (f.rdev.size / 16) d :=
      Nat.mod_eq_of_lt (by omega)
    rw [whole]
    by_cases addressable : d + 1 < 65535
    · have less := metadataBlocks_add_lt nonempty spare (by omega) addressable
      rw [regfUnallocatedBlock] at less
      omega
    · omega

/-- The loop ends after finitely many turns. -/
def Ends (works : Nat → Bool) (blocks : Nat) (buf : List Byte) (next : Nat)
    (f : RegionFile) : Prop :=
  ∃ fuel, (updateLoopUnder works blocks buf fuel next f).isSome = true

variable {blocks next : Nat} {buf : List Byte} {f : RegionFile}

theorem ends_of_fail (failed : (updateStepUnder works next f blocks buf).ret ≠ 0) :
    Ends works blocks buf next f := by
  refine ⟨1, ?_⟩
  rw [updateLoopUnder, if_pos failed]
  rfl

variable {turn : Attempt} {size : Nat} {final : RegionFile}

theorem updateLoopUnder_of_continue (step : updateStepUnder works next f blocks buf = turn)
    (succeeded : turn.ret = 0) (unfinished : turn.file.slot ≤ rfOnlyMetadata) (fuel : Nat) :
    updateLoopUnder works blocks buf (fuel + 1) next f =
      updateLoopUnder works blocks buf fuel turn.next turn.file := by
  rw [updateLoopUnder, step, if_neg (not_not_intro succeeded),
    if_neg fun done => absurd done.1 (not_lt_of_ge unfinished)]

theorem ends_iff_of_continue (step : updateStepUnder works next f blocks buf = turn)
    (succeeded : turn.ret = 0) (unfinished : turn.file.slot ≤ rfOnlyMetadata) :
    Ends works blocks buf next f ↔ Ends works blocks buf turn.next turn.file := by
  have loop := updateLoopUnder_of_continue step succeeded unfinished
  constructor
  · rintro ⟨fuel, ended⟩
    cases fuel with
    | zero => exact absurd ended Bool.false_ne_true
    | succ fuel =>
      rw [loop] at ended
      exact ⟨fuel, ended⟩
  · rintro ⟨fuel, ended⟩
    refine ⟨fuel + 1, ?_⟩
    rwa [loop]

theorem ends_of_fatal (slot : f.slot = rfFatal) : Ends works blocks buf next f := by
  apply ends_of_fail
  rw [updateStepUnder, slot, if_neg (by decide), if_neg (by decide), if_pos rfl]
  exact (by decide : (-1 : Int) ≠ 0)

theorem updateStepUnder_of_slot (slot : rfOnlyMetadata ≤ f.slot) :
    updateStepUnder works next f blocks buf = handleUpdateUnder works next f blocks buf := by
  rw [rfOnlyMetadata] at slot
  rw [updateStepUnder, rfEmpty, rfNeedToEmpty, rfFatal, if_neg (by omega),
    if_neg (by omega), if_neg (by omega)]

theorem updateStepUnder_of_full (slot : rfOnlyMetadata ≤ f.slot)
    (full : updateCanFit f blocks = false) :
    updateStepUnder works next f blocks buf = ⟨0, { f with slot := rfNeedToEmpty }, next⟩ := by
  rw [updateStepUnder_of_slot slot, handleUpdateUnder, full]
  rfl

theorem updateStepUnder_of_needToEmpty (slot : f.slot = rfNeedToEmpty) :
    updateStepUnder works next f blocks buf =
      if works next = true then ⟨0, { f with slot := rfEmpty }, next + 1⟩
      else ⟨-1, f, next + 1⟩ := by
  have erases := @rdevEraseat_of_le f.rdev 0 f.rdev.size (by omega)
  rw [updateStepUnder, slot, if_neg (by decide), if_pos rfl, handleNeedToEmptyUnder, erases]
  cases worked : works next <;> simp [issue, worked]

theorem updateStepUnder_of_empty (slot : f.slot = rfEmpty) :
    updateStepUnder works next f blocks buf = handleEmptyUnder works next f blocks := by
  rw [updateStepUnder, if_pos slot]

theorem updateStepUnder_of_stuck (bounded : f.rdev.size ≤ 2 ^ 20)
    (slot : f.slot = rfEmpty) (stuck : Stuck f.rdev.size blocks) :
    (updateStepUnder works next f blocks buf =
      if works next = true then
        ⟨0, allocatedFile f (totMetadataOf f.rdev.size blocks), next + 1⟩
      else ⟨-1, f, next + 1⟩) ∧
      updateCanFit (allocatedFile f (totMetadataOf f.rdev.size blocks)) blocks = false := by
  obtain ⟨large, reaches, less⟩ := stuck
  have allocates : blocks ≤ sizeSub (f.rdev.size / 16) 1 := by
    rw [sizeSub]
    omega
  have few : totMetadataOf f.rdev.size blocks ≤ f.rdev.size / 16 := by
    obtain ⟨-, within⟩ :=
      metadataBlocks_add_le (show blocks + 1 ≤ f.rdev.size / 16 by omega) (by omega)
    exact (Nat.mod_le _ _).trans (by omega)
  have fits : blockToBytes (totMetadataOf f.rdev.size blocks) ≤ f.rdev.size := by
    have small : totMetadataOf f.rdev.size blocks < 2 ^ 16 := Nat.mod_lt _ (by decide)
    rw [blockToBytes, Nat.mod_eq_of_lt small]
    omega
  constructor
  · rw [updateStepUnder_of_empty slot, handleEmptyUnder_eq, if_pos ⟨allocates, by omega⟩]
    exact if_congr (and_iff_left fits) rfl rfl
  · rw [← Bool.not_eq_true, updateCanFit_allocatedFile bounded allocates fits, not_not]
    exact ⟨large, reaches, less⟩

theorem slot_handleUpdateUnder (fits : updateCanFit f blocks = true) :
    (handleUpdateUnder works next f blocks buf).file.slot = f.slot + 1 := by
  simp only [handleUpdateUnder, fits, Bool.not_true, Bool.false_eq_true,
    if_false, commitDataAllocationUnder, commitDataUnder]
  split_ifs <;> rfl

theorem ends_of_canFit (slot : rfOnlyMetadata ≤ f.slot)
    (fits : updateCanFit f blocks = true) : Ends works blocks buf next f := by
  have step := @updateStepUnder_of_slot works blocks next buf f slot
  by_cases failed : (handleUpdateUnder works next f blocks buf).ret ≠ 0
  · apply ends_of_fail
    rwa [step]
  have written := @slot_handleUpdateUnder works blocks next buf f fits
  rw [rfOnlyMetadata] at slot
  refine ⟨1, ?_⟩
  rw [updateLoopUnder, step, if_neg failed, if_pos]
  · rfl
  · rw [written, rfOnlyMetadata]
    omega

theorem ends_iff_of_full (slot : rfOnlyMetadata ≤ f.slot) (full : updateCanFit f blocks = false) :
    Ends works blocks buf next f ↔ Ends works blocks buf next { f with slot := rfNeedToEmpty } :=
  ends_iff_of_continue (updateStepUnder_of_full slot full) rfl
    (by decide : rfNeedToEmpty ≤ rfOnlyMetadata)

theorem ends_iff_of_operation {failure : Attempt}
    (step : updateStepUnder works next f blocks buf = if works next = true then turn else failure)
    (failed : failure.ret ≠ 0) (succeeded : turn.ret = 0)
    (unfinished : turn.file.slot ≤ rfOnlyMetadata) :
    Ends works blocks buf next f ↔ works next = false ∨
      Ends works blocks buf turn.next turn.file := by
  cases worked : works next with
  | false =>
    rw [worked, if_neg Bool.false_ne_true] at step
    refine ⟨fun _ => .inl rfl, fun _ => ends_of_fail ?_⟩
    rwa [step]
  | true =>
    rw [worked, if_pos rfl] at step
    rw [or_iff_right (Bool.noConfusion : true ≠ false)]
    exact ends_iff_of_continue step succeeded unfinished

theorem ends_iff_of_needToEmpty (slot : f.slot = rfNeedToEmpty) :
    Ends works blocks buf next f ↔ works next = false ∨
      Ends works blocks buf (next + 1) { f with slot := rfEmpty } :=
  ends_iff_of_operation (updateStepUnder_of_needToEmpty slot)
    (by decide : (-1 : Int) ≠ 0) rfl (by decide : rfEmpty ≤ rfOnlyMetadata)

theorem ends_of_empty (bounded : f.rdev.size ≤ 2 ^ 20) (slot : f.slot = rfEmpty)
    (roomy : ¬ Stuck f.rdev.size blocks) : Ends works blocks buf next f := by
  have fails : (-1 : Int) ≠ 0 := by decide
  have step : updateStepUnder works next f blocks buf = _ :=
    (updateStepUnder_of_empty slot).trans (handleEmptyUnder_eq next f blocks)
  by_cases allocates : blocks ≤ sizeSub (f.rdev.size / 16) 1 ∧ 2 ≤ f.rdev.size
  · rw [if_pos allocates] at step
    by_cases worked : works next = true ∧
        blockToBytes (totMetadataOf f.rdev.size blocks) ≤ f.rdev.size
    · rw [if_pos worked] at step
      rw [ends_iff_of_continue step rfl (Int.le_refl rfOnlyMetadata)]
      apply ends_of_canFit (Int.le_refl rfOnlyMetadata)
      exact (updateCanFit_allocatedFile bounded allocates.1 worked.2).mpr roomy
    · rw [if_neg worked] at step
      apply ends_of_fail
      rwa [step]
  · rw [if_neg allocates] at step
    apply ends_of_fail
    rwa [step]

/-- The circle of an update that has no room in the empty region: allocate, give
up, and erase. -/
theorem ends_iff_of_stuck (bounded : f.rdev.size ≤ 2 ^ 20)
    (slot : f.slot = rfEmpty) (stuck : Stuck f.rdev.size blocks) :
    Ends works blocks buf next f ↔ works next = false ∨
      Ends works blocks buf (next + 1)
        { allocatedFile f (totMetadataOf f.rdev.size blocks) with
          slot := rfNeedToEmpty } := by
  obtain ⟨step, full⟩ := @updateStepUnder_of_stuck works blocks next buf f bounded slot stuck
  rw [ends_iff_of_operation step (by decide : (-1 : Int) ≠ 0) rfl (Int.le_refl rfOnlyMetadata)]
  exact or_congr_right (ends_iff_of_full (Int.le_refl rfOnlyMetadata) full)

theorem ends_of_failure (bounded : f.rdev.size ≤ 2 ^ 20) (stuck : Stuck f.rdev.size blocks)
    {rest : Nat} (failed : works (next + rest) = false) :
    (f.slot = rfEmpty → Ends works blocks buf next f) ∧
      (f.slot = rfNeedToEmpty → Ends works blocks buf next f) := by
  induction rest generalizing next f with
  | zero =>
    exact ⟨fun slot => (ends_iff_of_stuck bounded slot stuck).mpr (.inl failed),
      fun slot => (ends_iff_of_needToEmpty slot).mpr (.inl failed)⟩
  | succ rest ih =>
    have later : works (next + 1 + rest) = false := by
      rwa [Nat.add_assoc, Nat.add_comm 1]
    refine ⟨fun slot => (ends_iff_of_stuck bounded slot stuck).mpr (.inr ?_),
      fun slot => (ends_iff_of_needToEmpty slot).mpr (.inr ?_)⟩
    · exact (ih (f := { allocatedFile f _ with slot := rfNeedToEmpty }) bounded stuck later).2 rfl
    · exact (ih (f := { f with slot := rfEmpty }) bounded stuck later).1 rfl

def OnCircle (f : RegionFile) (blocks : Nat) : Prop :=
  f.slot = rfEmpty ∨ f.slot = rfNeedToEmpty ∨
    (f.slot = rfOnlyMetadata ∧ updateCanFit f blocks = false)

theorem updateLoopUnder_of_stuck (worked : ∀ n, works (next + n) = true)
    (bounded : f.rdev.size ≤ 2 ^ 20) (stuck : Stuck f.rdev.size blocks) (circle : OnCircle f blocks)
    (fuel : Nat) : updateLoopUnder works blocks buf fuel next f = none := by
  induction fuel generalizing next f with
  | zero => rfl
  | succ fuel ih =>
    have later : ∀ n, works (next + 1 + n) = true := by
      intro n
      rw [Nat.add_assoc, Nat.add_comm 1]
      exact worked (n + 1)
    have now : works next = true := worked 0
    rcases circle with slot | slot | ⟨slot, full⟩
    · obtain ⟨step, full⟩ := @updateStepUnder_of_stuck works blocks next buf f bounded slot stuck
      rw [if_pos now] at step
      rw [updateLoopUnder_of_continue step rfl (Int.le_refl rfOnlyMetadata)]
      exact ih later bounded stuck (.inr (.inr ⟨rfl, full⟩))
    · have step := @updateStepUnder_of_needToEmpty works blocks next buf f slot
      rw [if_pos now] at step
      rw [updateLoopUnder_of_continue step rfl (by decide : rfEmpty ≤ rfOnlyMetadata)]
      exact ih later bounded stuck (.inl rfl)
    · have step := @updateStepUnder_of_full works blocks next buf f slot.ge full
      rw [updateLoopUnder_of_continue step rfl (by decide : rfNeedToEmpty ≤ rfOnlyMetadata)]
      exact ih worked bounded stuck (.inr (.inl rfl))

/-- From a region that is or will be emptied, an update ends unless it goes
round for ever. -/
theorem ends_iff_of_emptied (bounded : f.rdev.size ≤ 2 ^ 20)
    (slot : f.slot = rfEmpty ∨ f.slot = rfNeedToEmpty) :
    Ends works blocks buf next f ↔ ¬ Stuck f.rdev.size blocks ∨ ∃ n, works (next + n) = false := by
  by_cases stuck : Stuck f.rdev.size blocks
  · rw [or_iff_right (not_not_intro stuck)]
    constructor
    · rintro ⟨fuel, ended⟩
      by_contra fails
      simp only [not_exists, Bool.not_eq_false] at fails
      have circle : OnCircle f blocks := slot.imp_right .inl
      rw [updateLoopUnder_of_stuck fails bounded stuck circle] at ended
      exact Bool.false_ne_true ended
    · rintro ⟨n, failed⟩
      have ends := @ends_of_failure works blocks next buf f bounded stuck n failed
      exact slot.elim ends.1 ends.2
  · refine iff_of_true ?_ (.inl stuck)
    rcases slot with slot | slot
    · exact ends_of_empty bounded slot stuck
    · rw [ends_iff_of_needToEmpty slot]
      exact .inr (ends_of_empty bounded rfl stuck)

theorem updateLoopUnder_of_large (slot : f.slot = rfEmpty)
    (bounded : f.rdev.size ≤ 2 ^ 20) (large : f.rdev.size / 16 ≤ blocks) :
    updateLoopUnder works blocks buf 1 next f = some (-1, { f with slot := rfFatal }) := by
  have fails : (-1 : Int) ≠ 0 := by decide
  have step : updateStepUnder works next f blocks buf = _ :=
    (updateStepUnder_of_empty slot).trans (handleEmptyUnder_eq next f blocks)
  by_cases allocates : blocks ≤ sizeSub (f.rdev.size / 16) 1 ∧ 2 ≤ f.rdev.size
  · have tiny : f.rdev.size / 16 = 0 := by
      have less := allocates.1
      rw [sizeSub] at less
      omega
    have full : ¬ blockToBytes (totMetadataOf f.rdev.size blocks) ≤ f.rdev.size := by
      rw [totMetadataOf, tiny, metadataBlocks_of_small]
      have size : blockToBytes (1 % 2 ^ 16) = 16 := rfl
      omega
    rw [if_pos allocates, if_neg fun both => full both.2] at step
    rw [updateLoopUnder, step, if_pos fails]
  · rw [if_neg allocates] at step
    rw [updateLoopUnder, step, if_pos fails]

/-- What every initialisation and every update leaves: a region of this size,
and one of the known slots. -/
structure Known (size : Nat) (f : RegionFile) : Prop where
  size : f.rdev.size = size
  slot : rfFatal ≤ f.slot

theorem Known.withSlot (known : Known size f) {slot : Int}
    (isSlot : rfFatal ≤ slot) : Known size { f with slot } :=
  ⟨known.size, isSlot⟩

theorem known_updateStepUnder (known : Known size f) :
    Known size (updateStepUnder works next f blocks buf).file := by
  obtain ⟨size, slot⟩ := known
  rw [rfFatal] at slot
  rw [updateStepUnder]
  split_ifs with empty needToEmpty fatal
  · rw [handleEmptyUnder_eq]
    split_ifs
    · exact ⟨size, (by decide : rfFatal ≤ rfOnlyMetadata)⟩
    · exact ⟨size, slot⟩
    · exact ⟨size, slot⟩
  · rw [handleNeedToEmptyUnder]
    split_ifs
    · exact ⟨size, slot⟩
    · exact ⟨size, (by decide : rfFatal ≤ rfEmpty)⟩
  · exact ⟨size, slot⟩
  · cases fits : updateCanFit f blocks with
    | false =>
      rw [handleUpdateUnder, fits]
      exact ⟨size, (by decide : rfFatal ≤ rfNeedToEmpty)⟩
    | true =>
      refine ⟨?_, ?_⟩
      · simp only [handleUpdateUnder, fits, Bool.not_true, Bool.false_eq_true, if_false,
          commitDataAllocationUnder, commitDataUnder]
        split_ifs <;> exact size
      · rw [slot_handleUpdateUnder fits, rfFatal]
        omega

theorem Known.update (known : Known size f) {fuel : Nat} {ret : Int}
    (ended : updateLoopUnder works blocks buf fuel next f =
      some (ret, final)) : Known size final := by
  induction fuel generalizing next f with
  | zero => cases ended
  | succ fuel ih =>
    have turn := @known_updateStepUnder works blocks next buf f size known
    rw [updateLoopUnder] at ended
    split_ifs at ended
    · cases ended
      exact turn.withSlot (Int.le_refl rfFatal)
    · cases ended
      exact turn
    · exact ih turn ended

theorem known_fillDataBoundaries
    (known : Known size f) (filled : fillDataBoundaries f memory = some final) :
    Known size final := by
  have emptied : Known size { f with slot := rfNeedToEmpty } := known.withSlot (by decide)
  rw [fillDataBoundaries] at filled
  split_ifs at filled
  · cases filled
    exact ⟨known.size, known.slot⟩
  · dsimp only at filled
    split at filled
    · cases filled
      exact emptied
    · split at filled
      · cases filled
      · split_ifs at filled
        all_goals
          cases filled
          first
          | exact ⟨emptied.size, emptied.slot⟩
          | exact ⟨known.size, known.slot⟩

end

theorem known_findLatestMb {size numMbBlocks : Nat} {f final : RegionFile}
    {mb : MetadataBlock} (inside : f.rdev.size = size)
    (found : findLatestMb numMbBlocks f memory = some (mb, final)) :
    Known size (findLatestSlot mb final) := by
  rw [findLatestMb] at found
  split at found
  · cases found
  · dsimp only at found
    split at found
    · cases found
    · cases found
      refine ⟨inside, ?_⟩
      simp only [findLatestSlot, rfFatal]
      omega

theorem known_regionFileInit (p : Region) (memory : Memory) :
    Known p.size (regionFileInit p memory).1 := by
  rw [regionFileInit, rdevChain_of_le (Nat.zero_add p.size).le]
  dsimp only
  split
  · exact ⟨rfl, Int.le_refl rfFatal⟩
  split_ifs
  · exact ⟨rfl, (by decide : rfFatal ≤ rfEmpty)⟩
  · exact ⟨rfl, (by decide : rfFatal ≤ rfNeedToEmpty)⟩
  split
  · exact ⟨rfl, (by decide : rfFatal ≤ rfNeedToEmpty)⟩
  split
  · exact ⟨rfl, Int.le_refl rfFatal⟩
  · rename_i found
    have known : Known p.size _ := known_findLatestMb rfl found
    split
    · exact known.withSlot (Int.le_refl rfFatal)
    · rename_i filled
      exact known_fillDataBoundaries known filled

/-- On a region of at most 1 MiB, in every state and under every pattern of
failures, an update ends unless it has no room in the emptied region; then it
ends only where the file is closed, where the update still fits, or where an
operation fails.  An update that is too large for the region fails. -/
theorem updates_end_iff {size : Nat} {f : RegionFile} (known : Known size f)
    (bounded : size ≤ 2 ^ 20) (works : Nat → Bool) (buf : List Byte) :
    ((∃ fuel, (regionFileUpdateDataUnder works fuel f buf).isSome = true) ↔
      ¬ Stuck size (dataBlocksOf buf) ∨ f.slot = rfFatal ∨
        (rfOnlyMetadata ≤ f.slot ∧
          updateCanFit f (dataBlocksOf buf) = true) ∨ ∃ n, works n = false) ∧
      (f.slot = rfEmpty → size / 16 ≤ dataBlocksOf buf →
        regionFileUpdateDataUnder works 1 f buf = some (-1, { f with slot := rfFatal })) := by
  obtain ⟨rfl, slot⟩ := known
  refine ⟨?_, fun empty large => updateLoopUnder_of_large empty bounded large⟩
  change Ends works (dataBlocksOf buf) buf 0 f ↔ _
  by_cases fatal : f.slot = rfFatal
  · exact iff_of_true (ends_of_fatal fatal) (.inr (.inl fatal))
  by_cases fits : rfOnlyMetadata ≤ f.slot ∧ updateCanFit f (dataBlocksOf buf) = true
  · exact iff_of_true (ends_of_canFit fits.1 fits.2) (.inr (.inr (.inl fits)))
  have circle : f.slot = rfEmpty ∨ f.slot = rfNeedToEmpty ∨
      (rfOnlyMetadata ≤ f.slot ∧ updateCanFit f (dataBlocksOf buf) = false) := by
    by_cases open' : rfOnlyMetadata ≤ f.slot
    · refine .inr (.inr ⟨open', ?_⟩)
      exact Bool.eq_false_iff.mpr fun fit => fits ⟨open', fit⟩
    · rw [rfOnlyMetadata] at open'
      rw [rfFatal] at slot fatal
      rw [rfEmpty, rfNeedToEmpty]
      omega
  have empties : Ends works (dataBlocksOf buf) buf 0 f ↔
      ¬ Stuck f.rdev.size (dataBlocksOf buf) ∨ ∃ n, works n = false := by
    have fromStart : (∃ n, works (0 + n) = false) ↔ ∃ n, works n = false := by
      simp only [Nat.zero_add]
    rw [← fromStart]
    rcases circle with slot | slot | ⟨slot, full⟩
    · exact ends_iff_of_emptied bounded (.inl slot)
    · exact ends_iff_of_emptied bounded (.inr slot)
    · rw [ends_iff_of_full slot full]
      exact ends_iff_of_emptied bounded (.inr rfl)
  rw [empties]
  simp only [fatal, fits, false_or]

/-- On an erased region of 64 bytes whose second operation fails, an update
ends. -/
theorem updates_end_small :
    ∃ fuel, (regionFileUpdateDataUnder (fun n => n ≠ 1) fuel
      (regionFileInit ⟨0, 64⟩ fun _ => 0xff).1 [0x2a]).isSome = true :=
  (updates_end_iff (known_regionFileInit ⟨0, 64⟩ fun _ => 0xff) (by decide)
    (fun n => n ≠ 1) [0x2a]).1.mpr (.inl (by decide))

/-- On an erased region of 1 MiB, an update with an empty buffer erases and
allocates for ever. -/
theorem not_updates_end_megabyte :
    ¬ ∀ (size : Nat) (f : RegionFile) (works : Nat → Bool) (buf : List Byte),
      size ≤ 2 ^ 20 → Known size f →
        ∃ fuel, (regionFileUpdateDataUnder works fuel f buf).isSome = true := by
  intro ends
  obtain ⟨fuel, ended⟩ := ends (2 ^ 20) (regionFileInit ⟨0, 2 ^ 20⟩ fun _ => 0xff).1
    (fun _ => true) [] (Nat.le_refl _)
    (known_regionFileInit ⟨0, 2 ^ 20⟩ fun _ => 0xff)
  have stuck : Stuck (2 ^ 20) (dataBlocksOf []) := by decide
  have circle : OnCircle (regionFileInit ⟨0, 2 ^ 20⟩ fun _ => 0xff).1
      (dataBlocksOf []) := .inl (by decide)
  rw [regionFileUpdateDataUnder,
    updateLoopUnder_of_stuck (fun _ => rfl) (Nat.le_refl _) stuck circle] at ended
  exact Bool.false_ne_true ended

end Coreboot.Regf
