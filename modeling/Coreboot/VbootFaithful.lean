import Coreboot.VbootBody

/-!
# What is hashed is what is used

The blocks that are hashed are the bytes of the region that is recorded exactly if every read
delivers what was asked for, or leaves the right bytes by chance.
-/

namespace Coreboot.VbootBody

open ByteMemory RegionDevice

section Properties

variable {width : Nat}

def bodySize (run : Run width) (slot : Slot width) : Nat :=
  (run.vboot.initHash (BitVec.ofNat 32 slot.region.size.toNat)).2.toNat

def regionBytes (device : BootDevice) (region : Region width) : List Byte :=
  load device.contents region.offset.toNat region.size.toNat

def recordOf (region : Region width) : SelectedRegion :=
  ⟨BitVec.ofNat 32 region.offset.toNat, BitVec.ofNat 32 region.size.toNat⟩

/-- What the selected-region storage holds before the verification: CBMEM is up
for a work buffer in it, and not before romstage; a static work buffer was copied
when CBMEM came up. -/
structure Before (flow : Flow) where
  storage : Storage
  dynamic_up : flow.dynamicWorkBuffer → storage.up
  early_down : ¬ flow.startsInRomstage → ¬ storage.up
  static_copied : ¬ flow.dynamicWorkBuffer → storage.up → storage.selReg.isSome

def Located (flow : Flow) (before : Before flow) (region : Region width) : Prop :=
  ∀ ops : List Later,
    vbootLocate flow (ops.foldl (Storage.later flow)
      (vbootPrepare flow before.storage (recordOf region))) =
        some (region.offset.toNat, region.size.toNat)

/-- What is hashed is what is used: the blocks are the bytes of the region, each
once and in order; it is the first part of the slot, of the size of the body, and
it is what is located later. -/
structure Faithful (run : Run width) (flow : Flow) (before : Before flow)
    (slot : Slot width) (region : Region width) (blocks : List (List Byte)) :
    Prop where
  hashed : blocks.flatten = regionBytes run.device region
  offset : region.offset = slot.region.offset
  size : region.size.toNat = bodySize run slot
  inside : slot.region.Holds region.offset.toNat region.size.toNat
  located : Located flow before region

/-- What is in the block before a read: what was on the stack, or the block
before. -/
def stale (run : Run width) (slot : Slot width) (count index : Nat) : Byte :=
  if count = 0 then run.stack index
  else
    run.device.contents (slot.region.offset.toNat + todoBlockSize * (count - 1) + index)

/-- Where a read of the body delivers fewer bytes than asked for, what is left in
the block are the bytes of the device. -/
def Delivered (run : Run width) (slot : Slot width) : Prop :=
  ∀ count delivered, todoBlockSize * count < bodySize run slot →
    run.device.reads count = some delivered →
      ∀ index, delivered ≤ index →
        index < min todoBlockSize (bodySize run slot - todoBlockSize * count) →
          stale run slot count index = run.device.contents
            (slot.region.offset.toNat + todoBlockSize * count + index)

/-- The copy of the region is neither lost nor an older one: if the verification is
a part of romstage with a work buffer in CBMEM, then there is no copy before it; and
if it is a stage loaded from romstage with a static one, a copy that is there is the
right one. -/
structure Copied (flow : Flow) (before : Before flow) (record : SelectedRegion) :
    Prop where
  integrated : flow.startsInRomstage → ¬ flow.separateVerstage →
    flow.dynamicWorkBuffer → before.storage.cbmemFind = none
  separate : flow.startsInRomstage → flow.separateVerstage →
    ¬ flow.dynamicWorkBuffer → ∀ copy, before.storage.cbmemFind = some copy → copy = record

/-- The record is not that of an unselected slot, and its copy is the right one. -/
structure Recorded (run : Run width) (flow : Flow) (before : Before flow)
    (slot : Slot width) : Prop where
  selected : ¬ (slot.region.offset.toNat = 0 ∧ bodySize run slot = 0)
  copied : Copied flow before
    (recordOf ⟨slot.region.offset, BitVec.ofNat width (bodySize run slot)⟩)

end Properties

section Regions

variable {width : Nat}

theorem normalizeAndOk_first {slot : Region width} (fits : slot.Fits)
    {size : Nat} (small : size < 2 ^ width) :
    normalizeAndOk slot ⟨0, BitVec.ofNat width size⟩ =
      if size ≤ slot.size.toNat then
        some ⟨slot.offset, BitVec.ofNat width size⟩
      else none := by
  have toNat : (BitVec.ofNat width size).toNat = size := by
    rw [BitVec.toNat_ofNat, Nat.mod_eq_of_lt small]
  have exact : ¬ slot.Wraps 0 (BitVec.ofNat width size) := by
    rintro ⟨le, -, wraps⟩
    rw [Region.Fits] at fits
    rw [toNat] at le wraps
    simp at wraps
    omega
  rw [normalizeAndOk_eq fits 0 _ exact, toNat]
  simp

theorem normalizeAndOk_part {region : Region width} (fits : region.Fits)
    {offset size : Nat} (inside : offset + size ≤ region.size.toNat) :
    normalizeAndOk region ⟨BitVec.ofNat width offset, BitVec.ofNat width size⟩ =
      some ⟨BitVec.ofNat width (region.offset.toNat + offset), BitVec.ofNat width size⟩ := by
  have room := region.size.isLt
  have first : (BitVec.ofNat width offset).toNat = offset := by
    rw [BitVec.toNat_ofNat, Nat.mod_eq_of_lt (by omega)]
  have second : (BitVec.ofNat width size).toNat = size := by
    rw [BitVec.toNat_ofNat, Nat.mod_eq_of_lt (by omega)]
  rw [Region.Fits] at fits
  have exact : ¬ region.Wraps (BitVec.ofNat width offset) (BitVec.ofNat width size) := by
    rintro ⟨-, -, wraps⟩
    rw [first, second] at wraps
    omega
  rw [normalizeAndOk_eq fits _ _ exact, first, second, if_pos inside]

theorem readBlock_part {device : BootDevice} {region : Region width} (fits : region.Fits)
    {state : Hashing} (inside : state.offset + state.blockSize ≤ region.size.toNat) :
    readBlock device region state =
      (device.reads state.count).map fun delivered index =>
        if index < delivered ∧ index < state.blockSize then
          device.contents (region.offset.toNat + state.offset + index)
        else state.block index := by
  have start : (BitVec.ofNat width (region.offset.toNat + state.offset)).toNat =
      region.offset.toNat + state.offset := by
    rw [Region.Fits] at fits
    rw [BitVec.toNat_ofNat, Nat.mod_eq_of_lt (by omega)]
  rw [readBlock, normalizeAndOk_part fits inside]
  dsimp only
  rw [start]

end Regions

section Loop

variable {width : Nat} {run : Run width} {region : Region width}
variable {state : Hashing} {turns : Nat} {blocks : List (List Byte)}

def Hashing.read (run : Run width) (region : Region width) (state : Hashing)
    (delivered index : Nat) : Byte :=
  if index < delivered ∧ index < state.nextSize then
    run.device.contents (region.offset.toNat + state.offset + index)
  else state.block index

def Hashing.next (run : Run width) (region : Region width) (state : Hashing)
    (delivered : Nat) : Hashing where
  remaining := state.remaining - state.nextSize
  offset := state.offset + state.nextSize
  blockSize := state.nextSize
  block := state.read run region delivered
  count := state.count + 1
  blocks := state.blocks ++ [load (state.read run region delivered) 0 state.nextSize]

theorem Hashing.nextSize_le (state : Hashing) : state.nextSize ≤ state.remaining := by
  rw [Hashing.nextSize]
  split_ifs <;> omega

theorem Hashing.nextSize_pos (positive : 0 < state.blockSize)
    (more : state.remaining ≠ 0) : 0 < state.nextSize := by
  rw [Hashing.nextSize]
  split_ifs <;> omega

theorem hashLoop_turn (fits : region.Fits)
    (inside : state.offset + state.remaining ≤ region.size.toNat)
    (ended : hashLoop run.vboot run.device region (turns + 1) state = (0, blocks)) :
    (state.remaining = 0 ∧ blocks = state.blocks) ∨
      (state.remaining ≠ 0 ∧ ∃ delivered,
        run.device.reads state.count = some delivered ∧
          hashLoop run.vboot run.device region turns
            (state.next run region delivered) = (0, blocks)) := by
  rw [hashLoop] at ended
  by_cases done : state.remaining = 0
  · rw [if_pos done] at ended
    cases ended
    exact .inl ⟨done, rfl⟩
  · rw [if_neg done] at ended
    have small := state.nextSize_le
    rw [readBlock_part fits (by dsimp only; omega)] at ended
    cases read : run.device.reads state.count with
    | none =>
      rw [read, Option.map_none] at ended
      exact absurd (Prod.mk.inj ended).1 (by decide)
    | some delivered =>
      rw [read, Option.map_some] at ended
      dsimp only at ended
      split_ifs at ended with failed
      · exact absurd (Prod.mk.inj ended).1 failed
      · exact .inr ⟨done, delivered, rfl, ended⟩

theorem hashLoop_length (fits : region.Fits) (positive : 0 < state.blockSize)
    (inside : state.offset + state.remaining ≤ region.size.toNat) (enough : state.remaining ≤ turns)
    (ended : hashLoop run.vboot run.device region turns state = (0, blocks)) :
    ∃ hashed, blocks = state.blocks ++ hashed ∧ hashed.flatten.length = state.remaining := by
  induction turns generalizing state with
  | zero =>
    cases ended
    exact ⟨[], (List.append_nil _).symm, by simpa using (Nat.le_zero.mp enough).symm⟩
  | succ turns ih =>
    rcases hashLoop_turn fits inside ended with ⟨done, rfl⟩ | ⟨more, delivered, -, rest⟩
    · exact ⟨[], (List.append_nil _).symm, by simpa using done.symm⟩
    · have size := state.nextSize_le
      have some := Hashing.nextSize_pos positive more
      obtain ⟨hashed, rfl, length⟩ :=
        ih some
          (by simp only [Hashing.next]; omega)
          (by simp only [Hashing.next]; omega) rest
      refine ⟨load (state.read run region delivered) 0 state.nextSize :: hashed,
        by simp [Hashing.next], ?_⟩
      rw [List.flatten_cons, List.length_append, length_load, length]
      simp only [Hashing.next]
      omega

variable {slot : Slot width}

def DeliveredFrom (run : Run width) (slot : Slot width) (first : Nat) : Prop :=
  ∀ count delivered, first ≤ count →
    todoBlockSize * count < bodySize run slot →
      run.device.reads count = some delivered →
        ∀ index, delivered ≤ index →
          index < min todoBlockSize (bodySize run slot - todoBlockSize * count) →
            stale run slot count index = run.device.contents
              (slot.region.offset.toNat + todoBlockSize * count + index)

/-- The loop is in front of a block, and all blocks before it were right. -/
structure InStep (run : Run width) (slot : Slot width) (region : Region width)
    (state : Hashing) : Prop where
  first : region.offset = slot.region.offset
  size : region.size.toNat = bodySize run slot
  inside : state.offset + state.remaining = region.size.toNat
  past : state.remaining = 0 → region.size.toNat ≤ todoBlockSize * state.count
  offset : state.remaining ≠ 0 → state.offset = todoBlockSize * state.count
  whole : state.remaining ≠ 0 → state.blockSize = todoBlockSize
  block : state.remaining ≠ 0 → ∀ index < todoBlockSize,
    state.block index = stale run slot state.count index

section

variable (inStep : InStep run slot region state)
include inStep

theorem InStep.nextSize_eq (more : state.remaining ≠ 0) :
    state.nextSize = min todoBlockSize (bodySize run slot - todoBlockSize * state.count) := by
  have inside := inStep.inside
  have size := inStep.size
  have offset := inStep.offset more
  rw [Hashing.nextSize, inStep.whole more]
  split_ifs <;> omega

theorem InStep.read_iff (more : state.remaining ≠ 0) (delivered : Nat) :
    load (state.read run region delivered) 0 state.nextSize =
        load run.device.contents (region.offset.toNat + state.offset) state.nextSize ↔
      ∀ index, delivered ≤ index → index < state.nextSize →
        stale run slot state.count index = run.device.contents
          (slot.region.offset.toNat + todoBlockSize * state.count + index) := by
  have small : state.nextSize ≤ todoBlockSize := by
    rw [inStep.nextSize_eq more]
    exact min_le_left _ _
  rw [load_eq_load_iff]
  refine forall_congr' fun index => ?_
  rw [Nat.zero_add, ← inStep.first, ← inStep.offset more, Hashing.read]
  constructor
  · intro same late below
    rw [if_neg (fun within => absurd within.1 (Nat.not_lt.mpr late)),
      inStep.block more index (by omega)] at same
    exact same below
  · intro same below
    by_cases early : index < delivered
    · rw [if_pos ⟨early, below⟩]
    · rw [if_neg (fun within => early within.1), inStep.block more index (by omega)]
      exact same (Nat.not_lt.mp early) below

omit inStep in
theorem InStep.next (inStep : InStep run slot region state) (more : state.remaining ≠ 0)
    {delivered : Nat} (right : load (state.read run region delivered) 0 state.nextSize =
      load run.device.contents (region.offset.toNat + state.offset) state.nextSize) :
    InStep run slot region (state.next run region delivered) := by
  have inside := inStep.inside
  have size := inStep.size
  have offset := inStep.offset more
  have nextSize := inStep.nextSize_eq more
  have le := state.nextSize_le
  have full : (state.next run region delivered).remaining ≠ 0 → state.nextSize = todoBlockSize := by
    intro left
    simp only [Hashing.next] at left
    omega
  exact
    { first := inStep.first
      size := inStep.size
      inside := by
        simp only [Hashing.next]
        omega
      past := fun done => by
        simp only [Hashing.next, Nat.mul_succ] at done ⊢
        omega
      offset := fun left => by
        have whole := full left
        simp only [Hashing.next, Nat.mul_succ]
        omega
      whole := fun left => full left
      block := fun left index below => by
        have whole := full left
        have same := load_eq_load_iff.mp right index (by omega)
        rw [Nat.zero_add] at same
        change state.read run region delivered index = _
        rw [same, stale, ← inStep.first, offset]
        simp [Hashing.next] }

theorem InStep.deliveredFrom (done : state.remaining = 0) : DeliveredFrom run slot state.count := by
  intro count delivered above below
  have past := inStep.past done
  have size := inStep.size
  have more : todoBlockSize * state.count ≤ todoBlockSize * count := Nat.mul_le_mul_left _ above
  omega

end

/-- A loop that ends well hashes the bytes of the region exactly if what its reads
do not deliver is right. -/
theorem hashLoop_flatten (fits : region.Fits)
    (inStep : InStep run slot region state) (enough : state.remaining ≤ turns)
    (ended : hashLoop run.vboot run.device region turns state = (0, blocks)) :
    ∃ hashed, blocks = state.blocks ++ hashed ∧
      (hashed.flatten = load run.device.contents
          (region.offset.toNat + state.offset) state.remaining ↔
        DeliveredFrom run slot state.count) := by
  induction turns generalizing state with
  | zero =>
    have done := Nat.le_zero.mp enough
    cases ended
    refine ⟨[], (List.append_nil _).symm, iff_of_true ?_ (inStep.deliveredFrom done)⟩
    rw [done]
    rfl
  | succ turns ih =>
    have inside := inStep.inside
    rcases hashLoop_turn fits (by omega) ended with ⟨done, rfl⟩ | ⟨more, delivered, read, rest⟩
    · refine ⟨[], (List.append_nil _).symm, iff_of_true ?_ (inStep.deliveredFrom done)⟩
      rw [done]
      rfl
    · have le := state.nextSize_le
      have positive : 0 < state.nextSize :=
        Hashing.nextSize_pos (by rw [inStep.whole more]; decide) more
      obtain ⟨hashed, rfl, length⟩ :=
        hashLoop_length fits positive
          (by simp only [Hashing.next]; omega)
          (by simp only [Hashing.next]; omega) rest
      refine ⟨load (state.read run region delivered) 0 state.nextSize :: hashed,
        by simp [Hashing.next], ?_⟩
      have after : load (state.read run region delivered) 0 state.nextSize =
            load run.device.contents (region.offset.toNat + state.offset) state.nextSize →
          (hashed.flatten = load run.device.contents
              (region.offset.toNat + state.offset + state.nextSize)
              (state.remaining - state.nextSize) ↔
            DeliveredFrom run slot (state.count + 1)) := by
        intro right
        obtain ⟨others, same, flatten_iff⟩ :=
          ih (inStep.next more right) (by simp only [Hashing.next]; omega) rest
        obtain rfl := List.append_cancel_left same
        rw [Nat.add_assoc]
        exact flatten_iff
      have parts : state.remaining = state.nextSize + (state.remaining - state.nextSize) := by omega
      have size := inStep.size
      have offset := inStep.offset more
      have nextSize := inStep.nextSize_eq more
      rw [List.flatten_cons]
      constructor
      · intro same
        rw [parts, load_append] at same
        obtain ⟨right, later⟩ := List.append_inj same (by simp)
        have others := (after right).mp later
        intro count other above below readOther
        rcases Nat.eq_or_lt_of_le above with rfl | next
        · cases read.symm.trans readOther
          rw [← nextSize]
          exact (inStep.read_iff more delivered).mp right
        · exact others count other next below readOther
      · intro whole
        have right := (inStep.read_iff more delivered).mpr
          fun index late below => whole state.count delivered le_rfl
            (by omega) read index late (nextSize ▸ below)
        have later := (after right).mpr
          fun count delivered above => whole count delivered (by omega)
        conv_rhs => rw [parts, load_append]
        rw [right, later]

end Loop

section Verification

variable {width : Nat} {run : Run width} {region : Region width}
variable {blocks : List (List Byte)}

variable {slot : Slot width}

/-- A body that is hashed is the first part of the slot, and the loop over it ended
well. -/
theorem hashBody_hashed (hashed : hashBody run slot.region = (0, region, blocks)) :
    normalizeAndOk slot.region ⟨0, BitVec.ofNat width (bodySize run slot)⟩ = some region ∧
      hashLoop run.vboot run.device region (bodySize run slot)
        ⟨bodySize run slot, 0, todoBlockSize, run.stack, 0, []⟩ = (0, blocks) := by
  rw [hashBody] at hashed
  dsimp only at hashed
  by_cases started : (run.vboot.initHash (BitVec.ofNat 32 slot.region.size.toNat)).1 = 0
  · rw [if_neg (not_not.mpr started)] at hashed
    rw [bodySize]
    split at hashed
    · exact absurd (Prod.mk.inj hashed).1 (by decide)
    · next chained normalized =>
      rcases ended : hashLoop run.vboot run.device chained
        (run.vboot.initHash (BitVec.ofNat 32 slot.region.size.toNat)).2.toNat
        ⟨(run.vboot.initHash (BitVec.ofNat 32 slot.region.size.toNat)).2.toNat, 0,
          todoBlockSize, run.stack, 0, []⟩ with ⟨rv, read⟩
      rw [ended] at hashed
      dsimp only at hashed
      split_ifs at hashed with failed unchecked different
      · exact absurd (Prod.mk.inj hashed).1 failed
      · exact absurd (Prod.mk.inj hashed).1 unchecked
      · exact absurd (Prod.mk.inj hashed).1 (by decide)
      · obtain ⟨-, same⟩ := Prod.mk.inj hashed
        cases same
        exact ⟨normalized, by rw [ended, not_not.mp failed]⟩
  · rw [if_pos started] at hashed
    exact absurd (Prod.mk.inj hashed).1 started

theorem verstageMain_selected (reached : verstageMain run = .selected region blocks)
    (found : run.slot = some slot) : hashBody run slot.region = (0, region, blocks) := by
  rw [verstageMain, found] at reached
  dsimp only at reached
  rcases hashed : hashBody run slot.region with ⟨rv, body, read⟩
  rw [hashed] at reached
  dsimp only at reached
  split_ifs at reached with _ _ _ _ failed
  obtain ⟨rfl, rfl⟩ := Ending.selected.inj reached
  rw [not_not.mp failed]

theorem hashBody_region (wide : 32 ≤ width)
    (hashed : hashBody run slot.region = (0, region, blocks)) :
    region = ⟨slot.region.offset, BitVec.ofNat width (bodySize run slot)⟩ ∧
      region.size.toNat = bodySize run slot ∧
      bodySize run slot ≤ slot.region.size.toNat ∧
      (blocks.flatten = regionBytes run.device region ↔ Delivered run slot) := by
  obtain ⟨normalized, ended⟩ := hashBody_hashed hashed
  have small : bodySize run slot < 2 ^ width :=
    lt_of_lt_of_le (BitVec.isLt _) (Nat.pow_le_pow_right (by decide) wide)
  rw [normalizeAndOk_first slot.fits small] at normalized
  split_ifs at normalized with inside
  cases normalized
  have size : (BitVec.ofNat width (bodySize run slot)).toNat = bodySize run slot := by
    rw [BitVec.toNat_ofNat, Nat.mod_eq_of_lt small]
  have fits : (⟨slot.region.offset, BitVec.ofNat width (bodySize run slot)⟩ :
      Region width).Fits := by
    have whole := slot.fits
    rw [Region.Fits] at whole ⊢
    simp only [size]
    omega
  have inStep : InStep run slot
      ⟨slot.region.offset, BitVec.ofNat width (bodySize run slot)⟩
      ⟨bodySize run slot, 0, todoBlockSize, run.stack, 0, []⟩ :=
    { first := rfl
      size := size
      inside := by simp only [size]; omega
      past := fun done => by
        rw [size]
        exact (Nat.le_of_eq done).trans (Nat.zero_le _)
      offset := fun _ => rfl
      whole := fun _ => rfl
      block := fun _ index _ => by simp [stale] }
  obtain ⟨_, rfl, flatten_iff⟩ := hashLoop_flatten fits inStep le_rfl ended
  refine ⟨rfl, size, inside, ?_⟩
  rw [regionBytes, size]
  refine flatten_iff.trans ⟨fun from_zero count delivered => ?_, fun whole count
    delivered _ => whole count delivered⟩
  exact from_zero count delivered (Nat.zero_le count)

end Verification

section Records

variable {flow : Flow} {storage : Storage} {record : SelectedRegion}

/-- The storage holds a record: in the work buffer, and in the copy once CBMEM is
up. -/
structure Keeps (flow : Flow) (record : SelectedRegion) (storage : Storage) :
    Prop where
  prepared : flow.prepares.rank ≤ storage.stage.rank
  down : ¬ storage.up → storage.workBuffer = record ∧ ¬ flow.dynamicWorkBuffer ∧
    storage.stage.rank ≤ Stage.romstage.rank
  up : storage.up → storage.selReg = some record ∧ Stage.romstage.rank ≤ storage.stage.rank

section

variable (keeps : Keeps flow record storage)
include keeps

theorem Keeps.later (op : Later) :
    Keeps flow record (storage.later flow op) := by
  cases op with
  | cbmemUp isRecovery =>
    rw [Storage.later]
    by_cases rises : storage.stage = .romstage ∧ ¬ storage.up
    · obtain ⟨workBuffer, static, -⟩ := keeps.down rises.2
      rw [if_pos rises, if_neg static]
      exact
        { prepared := keeps.prepared
          down := fun isDown => absurd rfl isDown
          up := fun _ => ⟨congrArg some workBuffer,
            Nat.le_of_eq (congrArg Stage.rank rises.1.symm)⟩ }
    · rwa [if_neg rises]
  | enter stage =>
    rw [Storage.later]
    by_cases enters : storage.stage.rank < stage.rank ∧
        (stage.rank ≤ Stage.romstage.rank ∨ storage.up)
    · rw [if_pos enters]
      exact
        { prepared := keeps.prepared.trans enters.1.le
          down := fun isDown =>
            have ⟨workBuffer, static, _⟩ := keeps.down isDown
            ⟨workBuffer, static, enters.2.resolve_right isDown⟩
          up := fun isUp =>
            have ⟨selReg, late⟩ := keeps.up isUp
            ⟨selReg, late.trans enters.1.le⟩ }
    · rwa [if_neg enters]

theorem Keeps.foldl (ops : List Later) :
    Keeps flow record (ops.foldl (Storage.later flow) storage) := by
  induction ops generalizing storage with
  | nil => exact keeps
  | cons op ops ih => exact ih (keeps.later op)

theorem Keeps.vb2LogicExecuted :
    vb2LogicExecuted flow storage.stage true = true := by
  have prepared := keeps.prepared
  rw [VbootBody.vb2LogicExecuted]
  rw [Flow.prepares] at prepared ⊢
  cases starts : flow.startsInRomstage <;> cases stage : storage.stage <;> simp_all [Stage.rank]

theorem Keeps.selectedRegion :
    storage.selectedRegion = some record := by
  rw [Storage.selectedRegion, Storage.cbmemFind]
  by_cases isUp : storage.up
  · obtain ⟨selReg, late⟩ := keeps.up isUp
    rw [if_pos isUp, selReg]
    cases stage : storage.stage <;> simp_all [Stage.rank]
  · obtain ⟨workBuffer, -, early⟩ := keeps.down isUp
    rw [if_neg isUp, workBuffer]
    cases stage : storage.stage <;> simp_all [Stage.rank]

end

theorem vbootLocate_eq_some_iff {found : Nat × Nat} :
    vbootLocate flow storage = some found ↔
      vb2LogicExecuted flow storage.stage true = true ∧
        ∃ region, storage.selectedRegion = some region ∧
          ¬ (region.offset = 0 ∧ region.size = 0) ∧
            found = (region.offset.toNat, region.size.toNat) := by
  rw [vbootLocate]
  by_cases executed : vb2LogicExecuted flow storage.stage true = true
  · rw [if_neg (not_not.mpr executed)]
    cases storage.selectedRegion with
    | none => simp
    | some region =>
      dsimp only
      by_cases empty : region.offset = 0 ∧ region.size = 0
      · rw [if_pos empty]
        refine iff_of_false (by simp) ?_
        rintro ⟨-, other, same, filled, -⟩
        exact filled (Option.some.inj same ▸ empty)
      · rw [if_neg empty, Option.some.injEq]
        constructor
        · rintro rfl
          exact ⟨executed, region, rfl, empty, rfl⟩
        · rintro ⟨-, other, same, -, rfl⟩
          rw [Option.some.inj same]
  · simp [executed]

variable {before : Before flow}

theorem keeps_early (early : ¬ flow.startsInRomstage) :
    Keeps flow record (vbootPrepare flow before.storage record) := by
  have isDown := before.early_down early
  have static : ¬ flow.dynamicWorkBuffer := fun dynamic =>
    early (flow.dynamic_late dynamic)
  have prepares : flow.prepares = .bootblock := if_neg early
  have recorded : recordRegion flow before.storage record =
      { before.storage with stage := flow.verifies, workBuffer := record } := by
    rw [recordRegion, Flow.verifies, if_neg early]
    by_cases separate : flow.separateVerstage
    · rw [if_pos separate, Storage.setSelectedRegion]
    · rw [if_neg separate, Storage.setSelectedRegion]
  rw [vbootPrepare, recorded, prepares, if_neg fun both => static both.2]
  exact
    { prepared := Nat.le_of_eq (congrArg Stage.rank prepares)
      down := fun _ => ⟨rfl, static, Nat.zero_le _⟩
      up := fun isUp => absurd isUp isDown }

section

variable (starts : flow.startsInRomstage)
include starts

theorem keeps_separate (separate : flow.separateVerstage) (copied : Copied flow before record) :
    Keeps flow record (vbootPrepare flow before.storage record) := by
  have prepares : flow.prepares = .romstage := if_pos starts
  have recorded : recordRegion flow before.storage record =
      { before.storage with stage := .verstage, workBuffer := record } := by
    rw [recordRegion, Flow.verifies, if_pos separate, Storage.setSelectedRegion]
  rw [vbootPrepare, recorded, prepares]
  by_cases dynamic : flow.dynamicWorkBuffer
  · rw [if_pos ⟨rfl, dynamic⟩]
    exact
      { prepared := Nat.le_of_eq (congrArg Stage.rank prepares)
        down := fun isDown => absurd (before.dynamic_up dynamic) isDown
        up := fun _ => ⟨rfl, le_rfl⟩ }
  · rw [if_neg fun both => dynamic both.2]
    exact
      { prepared := Nat.le_of_eq (congrArg Stage.rank prepares)
        down := fun _ => ⟨rfl, dynamic, le_rfl⟩
        up := fun isUp => by
          obtain ⟨copy, selReg⟩ := Option.isSome_iff_exists.mp (before.static_copied dynamic isUp)
          have right := copied.separate starts separate dynamic copy
            (by rw [Storage.cbmemFind, if_pos isUp, selReg])
          exact ⟨selReg.trans (congrArg some right), le_rfl⟩ }

theorem recordRegion_integrated {before : Storage} (integrated : ¬ flow.separateVerstage) :
    recordRegion flow before record =
      if before.cbmemFind.isSome then
        { before with
          stage := .romstage, workBuffer := ⟨0, 0⟩, selReg := some record }
      else { before with stage := .romstage, workBuffer := record } := by
  rw [recordRegion, Flow.verifies, if_neg integrated, if_pos starts]
  rfl

/-- Romstage itself leaves it where it is read, if there is no copy that the store
overwrites. -/
theorem keeps_integrated (integrated : ¬ flow.separateVerstage) (copied : Copied flow before record) :
    Keeps flow record (vbootPrepare flow before.storage record) := by
  have prepares : flow.prepares = .romstage := if_pos starts
  by_cases dynamic : flow.dynamicWorkBuffer
  · have absent := copied.integrated starts integrated dynamic
    rw [vbootPrepare, prepares, if_pos ⟨rfl, dynamic⟩,
      recordRegion_integrated starts integrated,
      if_neg (by rw [absent]; exact Bool.false_ne_true)]
    exact
      { prepared := Nat.le_of_eq (congrArg Stage.rank prepares)
        down := fun isDown => absurd (before.dynamic_up dynamic) isDown
        up := fun _ => ⟨rfl, le_rfl⟩ }
  · rw [vbootPrepare, prepares, if_neg fun both => dynamic both.2,
      recordRegion_integrated starts integrated]
    by_cases isUp : before.storage.up
    · have present : before.storage.cbmemFind.isSome := by
        rw [Storage.cbmemFind, if_pos isUp]
        exact before.static_copied dynamic isUp
      rw [if_pos present]
      exact
        { prepared := Nat.le_of_eq (congrArg Stage.rank prepares)
          down := fun isDown => absurd isUp isDown
          up := fun _ => ⟨rfl, le_rfl⟩ }
    · have absent : before.storage.cbmemFind = none := if_neg isUp
      rw [if_neg (by rw [absent]; exact Bool.false_ne_true)]
      exact
        { prepared := Nat.le_of_eq (congrArg Stage.rank prepares)
          down := fun _ => ⟨rfl, dynamic, le_rfl⟩
          up := fun rises => absurd rises isUp }

end

theorem keeps_of_copied (copied : Copied flow before record) :
    Keeps flow record (vbootPrepare flow before.storage record) := by
  by_cases starts : flow.startsInRomstage
  · by_cases separate : flow.separateVerstage
    · exact keeps_separate starts separate copied
    · exact keeps_integrated starts separate copied
  · exact keeps_early starts

theorem copied_of_selectedRegion (filled : ¬ (record.offset = 0 ∧ record.size = 0))
    (read : (vbootPrepare flow before.storage record).selectedRegion = some record) :
    Copied flow before record := by
  refine ⟨fun starts integrated dynamic => ?_, fun starts separate static copy found => ?_⟩
  · by_contra present
    obtain ⟨copy, found⟩ := Option.ne_none_iff_exists'.mp present
    rw [vbootPrepare, Flow.prepares, if_pos starts, if_pos ⟨rfl, dynamic⟩,
      recordRegion_integrated starts integrated, found, if_pos (by rfl)] at read
    dsimp only [Storage.cbmemFind, Storage.storeSelectedRegion, Storage.selectedRegion] at read
    rw [if_pos (before.dynamic_up dynamic)] at read
    cases read
    exact filled ⟨rfl, rfl⟩
  · rw [vbootPrepare, Flow.prepares, if_pos starts,
      if_neg (fun both => static both.2), recordRegion, Flow.verifies,
      if_pos separate, Storage.setSelectedRegion] at read
    dsimp only [Storage.selectedRegion, Storage.cbmemFind] at read
    rw [Storage.cbmemFind] at found
    rw [found] at read
    exact Option.some.inj read

/-- A record that is not empty is located from then on exactly if its copy is the
right one. -/
theorem located_iff {width : Nat} {region : Region width} (before : Before flow)
    (offset : region.offset.toNat < 2 ^ 32) (size : region.size.toNat < 2 ^ 32) :
    Located flow before region ↔
      ¬ (region.offset.toNat = 0 ∧ region.size.toNat = 0) ∧
        Copied flow before (recordOf region) := by
  have first : (recordOf region).offset.toNat = region.offset.toNat := by
    rw [recordOf, BitVec.toNat_ofNat, Nat.mod_eq_of_lt offset]
  have second : (recordOf region).size.toNat = region.size.toNat := by
    rw [recordOf, BitVec.toNat_ofNat, Nat.mod_eq_of_lt size]
  have empty_iff : (recordOf region).offset = 0 ∧ (recordOf region).size = 0 ↔
      region.offset.toNat = 0 ∧ region.size.toNat = 0 := by
    rw [← first, ← second]
    exact and_congr BitVec.toNat_eq BitVec.toNat_eq
  constructor
  · intro located
    obtain ⟨-, record, read, filled, same⟩ := vbootLocate_eq_some_iff.mp (located [])
    obtain ⟨sameOffset, sameSize⟩ := Prod.mk.inj same
    obtain rfl : record = recordOf region := by
      obtain ⟨recordOffset, recordSize⟩ := record
      rw [SelectedRegion.mk.injEq]
      exact ⟨BitVec.eq_of_toNat_eq (sameOffset.symm.trans first.symm),
        BitVec.eq_of_toNat_eq (sameSize.symm.trans second.symm)⟩
    exact ⟨fun empty => filled (empty_iff.mpr empty), copied_of_selectedRegion filled read⟩
  · rintro ⟨filled, copied⟩ ops
    have keeps := (keeps_of_copied copied).foldl ops
    refine vbootLocate_eq_some_iff.mpr ⟨keeps.vb2LogicExecuted, recordOf region,
      keeps.selectedRegion, fun empty => filled (empty_iff.mp empty), ?_⟩
    rw [first, second]

end Records

section Faithful

variable {width : Nat} {run : Run width} {slot : Slot width}
variable {region : Region width} {blocks : List (List Byte)}

/-- What is hashed is what is used exactly if everything that matters was
delivered, and the record is located. -/
theorem faithful_iff (wide : 32 ≤ width) (found : run.slot = some slot)
    (reached : verstageMain run = .selected region blocks) (flow : Flow) (before : Before flow) :
    Faithful run flow before slot region blocks ↔
      Delivered run slot ∧ Recorded run flow before slot := by
  obtain ⟨rfl, size, inside, hashed_iff⟩ :=
    hashBody_region wide (verstageMain_selected reached found)
  have recorded := @located_iff flow width
    ⟨slot.region.offset, BitVec.ofNat width (bodySize run slot)⟩ before
    slot.offset_lt (by rw [size]; exact BitVec.isLt _)
  rw [size] at recorded
  constructor
  · rintro ⟨hashed, -, -, -, located⟩
    obtain ⟨selected, copied⟩ := recorded.mp located
    exact ⟨hashed_iff.mp hashed, selected, copied⟩
  · rintro ⟨delivered, selected, copied⟩
    exact
      { hashed := hashed_iff.mpr delivered
        offset := rfl
        size := size
        inside := by
          have whole := slot.fits
          rw [Region.Fits] at whole
          refine ⟨le_rfl, ?_⟩
          simp only [size]
          omega
        located := recorded.mpr ⟨selected, copied⟩ }

end Faithful

def plainBoard : Board where
  chromeEc := false
  resumePathSameAsBoot := false
  startsInBootblock := true
  isResuming := 0
  savedHash := none
  extendPcrs := 0
  lockFirmware := 0
  hasRecHash := false
  lockRecHash := 0

/-- A library that accepts a body of zeros. -/
def zerosVboot (size : Nat) : Vboot where
  fwPhase1 := 0
  fwPhase2 := 0
  fwPhase3 := 0
  initHash := fun _ => (0, BitVec.ofNat 32 size)
  extendHash := fun _ _ => 0
  checkHash := fun blocks =>
    if blocks.flatten = List.replicate size 0 then (0, []) else (-1, [])

theorem zerosVboot_accepts {size : Nat} {blocks : List (List Byte)}
    (accepted : ((zerosVboot size).checkHash blocks).1 = 0) :
    blocks.flatten = List.replicate size 0 := by
  by_contra different
  simp only [zerosVboot, if_neg different] at accepted
  cases accepted

/-- A slot of two blocks at the start of the second page. -/
def smallSlot : Slot 32 where
  region := ⟨0x1000, 0x800⟩
  fits := by
    rw [Region.Fits]
    decide
  offset_lt := by decide
  size_lt := by decide

/-- A flow whose verification is a part of the bootblock, and a start without
CBMEM. -/
def bootblockFlow : Flow where
  startsInRomstage := false
  separateVerstage := false
  dynamicWorkBuffer := false
  dynamic_late := nofun

def coldStart : Before bootblockFlow where
  storage := ⟨.bootblock, false, ⟨0, 0⟩, none⟩
  dynamic_up := nofun
  early_down := nofun
  static_copied := nofun

/-- A body of two bytes that is read whole. -/
def wholeRun : Run 32 where
  vboot := zerosVboot 2
  board := plainBoard
  device := ⟨fun _ => 0, fun _ => some todoBlockSize⟩
  slot := some smallSlot
  stack := fun _ => 1

theorem faithful_wholeRun :
    Faithful wholeRun bootblockFlow coldStart smallSlot ⟨0x1000, 2⟩ [[0, 0]] :=
  (faithful_iff (by decide) rfl (by decide) bootblockFlow coldStart).mpr
    ⟨fun _ delivered _ read index late below =>
        absurd below (by
          obtain rfl := Option.some.inj read
          omega),
      { selected := by decide
        copied := ⟨nofun, nofun⟩ }⟩

/-- A body of a block of zeros and a one, whose last byte is not delivered. -/
def shortRun : Run 32 where
  vboot := zerosVboot 1025
  board := plainBoard
  device :=
    { contents := fun address => if address = 0x1400 then 1 else 0
      reads := fun count => if count = 0 then some todoBlockSize else some 0 }
  slot := some smallSlot
  stack := fun _ => 0

theorem verstageMain_shortRun :
    verstageMain shortRun = .selected ⟨0x1000, 1025⟩ [List.replicate 1024 0, [0]] := by
  decide +kernel

/-- A body can be accepted though a byte of it was not hashed: the byte of the block
before was hashed in its place. -/
theorem not_faithful_shortRun :
    ¬ ∀ (run : Run 32) (signed : List Byte),
      (∀ blocks, (run.vboot.checkHash blocks).1 = 0 → blocks.flatten = signed) →
        ∀ (flow : Flow) (before : Before flow) (slot : Slot 32)
          (region : Region 32) (blocks : List (List Byte)),
          run.slot = some slot →
            verstageMain run = .selected region blocks →
              Faithful run flow before slot region blocks := by
  intro claim
  have faithful := claim shortRun (List.replicate 1025 0)
    (fun _ accepted => zerosVboot_accepts accepted)
    bootblockFlow coldStart smallSlot _ _ rfl verstageMain_shortRun
  have last := congrArg (fun bytes => bytes.getLast?) faithful.hashed
  revert last
  decide +kernel

end Coreboot.VbootBody
