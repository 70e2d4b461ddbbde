import Coreboot.VbnvFlashRun

/-!
# Verified boot data after failures of the flash

An erase or a write of a save can fail. The save then returns with the old blob in its context.
-/

namespace Coreboot.VbnvFlash

open ByteMemory

/-- The end of an operation that changes the region: it has been done, or it has
failed and left some contents. -/
inductive Outcome where
  | success
  | failure (left : Memory)

/-- `erase_nvram` for the operations in front of the write, with the memory
that it leaves. -/
def eraseNvram (memory : Memory) (ops : List DeviceOp) (erase : Outcome) : Bool × Memory :=
  match ops, erase with
  | [], _ => (true, memory)
  | _ :: _, .success => (true, ops.foldl DeviceOp.apply memory)
  | _ :: _, .failure left => (false, left)

/-- `save_vbnv_flash`, when the erase and the write end so. -/
def attemptSave (width size : Nat) (ctx : Context) (memory : Memory)
    (vbnvCopy : List Byte) (erase write : Outcome) : Context × Memory :=
  match initIfNeeded width size ctx memory with
  | none => (ctx, memory)
  | some ctx =>
    -- Bail out if there have been no changes.
    if vbnvCopy = ctx.cache then (ctx, memory)
    else
      let (offset, ops) := newOffset size ctx vbnvCopy
      match eraseNvram memory ops erase with
      | (false, memory) => (ctx, memory)
      | (true, memory) =>
        if toSize width offset + blobSize ≤ size then
          match write with
          | .success =>
            ({ ctx with blobOffset := offset, cache := vbnvCopy },
              program memory (toSize width offset) vbnvCopy)
          | .failure left => (ctx, left)
        else (ctx, memory)

/-- The region starts erased.  Saves with allowed ends of their operations are
interleaved with reads and restarts. -/
inductive FaultyRun (width size : Nat)
    (allowed : Memory → List Byte → Outcome → Outcome → Prop) :
    Context → Memory → Prop
  | start {memory : Memory} (erased : ∀ a < size, memory a = eraseValue) :
      FaultyRun width size allowed cleared memory
  | restart {ctx : Context} {memory : Memory}
      (before : FaultyRun width size allowed ctx memory) :
      FaultyRun width size allowed cleared memory
  | read {ctx ctx' : Context} {memory : Memory} {copy : List Byte}
      (before : FaultyRun width size allowed ctx memory)
      (read : readVbnvFlash width size ctx memory = some (ctx', copy)) :
      FaultyRun width size allowed ctx' memory
  | save {ctx ctx' : Context} {memory memory' : Memory} {copy : List Byte}
      {erase write : Outcome}
      (before : FaultyRun width size allowed ctx memory)
      (length : copy.length = blobSize)
      (meets : allowed memory copy erase write)
      (save : attemptSave width size ctx memory copy erase write = (ctx', memory')) :
      FaultyRun width size allowed ctx' memory'

/-- The cache is the blob at the offset, everything above it is erased, and a
blob that is saved next is read after a restart. -/
structure Coherent (width size : Nat) (ctx : Context) (memory : Memory) :
    Prop where
  cache : ctx.initialized = true → load memory (toSize width ctx.blobOffset) blobSize = ctx.cache
  erased : ctx.initialized = true →
    ∀ a, toSize width ctx.blobOffset + blobSize ≤ a → a < size → memory a = eraseValue
  recovers : ∀ copy : List Byte, copy.length = blobSize → copy ≠ emptyBlob →
    ∃ current, readVbnvFlash width size cleared
      (attemptSave width size ctx memory copy .success .success).2 = some (current, copy)

/-- A failure leaves the region as it was. -/
def Outcome.Harmless (size : Nat) (memory : Memory) : Outcome → Prop
  | .success => True
  | .failure left => ∀ a < size, left a = memory a

/-- The blob is not all ones, and an operation that fails leaves the region as
it was before the save. -/
def Careful (size : Nat) (memory : Memory) (copy : List Byte) (erase write : Outcome) : Prop :=
  copy ≠ emptyBlob ∧ erase.Harmless size memory ∧ write.Harmless size memory

variable {width size : Nat} {memory : Memory} {last copy : List Byte} {blob : Nat} {ctx : Context}

theorem Holds.congr (holds : Holds size memory last blob) {left : Memory}
    (same : ∀ a < size, left a = memory a) : Holds size left last blob := by
  have loads (other : Nat) (upTo : other ≤ blob) :
      load left (other * blobSize) blobSize = load memory (other * blobSize) blobSize := by
    have inside : (blob + 1) * 16 ≤ size := holds.inside
    refine load_congr fun a _ above => same a ?_
    have end' : a < other * 16 + 16 := above
    omega
  refine { holds with
    current := ?_
    used := fun other first upTo => ?_
    erased := fun a above below => ?_ }
  · rw [loads blob le_rfl, holds.current]
  · rw [loads other upTo]
    exact holds.used other first upTo
  · rw [same a below, holds.erased a above below]

theorem newOffset_ops (ctx : Context) (copy : List Byte) :
    (newOffset size ctx copy).2 = [] ∨ (newOffset size ctx copy).2 = [.eraseat 0 size] := by
  rw [newOffset]
  split
  · exact .inl rfl
  · simp only
    split
    · exact .inr rfl
    · exact .inl rfl

theorem attemptSave_success :
    attemptSave width size ctx memory copy .success .success =
      ((saveVbnvFlash width size ctx memory copy).1,
        (saveVbnvFlash width size ctx memory copy).2.foldl DeviceOp.apply memory) := by
  rw [attemptSave, saveVbnvFlash]
  cases initIfNeeded width size ctx memory with
  | none => rfl
  | some ready =>
    simp only
    by_cases same : copy = ready.cache
    · rw [if_pos same, if_pos same]
      rfl
    · rw [if_neg same, if_neg same]
      have ops := @newOffset_ops size ready copy
      generalize newOffset size ready copy = chosen at ops ⊢
      obtain ⟨offset, erases⟩ := chosen
      obtain rfl | rfl : erases = [] ∨ erases = [.eraseat 0 size] := ops
      all_goals
        simp only [eraseNvram]
        split_ifs <;> rfl

/-- A save ends as one without a failure, or with the old context and what the
failure has left. -/
theorem attemptSave_cases (erase write : Outcome) :
    attemptSave width size ctx memory copy erase write =
        attemptSave width size ctx memory copy .success .success ∨
      ∃ left ready, (erase = .failure left ∨ write = .failure left) ∧
        initIfNeeded width size ctx memory = some ready ∧
        attemptSave width size ctx memory copy erase write = (ready, left) := by
  rw [attemptSave, attemptSave]
  cases init : initIfNeeded width size ctx memory with
  | none => exact .inl rfl
  | some ready =>
    simp only
    by_cases same : copy = ready.cache
    · rw [if_pos same, if_pos same]
      exact .inl rfl
    · rw [if_neg same, if_neg same]
      have ops := @newOffset_ops size ready copy
      generalize newOffset size ready copy = chosen at ops ⊢
      obtain ⟨offset, erases⟩ := chosen
      obtain rfl | rfl : erases = [] ∨ erases = [.eraseat 0 size] := ops
      · simp only [eraseNvram]
        split_ifs
        · cases write with
          | success => exact .inl rfl
          | failure left => exact .inr ⟨left, ready, .inr rfl, rfl, rfl⟩
        · exact .inl rfl
      · cases erase with
        | failure left => exact .inr ⟨left, ready, .inl rfl, rfl, rfl⟩
        | success =>
          simp only [eraseNvram]
          split_ifs
          · cases write with
            | success => exact .inl rfl
            | failure left => exact .inr ⟨left, ready, .inr rfl, rfl, rfl⟩
          · exact .inl rfl

section Save

variable (wide : 32 ≤ width) (small : size < 4294967296)
  (bounded : size < 2147483648 ∨ 2147483664 ≤ size)

include wide small bounded

theorem Holds.attemptSave_success (holds : Holds size memory last blob)
    (knows : Knows size last blob ctx) (length : copy.length = blobSize)
    (filled : copy ≠ emptyBlob) :
    ∃ next, (attemptSave width size ctx memory copy .success .success).1 =
        contextAt size copy next ∧
      Holds size
        (attemptSave width size ctx memory copy .success .success).2 copy
        next := by
  obtain ⟨next, ops, saved, stored, -⟩ := holds.save wide small knows length filled bounded
  rw [VbnvFlash.attemptSave_success, saved]
  exact ⟨next, rfl, stored⟩

theorem FaultyRun.holds (large : blobSize ≤ size)
    (run : FaultyRun width size (Careful size) ctx memory) :
    ∃ last blob, Holds size memory last blob ∧ Knows size last blob ctx := by
  induction run with
  | @start memory erased =>
    obtain ⟨blob, holds, knows⟩ := (Run.start erased).holds wide large small bounded
    exact ⟨emptyBlob, blob, holds, knows⟩
  | restart _ ih =>
    obtain ⟨last, blob, holds, -⟩ := ih
    exact ⟨last, blob, holds, fun ready => absurd ready (by decide)⟩
  | read _ read ih =>
    obtain ⟨last, blob, holds, knows⟩ := ih
    rw [readVbnvFlash, holds.initIfNeeded wide small knows, Option.map_some] at read
    obtain ⟨rfl, -⟩ := Prod.mk.inj (Option.some.inj read)
    exact ⟨last, blob, holds, fun _ => rfl⟩
  | @save ctx ctx' memory memory' copy erase write _ length meets save ih =>
    obtain ⟨last, blob, holds, knows⟩ := ih
    obtain ⟨filled, eraseHarmless, writeHarmless⟩ := meets
    rcases @attemptSave_cases width size memory copy ctx erase write with
      same | ⟨left, ready, failed, init, result⟩
    · obtain ⟨next, context, stored⟩ := holds.attemptSave_success wide small
        bounded knows length filled
      rw [same] at save
      rw [save] at context stored
      exact ⟨copy, next, stored, fun _ => context⟩
    · have unchanged : ∀ a < size, left a = memory a := by
        rcases failed with rfl | rfl
        · exact eraseHarmless
        · exact writeHarmless
      rw [result] at save
      cases save
      rw [holds.initIfNeeded wide small knows] at init
      cases init
      exact ⟨last, blob, holds.congr unchanged, fun _ => rfl⟩

end Save

/-- If the region does not end within the first blob above 2 GiB, the context
describes the flash in every run of careful saves. -/
theorem coherent_of_carefulRun (wide : 32 ≤ width) (large : blobSize ≤ size) (small : size < 2 ^ 32)
    (bounded : ¬ (2 ^ 31 ≤ size ∧ size < 2 ^ 31 + blobSize))
    (run : FaultyRun width size (Careful size) ctx memory) : Coherent width size ctx memory := by
  have sides : size < 2147483648 ∨ 2147483664 ≤ size :=
    (Nat.lt_or_ge size 2147483648).imp_right fun lower =>
      not_lt.mp fun upper => bounded ⟨lower, upper⟩
  obtain ⟨last, blob, holds, knows⟩ := run.holds wide small sides large
  refine
    { cache := fun ready => ?_
      erased := fun ready a above below => ?_
      recovers := fun copy length filled => ?_ }
  · rw [knows ready]
    change load memory (toSize width (blob * blobSize : Nat)) blobSize = last
    rw [toSize_natCast wide holds.offset_lt, holds.current]
  · rw [knows ready] at above
    change toSize width (blob * blobSize : Nat) + blobSize ≤ a at above
    rw [toSize_natCast wide holds.offset_lt, ← Nat.succ_mul] at above
    exact holds.erased a above below
  · obtain ⟨next, -, stored⟩ := holds.attemptSave_success wide small sides knows length filled
    refine ⟨contextAt size copy next, ?_⟩
    rw [readVbnvFlash, initIfNeeded, if_neg (by decide), stored.initVbnv wide small]
    rfl

def firstSave (size : Nat) : Context × Memory :=
  attemptSave 32 size cleared (fun _ => eraseValue) (alternate 0) .success .success

theorem coherent_firstSave : Coherent 32 4096 (firstSave 4096).1 (firstSave 4096).2 := by
  have meets : Careful 4096 (fun _ => eraseValue) (alternate 0) .success
      .success := ⟨by decide, trivial, trivial⟩
  have run : FaultyRun 32 4096 (Careful 4096) (firstSave 4096).1 (firstSave 4096).2 :=
    (FaultyRun.start fun _ _ => rfl).save (by decide) meets rfl
  exact coherent_of_carefulRun (by decide) (by decide) (by decide) (by decide) run

/-- A save into a region of one blob that holds another one.  Its write fails
behind the erase and leaves the region erased. -/
def failedSave : Context × Memory :=
  attemptSave 32 16 (firstSave 16).1 (firstSave 16).2 (alternate 1) .success
    (.failure fun _ => eraseValue)

theorem not_coherent_failedSave :
    ¬ ∀ width size : Nat, 32 ≤ width → blobSize ≤ size → size < 2 ^ 32 →
      ∀ ctx memory,
        FaultyRun width size (fun _ copy _ _ => copy ≠ emptyBlob) ctx memory →
        Coherent width size ctx memory := by
  intro claim
  have saved : attemptSave 32 16 cleared (fun _ => eraseValue) (alternate 0)
      .success .success = ((firstSave 16).1, (firstSave 16).2) := rfl
  have first : FaultyRun 32 16 (fun _ copy _ _ => copy ≠ emptyBlob)
      (firstSave 16).1 (firstSave 16).2 :=
    (FaultyRun.start fun _ _ => rfl).save (by decide) (by decide) saved
  have failed : attemptSave 32 16 (firstSave 16).1 (firstSave 16).2
      (alternate 1) .success (.failure fun _ => eraseValue) = (failedSave.1, failedSave.2) := rfl
  have second : FaultyRun 32 16 (fun _ copy _ _ => copy ≠ emptyBlob) failedSave.1 failedSave.2 :=
    first.save (by decide) (by decide) failed
  have coherent := claim 32 16 (by decide) (by decide) (by decide) _ _ second
  exact absurd (coherent.cache (by decide)) (by decide)

end Coreboot.VbnvFlash
