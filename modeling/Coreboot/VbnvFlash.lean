import Coreboot.ByteMemory

/-!
# Verified boot data in flash

Blobs of 16 bytes are appended to a flash region, and the last one that is not erased is the
current one. A save that only clears bits overwrites it; another one goes to the next blob, and
to the first one after an erase when the region is full. Offsets are `int`.
-/

namespace Coreboot.VbnvFlash

open ByteMemory

def blobSize : Nat := 16

def toInt (value : Int) : Int := Int.bmod value (2 ^ 32)

/-- An `int` as a `size_t`. -/
def toSize (width : Nat) (value : Int) : Nat := (value % (2 ^ width : Nat)).toNat

/-- `struct vbnv_flash_ctx`, without its region device. -/
structure Context where
  initialized : Bool
  blobOffset : Int
  topOffset : Int
  cache : List Byte
deriving DecidableEq, Repr

/-- The context before the first use after a restart. -/
def cleared : Context := ⟨false, 0, 0, List.replicate blobSize 0⟩

def eraseValue : Byte := 0xff

def canOverwrite (current new : Byte) : Bool := current &&& new == new

def emptyBlob : List Byte := List.replicate blobSize eraseValue

/-- An operation that changes the region. -/
inductive DeviceOp where
  | writeat (offset : Nat) (bytes : List Byte)
  | eraseat (offset size : Nat)
deriving DecidableEq, Repr

/-- Writes clear bits, and erasing sets them. -/
def DeviceOp.apply (memory : Memory) : DeviceOp → Memory
  | writeat offset bytes => program memory offset bytes
  | eraseat offset size => fill memory offset size eraseValue

section Functions

variable (width size : Nat)

/-- `rdev_readat` of a blob. -/
def readBlob (memory : Memory) (offset : Int) : Option (List Byte) :=
  if toSize width offset + blobSize ≤ size then
    some (load memory (toSize width offset) blobSize)
  else none

/-- The binary search of `init_vbnv` for the border between used and empty. -/
def searchBorder (memory : Memory) : Nat → Int → Int → Option Int
  | 0, _, _ => none
  | fuel + 1, usedBelow, emptyAbove =>
    if usedBelow + 1 < emptyAbove then
      let guess := toInt (usedBelow + emptyAbove) / 2
      match readBlob width size memory (toInt (guess * blobSize)) with
      | none => none
      | some buf =>
        if buf = emptyBlob then searchBorder memory fuel usedBelow guess
        else searchBorder memory fuel guess emptyAbove
    else some usedBelow

def initVbnv (memory : Memory) : Option Context :=
  if size < blobSize then none
  else
    let topOffset := toInt (size - blobSize)
    match searchBorder width size memory (size + 1) 0 (toInt (size / blobSize : Nat)) with
    | none => none
    | some usedBelow =>
      -- The last blob that is not empty, or the first one.
      let offset := toInt (usedBelow * blobSize)
      (readBlob width size memory offset).map fun cache =>
        ⟨true, offset, topOffset, cache⟩

/-- The initialization at the start of a read or a save. -/
def initIfNeeded (ctx : Context) (memory : Memory) : Option Context :=
  if ctx.initialized then some ctx else initVbnv width size memory

def readVbnvFlash (ctx : Context) (memory : Memory) : Option (Context × List Byte) :=
  (initIfNeeded width size ctx memory).map fun ctx => (ctx, ctx.cache)

def newOffset (ctx : Context) (vbnvCopy : List Byte) : Int × List DeviceOp :=
  if (ctx.cache.zip vbnvCopy).all fun (current, new) =>
      canOverwrite current new then
    (ctx.blobOffset, [])
  else
    -- Unable to overwrite: use the next blob.
    let next := toInt (ctx.blobOffset + blobSize)
    if next > ctx.topOffset then (0, [.eraseat 0 size]) else (next, [])

/-- `save_vbnv_flash`, with the operations that it issues. -/
def saveVbnvFlash (ctx : Context) (memory : Memory) (vbnvCopy : List Byte) :
    Context × List DeviceOp :=
  match initIfNeeded width size ctx memory with
  | none => (ctx, [])
  | some ctx =>
    if vbnvCopy = ctx.cache then (ctx, [])
    else
      let (offset, ops) := newOffset size ctx vbnvCopy
      if toSize width offset + blobSize ≤ size then
        ({ ctx with blobOffset := offset, cache := vbnvCopy },
          ops ++ [.writeat (toSize width offset) vbnvCopy])
      else (ctx, ops)

end Functions

/-- The region starts erased, and saves of blobs that are not all ones are
interleaved with reads and restarts.  The run ends with the last blob that was
saved, which is empty at the start. -/
inductive Run (width size : Nat) : Context → Memory → List Byte → Prop
  | start {memory : Memory} (erased : ∀ a < size, memory a = eraseValue) :
      Run width size cleared memory emptyBlob
  | restart {ctx : Context} {memory : Memory} {last : List Byte}
      (before : Run width size ctx memory last) :
      Run width size cleared memory last
  | read {ctx ctx' : Context} {memory : Memory} {last copy : List Byte}
      (before : Run width size ctx memory last)
      (read : readVbnvFlash width size ctx memory = some (ctx', copy)) :
      Run width size ctx' memory last
  | save {ctx ctx' : Context} {memory : Memory} {last copy : List Byte}
      {ops : List DeviceOp} (before : Run width size ctx memory last)
      (length : copy.length = blobSize) (used : copy ≠ emptyBlob)
      (save : saveVbnvFlash width size ctx memory copy = (ctx', ops)) :
      Run width size ctx' (ops.foldl DeviceOp.apply memory) copy

/-- Every write clears bits of the current blob only, or goes to an erased
blob. -/
def Justified (current : Int) : Memory → List DeviceOp → Prop
  | _, [] => True
  | memory, .eraseat offset size :: ops =>
    Justified current ((DeviceOp.eraseat offset size).apply memory) ops
  | memory, .writeat offset bytes :: ops =>
    bytes.length = blobSize ∧
      ((offset : Int) = current ∧
          List.Forall₂ (fun current new => current &&& new = new)
            (load memory offset blobSize) bytes ∨
        load memory offset blobSize = emptyBlob) ∧
      Justified current ((DeviceOp.writeat offset bytes).apply memory) ops

/-- The store returns the last saved blob, the blobs above the current one are
erased, and the next save is justified. -/
structure Correct (width size : Nat) (ctx : Context) (memory : Memory)
    (last : List Byte) (current : Context) : Prop where
  read : readVbnvFlash width size ctx memory = some (current, last)
  erased : ∀ blob : Nat, current.blobOffset < (blob * blobSize : Nat) →
    (blob + 1) * blobSize ≤ size → load memory (blob * blobSize) blobSize = emptyBlob
  justified : ∀ copy : List Byte, copy.length = blobSize → copy ≠ emptyBlob →
    Justified current.blobOffset memory (saveVbnvFlash width size ctx memory copy).2

end Coreboot.VbnvFlash
