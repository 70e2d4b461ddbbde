import Coreboot.ByteMemory
import Coreboot.RegionDevice

/-!
# Verified boot

The verification stage looks up a slot of the boot device, hashes as many of its bytes as the
signed preamble says, block by block, and records the region when the hash matches.
-/

namespace Coreboot.VbootBody

open ByteMemory RegionDevice

/-- A slot: an area of the boot device, whose fields in the flashmap have 32
bits. -/
structure Slot (width : Nat) where
  region : Region width
  fits : region.Fits
  offset_lt : region.offset.toNat < 2 ^ 32
  size_lt : region.size.toNat < 2 ^ 32

/-- The boot device: its contents, and what the reads of the body deliver, which
is nothing after an error. -/
structure BootDevice where
  contents : Memory
  reads : Nat → Option Nat

/-- The library of verified boot: the values its functions return.  The hash
depends on the blocks it was extended with. -/
structure Vboot where
  fwPhase1 : Int
  fwPhase2 : Int
  fwPhase3 : Int
  initHash : BitVec 32 → Int × BitVec 32
  extendHash : List (List Byte) → List Byte → Int
  checkHash : List (List Byte) → Int × List Byte

/-- The platform: how it resumes, and what the TPM and the EC answer. -/
structure Board where
  chromeEc : Bool
  resumePathSameAsBoot : Bool
  startsInBootblock : Bool
  isResuming : Int
  savedHash : Option (List Byte)
  extendPcrs : Int
  lockFirmware : Int
  hasRecHash : Bool
  lockRecHash : Int

/-- A run of the verification: where it takes place, and what is on the stack
where the block is. -/
structure Run (width : Nat) where
  vboot : Vboot
  board : Board
  device : BootDevice
  slot : Option (Slot width)
  stack : Memory

def todoBlockSize : Nat := 1024

def vb2ErrorUnknown : Int := 0x10000001

def handleDigestResult (board : Board) (digest : List Byte) : Int :=
  if ¬ board.chromeEc ∨ ¬ board.resumePathSameAsBoot ∨ ¬ board.startsInBootblock then 0
  else if board.isResuming > 0 then
    match board.savedHash with
    | none => -1
    | some saved => if saved ≠ digest then -1 else 0
  -- Errors of saving the hash are not reported.
  else 0

/-- The state of the loop over the body. -/
structure Hashing where
  remaining : Nat
  offset : Nat
  blockSize : Nat
  block : Memory
  count : Nat
  blocks : List (List Byte)

def Hashing.nextSize (state : Hashing) : Nat :=
  if state.blockSize > state.remaining then state.remaining else state.blockSize

/-- `rdev_readat` of a part of a region into the block: the bytes that are
delivered replace what is there. -/
def readBlock {width : Nat} (device : BootDevice) (region : Region width)
    (state : Hashing) : Option Memory :=
  match normalizeAndOk region ⟨BitVec.ofNat width state.offset,
      BitVec.ofNat width state.blockSize⟩ with
  | none => none
  | some req =>
    (device.reads state.count).map fun delivered index =>
      if index < delivered ∧ index < state.blockSize then
        device.contents (req.offset.toNat + index)
      else state.block index

/-- The loop of `hash_body`, of at most as many turns as there are bytes. -/
def hashLoop {width : Nat} (vboot : Vboot) (device : BootDevice)
    (region : Region width) : Nat → Hashing → Int × List (List Byte)
  | 0, state => (0, state.blocks)
  | turns + 1, state =>
    if state.remaining = 0 then (0, state.blocks)
    else
      match readBlock device region { state with blockSize := state.nextSize } with
      | none => (vb2ErrorUnknown, state.blocks)
      | some block =>
        let bytes := load block 0 state.nextSize
        let rv := vboot.extendHash state.blocks bytes
        if rv ≠ 0 then (rv, state.blocks)
        else
          hashLoop vboot device region turns
            { remaining := state.remaining - state.nextSize
              offset := state.offset + state.nextSize
              blockSize := state.nextSize
              block
              count := state.count + 1
              blocks := state.blocks ++ [bytes] }

/-- `hash_body`: the value it returns, the region it leaves and the blocks it
hashed. -/
def hashBody {width : Nat} (run : Run width) (fwMain : Region width) :
    Int × Region width × List (List Byte) :=
  let (rv, expectedSize) := run.vboot.initHash (BitVec.ofNat 32 fwMain.size.toNat)
  if rv ≠ 0 then (rv, fwMain, [])
  else
    match normalizeAndOk fwMain ⟨0, BitVec.ofNat width expectedSize.toNat⟩ with
    | none => (vb2ErrorUnknown, fwMain, [])
    | some region =>
      let (rv, blocks) := hashLoop run.vboot run.device region
        expectedSize.toNat ⟨expectedSize.toNat, 0, todoBlockSize, run.stack, 0, []⟩
      if rv ≠ 0 then (rv, region, blocks)
      else
        let (rv, digest) := run.vboot.checkHash blocks
        if rv ≠ 0 then (rv, region, blocks)
        else if handleDigestResult run.board digest ≠ 0 then
          (vb2ErrorUnknown, region, blocks)
        else (0, region, blocks)

/-- What `verstage_main` comes to. -/
inductive Ending (width : Nat) where
  | recovery
  | rebooted
  | died
  | selected (region : Region width) (blocks : List (List Byte))
deriving DecidableEq

def vb2ErrorApiPhase1Recovery : Int := 0x1009000e

def verstageMain {width : Nat} (run : Run width) : Ending width :=
  if run.vboot.fwPhase1 = vb2ErrorApiPhase1Recovery then .recovery
  else if run.vboot.fwPhase1 ≠ 0 then .rebooted
  else if run.vboot.fwPhase2 ≠ 0 then .rebooted
  else if run.vboot.fwPhase3 ≠ 0 then .rebooted
  else
    match run.slot with
    | none => .died
    | some slot =>
      let (rv, region, blocks) := hashBody run slot.region
      if rv ≠ 0 then .rebooted
      else if run.board.extendPcrs ≠ 0 then .rebooted
      else if run.board.lockFirmware ≠ 0 then .rebooted
      else if run.board.hasRecHash ∧ run.board.lockRecHash ≠ 0 then .rebooted
      else .selected region blocks

inductive Stage where
  | bootblock
  | verstage
  | romstage
  | postcar
  | ramstage
deriving DecidableEq, Repr

def Stage.rank : Stage → Nat
  | .bootblock => 0
  | .verstage => 1
  | .romstage => 2
  | .postcar => 3
  | .ramstage => 4

/-- How verification is built in; a separate stage returns to the one that loaded
it.  A work buffer in CBMEM requires that it starts in romstage. -/
structure Flow where
  startsInRomstage : Bool
  separateVerstage : Bool
  dynamicWorkBuffer : Bool
  dynamic_late : dynamicWorkBuffer → startsInRomstage

structure SelectedRegion where
  offset : BitVec 32
  size : BitVec 32
deriving DecidableEq, Repr

/-- The region of the work buffer, whether CBMEM is up, and the copy of the region
in its memory. -/
structure Storage where
  stage : Stage
  up : Bool
  workBuffer : SelectedRegion
  selReg : Option SelectedRegion
deriving DecidableEq, Repr

namespace Storage

def cbmemFind (storage : Storage) : Option SelectedRegion :=
  if storage.up then storage.selReg else none

/-- `vb2_selected_region`: the region that is read. -/
def selectedRegion (storage : Storage) : Option SelectedRegion :=
  match storage.stage with
  | .ramstage | .postcar => storage.cbmemFind
  | .romstage => some (storage.cbmemFind.getD storage.workBuffer)
  | .bootblock | .verstage => some storage.workBuffer

/-- `vb2_set_selected_region`, into the same object; only the stages that verify
call it. -/
def setSelectedRegion (storage : Storage) (region : SelectedRegion) : Storage :=
  match storage.stage with
  | .ramstage | .postcar => { storage with selReg := some region }
  | .romstage =>
    if storage.cbmemFind.isSome then { storage with selReg := some region }
    else { storage with workBuffer := region }
  | .bootblock | .verstage => { storage with workBuffer := region }

def storeSelectedRegion (storage : Storage) : Storage :=
  { storage with selReg := some storage.workBuffer }

end Storage

namespace Flow

def verifies (flow : Flow) : Stage :=
  if flow.separateVerstage then .verstage
  else if flow.startsInRomstage then .romstage
  else .bootblock

/-- The stage in which `vboot_prepare` runs. -/
def prepares (flow : Flow) : Stage := if flow.startsInRomstage then .romstage else .bootblock

end Flow

/-- `verstage_main` clears the work buffer and records the region. -/
def recordRegion (flow : Flow) (before : Storage) (region : SelectedRegion) : Storage :=
  { before with stage := flow.verifies, workBuffer := ⟨0, 0⟩ }.setSelectedRegion region

def vbootPrepare (flow : Flow) (before : Storage) (region : SelectedRegion) : Storage :=
  let storage := { recordRegion flow before region with stage := flow.prepares }
  if storage.stage = .romstage ∧ flow.dynamicWorkBuffer then
    storage.storeSelectedRegion
  else storage

/-- What happens after the verification: CBMEM comes up in romstage, new or
recovered, or a later stage starts, for those with RAM after CBMEM came up. -/
inductive Later where
  | cbmemUp (isRecovery : Bool)
  | enter (stage : Stage)
deriving DecidableEq, Repr

def Storage.later (flow : Flow) (storage : Storage) : Later → Storage
  | .cbmemUp isRecovery =>
    if storage.stage = .romstage ∧ ¬ storage.up then
      let up :=
        { storage with
          up := true, selReg := if isRecovery then storage.selReg else none }
      if flow.dynamicWorkBuffer then up else up.storeSelectedRegion
    else storage
  | .enter stage =>
    if storage.stage.rank < stage.rank ∧ (stage.rank ≤ Stage.romstage.rank ∨ storage.up) then
      { storage with stage := stage }
    else storage

def vb2LogicExecuted (flow : Flow) (stage : Stage) (executed : Bool) : Bool :=
  (stage == flow.prepares && executed) ||
    (stage != .bootblock && (! flow.startsInRomstage || stage != .romstage))

/-- `vboot_locate`: the offset and the size of the region. -/
def vbootLocate (flow : Flow) (storage : Storage) : Option (Nat × Nat) :=
  if ¬ vb2LogicExecuted flow storage.stage true then none
  else
    match storage.selectedRegion with
    | none => none
    | some region =>
      if region.offset = 0 ∧ region.size = 0 then none
      else some (region.offset.toNat, region.size.toNat)

end Coreboot.VbootBody
