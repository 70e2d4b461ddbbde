import Coreboot.RegionFileCrash

/-!
# The memory training cache

The training data of a boot are stashed in CBMEM behind a header, copied to a region file of the
boot medium in ramstage, and found there by the next boot. The slot of the region file is rounded
to blocks, and the header trims it back.
-/

namespace Coreboot.Mrc

open ByteMemory Regf

/-- The loop of `compute_ip_checksum` from byte `i` on. -/
def checksumFrom (i sum : Nat) : List Byte → Nat
  | [] => sum
  | byte :: rest =>
    let v := if i % 2 = 1 then byte.toNat * 2 ^ 8 else byte.toNat
    let sum := sum + v
    -- Wrap around the carry.
    let sum := if sum > 0xffff then (sum + sum / 2 ^ 16) % 2 ^ 16 else sum
    checksumFrom (i + 1) sum rest

def computeIpChecksum (bytes : List Byte) : Nat := 0xffff - checksumFrom 0 0 bytes % 2 ^ 16

theorem computeIpChecksum_lt (bytes : List Byte) : computeIpChecksum bytes < 2 ^ 16 := by
  rw [computeIpChecksum]
  omega

def mrcDataSignature : Nat := 0x4443524d

structure MrcMetadata where
  signature : Nat
  dataSize : Nat
  dataChecksum : Nat
  headerChecksum : Nat
  version : Nat
deriving DecidableEq, Repr

def MrcMetadata.bytes (md : MrcMetadata) : List Byte :=
  encodeLE 4 md.signature ++ (encodeLE 4 md.dataSize ++
    (encodeLE 2 md.dataChecksum ++ (encodeLE 2 md.headerChecksum ++ encodeLE 4 md.version)))

def mrcMetadataOfBytes (bytes : List Byte) : MrcMetadata where
  signature := decodeLE (bytes.take 4)
  dataSize := decodeLE ((bytes.drop 4).take 4)
  dataChecksum := decodeLE ((bytes.drop 8).take 2)
  headerChecksum := decodeLE ((bytes.drop 10).take 2)
  version := decodeLE ((bytes.drop 12).take 4)

/-- The fields are in the range of their types. -/
structure MrcMetadata.Valid (md : MrcMetadata) : Prop where
  signature : md.signature < 2 ^ 32
  dataSize : md.dataSize < 2 ^ 32
  dataChecksum : md.dataChecksum < 2 ^ 16
  headerChecksum : md.headerChecksum < 2 ^ 16
  version : md.version < 2 ^ 32

@[simp]
theorem MrcMetadata.length_bytes (md : MrcMetadata) : md.bytes.length = 16 := by
  simp only [bytes, List.length_append, length_encodeLE]

theorem MrcMetadata.Valid.ofBytes {md : MrcMetadata} (valid : md.Valid) :
    mrcMetadataOfBytes md.bytes = md := by
  obtain ⟨signature, dataSize, dataChecksum, headerChecksum, version⟩ := valid
  have four (number : Nat) (rest : List Byte) :
      (encodeLE 4 number ++ rest).take 4 = encodeLE 4 number :=
    List.take_left' (length_encodeLE 4 number)
  have two (number : Nat) (rest : List Byte) :
      (encodeLE 2 number ++ rest).take 2 = encodeLE 2 number :=
    List.take_left' (length_encodeLE 2 number)
  have skipFour (number skip : Nat) (rest : List Byte) :
      (encodeLE 4 number ++ rest).drop (4 + skip) = rest.drop skip := by
    rw [← List.drop_drop, List.drop_left' (length_encodeLE 4 number)]
  have skipTwo (number skip : Nat) (rest : List Byte) :
      (encodeLE 2 number ++ rest).drop (2 + skip) = rest.drop skip := by
    rw [← List.drop_drop, List.drop_left' (length_encodeLE 2 number)]
  have last : (encodeLE 4 md.version).take 4 = encodeLE 4 md.version :=
    List.take_of_length_le (by rw [length_encodeLE])
  have atSize : md.bytes.drop 4 = _ := skipFour md.signature 0 _
  have atData : md.bytes.drop 8 = _ := (skipFour md.signature 4 _).trans (skipFour md.dataSize 0 _)
  have atHeader : md.bytes.drop 10 = _ :=
    (skipFour md.signature 6 _).trans
      ((skipFour md.dataSize 2 _).trans (skipTwo md.dataChecksum 0 _))
  have atVersion : md.bytes.drop 12 = _ :=
    (skipFour md.signature 8 _).trans
      ((skipFour md.dataSize 4 _).trans
        ((skipTwo md.dataChecksum 2 _).trans (skipTwo md.headerChecksum 0 _)))
  rw [mrcMetadataOfBytes, atSize, atData, atHeader, atVersion]
  simp only [List.drop_zero]
  rw [bytes, four, four, two, two, last]
  simp only [decodeLE_encodeLE, show 256 ^ 4 = 2 ^ 32 from rfl, show 256 ^ 2 = 2 ^ 16 from rfl]
  rw [Nat.mod_eq_of_lt signature, Nat.mod_eq_of_lt dataSize, Nat.mod_eq_of_lt dataChecksum,
    Nat.mod_eq_of_lt headerChecksum, Nat.mod_eq_of_lt version]

/-- The header that `mrc_cache_stash_data` writes: its checksum is computed
with zero in its own place. -/
def stashedMetadata (version : BitVec 32) (data : List Byte) : MrcMetadata :=
  let md : MrcMetadata :=
    { signature := mrcDataSignature
      dataSize := data.length % 2 ^ 32
      dataChecksum := computeIpChecksum data
      headerChecksum := 0
      version := version.toNat }
  { md with headerChecksum := computeIpChecksum md.bytes }

theorem stashedMetadata_valid (version : BitVec 32) (data : List Byte) :
    (stashedMetadata version data).Valid where
  signature := show mrcDataSignature < 2 ^ 32 by decide
  dataSize := Nat.mod_lt _ (by decide)
  dataChecksum := computeIpChecksum_lt _
  headerChecksum := computeIpChecksum_lt _
  version := version.isLt

def stashedBytes (version : BitVec 32) (data : List Byte) : List Byte :=
  (stashedMetadata version data).bytes ++ data

@[simp]
theorem length_stashedBytes (version : BitVec 32) (data : List Byte) :
    (stashedBytes version data).length = 16 + data.length := by
  rw [stashedBytes, List.length_append, MrcMetadata.length_bytes]

def normalFlag : Nat := 1

def recoveryFlag : Nat := 2

structure CacheRegion where
  name : String
  cbmemId : Nat
  kind : Int
  flags : Nat
deriving DecidableEq, Repr

/-- What the configuration and the flash map of a board say. -/
structure Board where
  fmapLocateArea : String → Option Region
  hasRecoveryMrcCache : Bool
  chromeos : Bool
  bootDeviceMemoryMapped : Bool
  romSize : Nat
  mrcSettingsCacheBase : Nat
  mrcSettingsCacheSize : Nat

def mrcTrainingData : Int := 0

def mrcVariableData : Int := 1

def recoveryTraining (board : Board) : CacheRegion where
  name := "RECOVERY_MRC_CACHE"
  cbmemId := 0x4d524344
  kind := mrcTrainingData
  flags := if board.hasRecoveryMrcCache then recoveryFlag else 0

def normalTraining : CacheRegion where
  name := "RW_MRC_CACHE"
  cbmemId := 0x4d524344
  kind := mrcTrainingData
  flags := normalFlag ||| recoveryFlag

def variableData : CacheRegion where
  name := "RW_VAR_MRC_CACHE"
  cbmemId := 0x4d524345
  kind := mrcVariableData
  flags := normalFlag ||| recoveryFlag

/-- Order matters here for priority in matching. -/
def cacheRegions (board : Board) : List CacheRegion :=
  [recoveryTraining board, normalTraining, variableData]

def lookupRegionByName (board : Board) (name : String) : Option Region :=
  match board.fmapLocateArea name with
  | some r => some r
  | none =>
    if board.chromeos then none
    else if !board.bootDeviceMemoryMapped then none
    else
      -- Base is in the form of a pointer.  Make it an offset.
      let pointerBase32bit := (2 ^ 32 - board.romSize) % 2 ^ 32
      some
        { offset := (board.mrcSettingsCacheBase + 2 ^ 32 - pointerBase32bit) % 2 ^ 32
          size := board.mrcSettingsCacheSize }

def lookupRegionType (board : Board) (recovery : Bool) (kind : Int) : Option CacheRegion :=
  let flags := if recovery then recoveryFlag else normalFlag
  (cacheRegions board).find? fun cr =>
    cr.kind = kind ∧ cr.flags &&& flags = flags

def lookupRegion (board : Board) (recovery : Bool) (kind : Int) : Option (CacheRegion × Region) :=
  match lookupRegionType board recovery kind with
  | none => none
  | some cr => (lookupRegionByName board cr.name).map fun r => (cr, r)

structure CbmemEntry where
  id : Nat
  bytes : List Byte
deriving DecidableEq, Repr

/-- The entry that `mrc_cache_stash_data` adds to a CBMEM without one. -/
def mrcCacheStashData (board : Board) (recovery : Bool) (kind : Int)
    (version : BitVec 32) (data : List Byte) : Option CbmemEntry :=
  (lookupRegionType board recovery kind).map fun cr =>
    ⟨cr.cbmemId, stashedBytes version data⟩

/-- The header of a region and the part of the region that it describes. -/
def mrcHeaderValid (rdev : Region) (memory : Memory) : Option (Region × MrcMetadata) :=
  match rdevReadat rdev memory 0 16 with
  | none => none
  | some bytes =>
    let md := mrcMetadataOfBytes bytes
    if md.signature ≠ mrcDataSignature then none
    -- Compute checksum over header with 0 as the value.
    else if md.headerChecksum ≠ computeIpChecksum { md with headerChecksum := 0 }.bytes then none
    else
      (rdevChain rdev 0 ((16 + md.dataSize) % 2 ^ 32)).map fun rdev =>
        (rdev, md)

def mrcDataValid (rdev : Region) (memory : Memory) (md : MrcMetadata) : Bool :=
  match rdevReadat rdev memory 16 md.dataSize with
  | none => false
  | some data => md.dataChecksum = computeIpChecksum data

/-- What `mrc_cache_latest` hands to its caller; without a valid header, there
are no metadata. -/
structure Latest where
  md : Option MrcMetadata
  cacheFile : RegionFile
  rdev : Region

def mrcCacheLatest (backing : Region) (memory : Memory) (failBadData : Bool) : Option Latest :=
  let init := regionFileInit backing memory
  if init.2 < 0 then none
  else
    match regionFileData init.1 with
    | none =>
      if failBadData then none
      -- The caller has a valid yet unusable region device.
      else some ⟨none, init.1, ⟨backing.offset, 0⟩⟩
    | some rdev =>
      match mrcHeaderValid rdev memory with
      | none => if failBadData then none else some ⟨none, init.1, rdev⟩
      | some (trimmed, md) =>
        if !mrcDataValid trimmed memory md && failBadData then none
        else some ⟨some md, init.1, trimmed⟩

def mrcCacheGetCurrent (board : Board) (flash : Region → Memory)
    (recovery : Bool) (kind : Int) (version : BitVec 32) : Option Region :=
  match lookupRegion board recovery kind with
  | none => none
  | some (_, region) =>
    match mrcCacheLatest ⟨0, region.size⟩ (flash region) true with
    | some ⟨some md, _, rdev⟩ =>
      if version.toNat ≠ md.version then none
      -- Re-size to only contain the data.
      else rdevChain rdev 16 md.dataSize
    | _ => none

inductive Result where
  | updateFailure
  | updateSuccess
  | alreadyUptodate
deriving DecidableEq, Repr

def mrcCacheNeedsUpdate (rdev : Region) (memory : Memory) (toBeUpdated : CbmemEntry) : Bool :=
  if toBeUpdated.bytes.length ≠ rdev.size then true
  else toBeUpdated.bytes ≠ load memory rdev.offset rdev.size

/-- `update_mrc_cache_by_type`, cut after `fuel` turns of the update of the
region file: the result that it logs, if it comes to one, and the device
operations. -/
def updateMrcCacheByType (board : Board) (fuel : Nat)
    (flash : Region → Memory) (recovery : Bool) (kind : Int)
    (cbmem : List CbmemEntry) : Option Result × List DeviceOp :=
  match lookupRegion board recovery kind with
  | none => (none, [])
  | some (cr, region) =>
    match cbmem.find? fun entry => entry.id = cr.cbmemId with
    | none => (none, [])
    | some toBeUpdated =>
      match mrcCacheLatest ⟨0, region.size⟩ (flash region) false with
      | none => (none, [])
      | some latest =>
        if !mrcCacheNeedsUpdate latest.rdev (flash region)
            toBeUpdated then (some .alreadyUptodate, [])
        else
          let update := regionFileUpdateData fuel latest.cacheFile toBeUpdated.bytes
          (update.1.map fun done =>
            if done.1 < 0 then .updateFailure else .updateSuccess,
            update.2)

structure Stored (size : Nat) (memory : Memory) (bytes : List Byte)
    (rdev : Region) : Prop where
  init : (regionFileInit ⟨0, size⟩ memory).2 = 0
  data : regionFileData (regionFileInit ⟨0, size⟩ memory).1 = some rdev
  length : bytes.length ≤ rdev.size
  bytes : load memory rdev.offset bytes.length = bytes

variable {size : Nat} {memory : Memory} {version : BitVec 32} {data : List Byte} {rdev : Region}

section

variable (stored : Stored size memory (stashedBytes version data) rdev)
include stored

theorem Stored.header (small : 16 + data.length < 2 ^ 32) :
    mrcHeaderValid rdev memory =
      some (⟨rdev.offset, 16 + data.length⟩, stashedMetadata version data) := by
  have length := stored.length
  rw [length_stashedBytes] at length
  have whole := stored.bytes
  rw [length_stashedBytes, load_append, stashedBytes] at whole
  have header : load memory (0 + rdev.offset) 16 = (stashedMetadata version data).bytes := by
    rw [Nat.zero_add]
    exact (List.append_inj whole (by
      rw [length_load, MrcMetadata.length_bytes])).1
  have sized : (stashedMetadata version data).dataSize = data.length := Nat.mod_eq_of_lt (by omega)
  rw [mrcHeaderValid, rdevReadat_of_le (by omega)]
  dsimp only
  rw [header, (stashedMetadata_valid version data).ofBytes,
    if_neg (fun different => different rfl),
    if_neg (fun different => different rfl), sized, Nat.mod_eq_of_lt small,
    rdevChain_of_le (by omega), Nat.zero_add, Option.map_some]

theorem Stored.dataValid (small : 16 + data.length < 2 ^ 32) :
    load memory (16 + rdev.offset) data.length = data ∧
      mrcDataValid ⟨rdev.offset, 16 + data.length⟩ memory
        (stashedMetadata version data) = true := by
  have whole := stored.bytes
  rw [length_stashedBytes, load_append, stashedBytes] at whole
  have payload : load memory (16 + rdev.offset) data.length = data := by
    rw [Nat.add_comm]
    exact (List.append_inj whole (by
      rw [length_load, MrcMetadata.length_bytes])).2
  have sized : (stashedMetadata version data).dataSize = data.length := Nat.mod_eq_of_lt (by omega)
  refine ⟨payload, ?_⟩
  rw [mrcDataValid, sized, rdevReadat_of_le (le_refl _)]
  rw [payload]
  exact decide_eq_true rfl

theorem Stored.latest (small : 16 + data.length < 2 ^ 32) (failBadData : Bool) :
    mrcCacheLatest ⟨0, size⟩ memory failBadData =
      some ⟨some (stashedMetadata version data),
        (regionFileInit ⟨0, size⟩ memory).1,
        ⟨rdev.offset, 16 + data.length⟩⟩ := by
  have succeeded : ¬ (regionFileInit ⟨0, size⟩ memory).2 < 0 := by
    rw [stored.init]
    decide
  rw [mrcCacheLatest]
  rw [if_neg succeeded, stored.data]
  dsimp only
  rw [stored.header small]
  dsimp only
  rw [(stored.dataValid small).2]
  rfl

end

end Coreboot.Mrc
