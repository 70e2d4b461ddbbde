import Coreboot.ByteMemory

/-!
# DDR3 module descriptions

A module describes itself in 256 bytes: what every module has, with a checksum, and up to two
profiles of faster timings. Memory times are in units of 1/256 ns.
-/

namespace Coreboot.Ddr3

abbrev Spd := Nat → Byte

def spdMemoryTypeUndefined : Byte := 0x00

def spdMemoryTypeSdramDdr3 : Byte := 0x0b

inductive SpdStatus
  | ok | invalid | crcError | invalidField
deriving DecidableEq

structure DimmAttr where
  dramType : Byte
  casSupported : BitVec 16
  width : Nat
  ranks : Nat
  rowBits : Nat
  colBits : Nat
  sizeMb : Nat
  tCK : BitVec 32
  tAA : BitVec 32
  tWR : BitVec 32
  tRCD : BitVec 32
  tRRD : BitVec 32
  tRP : BitVec 32
  tRAS : BitVec 32
  tRC : BitVec 32
  tRFC : BitVec 32
  tWTR : BitVec 32
  tRTP : BitVec 32
  tFAW : BitVec 32
  voltage : BitVec 16
  dimmsPerChannel : Nat
deriving Inhabited

def crcBit (crc : BitVec 16) : BitVec 16 :=
  if crc.msb then (crc <<< 1) ^^^ 0x1021 else crc <<< 1

def crcByte (crc : BitVec 16) (byte : Byte) : BitVec 16 :=
  crcBit^[8] (crc ^^^ (byte.setWidth 16 <<< 8))

def crc16 (bytes : List Byte) : BitVec 16 := bytes.foldl crcByte 0

def spdDdr3CalcCrc (spd : Spd) : BitVec 16 :=
  crc16 (ByteMemory.load spd 0 (if (spd 0).getLsbD 7 then 117 else 126))

/-- A medium time base; there is none if the divisor is zero. -/
def mediumTimeBase (dividend divisor : Byte) : Option (BitVec 32) :=
  if divisor = 0 then none else some ((dividend.setWidth 32 <<< 8) / divisor.setWidth 32)

def units (mtb : BitVec 32) (byte : Byte) : BitVec 32 := byte.setWidth 32 * mtb

/-- A number of time base units in two bytes, of which the upper one may be a nibble. -/
def wideUnits (mtb : BitVec 32) (high low : Byte) : BitVec 32 :=
  ((high.setWidth 32 <<< 8) + low.setWidth 32) * mtb

/-- The correction by a signed number of fine time base units. -/
def fine (ftb time : BitVec 32) (byte : Byte) : BitVec 32 :=
  time + (byte.signExtend 32 * ftb - 500).sdiv 1000

def field (spd : Spd) (index shift count : Nat) : Nat :=
  (spd index).toNat / 2 ^ shift % 2 ^ count

def width (spd : Spd) : Nat := 4 * 2 ^ field spd 7 0 3 % 256

def ranks (spd : Spd) : Nat := field spd 7 3 3 + 1

def sizeMb (spd : Spd) : Nat :=
  2 ^ (field spd 4 0 4 + 5) * (8 * 2 ^ field spd 8 0 3 % 256) * ranks spd / width spd

def status (spd : Spd) : SpdStatus :=
  let field := field spd
  if 3 < field 4 4 3 ∨ 6 < field 4 0 4 ∨ 4 < field 5 3 3 ∨ 3 < field 5 0 3 ∨
      3 < field 7 3 3 ∨ 3 < field 7 0 3 ∨ 1 < field 8 3 2 ∨ 3 < field 8 0 3 then
    .invalidField
  else if spdDdr3CalcCrc spd ≠ ((spd 127).setWidth 16 <<< 8) + (spd 126).setWidth 16 then
    .crcError
  else .ok

/-- Decoding fails only by a division by zero. -/
def spdDecodeDdr3 (dimm : DimmAttr) (spd : Spd) : Option (SpdStatus × DimmAttr) :=
  if spd 2 ≠ spdMemoryTypeSdramDdr3 then
    some (.invalid, { dimm with dimmsPerChannel := 3, dramType := spdMemoryTypeUndefined })
  else if width spd = 0 then none
  else
    (mediumTimeBase (spd 10) (spd 11)).map fun mtb =>
      let bit := (spd 6).getLsbD
      let hasFine := 0x11 ≤ spd 1 ∧ spd 9 &&& 0x0f ≠ 0
      let ftb := ((spd 9 &&& 0xf0).setWidth 32 <<< 4) / (spd 9 &&& 0x0f).setWidth 32
      let corrected (time : BitVec 32) (index : Nat) :=
        if hasFine then fine ftb time (spd index) else time
      (status spd, { dimm with
        dimmsPerChannel := 3
        dramType := spdMemoryTypeSdramDdr3
        rowBits := field spd 5 3 3 + 12
        colBits := field spd 5 0 3 + 9
        voltage :=
          if ¬bit 0 then 1500 else if bit 1 then 1300 else if bit 2 then 1250 else dimm.voltage
        ranks := ranks spd
        width := width spd
        sizeMb := sizeMb spd
        tCK := corrected (units mtb (spd 12)) 34
        casSupported := ((spd 15).setWidth 16 <<< 8) + (spd 14).setWidth 16
        tAA := corrected (units mtb (spd 16)) 35
        tWR := units mtb (spd 17)
        tRCD := corrected (units mtb (spd 18)) 36
        tRRD := units mtb (spd 19)
        tRP := corrected (units mtb (spd 20)) 37
        tRAS := wideUnits mtb (spd 21 &&& 0x0f) (spd 22)
        tRC := corrected (wideUnits mtb ((spd 21 &&& 0xf0) >>> 4) (spd 23)) 38
        tRFC := wideUnits mtb (spd 25) (spd 24)
        tWTR := units mtb (spd 26)
        tRTP := units mtb (spd 27)
        tFAW := wideUnits mtb (spd 28 &&& 0x0f) (spd 29) })

inductive XmpProfile
  | profile1 | profile2
deriving DecidableEq

def XmpProfile.base : XmpProfile → Nat
  | .profile1 => 185
  | .profile2 => 220

def XmpProfile.enable : XmpProfile → Nat
  | .profile1 => 0
  | .profile2 => 1

/-- The fields that a profile replaces. -/
def DimmAttr.withProfile (dimm : DimmAttr) (mtb : BitVec 32) (xmp : Nat → Byte) : DimmAttr :=
  { dimm with
    voltage := (xmp 0 &&& 1).setWidth 16 * 50 + ((xmp 0 >>> 1) &&& 0xf).setWidth 16 * 100 +
      ((xmp 0 >>> 5) &&& 0x3).setWidth 16 * 1000
    tCK := units mtb (xmp 1)
    casSupported := ((xmp 9).setWidth 16 <<< 8) + (xmp 8).setWidth 16
    tAA := units mtb (xmp 2)
    tWR := units mtb (xmp 8)
    tRCD := units mtb (xmp 7)
    tRRD := units mtb (xmp 17)
    tRP := units mtb (xmp 6)
    tRAS := wideUnits mtb (xmp 9 &&& 0x0f) (xmp 10)
    tRC := wideUnits mtb ((xmp 9 &&& 0xf0) >>> 4) (xmp 11)
    tRFC := wideUnits mtb (xmp 15) (xmp 14)
    tWTR := units mtb (xmp 20)
    tRTP := units mtb (xmp 16)
    tFAW := wideUnits mtb (xmp 18 &&& 0x0f) (xmp 19) }

def spdXmpDecodeDdr3 (dimm : DimmAttr) (spd : Spd) (profile : XmpProfile) :
    Option (SpdStatus × DimmAttr) :=
  (spdDecodeDdr3 dimm spd).bind fun decoded =>
    if decoded.1 ≠ .ok then some decoded
    else if spd 176 ≠ 0x0c ∨ spd 177 ≠ 0x4a ∨ (spd 178).getLsbD profile.enable = false then
      some (.invalid, { decoded.2 with dramType := spdMemoryTypeUndefined })
    else
      let base := 2 * profile.enable
      (mediumTimeBase (spd (180 + base)) (spd (181 + base))).map fun mtb =>
        (.ok, { decoded.2.withProfile mtb fun offset => spd (profile.base + offset) with
          dimmsPerChannel := (spd 178).toNat / 2 ^ (base + 2) % 4 + 1 })

end Coreboot.Ddr3
