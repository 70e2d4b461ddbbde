import Mathlib.Data.BitVec
import Mathlib.Logic.Function.Basic
import Mathlib.Tactic.Common

/-!
# The memory map of Sandy Bridge

The raminit derives the tops and bases of the memory map in MiB and packs them into the
registers of the host bridge.
-/

namespace Coreboot.SandybridgeMap

/-- The configuration space of the host bridge, by the offset of a word. -/
abbrev Registers := Nat → BitVec 32

def regGgc : Nat := 0x50
def regMeBase : Nat := 0x70
def regMeMask : Nat := 0x78
def regRemapBase : Nat := 0x90
def regRemapLimit : Nat := 0x98
def regTom : Nat := 0xa0
def regTouud : Nat := 0xa8
def regGfx : Nat := 0xb0
def regGtt : Nat := 0xb4
def regTseg : Nat := 0xb8
def regTolud : Nat := 0xbc
def regCapid0A : Nat := 0xe4

def Registers.write (regs : Registers) (reg : Nat) (value : BitVec 32) : Registers :=
  Function.update regs reg value

/-- The low 12 bits of a number of MiB, in the bits from 20 on. -/
def Registers.writeLow (regs : Registers) (reg : Nat) (mib : BitVec 32) : Registers :=
  regs.write reg ((regs reg &&& ~~~ 0xfff00000#32) ||| ((mib &&& 0xfff#32) <<< 20))

/-- The other bits of it, in the bits below 20. -/
def Registers.writeHigh (regs : Registers) (reg : Nat) (mib : BitVec 32) : Registers :=
  regs.write reg ((regs reg &&& ~~~ 0x000fffff#32) ||| ((mib &&& 0xfffff000#32) >>> 12))

def Registers.ggc (regs : Registers) : BitVec 16 := (regs regGgc).setWidth 16

def Registers.wide (regs : Registers) (reg : Nat) : BitVec 64 :=
  ((regs (reg + 4)).setWidth 64 <<< 32) ||| (regs reg).setWidth 64

/-- What the memory map depends on: the channels, the memory of the ME, the device
tree and the configuration. -/
structure Input where
  channelSizeMb0 : BitVec 32
  channelSizeMb1 : BitVec 32
  meUmaSize : BitVec 32
  pciMmioSize : Option (BitVec 16)
  smmTsegSize : BitVec 32

def defaultPciMmioSize : BitVec 32 := 2048

def getMmioSize (input : Input) : BitVec 32 :=
  match input.pciMmioSize with
  | none => defaultPciMmioSize
  | some size => if size = 0 then defaultPciMmioSize else size.setWidth 32

structure Map where
  mmiosize : BitVec 32
  gfxstolen : BitVec 32
  gttsize : BitVec 32
  tsegsize : BitVec 32
  tom : BitVec 32
  mestolenbase : BitVec 32
  toludbase : BitVec 32
  gfxstolenbase : BitVec 32
  gttbase : BitVec 32
  tsegbase : BitVec 32
  reclaim : Bool
  remapbase : BitVec 32
  remaplimit : BitVec 32
  touudbase : BitVec 32

/-- The size of the graphics memory that `GGC` says. -/
def gfxStolen (ggc : BitVec 16) : BitVec 32 :=
  if ggc &&& 2 = 0 then ((ggc.setWidth 32 >>> 3) &&& 0x1f#32) * 32 else 0

/-- The size of the GTT that `GGC` says. -/
def gttSize (ggc : BitVec 16) : BitVec 32 :=
  if ggc &&& 2 = 0 then (ggc.setWidth 32 >>> 8) &&& 0x3#32 else 0

def minimum (first second : BitVec 32) : BitVec 32 := if first < second then first else second

def maximum (first second : BitVec 32) : BitVec 32 := if second < first then first else second

/-- The first part of `dram_memorymap`: the numbers. -/
def memoryMap (input : Input) (ggc : BitVec 16) : Map :=
  let mmiosize := getMmioSize input
  let gfxstolen := gfxStolen ggc
  let gttsize := gttSize ggc
  let tsegsize := input.smmTsegSize >>> 20
  let tom := input.channelSizeMb0 + input.channelSizeMb1
  let mestolenbase := tom - input.meUmaSize
  let toludbase := minimum (4096 - mmiosize + gfxstolen + gttsize + tsegsize)
    (tom - input.meUmaSize)
  let gfxstolenbase := toludbase - gfxstolen
  let gttbase := gfxstolenbase - gttsize
  let tsegbase := gttbase - tsegsize
  -- The base is rounded down to a multiple of the size.
  let tsegbasedelta := tsegbase &&& (tsegsize - 1)
  let tsegbase := tsegbase &&& ~~~ (tsegsize - 1)
  let gttbase := gttbase - tsegbasedelta
  let gfxstolenbase := gfxstolenbase - tsegbasedelta
  let toludbase := toludbase - tsegbasedelta
  let reclaim := toludbase < tom - input.meUmaSize
  let remapbase := maximum 4096 (tom - input.meUmaSize)
  let remaplimit := remapbase + minimum 4096 (tom - input.meUmaSize) - toludbase - 1
  let touudbase := if reclaim then remaplimit + 1 else tom - input.meUmaSize
  { mmiosize, gfxstolen, gttsize, tsegsize, tom, mestolenbase, toludbase,
    gfxstolenbase, gttbase, tsegbase, reclaim, remapbase, remaplimit, touudbase }

/-- The window is only programmed if memory can be reclaimed. -/
def writeRemap (map : Map) (regs : Registers) : Registers :=
  if map.reclaim then
    (((regs.write regRemapBase (map.remapbase <<< 20)).write
      (regRemapBase + 4) (map.remapbase >>> 12)).write
      regRemapLimit (map.remaplimit <<< 20)).write
      (regRemapLimit + 4) (map.remaplimit >>> 12)
  else regs

/-- The memory of the ME, if it has any. -/
def writeMe (input : Input) (map : Map) (regs : Registers) : Registers :=
  if input.meUmaSize ≠ 0 then
    let regs := regs.writeHigh (regMeMask + 4) (0x80000 - input.meUmaSize)
    let regs := regs.writeLow regMeBase map.mestolenbase
    let regs := regs.writeHigh (regMeBase + 4) map.mestolenbase
    let val := (0x80000 - input.meUmaSize) &&& 0xfff#32
    let reg := (regs regMeMask &&& ~~~ 0xfff00000#32) ||| (val <<< 20)
    let reg := (reg &&& ~~~ 0x400#32) ||| (1 <<< 10)
    let reg := (reg &&& ~~~ 0x800#32) ||| (1 <<< 11)
    regs.write regMeMask reg
  else regs

/-- The second part of `dram_memorymap`: the registers. -/
def writeMap (input : Input) (map : Map) (regs : Registers) : Registers :=
  let regs := regs.writeLow regTom map.tom
  let regs := regs.writeHigh (regTom + 4) map.tom
  let regs := regs.writeLow regTolud map.toludbase
  let regs := regs.writeLow regTouud map.touudbase
  let regs := regs.writeHigh (regTouud + 4) map.touudbase
  let regs := writeRemap map regs
  let regs := regs.writeLow regTseg map.tsegbase
  let regs := regs.writeLow regGfx map.gfxstolenbase
  let regs := regs.writeLow regGtt map.gttbase
  writeMe input map regs

def dramMemorymap (input : Input) (regs : Registers) : Registers :=
  writeMap input (memoryMap input regs.ggc) regs

inductive Kind where
  | ram
  | reservedRam
  | mmio
deriving DecidableEq, Repr

structure Resource where
  kind : Kind
  index : Nat
  base : Nat
  size : Nat
deriving DecidableEq, Repr

/-- `fixed_mem_resource`, whose numbers are `unsigned long`s of KiB. -/
def fixedMemResource (kind : Kind) (index : Nat) (basek sizek : BitVec 32) : List Resource :=
  if sizek = 0 then []
  else [⟨kind, index, basek.toNat * 1024, sizek.toNat * 1024⟩]

def legacyHoleBaseK : BitVec 32 := 0xa0000 / 1024
def legacyHoleSizeK : BitVec 32 := 384

/-- The ramstage: the revision of the bridge, and where a part of the RAM is kept
for logs, if it is. -/
structure Bridge where
  silicon : BitVec 32
  ramoops : Option (BitVec 32 × BitVec 32)

def numbered (index : Nat) (ranges : List (Kind × BitVec 32 × BitVec 32)) : List Resource :=
  (ranges.zipIdx index).flatMap fun ((kind, basek, sizek), index) =>
    fixedMemResource kind index basek sizek

def addFixedResources (bridge : Bridge) (regs : Registers)
    (umaMemoryBase umaMemorySize : BitVec 64) (index : Nat) : List Resource :=
  let uma : List (Kind × BitVec 32 × BitVec 32) :=
    [(.mmio, (umaMemoryBase >>> 10).setWidth 32, (umaMemorySize >>> 10).setWidth 32)]
  let legacy : List (Kind × BitVec 32 × BitVec 32) :=
    [(.mmio, legacyHoleBaseK, (0xc0000 >>> 10) - legacyHoleBaseK),
      (.reservedRam, 0xc0000 >>> 10, (0x100000 - 0xc0000) >>> 10)]
  let ramoops : List (Kind × BitVec 32 × BitVec 32) :=
    match bridge.ramoops with
    | none => []
    | some (start, size) => [(.reservedRam, start >>> 10, size >>> 10)]
  -- `bad_ram_resource` reserves the range.
  let badRam : List (Kind × BitVec 32 × BitVec 32) :=
    if bridge.silicon &&& 0x50 = 0 then
      [(.reservedRam, 0x20000000 >>> 10, 0x00200000 >>> 10),
        (.reservedRam, 0x40000000 >>> 10, 0x00200000 >>> 10)]
    else []
  let iommu : List (Kind × BitVec 32 × BitVec 32) :=
    if regs regCapid0A &&& (1 <<< 23) = 0 then
      [(.mmio, 0xfed90000 >>> 10, 4), (.mmio, 0xfed91000 >>> 10, 4)]
    else []
  numbered index (uma ++ legacy ++ ramoops ++ badRam ++ iommu)

/-- The part of `pci_domain_set_resources` before the ranges are reported: the KiB
below the TSEG, and the base and the size of what is reserved. -/
def umaMemory (regs : Registers) : BitVec 64 × BitVec 64 × BitVec 64 :=
  let tolud := regs regTolud
  let tom := regs.wide regTom
  let meBase := regs.wide regMeBase
  let tomk := (tolud >>> 10).setWidth 64
  let umaMemorySize : BitVec 64 :=
    if meBase = tolud.setWidth 64 then
      (((tom - meBase) >>> 10).setWidth 32).setWidth 64 * 1024
    else 0
  let gfx : BitVec 64 :=
    if regs.ggc &&& 2 = 0 then
      (((regs.ggc.setWidth 64 >>> 3) &&& 0x1f#64) * 32 * 1024)
    else 0
  let gtt : BitVec 64 :=
    if regs.ggc &&& 2 = 0 then ((regs.ggc.setWidth 64 >>> 8) &&& 0x3#64) * 1024
    else 0
  let tomk := tomk - gfx - gtt
  let umaMemorySize := umaMemorySize + gfx * 1024 + gtt * 1024
  let tsegBase := regs regTseg
  let umaSize : BitVec 32 := ((tomk * 1024 - tsegBase.setWidth 64) >>> 10).setWidth 32
  let tomk := tomk - umaSize.setWidth 64
  (tomk, tomk * 1024, umaMemorySize + umaSize.setWidth 64 * 1024)

def pciDomainSetResources (bridge : Bridge) (regs : Registers) : List Resource :=
  let (tomk, umaMemoryBase, umaMemorySize) := umaMemory regs
  let hole := legacyHoleBaseK + legacyHoleSizeK
  let touud := regs.wide regTouud >>> 10
  fixedMemResource .ram 3 0 legacyHoleBaseK ++
    fixedMemResource .ram 4 hole ((tomk - hole.setWidth 64).setWidth 32) ++
    (if 4096 * 1024 < touud then
      fixedMemResource .ram 5 (4096 * 1024) ((touud - 4096 * 1024).setWidth 32)
    else []) ++
    addFixedResources bridge regs umaMemoryBase umaMemorySize 6

end Coreboot.SandybridgeMap
