import Coreboot.SandybridgeMap
import Coreboot.WordAlignment
import Mathlib.Tactic.Linarith

/-!
# The memory map of Sandy Bridge is faithful

The RAM that the ramstage reports is the memory below the ME without the stolen range, each byte
once, if the low memory ends below 4 GiB and the TSEG is not at the very bottom.
-/

namespace Coreboot.SandybridgeMap

open WordAlignment

section Properties

/-- The subtractions of `dram_memorymap` do not underflow, the TSEG has a power of
two of MiB, and there are less than 64 GiB. -/
structure Sane (input : Input) (ggc : BitVec 16) : Prop where
  total : input.channelSizeMb0.toNat + input.channelSizeMb1.toNat < 65536
  me_le : input.meUmaSize.toNat ≤ input.channelSizeMb0.toNat + input.channelSizeMb1.toNat
  mmio_le : (getMmioSize input).toNat ≤ 4096
  tseg : ∃ power, (input.smmTsegSize >>> 20).toNat = 2 ^ power
  stolen_le : (gfxStolen ggc).toNat + (gttSize ggc).toNat +
      (input.smmTsegSize >>> 20).toNat + input.meUmaSize.toNat ≤
    input.channelSizeMb0.toNat + input.channelSizeMb1.toNat

/-- The reserved bits of the registers, and their locks, are clear after a reset. -/
structure Reset (regs : Registers) : Prop where
  low : ∀ reg ∈ [regTom, regTolud, regTouud, regTseg, regGfx, regGtt],
    regs reg &&& ~~~ 0xfff00000#32 = 0
  high : ∀ reg ∈ [regTom + 4, regTouud + 4], regs reg &&& ~~~ 0x000fffff#32 = 0

def mib (regs : Registers) (reg : Nat) : Nat := (regs reg >>> 20).toNat

def wideMib (regs : Registers) (reg : Nat) : Nat := (regs.wide reg >>> 20).toNat

/-- Where the host bridge finds an address in the memory. -/
def decode (regs : Registers) (address : Nat) : Option Nat :=
  if address < mib regs regTolud * 2 ^ 20 then some address
  else if wideMib regs regRemapBase ≤ address / 2 ^ 20 ∧
      address / 2 ^ 20 ≤ wideMib regs regRemapLimit then
    some (mib regs regTolud * 2 ^ 20 + (address - wideMib regs regRemapBase * 2 ^ 20))
  else if 2 ^ 32 ≤ address ∧ address < wideMib regs regTouud * 2 ^ 20 then
    some address
  else none

def ReportedRam (resources : List Resource) (address : Nat) : Prop :=
  ∃ resource ∈ resources, resource.kind = .ram ∧ resource.base ≤ address ∧
    address < resource.base + resource.size

/-- The memory below the ME without what is stolen. -/
def Usable (input : Input) (map : Map) (address : Nat) : Prop :=
  address < (map.tom.toNat - input.meUmaSize.toNat) * 2 ^ 20 ∧
    ¬ (map.tsegbase.toNat * 2 ^ 20 ≤ address ∧ address < map.toludbase.toNat * 2 ^ 20)

/-- The reported RAM is the usable memory, and the stolen memory is laid out and
reserved. -/
structure Faithful (input : Input) (map : Map) (regs : Registers)
    (resources : List Resource) : Prop where
  decoded : ∀ address, ReportedRam resources address →
    ∃ place, decode regs address = some place ∧ Usable input map place
  injective : ∀ first second, ReportedRam resources first →
    ReportedRam resources second → decode regs first = decode regs second → first = second
  covered : ∀ place, 2 ^ 20 ≤ place → Usable input map place →
    ∃ address, ReportedRam resources address ∧ decode regs address = some place
  aligned : map.tsegsize.toNat ∣ mib regs regTseg
  room : mib regs regTseg + map.tsegsize.toNat = mib regs regGtt
  gtt : mib regs regGtt + map.gttsize.toNat = mib regs regGfx
  gfx : mib regs regGfx + map.gfxstolen.toNat = mib regs regTolud
  reserved : ∃ resource ∈ resources, resource.kind = .mmio ∧
    resource.base ≤ map.tsegbase.toNat * 2 ^ 20 ∧
      map.toludbase.toNat * 2 ^ 20 ≤ resource.base + resource.size

end Properties

section Numbers

variable {input : Input} {ggc : BitVec 16} {first second : BitVec 32}

theorem gfxStolen_lt (ggc : BitVec 16) : (gfxStolen ggc).toNat < 1024 := by
  rw [gfxStolen]
  split_ifs
  · have bound : (ggc.setWidth 32 >>> 3 &&& 0x1f#32).toNat ≤ 31 := by
      rw [BitVec.toNat_and]
      exact Nat.and_le_right
    rw [BitVec.toNat_mul]
    change _ * 32 % _ < _
    omega
  · decide

theorem gttSize_lt (ggc : BitVec 16) : (gttSize ggc).toNat < 4 := by
  rw [gttSize]
  split_ifs
  · rw [BitVec.toNat_and]
    exact Nat.lt_succ_of_le Nat.and_le_right
  · decide

theorem toNat_minimum (first second : BitVec 32) :
    (minimum first second).toNat = min first.toNat second.toNat := by
  rw [minimum, min_def]
  split_ifs <;> bv_omega

theorem toNat_maximum (first second : BitVec 32) :
    (maximum first second).toNat = max first.toNat second.toNat := by
  rw [maximum, max_def]
  split_ifs <;> bv_omega

structure Laid (input : Input) (map : Map) : Prop where
  tom : map.tom.toNat = input.channelSizeMb0.toNat + input.channelSizeMb1.toNat
  tseg_pos : 0 < map.tsegsize.toNat
  aligned : map.tsegsize.toNat ∣ map.tsegbase.toNat
  room : map.tsegbase.toNat + map.tsegsize.toNat = map.gttbase.toNat
  gtt : map.gttbase.toNat + map.gttsize.toNat = map.gfxstolenbase.toNat
  gfx : map.gfxstolenbase.toNat + map.gfxstolen.toNat = map.toludbase.toNat
  tolud_le : map.toludbase.toNat ≤ map.tom.toNat - input.meUmaSize.toNat
  reclaim_iff : map.reclaim = true ↔ map.toludbase.toNat < map.tom.toNat - input.meUmaSize.toNat
  remapbase : map.remapbase.toNat = max 4096 (map.tom.toNat - input.meUmaSize.toNat)
  touud : map.reclaim = true → map.touudbase.toNat =
    max 4096 (map.tom.toNat - input.meUmaSize.toNat) +
      min 4096 (map.tom.toNat - input.meUmaSize.toNat) - map.toludbase.toNat
  remaplimit : map.reclaim = true → map.remaplimit.toNat + 1 = map.touudbase.toNat
  touud_rest : ¬ map.reclaim = true → map.touudbase.toNat = map.tom.toNat - input.meUmaSize.toNat

theorem toNat_roundDown {size base : BitVec 32} {power : Nat} (isPower : size.toNat = 2 ^ power) :
    (base &&& ~~~ (size - 1)).toNat = base.toNat / 2 ^ power * 2 ^ power ∧
      (base &&& (size - 1)).toNat = base.toNat % 2 ^ power := by
  have positive : 0 < 2 ^ power := Nat.two_pow_pos power
  have mask : size - 1 = lowMask 32 power := by
    rw [lowMask_eq_ofNat]
    apply BitVec.eq_of_toNat_eq
    have bound := size.isLt
    rw [BitVec.toNat_ofNat, BitVec.toNat_sub, isPower]
    rw [isPower] at bound
    change (2 ^ 32 - 1 + 2 ^ power) % 2 ^ 32 = _
    omega
  constructor
  · rw [mask]
    exact toNat_alignDown base power
  · have bound := size.isLt
    rw [isPower] at bound
    have toNat : (size - 1).toNat = 2 ^ power - 1 := by
      rw [mask, lowMask_eq_ofNat, BitVec.toNat_ofNat, Nat.mod_eq_of_lt (by omega)]
    rw [BitVec.toNat_and, toNat, Nat.and_two_pow_sub_one_eq_mod]

theorem toNat_sub (le : second.toNat ≤ first.toNat) :
    (first - second).toNat = first.toNat - second.toNat :=
  BitVec.toNat_sub_of_le le

theorem toNat_add {bound : Nat}
    (below : first.toNat + second.toNat ≤ bound) (small : bound < 2 ^ 32) :
    (first + second).toNat = first.toNat + second.toNat := by
  rw [BitVec.toNat_add, Nat.mod_eq_of_lt (by omega)]

theorem lowered {top gfx gtt tseg delta base : Nat} (stolen : gfx + gtt + tseg ≤ top)
    (parts : base + delta = top - gfx - gtt - tseg) :
    base + tseg = top - gfx - gtt - delta ∧
      top - gfx - gtt - delta + gtt = top - gfx - delta ∧
        top - gfx - delta + gfx = top - delta := by
  omega

theorem Sane.laid (sane : Sane input ggc) : Laid input (memoryMap input ggc) := by
  obtain ⟨total, me_le, mmio_le, ⟨power, isPower⟩, stolen_le⟩ := sane
  have gfxBound := gfxStolen_lt ggc
  have gttBound := gttSize_lt ggc
  have tsegBound : (input.smmTsegSize >>> 20).toNat < 4096 := by
    have bound := input.smmTsegSize.isLt
    rw [BitVec.toNat_ushiftRight, Nat.shiftRight_eq_div_pow]
    omega
  unfold memoryMap
  extract_lets mmiosize gfxstolen gttsize tsegsize tom mestolenbase top gfxTop gttTop
    tsegTop delta tsegbase gttbase gfxstolenbase toludbase reclaim remapbase remaplimit
    touudbase
  change gfxstolen.toNat < 1024 at gfxBound
  change gttsize.toNat < 4 at gttBound
  change tsegsize.toNat < 4096 at tsegBound
  change tsegsize.toNat = 2 ^ power at isPower
  change mmiosize.toNat ≤ 4096 at mmio_le
  change gfxstolen.toNat + gttsize.toNat + tsegsize.toNat + input.meUmaSize.toNat ≤ _ at stolen_le
  have tomNat : tom.toNat = input.channelSizeMb0.toNat + input.channelSizeMb1.toNat :=
    toNat_add (Nat.le_of_lt total) (by decide)
  have usable : (tom - input.meUmaSize).toNat =
      tom.toNat - input.meUmaSize.toNat := toNat_sub (by omega)
  have below : (4096 - mmiosize + gfxstolen + gttsize + tsegsize).toNat =
      4096 - mmiosize.toNat + gfxstolen.toNat + gttsize.toNat + tsegsize.toNat := by
    have hole : (4096 - mmiosize).toNat = 4096 - mmiosize.toNat := toNat_sub mmio_le
    have first : (4096 - mmiosize + gfxstolen).toNat = _ :=
      @toNat_add _ _ 8192 (by omega) (by decide)
    have second : (4096 - mmiosize + gfxstolen + gttsize).toNat = _ :=
      @toNat_add _ _ 8192 (by omega) (by decide)
    rw [@toNat_add _ _ 16384 (by omega) (by decide), second, first, hole]
  have topNat : top.toNat = min (4096 - mmiosize.toNat + gfxstolen.toNat +
      gttsize.toNat + tsegsize.toNat) (tom.toNat - input.meUmaSize.toNat) := by
    rw [← below, ← usable]
    exact toNat_minimum _ _
  have stolen : gfxstolen.toNat + gttsize.toNat + tsegsize.toNat ≤ top.toNat := by
    rw [topNat]
    exact le_min (by omega) (by omega)
  have top_le : top.toNat ≤ tom.toNat - input.meUmaSize.toNat := by
    rw [topNat]
    exact min_le_right _ _
  clear topNat below
  have gfxTopNat : gfxTop.toNat = top.toNat - gfxstolen.toNat := toNat_sub (by omega)
  have gttTopNat : gttTop.toNat = gfxTop.toNat - gttsize.toNat := toNat_sub (by omega)
  have tsegTopNat : tsegTop.toNat = gttTop.toNat - tsegsize.toNat := toNat_sub (by omega)
  have rounded : tsegbase.toNat = tsegTop.toNat / 2 ^ power * 2 ^ power ∧
      delta.toNat = tsegTop.toNat % 2 ^ power := toNat_roundDown isPower
  have parts : tsegbase.toNat + delta.toNat = tsegTop.toNat := by
    rw [rounded.1, rounded.2]
    exact Nat.div_add_mod' _ _
  have gttNat : gttbase.toNat = gttTop.toNat - delta.toNat := toNat_sub (by omega)
  have gfxNat : gfxstolenbase.toNat = gfxTop.toNat - delta.toNat := toNat_sub (by omega)
  have toludNat : toludbase.toNat = top.toNat - delta.toNat := toNat_sub (by omega)
  have stacked := lowered stolen (by rw [parts, tsegTopNat, gttTopNat, gfxTopNat])
  rw [← gfxTopNat, ← gttTopNat, ← gttNat, ← gfxNat, ← toludNat] at stacked
  have tolud_le : toludbase.toNat ≤ tom.toNat - input.meUmaSize.toNat :=
    toludNat ▸ (Nat.sub_le _ _).trans top_le
  clear_value toludbase gfxstolenbase gttbase tsegbase delta
  clear toludNat gfxNat gttNat parts tsegTopNat gttTopNat gfxTopNat stolen top_le
  have remapNat : remapbase.toNat = max 4096 (tom.toNat - input.meUmaSize.toNat) := by
    rw [← usable]
    exact toNat_maximum _ _
  have lowNat : (minimum 4096 (tom - input.meUmaSize)).toNat =
      min 4096 (tom.toNat - input.meUmaSize.toNat) := by
    rw [← usable]
    exact toNat_minimum _ _
  have reclaim_iff : reclaim ↔ toludbase.toNat < tom.toNat - input.meUmaSize.toNat := by
    rw [← usable]
    exact Iff.rfl
  have end_ : (remapbase + minimum 4096 (tom - input.meUmaSize) - toludbase).toNat =
      remapbase.toNat + min 4096 (tom.toNat - input.meUmaSize.toNat) - toludbase.toNat := by
    have sum : (remapbase + minimum 4096 (tom - input.meUmaSize)).toNat = _ :=
      @toNat_add _ _ 131072 (by omega) (by decide)
    rw [toNat_sub (by omega), sum, lowNat]
  have limitNat : reclaim → remaplimit.toNat + 1 =
      remapbase.toNat + min 4096 (tom.toNat - input.meUmaSize.toNat) - toludbase.toNat := by
    intro reclaims
    have more := reclaim_iff.mp reclaims
    have one : (1 : BitVec 32).toNat = 1 := rfl
    have limit : remaplimit.toNat = _ := toNat_sub (by rw [end_]; omega)
    rw [limit, end_]
    omega
  have touudNat : reclaim → touudbase.toNat = remaplimit.toNat + 1 := by
    intro reclaims
    have limit := limitNat reclaims
    have touud : touudbase = remaplimit + 1 := if_pos reclaims
    rw [touud, @toNat_add _ 1 131072 (by change _ + 1 ≤ _; omega) (by decide)]
    rfl
  have positive : 0 < 2 ^ power := Nat.two_pow_pos power
  exact
    { tom := tomNat
      tseg_pos := isPower ▸ positive
      aligned := by
        rw [isPower, rounded.1]
        exact Nat.dvd_mul_left _ _
      room := stacked.1
      gtt := stacked.2.1
      gfx := stacked.2.2
      tolud_le := tolud_le
      reclaim_iff := decide_eq_true_iff.trans reclaim_iff
      remapbase := remapNat
      touud := fun reclaims => by
        have more := of_decide_eq_true reclaims
        rw [touudNat more, limitNat more, remapNat]
      remaplimit := fun reclaims => (touudNat (of_decide_eq_true reclaims)).symm
      touud_rest := fun none => by
        have same : touudbase = tom - input.meUmaSize :=
          if_neg fun more => none (decide_eq_true more)
        rw [same]
        exact usable }

end Numbers

section Written

variable {input : Input} {map : Map} {regs : Registers}

@[simp]
theorem Registers.write_self (regs : Registers) (reg : Nat) (value : BitVec 32) :
    regs.write reg value reg = value := by
  rw [Registers.write, Function.update_self]

variable {reg other : Nat}

@[simp]
theorem Registers.write_of_ne (value : BitVec 32) (different : other ≠ reg) :
    regs.write reg value other = regs other := by
  rw [Registers.write, Function.update_of_ne different]

section

variable (mib : BitVec 32)
include mib

@[simp]
theorem Registers.writeLow_of_ne (different : other ≠ reg) :
    regs.writeLow reg mib other = regs other :=
  Registers.write_of_ne _ different

@[simp]
theorem Registers.writeHigh_of_ne (different : other ≠ reg) :
    regs.writeHigh reg mib other = regs other :=
  Registers.write_of_ne _ different

/-- The word that holds the low bits of a number of MiB, and the one above it. -/
def lowWord (mib : BitVec 32) : BitVec 32 := (mib &&& 0xfff#32) <<< 20
def highWord (mib : BitVec 32) : BitVec 32 := (mib &&& 0xfffff000#32) >>> 12

@[simp]
theorem Registers.writeLow_self :
    regs.writeLow reg mib reg = regs reg &&& ~~~ 0xfff00000#32 ||| lowWord mib :=
  Registers.write_self _ _ _

@[simp]
theorem Registers.writeHigh_self :
    regs.writeHigh reg mib reg = regs reg &&& ~~~ 0x000fffff#32 ||| highWord mib :=
  Registers.write_self _ _ _

theorem toNat_lowWord : (lowWord mib).toNat = mib.toNat % 4096 * 2 ^ 20 := by
  have low : (mib &&& 0xfff#32).toNat = mib.toNat % 4096 := by
    rw [BitVec.toNat_and]
    exact Nat.and_two_pow_sub_one_eq_mod mib.toNat 12
  rw [lowWord, BitVec.toNat_shiftLeft, low, Nat.shiftLeft_eq]
  omega

theorem toNat_highWord : (highWord mib).toNat = mib.toNat / 4096 := by
  have split : (mib &&& 0xfffff000#32) = alignDown mib 12 := by
    rw [alignDown, lowMask_eq_ofNat]
    rfl
  rw [highWord, BitVec.toNat_ushiftRight, split, toNat_alignDown, Nat.shiftRight_eq_div_pow]
  exact Nat.mul_div_cancel _ (by decide)

end

structure Written (map : Map) (before regs : Registers) : Prop where
  ggc : regs regGgc = before regGgc
  tom : regs regTom = lowWord map.tom ∧ regs (regTom + 4) = highWord map.tom
  tolud : regs regTolud = lowWord map.toludbase
  touud : regs regTouud = lowWord map.touudbase ∧ regs (regTouud + 4) = highWord map.touudbase
  tseg : regs regTseg = lowWord map.tsegbase
  gfx : regs regGfx = lowWord map.gfxstolenbase
  gtt : regs regGtt = lowWord map.gttbase
  remap : map.reclaim →
    regs regRemapBase = map.remapbase <<< 20 ∧
      regs (regRemapBase + 4) = map.remapbase >>> 12 ∧
        regs regRemapLimit = map.remaplimit <<< 20 ∧
          regs (regRemapLimit + 4) = map.remaplimit >>> 12

theorem writeMe_of_lt (other : reg < regMeBase ∨ regMeMask + 4 < reg) :
    writeMe input map regs reg = regs reg := by
  simp only [regMeBase, regMeMask] at other
  rw [writeMe]
  by_cases me : input.meUmaSize ≠ 0
  · rw [if_pos me]
    dsimp only [regMeBase, regMeMask]
    rw [Registers.write_of_ne _ (by omega), Registers.writeHigh_of_ne _ (by omega),
      Registers.writeLow_of_ne _ (by omega), Registers.writeHigh_of_ne _ (by omega)]
  · rw [if_neg me]

@[simp]
theorem writeRemap_of_lt (other : reg < regRemapBase ∨ regRemapLimit + 4 < reg) :
    writeRemap map regs reg = regs reg := by
  simp only [regRemapBase, regRemapLimit] at other
  rw [writeRemap]
  by_cases reclaims : map.reclaim = true
  · rw [if_pos reclaims]
    dsimp only [regRemapBase, regRemapLimit]
    rw [Registers.write_of_ne _ (by omega), Registers.write_of_ne _ (by omega),
      Registers.write_of_ne _ (by omega), Registers.write_of_ne _ (by omega)]
  · rw [if_neg reclaims]

@[simp]
theorem writeMap_of_lt (other : regMeMask + 4 < reg) :
    writeMap input map regs reg =
      (((writeRemap map (((((regs.writeLow regTom map.tom).writeHigh
        (regTom + 4) map.tom).writeLow regTolud map.toludbase).writeLow regTouud
          map.touudbase).writeHigh (regTouud + 4) map.touudbase)).writeLow regTseg
            map.tsegbase).writeLow regGfx map.gfxstolenbase).writeLow regGtt map.gttbase reg :=
  writeMe_of_lt (.inr other)

theorem Reset.written (reset : Reset regs) : Written map regs (writeMap input map regs) := by
  have low := reset.low
  have high := reset.high
  simp only [List.forall_mem_cons, List.not_mem_nil, false_implies, implies_true,
    and_true, BitVec.reduceNot] at low high
  obtain ⟨tom, tolud, touud, tseg, gfx, gtt⟩ := low
  obtain ⟨tomHigh, touudHigh⟩ := high
  -- The writes behind the one of a register are passed over, and then those in front of it.
  exact
    { ggc := by
        rw [writeMap, writeMe_of_lt (.inl (by decide))]
        simp (disch := decide)
      tom := by
        constructor
        · simp (disch := decide) [tom]
        · simp (disch := decide) [tomHigh]
      tolud := by simp (disch := decide) [tolud]
      touud := by
        constructor
        · simp (disch := decide) [touud]
        · simp (disch := decide) [touudHigh]
      tseg := by simp (disch := decide) [tseg]
      gfx := by simp (disch := decide) [gfx]
      gtt := by simp (disch := decide) [gtt]
      remap := fun reclaims => by
        rw [writeMap_of_lt (by decide), writeMap_of_lt (by decide), writeMap_of_lt (by decide),
          writeMap_of_lt (by decide), writeRemap, if_pos reclaims]
        simp (disch := decide) }

end Written

section InMib

variable {map : Map} {before regs : Registers}

theorem toNat_wide (regs : Registers) (reg : Nat) :
    (regs.wide reg).toNat = (regs (reg + 4)).toNat * 2 ^ 32 + (regs reg).toNat := by
  have low := (regs reg).isLt
  have high := (regs (reg + 4)).isLt
  rw [Registers.wide, BitVec.toNat_or, BitVec.toNat_shiftLeft,
    BitVec.toNat_setWidth, BitVec.toNat_setWidth, Nat.shiftLeft_eq,
    Nat.mod_eq_of_lt (by omega), Nat.mod_eq_of_lt (by omega),
    Nat.mod_eq_of_lt (by omega), ← Nat.shiftLeft_eq,
    ← Nat.shiftLeft_add_eq_or_of_lt low]

theorem toNat_shiftLeft_mib (value : BitVec 32) :
    (value <<< 20).toNat = value.toNat % 4096 * 2 ^ 20 := by
  rw [BitVec.toNat_shiftLeft, Nat.shiftLeft_eq]
  omega

theorem toNat_shiftRight_mib (value : BitVec 32) : (value >>> 12).toNat = value.toNat / 4096 := by
  rw [BitVec.toNat_ushiftRight, Nat.shiftRight_eq_div_pow]

variable {reg : Nat} {value : BitVec 32}

theorem toNat_wide_of_words (words : (regs reg).toNat = value.toNat % 4096 * 2 ^ 20 ∧
      (regs (reg + 4)).toNat = value.toNat / 4096) :
    (regs.wide reg).toNat = value.toNat * 2 ^ 20 := by
  rw [toNat_wide, words.1, words.2]
  omega

theorem wideMib_of_words (words : (regs reg).toNat = value.toNat % 4096 * 2 ^ 20 ∧
      (regs (reg + 4)).toNat = value.toNat / 4096) : wideMib regs reg = value.toNat := by
  rw [wideMib, BitVec.toNat_ushiftRight, toNat_wide_of_words words, Nat.shiftRight_eq_div_pow]
  exact Nat.mul_div_cancel _ (by decide)

theorem mib_of_lowWord (word : regs reg = lowWord value) (small : value.toNat < 4096) :
    mib regs reg = value.toNat ∧ (regs reg).toNat = value.toNat * 2 ^ 20 := by
  rw [mib, BitVec.toNat_ushiftRight, word, toNat_lowWord, Nat.mod_eq_of_lt small,
    Nat.shiftRight_eq_div_pow]
  exact ⟨Nat.mul_div_cancel _ (by decide), rfl⟩

section

variable (written : Written map before regs)
include written

theorem Written.wideMib_touud : wideMib regs regTouud = map.touudbase.toNat :=
  wideMib_of_words (by
    rw [written.touud.1, written.touud.2]
    exact ⟨toNat_lowWord _, toNat_highWord _⟩)

theorem Written.toNat_tom : (regs.wide regTom).toNat = map.tom.toNat * 2 ^ 20 :=
  toNat_wide_of_words (by
    rw [written.tom.1, written.tom.2]
    exact ⟨toNat_lowWord _, toNat_highWord _⟩)

theorem Written.remapMib (reclaims : map.reclaim) :
    wideMib regs regRemapBase = map.remapbase.toNat ∧
      wideMib regs regRemapLimit = map.remaplimit.toNat := by
  obtain ⟨base, baseHigh, limit, limitHigh⟩ := written.remap reclaims
  constructor
  · apply wideMib_of_words
    rw [base, baseHigh]
    exact ⟨toNat_shiftLeft_mib _, toNat_shiftRight_mib _⟩
  · apply wideMib_of_words
    rw [limit, limitHigh]
    exact ⟨toNat_shiftLeft_mib _, toNat_shiftRight_mib _⟩

end

theorem toNat_field {width count : Nat} (wide : 16 ≤ width) (ggc : BitVec 16)
    (shift : Nat) (narrow : count ≤ width) :
    (ggc.setWidth width >>> shift &&& BitVec.ofNat width (2 ^ count - 1)).toNat =
      ggc.toNat / 2 ^ shift % 2 ^ count := by
  have room : 2 ^ 16 ≤ 2 ^ width := Nat.pow_le_pow_right (by decide) wide
  have mask : 2 ^ count ≤ 2 ^ width := Nat.pow_le_pow_right (by decide) narrow
  have positive : 0 < 2 ^ count := Nat.two_pow_pos count
  have small := ggc.isLt
  rw [BitVec.toNat_and, BitVec.toNat_ushiftRight, BitVec.toNat_setWidth,
    Nat.mod_eq_of_lt (by omega), Nat.shiftRight_eq_div_pow, BitVec.toNat_ofNat,
    Nat.mod_eq_of_lt (by omega)]
  exact Nat.and_two_pow_sub_one_eq_mod _ count

theorem toNat_gfxStolenK (ggc : BitVec 16) :
    (if ggc &&& 2 = 0 then ((ggc.setWidth 64 >>> 3) &&& 0x1f#64) * 32 * 1024
      else 0 : BitVec 64).toNat = (gfxStolen ggc).toNat * 1024 := by
  rw [gfxStolen]
  by_cases decoded : ggc &&& 2 = 0
  · have wide : (ggc.setWidth 64 >>> 3 &&& 0x1f#64).toNat = ggc.toNat / 8 % 32 :=
      toNat_field (by decide) ggc 3 (show 5 ≤ 64 by decide)
    have narrow : (ggc.setWidth 32 >>> 3 &&& 0x1f#32).toNat = ggc.toNat / 8 % 32 :=
      toNat_field (by decide) ggc 3 (show 5 ≤ 32 by decide)
    rw [if_pos decoded, if_pos decoded, BitVec.toNat_mul, BitVec.toNat_mul,
      BitVec.toNat_mul, wide, narrow]
    change ggc.toNat / 8 % 32 * 32 % 2 ^ 64 * 1024 % 2 ^ 64 =
      ggc.toNat / 8 % 32 * 32 % 2 ^ 32 * 1024
    omega
  · rw [if_neg decoded, if_neg decoded]
    rfl

theorem toNat_gttSizeK (ggc : BitVec 16) :
    (if ggc &&& 2 = 0 then ((ggc.setWidth 64 >>> 8) &&& 0x3#64) * 1024
      else 0 : BitVec 64).toNat = (gttSize ggc).toNat * 1024 := by
  rw [gttSize]
  by_cases decoded : ggc &&& 2 = 0
  · have wide : (ggc.setWidth 64 >>> 8 &&& 0x3#64).toNat = ggc.toNat / 256 % 4 :=
      toNat_field (by decide) ggc 8 (show 2 ≤ 64 by decide)
    have narrow : (ggc.setWidth 32 >>> 8 &&& 0x3#32).toNat = ggc.toNat / 256 % 4 :=
      toNat_field (by decide) ggc 8 (show 2 ≤ 32 by decide)
    rw [if_pos decoded, if_pos decoded, BitVec.toNat_mul, wide, narrow]
    change ggc.toNat / 256 % 4 * 1024 % 2 ^ 64 = _
    omega
  · rw [if_neg decoded, if_neg decoded]
    rfl

/-- The memory of the ME is below the top, and it is at most what is reserved in
addition. -/
theorem meSize_spec {tom meBase tolud : BitVec 64} {tomMib toludMib : Nat}
    (tomNat : tom.toNat = tomMib * 2 ^ 20) (toludNat : tolud.toNat = toludMib * 2 ^ 20)
    (le : toludMib ≤ tomMib) (small : tomMib < 65536) :
    (if meBase = tolud then (((tom - meBase) >>> 10).setWidth 32).setWidth 64 * 1024
      else 0 : BitVec 64).toNat ≤ 65536 * 2 ^ 20 := by
  by_cases adjacent : meBase = tolud
  · subst adjacent
    have difference : (tom - meBase).toNat = (tomMib - toludMib) * 2 ^ 20 := by
      rw [BitVec.toNat_sub_of_le (by rw [BitVec.le_def]; omega), tomNat, toludNat]
      omega
    rw [if_pos rfl, BitVec.toNat_mul, BitVec.toNat_setWidth, BitVec.toNat_setWidth,
      BitVec.toNat_ushiftRight, difference, Nat.shiftRight_eq_div_pow]
    change _ * 1024 % 2 ^ 64 ≤ _
    omega
  · rw [if_neg adjacent]
    exact Nat.zero_le _

theorem Written.umaMemory {input : Input}
    (written : Written map before regs) (laid : Laid input map)
    (gfx : map.gfxstolen = gfxStolen regs.ggc) (gtt : map.gttsize = gttSize regs.ggc)
    (low : map.toludbase.toNat < 4096) (total : map.tom.toNat < 65536) :
    (umaMemory regs).1.toNat = map.tsegbase.toNat * 1024 ∧
      (umaMemory regs).2.1.toNat = map.tsegbase.toNat * 2 ^ 20 ∧
        (map.toludbase.toNat - map.tsegbase.toNat) * 2 ^ 20 ≤ (umaMemory regs).2.2.toNat ∧
          (umaMemory regs).2.2.toNat < 2 ^ 42 := by
  have room := laid.room
  have gttRoom := laid.gtt
  have gfxRoom := laid.gfx
  have tolud_le := laid.tolud_le
  obtain ⟨-, toludNat⟩ := mib_of_lowWord written.tolud low
  obtain ⟨-, tsegNat⟩ := mib_of_lowWord written.tseg (by omega)
  have toludWide : ((regs regTolud).setWidth 64).toNat = map.toludbase.toNat * 2 ^ 20 := by
    rw [BitVec.toNat_setWidth, toludNat]
    omega
  have tsegWide : ((regs regTseg).setWidth 64).toNat = map.tsegbase.toNat * 2 ^ 20 := by
    rw [BitVec.toNat_setWidth, tsegNat]
    omega
  have top : ((regs regTolud >>> 10).setWidth 64).toNat = map.toludbase.toNat * 1024 := by
    rw [BitVec.toNat_setWidth, BitVec.toNat_ushiftRight, toludNat, Nat.shiftRight_eq_div_pow]
    omega
  have gfxNat := toNat_gfxStolenK regs.ggc
  have gttNat := toNat_gttSizeK regs.ggc
  rw [← gfx] at gfxNat
  rw [← gtt] at gttNat
  have meBound := @meSize_spec _ (regs.wide regMeBase) _ _ _ written.toNat_tom
    toludWide (by omega) total
  unfold SandybridgeMap.umaMemory
  extract_lets tolud tom meBase tomk meSize gfxK gttK belowGtt size tsegBase umaSize tomkEnd
  change meSize.toNat ≤ _ at meBound
  change gfxK.toNat = _ at gfxNat
  change gttK.toNat = _ at gttNat
  change tomk.toNat = _ at top
  change (tsegBase.setWidth 64).toNat = _ at tsegWide
  have mul : ∀ word : BitVec 64, word.toNat < 2 ^ 50 → (word * 1024).toNat = word.toNat * 1024 := by
    intro word bound
    rw [BitVec.toNat_mul]
    change word.toNat * 1024 % 2 ^ 64 = _
    omega
  have sub : ∀ {first second : BitVec 64}, second.toNat ≤ first.toNat →
      (first - second).toNat = first.toNat - second.toNat :=
    fun le => BitVec.toNat_sub_of_le le
  have gttBase : belowGtt.toNat = map.gttbase.toNat * 1024 := by
    have once : (tomk - gfxK).toNat = tomk.toNat - gfxK.toNat := sub (by omega)
    have twice : belowGtt.toNat = _ := sub (by rw [once]; omega)
    rw [twice, once, top, gfxNat, gttNat]
    omega
  have umaNat : umaSize.toNat = map.tsegsize.toNat * 1024 := by
    have bytes : (belowGtt * 1024).toNat = map.gttbase.toNat * 1024 * 1024 := by
      rw [mul _ (by omega), gttBase]
    have difference : (belowGtt * 1024 - tsegBase.setWidth 64).toNat =
        map.gttbase.toNat * 1024 * 1024 - map.tsegbase.toNat * 2 ^ 20 := by
      rw [sub (by omega), bytes, tsegWide]
    change (((belowGtt * 1024 - tsegBase.setWidth 64) >>> 10).setWidth 32).toNat = _
    rw [BitVec.toNat_setWidth, BitVec.toNat_ushiftRight, difference, Nat.shiftRight_eq_div_pow]
    omega
  have umaWide : (umaSize.setWidth 64).toNat = map.tsegsize.toNat * 1024 := by
    rw [BitVec.toNat_setWidth, umaNat]
    omega
  have endNat : tomkEnd.toNat = map.tsegbase.toNat * 1024 := by
    have difference : tomkEnd.toNat = _ := sub (by omega)
    rw [difference, gttBase, umaWide]
    omega
  have sizeNat : (size + umaSize.setWidth 64 * 1024).toNat =
      meSize.toNat + map.gfxstolen.toNat * 2 ^ 20 + map.gttsize.toNat * 2 ^ 20 +
        map.tsegsize.toNat * 2 ^ 20 := by
    change (meSize + gfxK * 1024 + gttK * 1024 + umaSize.setWidth 64 * 1024).toNat = _
    rw [BitVec.toNat_add, BitVec.toNat_add, BitVec.toNat_add, mul _ (by omega),
      mul _ (by omega), mul _ (by omega), gfxNat, gttNat, umaWide]
    omega
  refine ⟨endNat, ?_, ?_, ?_⟩
  · change (tomkEnd * 1024).toNat = _
    rw [mul _ (by omega), endNat]
    omega
  · change _ ≤ (size + umaSize.setWidth 64 * 1024).toNat
    rw [sizeNat]
    omega
  · change (size + umaSize.setWidth 64 * 1024).toNat < _
    rw [sizeNat]
    omega

end InMib

section Reported

variable {map : Map} {before regs : Registers}

theorem reportedRam_append {first second : List Resource} {address : Nat} :
    ReportedRam (first ++ second) address ↔
      ReportedRam first address ∨ ReportedRam second address := by
  simp only [ReportedRam, List.mem_append, or_and_right, exists_or]

theorem reportedRam_fixed {index : Nat} {basek sizek : BitVec 32} {address : Nat} :
    ReportedRam (fixedMemResource .ram index basek sizek) address ↔
      basek.toNat * 1024 ≤ address ∧ address < basek.toNat * 1024 + sizek.toNat * 1024 := by
  rw [fixedMemResource]
  by_cases empty : sizek = 0
  · rw [if_pos empty, empty]
    refine iff_of_false (fun ⟨_, member, _⟩ => List.not_mem_nil member) ?_
    change ¬ (_ ∧ address < _ + 0 * 1024)
    omega
  · rw [if_neg empty]
    simp [ReportedRam]

theorem kind_of_mem_numbered {index : Nat} {ranges : List (Kind × BitVec 32 × BitVec 32)}
    {resource : Resource} (member : resource ∈ numbered index ranges) :
    ∃ range ∈ ranges, resource.kind = range.1 := by
  rw [numbered, List.mem_flatMap] at member
  obtain ⟨⟨⟨kind, basek, sizek⟩, number⟩, among, within⟩ := member
  dsimp only at within
  rw [fixedMemResource] at within
  split_ifs at within
  · cases within
  · rw [List.mem_singleton] at within
    subst within
    exact ⟨(kind, basek, sizek), List.fst_mem_of_mem_zipIdx among, rfl⟩

theorem not_reportedRam_addFixedResources (bridge : Bridge)
    (umaMemoryBase umaMemorySize : BitVec 64) (index address : Nat) :
    ¬ ReportedRam (addFixedResources bridge regs umaMemoryBase umaMemorySize index) address := by
  rintro ⟨resource, member, isRam, -⟩
  obtain ⟨range, among, kind⟩ := kind_of_mem_numbered member
  rw [isRam] at kind
  simp only [List.mem_append, List.mem_cons, List.not_mem_nil, or_false] at among
  rcases among with (((rfl | rfl | rfl) | ramoops) | badRam) | iommu
  · cases kind
  · cases kind
  · cases kind
  · cases kept : bridge.ramoops with
    | none =>
      rw [kept] at ramoops
      cases ramoops
    | some area =>
      rw [kept] at ramoops
      obtain rfl := List.mem_singleton.mp ramoops
      cases kind
  · split_ifs at badRam
    · simp only [List.mem_cons, List.not_mem_nil, or_false] at badRam
      rcases badRam with rfl | rfl <;> cases kind
    · cases badRam
  · split_ifs at iommu
    · simp only [List.mem_cons, List.not_mem_nil, or_false] at iommu
      rcases iommu with rfl | rfl <;> cases kind
    · cases iommu

/-- The RAM that is reported: around the legacy hole up to the TSEG, and from 4 GiB
to the top. -/
theorem reportedRam_iff (bridge : Bridge) {tsegMib touudMib : Nat}
    (below : (umaMemory regs).1.toNat = tsegMib * 1024)
    (touud : (regs.wide regTouud).toNat = touudMib * 2 ^ 20) (positive : 1 ≤ tsegMib)
    (low : tsegMib < 4096) (high : touudMib < 2 ^ 20) (address : Nat) :
    ReportedRam (pciDomainSetResources bridge regs) address ↔
      address < 0xa0000 ∨ (2 ^ 20 ≤ address ∧ address < tsegMib * 2 ^ 20) ∨
        (2 ^ 32 ≤ address ∧ address < touudMib * 2 ^ 20) := by
  have hole : (legacyHoleBaseK + legacyHoleSizeK).toNat = 1024 := by decide
  have holeWide : ((legacyHoleBaseK + legacyHoleSizeK).setWidth 64).toNat = 1024 := by
    decide
  have base : (legacyHoleBaseK).toNat = 640 := by decide
  have second : (((umaMemory regs).1 -
      (legacyHoleBaseK + legacyHoleSizeK).setWidth 64).setWidth 32).toNat =
        tsegMib * 1024 - 1024 := by
    rw [BitVec.toNat_setWidth, BitVec.toNat_sub_of_le
      (by rw [BitVec.le_def]; omega), below, holeWide]
    omega
  have touudK : (regs.wide regTouud >>> 10).toNat = touudMib * 1024 := by
    rw [BitVec.toNat_ushiftRight, touud, Nat.shiftRight_eq_div_pow]
    omega
  have limit : (4096 * 1024 : BitVec 64).toNat = 4096 * 1024 := by decide
  have start : (4096 * 1024 : BitVec 32).toNat = 4096 * 1024 := by decide
  have third : ReportedRam
      (if (4096 * 1024 : BitVec 64) < regs.wide regTouud >>> 10 then
        fixedMemResource .ram 5 (4096 * 1024)
          ((regs.wide regTouud >>> 10 - (4096 * 1024 : BitVec 64)).setWidth 32)
      else []) address ↔ 2 ^ 32 ≤ address ∧ address < touudMib * 2 ^ 20 := by
    by_cases more : (4096 * 1024 : BitVec 64) < regs.wide regTouud >>> 10
    · have above : 4096 * 1024 < touudMib * 1024 := by
        rw [BitVec.lt_def, limit, touudK] at more
        exact more
      have size : ((regs.wide regTouud >>> 10 -
          (4096 * 1024 : BitVec 64)).setWidth 32).toNat = touudMib * 1024 - 4096 * 1024 := by
        rw [BitVec.toNat_setWidth, BitVec.toNat_sub_of_le
          (by rw [BitVec.le_def, limit, touudK]; omega), touudK, limit]
        omega
      rw [if_pos more, reportedRam_fixed, start, size]
      omega
    · rw [if_neg more]
      rw [BitVec.lt_def, limit, touudK] at more
      refine iff_of_false (fun ⟨_, member, _⟩ => List.not_mem_nil member) ?_
      omega
  rw [pciDomainSetResources]
  simp only [reportedRam_append, third, reportedRam_fixed,
    not_reportedRam_addFixedResources, or_false]
  rw [hole, second, base]
  change (0 * 1024 ≤ _ ∧ _ < 0 * 1024 + _ ∨ _) ∨ _ ↔ _
  omega

theorem numbered_cons (index : Nat) (kind : Kind) (basek sizek : BitVec 32)
    (rest : List (Kind × BitVec 32 × BitVec 32)) :
    numbered index ((kind, basek, sizek) :: rest) =
      fixedMemResource kind index basek sizek ++ numbered (index + 1) rest := by
  rw [numbered, List.zipIdx_cons, List.flatMap_cons, numbered]

theorem uma_mem (bridge : Bridge) {umaMemoryBase umaMemorySize : BitVec 64}
    (some : (umaMemorySize >>> 10).setWidth 32 ≠ (0 : BitVec 32)) (index : Nat) :
    ⟨.mmio, index, ((umaMemoryBase >>> 10).setWidth 32).toNat * 1024,
        ((umaMemorySize >>> 10).setWidth 32).toNat * 1024⟩ ∈
      addFixedResources bridge regs umaMemoryBase umaMemorySize index := by
  rw [addFixedResources]
  simp only [List.cons_append, List.nil_append, numbered_cons]
  rw [fixedMemResource, if_neg some]
  exact List.mem_cons_self

theorem reserved_of_umaMemory (bridge : Bridge) {tseg tolud : Nat}
    (base : (umaMemory regs).2.1.toNat = tseg * 2 ^ 20)
    (size : (tolud - tseg) * 2 ^ 20 ≤ (umaMemory regs).2.2.toNat)
    (sizeBound : (umaMemory regs).2.2.toNat < 2 ^ 42) (less : tseg < tolud) (low : tolud < 4096) :
    ∃ resource ∈ pciDomainSetResources bridge regs,
      resource.kind = .mmio ∧ resource.base ≤ tseg * 2 ^ 20 ∧
        tolud * 2 ^ 20 ≤ resource.base + resource.size := by
  rw [pciDomainSetResources]
  revert base size sizeBound
  rcases umaMemory regs with ⟨tomk, umaMemoryBase, umaMemorySize⟩
  dsimp only
  intro base size sizeBound
  have sizeK : ((umaMemorySize >>> 10).setWidth 32).toNat = umaMemorySize.toNat / 1024 := by
    rw [BitVec.toNat_setWidth, BitVec.toNat_ushiftRight, Nat.shiftRight_eq_div_pow]
    omega
  have baseK : ((umaMemoryBase >>> 10).setWidth 32).toNat = tseg * 1024 := by
    rw [BitVec.toNat_setWidth, BitVec.toNat_ushiftRight, base, Nat.shiftRight_eq_div_pow]
    omega
  have some : (umaMemorySize >>> 10).setWidth 32 ≠ (0 : BitVec 32) := by
    intro none
    rw [none] at sizeK
    change 0 = _ at sizeK
    omega
  refine ⟨_, List.mem_append_right _ (uma_mem bridge some 6), rfl, ?_, ?_⟩
  · dsimp only
    rw [baseK]
    exact Nat.le_of_eq (Nat.mul_assoc tseg 1024 1024)
  · dsimp only
    rw [baseK, sizeK]
    have whole : (tolud - tseg) * 1024 ≤ umaMemorySize.toNat / 1024 :=
      (Nat.le_div_iff_mul_le (by decide)).mpr (by rwa [Nat.mul_assoc])
    have parts : tolud = tseg + (tolud - tseg) := (Nat.add_sub_of_le less.le).symm
    linarith

end Reported

section Decoding

variable {regs : Registers} {address : Nat}

theorem decode_low (below : address < mib regs regTolud * 2 ^ 20) :
    decode regs address = some address :=
  if_pos below

/-- Above 4 GiB an address is reclaimed if it is in the window, and the window ends
at the top. -/
theorem decode_high {base touud : Nat} (above : mib regs regTolud * 2 ^ 20 ≤ address)
    (isBase : wideMib regs regRemapBase = base) (isLimit : wideMib regs regRemapLimit + 1 = touud)
    (isTouud : wideMib regs regTouud = touud) (high : 2 ^ 32 ≤ address)
    (below : address < touud * 2 ^ 20) :
    decode regs address =
      if base * 2 ^ 20 ≤ address then
        some (mib regs regTolud * 2 ^ 20 + (address - base * 2 ^ 20))
      else some address := by
  rw [decode, if_neg (by omega), isBase]
  by_cases inside : base * 2 ^ 20 ≤ address
  · rw [if_pos (by omega), if_pos inside]
  · rw [if_neg (by omega), if_neg inside, if_pos (by omega)]

end Decoding

section Main

variable {input : Input} {regs : Registers}

/-- The memory map is faithful if the low memory ends below 4 GiB, and if there is
memory below the TSEG. -/
theorem mapFaithful (bridge : Bridge) (sane : Sane input regs.ggc) (reset : Reset regs)
    (low : (memoryMap input regs.ggc).toludbase.toNat < 4096)
    (positive : 1 ≤ (memoryMap input regs.ggc).tsegbase.toNat) :
    Faithful input (memoryMap input regs.ggc) (dramMemorymap input regs)
      (pciDomainSetResources bridge (dramMemorymap input regs)) := by
  have laid := sane.laid
  have written : Written (memoryMap input regs.ggc) regs (dramMemorymap input regs) := reset.written
  have ggc : (dramMemorymap input regs).ggc = regs.ggc := by
    rw [Registers.ggc, Registers.ggc, written.ggc]
  have gfxSize : (memoryMap input regs.ggc).gfxstolen =
      gfxStolen (dramMemorymap input regs).ggc := by
    rw [ggc]
    rfl
  have gttSize : (memoryMap input regs.ggc).gttsize = gttSize (dramMemorymap input regs).ggc := by
    rw [ggc]
    rfl
  have total := sane.total
  rw [← laid.tom] at total
  have uma := written.umaMemory laid gfxSize gttSize low total
  revert laid written low positive total uma
  generalize memoryMap input regs.ggc = map
  generalize dramMemorymap input regs = regs'
  intro low positive laid written total ⟨below, base, size, sizeBound⟩
  have room := laid.room
  have gtt := laid.gtt
  have gfx := laid.gfx
  have tolud_le := laid.tolud_le
  have tsegPositive := laid.tseg_pos
  obtain ⟨tolud, -⟩ := mib_of_lowWord written.tolud low
  obtain ⟨gfxMib, -⟩ := mib_of_lowWord written.gfx (by omega)
  obtain ⟨gttMib, -⟩ := mib_of_lowWord written.gtt (by omega)
  obtain ⟨tsegMib, -⟩ := mib_of_lowWord written.tseg (by omega)
  have touudNat : (regs'.wide regTouud).toNat = map.touudbase.toNat * 2 ^ 20 :=
    toNat_wide_of_words (by
      rw [written.touud.1, written.touud.2]
      exact ⟨toNat_lowWord _, toNat_highWord _⟩)
  have touud_lt : map.touudbase.toNat < 2 ^ 20 := by
    by_cases reclaims : map.reclaim = true
    · rw [laid.touud reclaims]
      omega
    · rw [laid.touud_rest reclaims]
      omega
  have reported := reportedRam_iff bridge below touudNat positive (by omega) touud_lt
  have reserved : ∃ resource ∈ pciDomainSetResources bridge regs',
      resource.kind = .mmio ∧ resource.base ≤ map.tsegbase.toNat * 2 ^ 20 ∧
        map.toludbase.toNat * 2 ^ 20 ≤ resource.base + resource.size :=
    reserved_of_umaMemory bridge base size sizeBound (by omega) (by omega)
  clear below base size sizeBound
  have lowSpec : ∀ address, address < map.tsegbase.toNat * 2 ^ 20 →
      decode regs' address = some address ∧ Usable input map address := by
    intro address inside
    have inLow : address < map.toludbase.toNat * 2 ^ 20 :=
      inside.trans_le (Nat.mul_le_mul_right _ (by omega))
    refine ⟨decode_low (by rwa [tolud]), inLow.trans_le (Nat.mul_le_mul_right _ tolud_le),
      fun within => ?_⟩
    exact absurd within.1 (Nat.not_le.mpr inside)
  have highSpec : ∀ address, 2 ^ 32 ≤ address →
      address < map.touudbase.toNat * 2 ^ 20 →
        map.reclaim = true ∧ decode regs' address =
          if map.remapbase.toNat * 2 ^ 20 ≤ address then
            some (map.toludbase.toNat * 2 ^ 20 + (address - map.remapbase.toNat * 2 ^ 20))
          else some address := by
    intro address high inside
    have reclaims : map.reclaim = true := by
      by_contra none
      have rest := laid.touud_rest none
      have more := mt laid.reclaim_iff.mpr none
      omega
    obtain ⟨baseMib, limitMib⟩ := written.remapMib reclaims
    refine ⟨reclaims, ?_⟩
    rw [decode_high (by rw [tolud]; omega) baseMib
      (by rw [limitMib]; exact laid.remaplimit reclaims) written.wideMib_touud high
      inside, tolud]
  have remapbase := laid.remapbase
  have touud := laid.touud
  have tsegLow : map.tsegbase.toNat * 2 ^ 20 ≤ map.toludbase.toNat * 2 ^ 20 :=
    Nat.mul_le_mul_right _ (by omega)
  have lowOrHigh : ∀ address, ReportedRam (pciDomainSetResources bridge regs') address →
      address < map.tsegbase.toNat * 2 ^ 20 ∨
        (2 ^ 32 ≤ address ∧ address < map.touudbase.toNat * 2 ^ 20) := by
    intro address isReported
    rcases (reported address).mp isReported with hole | ⟨-, inside⟩ | high
    · exact .inl (by omega)
    · exact .inl inside
    · exact .inr high
  -- Where the addresses above 4 GiB lead to.
  have highPlace : ∀ address, 2 ^ 32 ≤ address →
      address < map.touudbase.toNat * 2 ^ 20 → ∃ place,
        decode regs' address = some place ∧ Usable input map place ∧
          map.tsegbase.toNat * 2 ^ 20 ≤ place ∧
            ((map.remapbase.toNat * 2 ^ 20 ≤ address ∧ place < 2 ^ 32 ∧
                place = map.toludbase.toNat * 2 ^ 20 + (address - map.remapbase.toNat * 2 ^ 20)) ∨
              (2 ^ 32 ≤ place ∧ place = address)) := by
    intro address high inside
    obtain ⟨reclaims, decoded⟩ := highSpec address high inside
    have top := touud reclaims
    clear lowOrHigh highSpec lowSpec reported
    by_cases above : map.remapbase.toNat * 2 ^ 20 ≤ address
    · rw [if_pos above] at decoded
      have atLeast := Nat.le_add_right (map.toludbase.toNat * 2 ^ 20)
        (address - map.remapbase.toNat * 2 ^ 20)
      have bounds : map.toludbase.toNat * 2 ^ 20 + (address - map.remapbase.toNat * 2 ^ 20) <
          min 4096 (map.tom.toNat - input.meUmaSize.toNat) * 2 ^ 20 := by omega
      exact ⟨_, decoded, ⟨bounds.trans_le (Nat.mul_le_mul_right _ (min_le_right _ _)),
        fun within => absurd within.2 (Nat.not_lt.mpr atLeast)⟩, tsegLow.trans atLeast,
        .inl ⟨above, bounds.trans_le (Nat.mul_le_mul_right _ (min_le_left 4096 _)), rfl⟩⟩
    · rw [if_neg above] at decoded
      have under := Nat.lt_of_not_le above
      have more : 4096 < map.remapbase.toNat := by omega
      have isMax : map.remapbase.toNat = map.tom.toNat - input.meUmaSize.toNat := by omega
      have inMemory := isMax ▸ under
      have behind : map.toludbase.toNat * 2 ^ 20 ≤ address :=
        (Nat.mul_le_mul_right _ low.le).trans high
      exact ⟨_, decoded, ⟨inMemory, fun within => absurd within.2 (Nat.not_lt.mpr behind)⟩,
        tsegLow.trans behind, .inr ⟨high, rfl⟩⟩
  exact
    { decoded := fun address isReported => by
        rcases lowOrHigh address isReported with low | ⟨high, inside⟩
        · exact ⟨address, lowSpec address low⟩
        · obtain ⟨place, decoded, usable, -⟩ := highPlace address high inside
          exact ⟨place, decoded, usable⟩
      injective := fun first second firstReported secondReported same => by
        rcases lowOrHigh first firstReported with firstLow | ⟨firstHigh, firstIn⟩ <;>
          rcases lowOrHigh second secondReported with secondLow | ⟨secondHigh, secondIn⟩
        · rw [(lowSpec first firstLow).1, (lowSpec second secondLow).1] at same
          exact Option.some.inj same
        · obtain ⟨place, decoded, -, above, -⟩ := highPlace second secondHigh secondIn
          rw [(lowSpec first firstLow).1, decoded] at same
          exact absurd (Option.some.inj same ▸ firstLow) (Nat.not_lt.mpr above)
        · obtain ⟨place, decoded, -, above, -⟩ := highPlace first firstHigh firstIn
          rw [(lowSpec second secondLow).1, decoded] at same
          exact absurd ((Option.some.inj same).symm ▸ secondLow) (Nat.not_lt.mpr above)
        · obtain ⟨place, decoded, -, -, firstPlace⟩ := highPlace first firstHigh firstIn
          obtain ⟨other, decodedOther, -, -, secondPlace⟩ := highPlace second secondHigh secondIn
          rw [decoded, decodedOther] at same
          obtain rfl := Option.some.inj same
          clear highPlace highSpec lowSpec reported lowOrHigh touud remapbase
          omega
      covered := fun place above usable => by
        obtain ⟨inMemory, notStolen⟩ := usable
        by_cases under : place < map.tsegbase.toNat * 2 ^ 20
        · exact ⟨place, (reported place).mpr (.inr (.inl ⟨above, under⟩)), (lowSpec place under).1⟩
        · have behind : map.toludbase.toNat * 2 ^ 20 ≤ place := by
            by_contra inStolen
            exact notStolen ⟨Nat.not_lt.mp under, Nat.lt_of_not_le inStolen⟩
          have reclaims : map.reclaim = true := laid.reclaim_iff.mpr
            (Nat.lt_of_mul_lt_mul_right (behind.trans_lt inMemory))
          have top := touud reclaims
          by_cases inHole : place < 2 ^ 32
          · have start := Nat.le_add_right (map.remapbase.toNat * 2 ^ 20)
              (place - map.toludbase.toNat * 2 ^ 20)
            have high : 2 ^ 32 ≤ map.remapbase.toNat * 2 ^ 20 := by omega
            replace high := high.trans start
            have inside : map.remapbase.toNat * 2 ^ 20 + (place - map.toludbase.toNat * 2 ^ 20) <
                map.touudbase.toNat * 2 ^ 20 := by omega
            refine ⟨_, (reported _).mpr (.inr (.inr ⟨high, inside⟩)), ?_⟩
            rw [(highSpec _ high inside).2, if_pos start, Nat.add_sub_cancel_left,
              Nat.add_sub_cancel' behind]
          · have high := Nat.not_lt.mp inHole
            have more : 4096 < map.tom.toNat - input.meUmaSize.toNat := by omega
            have le : map.tom.toNat - input.meUmaSize.toNat ≤ map.touudbase.toNat := by omega
            have inside := inMemory.trans_le (Nat.mul_le_mul_right (2 ^ 20) le)
            refine ⟨place, (reported place).mpr (.inr (.inr ⟨high, inside⟩)), ?_⟩
            rw [(highSpec place high inside).2, if_neg]
            rw [remapbase, max_eq_right more.le]
            exact Nat.not_le.mpr inMemory
      aligned := by
        rw [tsegMib]
        exact laid.aligned
      room := by rw [tsegMib, gttMib, room]
      gtt := by rw [gttMib, gfxMib, gtt]
      gfx := by rw [gfxMib, tolud, gfx]
      reserved := reserved }

def board : Input where
  channelSizeMb0 := 2048
  channelSizeMb1 := 2048
  meUmaSize := 8
  pciMmioSize := none
  smmTsegSize := 0x800000

/-- The registers after a reset, with the sizes of the graphics memory. -/
def resetWith (ggc : BitVec 32) : Registers := fun reg => if reg = regGgc then ggc else 0

theorem reset_resetWith (ggc : BitVec 32) : Reset (resetWith ggc) where
  low := by
    intro reg member
    have other : reg ≠ regGgc := by
      rintro rfl
      exact absurd member (by decide)
    rw [resetWith, if_neg other]
    exact BitVec.zero_and
  high := by
    intro reg member
    have other : reg ≠ regGgc := by
      rintro rfl
      exact absurd member (by decide)
    rw [resetWith, if_neg other]
    exact BitVec.zero_and

theorem faithful_board :
    Faithful board (memoryMap board (resetWith 0x108).ggc)
      (dramMemorymap board (resetWith 0x108))
      (pciDomainSetResources ⟨0x50, none⟩ (dramMemorymap board (resetWith 0x108))) :=
  mapFaithful ⟨0x50, none⟩
    { total := by decide
      me_le := by decide
      mmio_le := by decide
      tseg := ⟨3, by decide⟩
      stolen_le := by decide }
    (reset_resetWith 0x108) (by decide) (by decide)

end Main

/-- A board whose hole for devices is as large as the stolen memory. -/
def smallHole : Input where
  channelSizeMb0 := 4096
  channelSizeMb1 := 4096
  meUmaSize := 0
  pciMmioSize := some 40
  smmTsegSize := 0x800000

def smallMemory : Input where
  channelSizeMb0 := 40
  channelSizeMb1 := 0
  meUmaSize := 0
  pciMmioSize := none
  smmTsegSize := 0x800000

/-- Neither may the low memory end at 4 GiB, which the register does not hold, nor
the TSEG be at the bottom, where the size of the RAM wraps. -/
theorem not_faithful_atBounds :
    (¬ ∀ (input : Input) (regs : Registers) (bridge : Bridge),
      Sane input regs.ggc → Reset regs →
        (memoryMap input regs.ggc).toludbase.toNat ≤ 4096 →
          1 ≤ (memoryMap input regs.ggc).tsegbase.toNat →
            Faithful input (memoryMap input regs.ggc) (dramMemorymap input regs)
              (pciDomainSetResources bridge (dramMemorymap input regs))) ∧
    ¬ ∀ (input : Input) (regs : Registers) (bridge : Bridge),
      Sane input regs.ggc → Reset regs →
        (memoryMap input regs.ggc).toludbase.toNat < 4096 →
          Faithful input (memoryMap input regs.ggc) (dramMemorymap input regs)
            (pciDomainSetResources bridge (dramMemorymap input regs)) := by
  constructor
  · intro claim
    have sane : Sane smallHole (resetWith 0x8).ggc :=
      { total := by decide
        me_le := by decide
        mmio_le := by decide
        tseg := ⟨3, by decide⟩
        stolen_le := by decide }
    obtain ⟨place, decoded, -⟩ := (claim smallHole (resetWith 0x8) ⟨0x50, none⟩ sane
      (reset_resetWith 0x8) (by decide) (by decide)).decoded 0
        ⟨⟨.ram, 3, 0, 0xa0000⟩, by decide +kernel, rfl, by decide, by decide⟩
    have nowhere : decode (dramMemorymap smallHole (resetWith 0x8)) 0 = none := by
      decide +kernel
    rw [nowhere] at decoded
    cases decoded
  · intro claim
    have sane : Sane smallMemory (resetWith 0x8).ggc :=
      { total := by decide
        me_le := by decide
        mmio_le := by decide
        tseg := ⟨3, by decide⟩
        stolen_le := by decide }
    obtain ⟨place, decoded, -⟩ := (claim smallMemory (resetWith 0x8) ⟨0x50, none⟩ sane
      (reset_resetWith 0x8) (by decide)).decoded (2 ^ 41)
        ⟨⟨.ram, 4, 0x100000, 0x3fffff00000⟩, by decide +kernel, rfl, by decide +kernel,
          by decide +kernel⟩
    have nowhere : decode (dramMemorymap smallMemory (resetWith 0x8)) (2 ^ 41) = none := by
      decide +kernel
    rw [nowhere] at decoded
    cases decoded

end Coreboot.SandybridgeMap
