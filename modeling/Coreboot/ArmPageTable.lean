import Coreboot.RangeWrites
import Coreboot.WordFields
import Mathlib.Tactic.Common
import Mathlib.Tactic.IntervalCases

/-!
# The page tables of an ARMv7 processor

A block of memory has one entry in the table of blocks, which maps it, leaves it unmapped or
points to a subtable with one entry a page.
-/

namespace Coreboot.Armv7

/-- The format, and the region of the subtables. -/
structure Config where
  lpae : Bool
  ttbSubtables : Nat
  count : Nat

variable (cfg : Config)

def Config.blockShift : Nat := if cfg.lpae then 21 else 20

def Config.subtablePtes : Nat := 2 ^ (cfg.blockShift - 12)

def Config.subtableSize : Nat := if cfg.lpae then 4096 else 1024

def Config.blocks : Nat := 2 ^ (32 - cfg.blockShift)

def Config.blockKb : Nat := 2 ^ (cfg.blockShift - 10)

def Config.blockMb : Nat := 2 ^ (cfg.blockShift - 20)

/-- The checks of `TTB_SUBTABLES` on the region. -/
structure Config.Valid : Prop where
  aligned : cfg.ttbSubtables % cfg.subtableSize = 0
  below : cfg.ttbSubtables + cfg.count * cfg.subtableSize ≤ 2 ^ 32

/-- An entry.  The short format uses the low 32 bits. -/
abbrev Pte := BitVec 64

def Config.attrBlock : Pte := if cfg.lpae then 0x401#64 else 0xc02#64

def Config.attrPage : Pte := if cfg.lpae then 0x403#64 else 0x32#64

def Config.attrNextlevel : Pte := if cfg.lpae then 0x3#64 else 0x1#64

def Config.pageMask : Pte := if cfg.lpae then 0x000ffffffffff000#64 else 0xfffff000#64

def Config.blockMask : Pte := if cfg.lpae then 0x000fffffffe00000#64 else 0xfff00000#64

def Config.nextlevelMask : Pte := if cfg.lpae then 0x000ffffffffff000#64 else 0xfffffc00#64

def attrUnused : Pte := 0xbadba6e0#64

inductive DcachePolicy where
  | off
  | writeback
  | writethrough
deriving DecidableEq, Repr

def Config.attrs : DcachePolicy → Pte
  | .off => if cfg.lpae then 0x60000000000000#64 else 0x10#64
  | .writeback => if cfg.lpae then 0x8#64 else 0xc#64
  | .writethrough => if cfg.lpae then 0x4#64 else 0x8#64

structure Tables where
  ttb : Nat → Pte
  subtables : Nat → Nat → Pte

def mmuFillTable (table : Nat → Pte) (startIdx endIdx : Nat)
    (offset : BitVec 32) (shift : Nat) (attr : Pte) : Nat → Pte :=
  fillRange
    (fun i => (offset + BitVec.ofNat 32 i <<< shift).setWidth 64 ||| attr)
    startIdx (endIdx - startIdx) table

def Config.subtableAddress (k : Nat) : Nat := cfg.ttbSubtables + k * cfg.subtableSize

/-- The bit for execute-never moves from 4 to 0 in a short entry of a page. -/
def Config.moveXn (attr : Pte) : Pte :=
  if ¬ cfg.lpae ∧ attr &&& 0x10#64 ≠ 0 then attr &&& ~~~ 0x10#64 ||| 0x1#64
  else attr

def Config.subtableAttr (pgdEntry : Pte) : Pte :=
  let attr := cfg.moveXn (pgdEntry &&& ~~~ cfg.blockMask)
  if attr &&& cfg.attrBlock ≠ 0 then attr &&& ~~~ cfg.attrBlock ||| cfg.attrPage
  else attr

/-- `mmu_create_subtable` for the block with an index.  Without a free subtable
the boot stops. -/
def mmuCreateSubtable (m : Tables) (index : Nat) : Option (Tables × Nat) :=
  let free := (List.range cfg.count).find? fun k =>
    m.subtables k 0 = attrUnused
  free.map fun k =>
    let pgdEntry := m.ttb index
    let startAddr := (pgdEntry &&& cfg.blockMask).setWidth 32
    let table := mmuFillTable (m.subtables k) 0 cfg.subtablePtes startAddr 12
      (cfg.subtableAttr pgdEntry)
    ({ ttb := Function.update m.ttb index
        (BitVec.ofNat 64 (cfg.subtableAddress k) ||| cfg.attrNextlevel)
       subtables := Function.update m.subtables k table }, k)

def mmuValidateCreateSubTable (m : Tables) (startKb sizeKb : Nat) : Option (Tables × Nat) :=
  let index := startKb / cfg.blockKb
  let pgdEntry := m.ttb index
  let mask := cfg.blockMask.toNat / 1024
  -- The range is contained within a single block.
  if (startKb + sizeKb - 1) &&& mask = startKb &&& mask ∧ startKb < 4 * 2 ^ 20 then
    if pgdEntry &&& ~~~ cfg.nextlevelMask ≠ cfg.attrNextlevel then
      mmuCreateSubtable cfg m index
    else
      some (m, ((pgdEntry &&& cfg.nextlevelMask).toNat - cfg.ttbSubtables) / cfg.subtableSize)
  else none

def Tables.fillSubtable (m : Tables) (k startIdx endIdx : Nat)
    (offset : BitVec 32) (attr : Pte) : Tables :=
  { m with
    subtables := Function.update m.subtables k
      (mmuFillTable (m.subtables k) startIdx endIdx offset 12 attr) }

def divRoundUp (number divisor : Nat) : Nat := (number + divisor - 1) / divisor

def mmuConfigRangeKb (m : Tables) (startKb sizeKb : Nat)
    (policy : DcachePolicy) : Option Tables := do
  let (m, table) ← mmuValidateCreateSubTable cfg m startKb sizeKb
  let attr := cfg.moveXn (cfg.attrs policy)
  -- `start_kb & mask` and `start_kb & ~mask`.
  let low := startKb % cfg.blockKb
  let high := startKb - low
  let endKb := divRoundUp (startKb + sizeKb) 4 * 4 - high
  if endKb ≤ cfg.blockKb then
    some (m.fillSubtable table (low / 4) (endKb / 4)
      (BitVec.ofNat 32 (high * 1024)) (cfg.attrPage ||| attr))
  else none

def mmuDisableRangeKb (m : Tables) (startKb sizeKb : Nat) : Option Tables := do
  let (m, table) ← mmuValidateCreateSubTable cfg m startKb sizeKb
  let low := startKb % cfg.blockKb
  let high := startKb - low
  some (m.fillSubtable table (low / 4)
    (divRoundUp ((startKb + sizeKb) % cfg.blockKb) 4)
    (BitVec.ofNat 32 (high * 1024)) 0)

def mmuDisableRange (m : Tables) (startMb sizeMb : Nat) : Option Tables :=
  if startMb + sizeMb ≤ 4 * 1024 then
    some { m with
      ttb := mmuFillTable m.ttb (startMb / cfg.blockMb)
        (divRoundUp (startMb + sizeMb) cfg.blockMb) 0 cfg.blockShift 0 }
  else none

def mmuConfigRange (m : Tables) (startMb sizeMb : Nat) (policy : DcachePolicy) : Option Tables :=
  if startMb + sizeMb ≤ 4 * 1024 then
    some { m with
      ttb := mmuFillTable m.ttb (startMb / cfg.blockMb)
        (divRoundUp (startMb + sizeMb) cfg.blockMb) 0 cfg.blockShift
        (cfg.attrBlock ||| cfg.attrs policy) }
  else none

def mmuInit (m : Tables) : Tables :=
  { m with
    subtables := fun k => if k < cfg.count then
      Function.update (m.subtables k) 0 attrUnused else m.subtables k }

inductive Call where
  | configRange (startMb sizeMb : Nat) (policy : DcachePolicy)
  | disableRange (startMb sizeMb : Nat)
  | configRangeKb (startKb sizeKb : Nat) (policy : DcachePolicy)
  | disableRangeKb (startKb sizeKb : Nat)
deriving DecidableEq, Repr

def call (m : Tables) : Call → Option Tables
  | .configRange startMb sizeMb policy => mmuConfigRange cfg m startMb sizeMb policy
  | .disableRange startMb sizeMb => mmuDisableRange cfg m startMb sizeMb
  | .configRangeKb startKb sizeKb policy =>
    mmuConfigRangeKb cfg m startKb sizeKb policy
  | .disableRangeKb startKb sizeKb => mmuDisableRangeKb cfg m startKb sizeKb

def runCalls (m : Tables) : List Call → Option Tables
  | [] => some m
  | first :: rest => (call cfg m first).bind fun m => runCalls m rest

/-- Ranges of megabytes consist of whole blocks within 4 GiB, and ranges of
kilobytes of whole pages inside one block. -/
def Call.Valid : Call → Prop
  | .configRange start size _ | .disableRange start size =>
    start % cfg.blockMb = 0 ∧ size % cfg.blockMb = 0 ∧ start + size ≤ 4 * 1024
  | .configRangeKb start size _ | .disableRangeKb start size =>
    start % 4 = 0 ∧ size % 4 = 0 ∧ 0 < size ∧ start + size ≤ 4 * 2 ^ 20 ∧
      start % cfg.blockKb + size ≤ cfg.blockKb

def Call.write : Call → RangeWrite (Option DcachePolicy)
  | .configRange start size policy =>
    ⟨start * 256, (start + size) * 256, some policy⟩
  | .disableRange start size => ⟨start * 256, (start + size) * 256, none⟩
  | .configRangeKb start size policy =>
    ⟨start / 4, (start + size) / 4, some policy⟩
  | .disableRangeKb start size => ⟨start / 4, (start + size) / 4, none⟩

/-- What the hardware does with a page: where it is, whether it can be executed
and accessed, and how it is cached. -/
structure Mapping where
  address : BitVec 64
  executeNever : Bool
  access : Bool
  cache : BitVec 3
deriving DecidableEq, Repr

def Config.blockMapping (pgdEntry : Pte) (page : Nat) : Option Mapping :=
  let address := (pgdEntry &&& cfg.blockMask) + BitVec.ofNat 64 (page % cfg.subtablePtes * 4096)
  if cfg.lpae then
    if pgdEntry.getLsbD 0 then
      some ⟨address, pgdEntry.getLsbD 54, pgdEntry.getLsbD 10, pgdEntry.extractLsb' 2 3⟩
    else none
  else if pgdEntry.extractLsb' 0 2 = 0b10#2 then
    some ⟨address, pgdEntry.getLsbD 4, pgdEntry.extractLsb' 10 2 = 0b11#2,
      (pgdEntry.extractLsb' 2 2).setWidth 3⟩
  else none

def Config.pageMapping (pte : Pte) : Option Mapping :=
  let address := pte &&& cfg.pageMask
  if cfg.lpae then
    if pte.extractLsb' 0 2 = 0b11#2 then
      some ⟨address, pte.getLsbD 54, pte.getLsbD 10, pte.extractLsb' 2 3⟩
    else none
  else if pte.getLsbD 1 then
    some ⟨address, pte.getLsbD 0, pte.extractLsb' 4 2 = 0b11#2, (pte.extractLsb' 2 2).setWidth 3⟩
  else none

def walk (m : Tables) (page : Nat) : Option Mapping :=
  let pgdEntry := m.ttb (page / cfg.subtablePtes)
  let kind := pgdEntry.extractLsb' 0 2
  if kind = (if cfg.lpae then 0b11#2 else 0b01#2) then
    let table := ((pgdEntry &&& cfg.nextlevelMask).toNat - cfg.ttbSubtables) / cfg.subtableSize
    cfg.pageMapping (m.subtables table (page % cfg.subtablePtes))
  else cfg.blockMapping pgdEntry page

/-- The mapping of a page with a policy: the page itself, execute-never when it is
uncached. -/
def Config.identity (page : Nat) : Option DcachePolicy → Option Mapping
  | none => none
  | some policy =>
    some ⟨BitVec.ofNat 64 (page * 4096), policy = .off, true,
      match policy with
      | .off => 0b000#3
      | .writeback => if cfg.lpae then 0b010#3 else 0b011#3
      | .writethrough => if cfg.lpae then 0b001#3 else 0b010#3⟩

def frame (address : Nat) (attr : Pte) : Pte := (BitVec.ofNat 32 address).setWidth 64 ||| attr

variable {cfg}

theorem within_address (number shift : Nat) :
    Within ((BitVec.ofNat 32 (number * 2 ^ shift)).setWidth 64) shift 32 := by
  intro i bit
  rw [BitVec.getLsbD_setWidth, BitVec.getLsbD_ofNat] at bit
  simp only [Bool.and_eq_true, decide_eq_true_eq] at bit
  obtain ⟨-, inside, bit⟩ := bit
  rw [Nat.testBit_mul_two_pow, Bool.and_eq_true] at bit
  exact ⟨of_decide_eq_true bit.1, inside⟩

theorem mmuFillTable_apply (table : Nat → Pte) (startIdx endIdx offset shift : Nat)
    (attr : Pte) (i : Nat) :
    mmuFillTable table startIdx endIdx (BitVec.ofNat 32 offset) shift attr i =
      if startIdx ≤ i ∧ i < endIdx then frame (offset + i * 2 ^ shift) attr
      else table i := by
  have address : BitVec.ofNat 32 offset + BitVec.ofNat 32 i <<< shift =
      BitVec.ofNat 32 (offset + i * 2 ^ shift) := by
    apply BitVec.eq_of_toNat_eq
    rw [BitVec.toNat_add, BitVec.toNat_shiftLeft, BitVec.toNat_ofNat, BitVec.toNat_ofNat,
      BitVec.toNat_ofNat, Nat.shiftLeft_eq, Nat.mod_mul_mod, ← Nat.add_mod]
  rw [mmuFillTable, fillRange_apply]
  by_cases inside : startIdx ≤ i ∧ i < endIdx
  · rw [if_pos (by omega), if_pos inside, address, frame]
  · rw [if_neg (by omega), if_neg inside]

theorem mmuFillTable_zero (table : Nat → Pte) (startIdx endIdx shift : Nat) (attr : Pte) (i : Nat) :
    mmuFillTable table startIdx endIdx 0 shift attr i =
      if startIdx ≤ i ∧ i < endIdx then frame (i * 2 ^ shift) attr
      else table i :=
  (mmuFillTable_apply table startIdx endIdx 0 shift attr i).trans (by rw [Nat.zero_add])

variable (cfg)

def Config.blockAttr : Option DcachePolicy → Pte
  | none => 0
  | some policy => cfg.attrBlock ||| cfg.attrs policy

def Config.pageAttr : Option DcachePolicy → Pte
  | none => 0
  | some policy => cfg.attrPage ||| cfg.moveXn (cfg.attrs policy)

def Config.blockEntry (block : Nat) (policy : Option DcachePolicy) : Pte :=
  frame (block * 2 ^ cfg.blockShift) (cfg.blockAttr policy)

def Config.pageEntry (page : Nat) (policy : Option DcachePolicy) : Pte :=
  frame (page * 2 ^ 12) (cfg.pageAttr policy)

def Config.tableEntry (k : Nat) : Pte :=
  BitVec.ofNat 64 (cfg.subtableAddress k) ||| cfg.attrNextlevel

variable {cfg}

theorem blockEntry_address (block : Nat) (policy : Option DcachePolicy) :
    cfg.blockEntry block policy &&& cfg.blockMask =
      (BitVec.ofNat 32 (block * 2 ^ cfg.blockShift)).setWidth 64 := by
  apply (within_address _ _).or_and_of_covers
  · cases format : cfg.lpae <;> simp only [Config.blockShift, Config.blockMask, format] <;> decide
  · cases format : cfg.lpae <;> rcases policy with _ | policy <;>
      (try cases policy) <;>
      simp only [Config.blockAttr, Config.attrBlock, Config.attrs,
        Config.blockMask, format] <;> decide

theorem subtableAttr_blockEntry (block : Nat) (policy : Option DcachePolicy) :
    cfg.subtableAttr (cfg.blockEntry block policy) = cfg.pageAttr policy := by
  have attr : cfg.blockEntry block policy &&& ~~~ cfg.blockMask =
      cfg.blockAttr policy &&& ~~~ cfg.blockMask := by
    apply (within_address _ _).or_and_of_misses
    cases format : cfg.lpae <;> simp only [Config.blockShift, Config.blockMask, format] <;> decide
  rw [Config.subtableAttr, attr]
  cases format : cfg.lpae <;> rcases policy with _ | policy <;>
    (try cases policy) <;>
    simp only [Config.blockAttr, Config.pageAttr, Config.attrBlock,
      Config.attrPage, Config.moveXn, Config.attrs, Config.blockMask, format] <;>
    decide

theorem blockEntry_not_nextlevel (block : Nat) (policy : Option DcachePolicy) :
    cfg.blockEntry block policy &&& ~~~ cfg.nextlevelMask ≠ cfg.attrNextlevel := by
  have attr : cfg.blockEntry block policy &&& ~~~ cfg.nextlevelMask =
      cfg.blockAttr policy &&& ~~~ cfg.nextlevelMask := by
    apply (within_address _ _).or_and_of_misses
    cases format : cfg.lpae <;>
      simp only [Config.blockShift, Config.nextlevelMask, format] <;> decide
  rw [attr]
  cases format : cfg.lpae <;> rcases policy with _ | policy <;>
    (try cases policy) <;>
    simp only [Config.blockAttr, Config.attrBlock, Config.attrs,
      Config.nextlevelMask, Config.attrNextlevel, format] <;> decide

theorem pageEntry_ne_unused (page : Nat) (policy : Option DcachePolicy) :
    cfg.pageEntry page policy ≠ attrUnused := by
  intro same
  have low := congrArg (fun pte => pte.extractLsb' 0 12) same
  rw [Config.pageEntry, frame, (within_address _ _).or_extractLsb (Nat.le_refl 12)] at low
  revert low
  cases format : cfg.lpae <;> rcases policy with _ | policy <;>
    (try cases policy) <;>
    simp only [Config.pageAttr, Config.attrPage, Config.moveXn, Config.attrs, format] <;> decide

variable {k block start size : Nat} {c : Call}

theorem tableEntry_eq_frame (valid : cfg.Valid) (inside : k < cfg.count) :
    ∃ number shift, cfg.subtableAddress k = number * 2 ^ shift ∧
      shift = (if cfg.lpae then 12 else 10) ∧
      cfg.subtableAddress k < 2 ^ 32 ∧
      cfg.tableEntry k = frame (number * 2 ^ shift) cfg.attrNextlevel := by
  have size : cfg.subtableSize = 2 ^ (if cfg.lpae then 12 else 10) := by
    rw [Config.subtableSize]
    split_ifs <;> rfl
  have positive : 0 < cfg.subtableSize := by
    rw [size]
    exact Nat.two_pow_pos _
  have below : cfg.subtableAddress k < 2 ^ 32 := by
    have last : (k + 1) * cfg.subtableSize ≤ cfg.count * cfg.subtableSize :=
      Nat.mul_le_mul_right _ inside
    have region := valid.below
    rw [Nat.add_mul] at last
    rw [Config.subtableAddress]
    omega
  refine ⟨cfg.ttbSubtables / cfg.subtableSize + k, _, ?_, rfl, below, ?_⟩
  · rw [← size, Nat.add_mul, Nat.div_mul_cancel
      (Nat.dvd_of_mod_eq_zero valid.aligned), Config.subtableAddress]
  · rw [← size, Nat.add_mul, Nat.div_mul_cancel (Nat.dvd_of_mod_eq_zero valid.aligned),
      Config.tableEntry, frame, ← Config.subtableAddress]
    congr 1
    apply BitVec.eq_of_toNat_eq
    rw [BitVec.toNat_setWidth, BitVec.toNat_ofNat, BitVec.toNat_ofNat]
    omega

theorem tableEntry_table (valid : cfg.Valid) (inside : k < cfg.count) :
    ((cfg.tableEntry k &&& cfg.nextlevelMask).toNat - cfg.ttbSubtables) / cfg.subtableSize = k := by
  obtain ⟨number, shift, address, isShift, below, entry⟩ := tableEntry_eq_frame valid inside
  have masked : frame (number * 2 ^ shift) cfg.attrNextlevel &&&
      cfg.nextlevelMask = (BitVec.ofNat 32 (number * 2 ^ shift)).setWidth 64 := by
    apply (within_address _ _).or_and_of_covers
    · subst isShift
      cases format : cfg.lpae <;> simp only [Config.nextlevelMask, format] <;> decide
    · cases format : cfg.lpae <;>
        simp only [Config.attrNextlevel, Config.nextlevelMask, format] <;> decide
  have positive : 0 < cfg.subtableSize := by
    rw [Config.subtableSize]
    split_ifs <;> decide
  rw [entry, masked, ← address, BitVec.toNat_setWidth, BitVec.toNat_ofNat,
    Nat.mod_eq_of_lt below, Nat.mod_eq_of_lt (by omega), Config.subtableAddress,
    Nat.add_sub_cancel_left]
  exact Nat.mul_div_cancel k positive

theorem tableEntry_nextlevel (valid : cfg.Valid) (inside : k < cfg.count) :
    cfg.tableEntry k &&& ~~~ cfg.nextlevelMask = cfg.attrNextlevel := by
  obtain ⟨number, shift, -, isShift, -, entry⟩ := tableEntry_eq_frame valid inside
  rw [entry]
  have attr : frame (number * 2 ^ shift) cfg.attrNextlevel &&&
      ~~~ cfg.nextlevelMask = cfg.attrNextlevel &&& ~~~ cfg.nextlevelMask := by
    apply (within_address _ _).or_and_of_misses
    subst isShift
    cases format : cfg.lpae <;> simp only [Config.nextlevelMask, format] <;> decide
  rw [attr]
  cases format : cfg.lpae <;>
    simp only [Config.attrNextlevel, Config.nextlevelMask, format] <;> decide

theorem tableEntry_kind (valid : cfg.Valid) (inside : k < cfg.count) :
    (cfg.tableEntry k).extractLsb' 0 2 = if cfg.lpae then 0b11#2 else 0b01#2 := by
  obtain ⟨number, shift, -, isShift, -, entry⟩ := tableEntry_eq_frame valid inside
  rw [entry, frame, (within_address _ _).or_extractLsb (by rw [isShift]; split_ifs <;> decide)]
  cases format : cfg.lpae <;> simp only [Config.attrNextlevel, format] <;> decide

theorem blockEntry_kind (block : Nat) (policy : Option DcachePolicy) :
    (cfg.blockEntry block policy).extractLsb' 0 2 ≠ if cfg.lpae then 0b11#2 else 0b01#2 := by
  rw [Config.blockEntry, frame,
    (within_address _ _).or_extractLsb
    (by rw [Config.blockShift]; split_ifs <;> decide)]
  cases format : cfg.lpae <;> rcases policy with _ | policy <;>
    (try cases policy) <;>
    simp only [Config.blockAttr, Config.attrBlock, Config.attrs, format] <;>
    decide

theorem setWidth_address {address : Nat} (below : address < 2 ^ 32) :
    (BitVec.ofNat 32 address).setWidth 64 = BitVec.ofNat 64 address := by
  apply BitVec.eq_of_toNat_eq
  rw [BitVec.toNat_setWidth, BitVec.toNat_ofNat, BitVec.toNat_ofNat]
  omega

theorem pageMapping_pageEntry {page : Nat} (inside : page < 2 ^ 20) (policy : Option DcachePolicy) :
    cfg.pageMapping (cfg.pageEntry page policy) = cfg.identity page policy := by
  have address : cfg.pageEntry page policy &&& cfg.pageMask = BitVec.ofNat 64 (page * 4096) := by
    rw [← setWidth_address (by omega)]
    apply (within_address _ _).or_and_of_covers
    · cases format : cfg.lpae <;> simp only [Config.pageMask, format] <;> decide
    · cases format : cfg.lpae <;> rcases policy with _ | policy <;>
        (try cases policy) <;>
        simp only [Config.pageAttr, Config.attrPage, Config.moveXn, Config.attrs,
          Config.pageMask, format] <;> decide
  have low {start len : Nat} (below : start + len ≤ 12) :
      (cfg.pageEntry page policy).extractLsb' start len =
        (cfg.pageAttr policy).extractLsb' start len :=
    (within_address _ _).or_extractLsb below
  have bit {i : Nat} (outside : i < 12 ∨ 32 ≤ i) :
      (cfg.pageEntry page policy).getLsbD i = (cfg.pageAttr policy).getLsbD i :=
    (within_address _ _).or_getLsbD outside
  rw [Config.pageMapping, address, low (by decide), low (by decide),
    low (by decide), low (by decide), bit (by decide), bit (by decide),
    bit (by decide), bit (by decide)]
  cases format : cfg.lpae <;> rcases policy with _ | policy <;>
    (try cases policy) <;>
    simp [Config.pageAttr, Config.attrPage, Config.moveXn, Config.attrs, Config.identity, format]

theorem blockMapping_blockEntry {j : Nat} (inside : block < cfg.blocks)
    (inBlock : j < cfg.subtablePtes) (policy : Option DcachePolicy) :
    cfg.blockMapping (cfg.blockEntry block policy) (block * cfg.subtablePtes + j) =
      cfg.identity (block * cfg.subtablePtes + j) policy := by
  have size : 2 ^ cfg.blockShift = cfg.subtablePtes * 4096 := by
    rw [Config.subtablePtes, Config.blockShift]
    split_ifs <;> rfl
  have room : block * 2 ^ cfg.blockShift + 2 ^ cfg.blockShift ≤ 2 ^ 32 := by
    have blocks : cfg.blocks * 2 ^ cfg.blockShift = 2 ^ 32 := by
      rw [Config.blocks, Config.blockShift]
      split_ifs <;> rfl
    rw [← blocks, ← Nat.succ_mul]
    exact Nat.mul_le_mul_right _ inside
  have address : (cfg.blockEntry block policy &&& cfg.blockMask) +
      BitVec.ofNat 64 ((block * cfg.subtablePtes + j) % cfg.subtablePtes * 4096) =
        BitVec.ofNat 64 ((block * cfg.subtablePtes + j) * 4096) := by
    have positive : 0 < 2 ^ cfg.blockShift := Nat.two_pow_pos _
    rw [blockEntry_address, setWidth_address (by omega), ← BitVec.ofNat_add,
      Nat.mul_add_mod', Nat.mod_eq_of_lt inBlock, size, Nat.add_mul, Nat.mul_assoc]
  have low {start len : Nat} (below : start + len ≤ 20) :
      (cfg.blockEntry block policy).extractLsb' start len =
        (cfg.blockAttr policy).extractLsb' start len := by
    refine (within_address _ _).or_extractLsb (Nat.le_trans below ?_)
    rw [Config.blockShift]
    split_ifs <;> decide
  have bit {i : Nat} (outside : i < 20 ∨ 32 ≤ i) :
      (cfg.blockEntry block policy).getLsbD i = (cfg.blockAttr policy).getLsbD i := by
    refine (within_address _ _).or_getLsbD (outside.imp_left fun below =>
      Nat.lt_of_lt_of_le below ?_)
    rw [Config.blockShift]
    split_ifs <;> decide
  rw [Config.blockMapping, address, low (by decide), low (by decide),
    low (by decide), low (by decide), bit (by decide), bit (by decide),
    bit (by decide), bit (by decide)]
  cases format : cfg.lpae <;> rcases policy with _ | policy <;>
    (try cases policy) <;>
    simp [Config.blockAttr, Config.attrBlock, Config.attrs, Config.identity, format]

theorem Config.sizes :
    (cfg.subtablePtes = 512 ∧ cfg.blockKb = 2048 ∧ cfg.blockMb = 2 ∧
        2 ^ cfg.blockShift = 2097152 ∧ cfg.blocks = 2048) ∨
      (cfg.subtablePtes = 256 ∧ cfg.blockKb = 1024 ∧ cfg.blockMb = 1 ∧
        2 ^ cfg.blockShift = 1048576 ∧ cfg.blocks = 4096) := by
  simp only [Config.subtablePtes, Config.blockKb, Config.blockMb, Config.blocks, Config.blockShift]
  split_ifs
  · exact .inl (by decide)
  · exact .inr (by decide)

variable (cfg)

/-- The entries of the blocks and pages are those of a map, with the numbers of
the subtables of the blocks. -/
structure Refines (m : Tables) (map : Nat → Option DcachePolicy)
    (tables : Nat → Option Nat) : Prop where
  block : ∀ block < cfg.blocks, tables block = none →
    ∃ policy, m.ttb block = cfg.blockEntry block policy ∧
      ∀ j < cfg.subtablePtes, map (block * cfg.subtablePtes + j) = policy
  table : ∀ block < cfg.blocks, ∀ k, tables block = some k →
    k < cfg.count ∧ m.ttb block = cfg.tableEntry k ∧
      ∀ j < cfg.subtablePtes, m.subtables k j =
        cfg.pageEntry (block * cfg.subtablePtes + j) (map (block * cfg.subtablePtes + j))
  distinct : ∀ first < cfg.blocks, ∀ second < cfg.blocks, ∀ k,
    tables first = some k → tables second = some k → first = second

variable {cfg} {m next : Tables} {map : Nat → Option DcachePolicy} {tables : Nat → Option Nat}

theorem Refines.walk (refines : Refines cfg m map tables) (valid : cfg.Valid) {page : Nat}
    (inside : page < 2 ^ 20) : walk cfg m page = cfg.identity page (map page) := by
  have position : page / cfg.subtablePtes * cfg.subtablePtes + page % cfg.subtablePtes = page := by
    rw [Nat.mul_comm]
    exact Nat.div_add_mod page cfg.subtablePtes
  have inBlocks : page / cfg.subtablePtes < cfg.blocks := by
    rcases cfg.sizes with ⟨ptes, -, -, -, blocks⟩ | ⟨ptes, -, -, -, blocks⟩ <;>
      rw [ptes, blocks] <;> omega
  have inBlock : page % cfg.subtablePtes < cfg.subtablePtes :=
    Nat.mod_lt _ (by rcases cfg.sizes with sizes | sizes <;> omega)
  rw [Armv7.walk]
  cases owner : tables (page / cfg.subtablePtes) with
  | none =>
    obtain ⟨policy, entry, same⟩ := refines.block _ inBlocks owner
    have mapped := same _ inBlock
    have mapping := blockMapping_blockEntry inBlocks inBlock policy
    rw [position] at mapped mapping
    rw [entry, if_neg (blockEntry_kind _ policy), mapping, mapped]
  | some k =>
    obtain ⟨inCount, entry, same⟩ := refines.table _ inBlocks k owner
    have pte := same _ inBlock
    rw [position] at pte
    dsimp only
    rw [entry, if_pos (tableEntry_kind valid inCount),
      tableEntry_table valid inCount, pte, pageMapping_pageEntry inside]

section

variable (refines : Refines cfg m map tables)
include refines

theorem Refines.fillBlocks (lower upper : Nat) (policy : Option DcachePolicy) :
    Refines cfg
      { m with
        ttb := mmuFillTable m.ttb lower upper 0 cfg.blockShift (cfg.blockAttr policy) }
      (RangeWrite.apply ⟨lower * cfg.subtablePtes, upper * cfg.subtablePtes, policy⟩ map)
      fun block => if lower ≤ block ∧ block < upper then none else tables block := by
  have outside {block j : Nat} (apart : ¬ (lower ≤ block ∧ block < upper))
      (inBlock : j < cfg.subtablePtes) :
      RangeWrite.apply
          ⟨lower * cfg.subtablePtes, upper * cfg.subtablePtes, policy⟩ map
          (block * cfg.subtablePtes + j) =
        map (block * cfg.subtablePtes + j) := by
    refine RangeWrite.apply_of_not_covers ?_ map
    rcases cfg.sizes with sizes | sizes <;> simp only [sizes.1] at inBlock ⊢ <;> omega
  constructor
  · intro block inBlocks owner
    dsimp only at owner ⊢
    rw [mmuFillTable_zero]
    split_ifs at owner ⊢ with inRange
    · refine ⟨policy, rfl, fun j inBlock => ?_⟩
      refine RangeWrite.apply_of_covers ?_ ?_ map <;>
        rcases cfg.sizes with sizes | sizes <;> simp only [sizes.1] at inBlock ⊢ <;> omega
    · obtain ⟨old, entry, same⟩ := refines.block block inBlocks owner
      exact ⟨old, entry, fun j inBlock => (outside inRange inBlock).trans (same j inBlock)⟩
  · intro block inBlocks k owner
    dsimp only at owner ⊢
    rw [mmuFillTable_zero]
    split_ifs at owner ⊢ with inRange
    obtain ⟨inCount, entry, same⟩ := refines.table block inBlocks k owner
    refine ⟨inCount, entry, fun j inBlock => ?_⟩
    rw [outside inRange inBlock]
    exact same j inBlock
  · intro first inFirst second inSecond k ofFirst ofSecond
    split_ifs at ofFirst ofSecond
    exact refines.distinct first inFirst second inSecond k ofFirst ofSecond

omit refines in
theorem refines_whole (m : Tables) (map : Nat → Option DcachePolicy)
    (policy : Option DcachePolicy) :
    Refines cfg
      { m with
        ttb := mmuFillTable m.ttb 0 cfg.blocks 0 cfg.blockShift (cfg.blockAttr policy) }
      (RangeWrite.apply ⟨0, 2 ^ 20, policy⟩ map) fun _ => none := by
  constructor
  · intro block inBlocks _
    dsimp only
    rw [mmuFillTable_zero, if_pos ⟨Nat.zero_le block, inBlocks⟩]
    refine ⟨policy, rfl, fun j inBlock => ?_⟩
    refine RangeWrite.apply_of_covers (Nat.zero_le _) ?_ map
    rcases cfg.sizes with sizes | sizes <;>
      simp only [sizes.1, sizes.2] at inBlock inBlocks ⊢ <;> omega
  · intro _ _ _ owner
    cases owner
  · intro _ _ _ _ _ owner
    cases owner

theorem Refines.create (inBlocks : block < cfg.blocks) (owner : tables block = none)
    (created : mmuCreateSubtable cfg m block = some (next, k)) :
    Refines cfg next map (Function.update tables block (some k)) := by
  obtain ⟨free, found, same⟩ := Option.map_eq_some_iff.mp created
  simp only [Prod.mk.injEq] at same
  obtain ⟨rfl, rfl⟩ := same
  have inCount : free < cfg.count := List.mem_range.mp (List.mem_of_find?_eq_some found)
  have unused : m.subtables free 0 = attrUnused := by
    simpa using List.find?_some found
  obtain ⟨policy, entry, mapped⟩ := refines.block block inBlocks owner
  have positive : 0 < cfg.subtablePtes := by
    rcases cfg.sizes with sizes | sizes <;> omega
  have apart (other : Nat) (inside : other < cfg.blocks) : tables other ≠ some free := by
    intro same
    have pte := (refines.table other inside free same).2.2 0 positive
    rw [unused] at pte
    exact pageEntry_ne_unused _ _ pte.symm
  constructor
  · intro other inside none
    have different : other ≠ block := by
      rintro rfl
      rw [Function.update_self] at none
      cases none
    rw [Function.update_of_ne different] at none
    dsimp only
    rw [Function.update_of_ne different]
    exact refines.block other inside none
  · intro other inside j owned
    dsimp only
    by_cases isBlock : other = block
    · subst isBlock
      rw [Function.update_self] at owned
      cases owned
      rw [Function.update_self, Function.update_self]
      refine ⟨inCount, rfl, fun j inBlock => ?_⟩
      have start : (m.ttb other &&& cfg.blockMask).setWidth 32 =
          BitVec.ofNat 32 (other * 2 ^ cfg.blockShift) := by
        rw [entry, blockEntry_address, BitVec.setWidth_setWidth_of_le _ (by decide),
          BitVec.setWidth_eq]
      rw [start, mmuFillTable_apply, if_pos ⟨Nat.zero_le j, inBlock⟩, entry,
        subtableAttr_blockEntry, mapped j inBlock, Config.pageEntry]
      congr 1
      rcases cfg.sizes with sizes | sizes <;> rw [sizes.1, sizes.2.2.2.1] <;> omega
    · rw [Function.update_of_ne isBlock] at owned
      obtain ⟨bound, table, ptes⟩ := refines.table other inside j owned
      have isOther : j ≠ free := by
        rintro rfl
        exact apart other inside owned
      rw [Function.update_of_ne isBlock, Function.update_of_ne isOther]
      exact ⟨bound, table, ptes⟩
  · intro first inFirst second inSecond j ofFirst ofSecond
    by_cases isFirst : first = block
    · by_cases isSecond : second = block
      · rw [isFirst, isSecond]
      · subst isFirst
        rw [Function.update_self] at ofFirst
        cases ofFirst
        rw [Function.update_of_ne isSecond] at ofSecond
        exact absurd ofSecond (apart second inSecond)
    · rw [Function.update_of_ne isFirst] at ofFirst
      by_cases isSecond : second = block
      · subst isSecond
        rw [Function.update_self] at ofSecond
        cases ofSecond
        exact absurd ofFirst (apart first inFirst)
      · rw [Function.update_of_ne isSecond] at ofSecond
        exact refines.distinct first inFirst second inSecond j ofFirst ofSecond

omit refines in
theorem same_block {first second : Nat} (same : first / cfg.blockKb = second / cfg.blockKb) :
    first &&& cfg.blockMask.toNat / 1024 = second &&& cfg.blockMask.toNat / 1024 := by
  have low : ∀ i < cfg.blockShift - 10, (cfg.blockMask.toNat / 1024).testBit i = false := by
    cases format : cfg.lpae <;> simp only [Config.blockShift, Config.blockMask, format] <;> decide
  apply Nat.eq_of_testBit_eq
  intro i
  rw [Nat.testBit_and, Nat.testBit_and]
  rcases Nat.lt_or_ge i (cfg.blockShift - 10) with below | above
  · rw [low i below, Bool.and_false, Bool.and_false]
  · have bit (number : Nat) : number.testBit i =
        (number / cfg.blockKb).testBit (i - (cfg.blockShift - 10)) := by
      rw [Config.blockKb, Nat.testBit_div_two_pow, Nat.sub_add_cancel above]
    rw [bit first, bit second, same]

theorem Refines.validate (valid : cfg.Valid) {startKb sizeKb : Nat}
    (inBlocks : startKb / cfg.blockKb < cfg.blocks)
    (validated : mmuValidateCreateSubTable cfg m startKb sizeKb = some (next, k)) :
    ∃ tables, Refines cfg next map tables ∧ tables (startKb / cfg.blockKb) = some k := by
  rw [mmuValidateCreateSubTable] at validated
  split_ifs at validated with inside missing
  · cases owner : tables (startKb / cfg.blockKb) with
    | none =>
      exact ⟨_, refines.create inBlocks owner validated, Function.update_self _ _ _⟩
    | some j =>
      obtain ⟨inCount, entry, -⟩ := refines.table _ inBlocks j owner
      rw [entry] at missing
      exact absurd (tableEntry_nextlevel valid inCount) missing
  · cases validated
    refine ⟨tables, refines, ?_⟩
    cases owner : tables (startKb / cfg.blockKb) with
    | none =>
      obtain ⟨policy, entry, -⟩ := refines.block _ inBlocks owner
      rw [entry] at missing
      exact absurd (not_not.mp missing) (blockEntry_not_nextlevel _ policy)
    | some j =>
      obtain ⟨inCount, entry, -⟩ := refines.table _ inBlocks j owner
      rw [entry, tableEntry_table valid inCount]

theorem Refines.fillSubtable {upper : Nat} (lower : Nat) (inBlocks : block < cfg.blocks)
    (owner : tables block = some k) (room : upper ≤ cfg.subtablePtes) (policy : Option DcachePolicy) :
    Refines cfg
      (m.fillSubtable k lower upper
        (BitVec.ofNat 32 (block * 2 ^ cfg.blockShift)) (cfg.pageAttr policy))
      (RangeWrite.apply ⟨block * cfg.subtablePtes + lower,
        block * cfg.subtablePtes + upper, policy⟩ map) tables := by
  have outside {other j : Nat} (apart : other ≠ block)
      (inBlock : j < cfg.subtablePtes) :
      RangeWrite.apply ⟨block * cfg.subtablePtes + lower,
          block * cfg.subtablePtes + upper, policy⟩ map
          (other * cfg.subtablePtes + j) =
        map (other * cfg.subtablePtes + j) := by
    refine RangeWrite.apply_of_not_covers ?_ map
    rcases cfg.sizes with sizes | sizes <;> simp only [sizes.1] at inBlock room ⊢ <;> omega
  constructor
  · intro other inside none
    obtain ⟨old, entry, same⟩ := refines.block other inside none
    have apart : other ≠ block := by
      rintro rfl
      rw [owner] at none
      cases none
    exact ⟨old, entry, fun j inBlock => (outside apart inBlock).trans (same j inBlock)⟩
  · intro other inside j owned
    obtain ⟨inCount, entry, same⟩ := refines.table other inside j owned
    refine ⟨inCount, entry, fun i inBlock => ?_⟩
    by_cases isBlock : other = block
    · subst isBlock
      obtain rfl : k = j := Option.some.inj (owner.symm.trans owned)
      rw [Tables.fillSubtable]
      dsimp only
      rw [Function.update_self, mmuFillTable_apply]
      split_ifs with inRange
      · rw [RangeWrite.apply_of_covers (by dsimp only; omega)
          (by dsimp only; omega), Config.pageEntry]
        congr 1
        rcases cfg.sizes with sizes | sizes <;> rw [sizes.1, sizes.2.2.2.1] <;> omega
      · rw [RangeWrite.apply_of_not_covers (by dsimp only; omega)]
        exact same i inBlock
    · have different : j ≠ k := by
        rintro rfl
        exact isBlock (refines.distinct other inside block inBlocks j owned owner)
      rw [outside isBlock inBlock, Tables.fillSubtable]
      dsimp only
      rw [Function.update_of_ne different]
      exact same i inBlock
  · exact refines.distinct

variable (cfg) in
/-- A disabled range of kilobytes does not end where its block ends. -/
def Call.endsInside : Call → Bool
  | .disableRangeKb start size => (start + size) % cfg.blockKb ≠ 0
  | _ => true

theorem Refines.configRange (policy : Option DcachePolicy)
    (valid : start % cfg.blockMb = 0 ∧ size % cfg.blockMb = 0) :
    ∃ tables, Refines cfg
      { m with
        ttb := mmuFillTable m.ttb (start / cfg.blockMb)
          (divRoundUp (start + size) cfg.blockMb) 0 cfg.blockShift
          (cfg.blockAttr policy) }
      (RangeWrite.apply ⟨start * 256, (start + size) * 256, policy⟩ map)
      tables := by
  have lower : start / cfg.blockMb * cfg.subtablePtes = start * 256 := by
    rcases cfg.sizes with sizes | sizes <;> simp only [sizes.1, sizes.2.2.1] at valid ⊢ <;> omega
  have upper : divRoundUp (start + size) cfg.blockMb * cfg.subtablePtes = (start + size) * 256 := by
    rw [divRoundUp]
    rcases cfg.sizes with sizes | sizes <;> simp only [sizes.1, sizes.2.2.1] at valid ⊢ <;> omega
  rw [← lower, ← upper]
  exact ⟨_, refines.fillBlocks _ _ policy⟩

theorem Refines.rangeKb (valid : cfg.Valid) {lower upper : Nat} (policy : Option DcachePolicy)
    (aligned : start % 4 = 0 ∧ size % 4 = 0) (inside : start + size ≤ 4 * 2 ^ 20 ∧ 0 < size)
    (inBlock : start % cfg.blockKb + size ≤ cfg.blockKb)
    (validated : mmuValidateCreateSubTable cfg m start size = some (next, k))
    (isLower : lower = start % cfg.blockKb / 4) (isUpper : upper = (start % cfg.blockKb + size) / 4) :
    ∃ tables, Refines cfg
      (next.fillSubtable k lower upper
        (BitVec.ofNat 32 ((start - start % cfg.blockKb) * 1024))
        (cfg.pageAttr policy))
      (RangeWrite.apply ⟨start / 4, (start + size) / 4, policy⟩ map) tables := by
  subst isLower isUpper
  have inBlocks : start / cfg.blockKb < cfg.blocks := by
    rcases cfg.sizes with sizes | sizes <;> rw [sizes.2.1, sizes.2.2.2.2] <;> omega
  obtain ⟨tables, refines, owner⟩ := refines.validate valid inBlocks validated
  have room : (start % cfg.blockKb + size) / 4 ≤ cfg.subtablePtes := by
    rcases cfg.sizes with sizes | sizes <;> rw [sizes.2.1] at inBlock ⊢ <;> rw [sizes.1] <;> omega
  have filled := refines.fillSubtable (start % cfg.blockKb / 4) inBlocks owner room policy
  have offset : start / cfg.blockKb * 2 ^ cfg.blockShift =
      (start - start % cfg.blockKb) * 1024 := by
    rcases cfg.sizes with sizes | sizes <;> rw [sizes.2.1, sizes.2.2.2.1] <;> omega
  have first : start / cfg.blockKb * cfg.subtablePtes + start % cfg.blockKb / 4 = start / 4 := by
    rcases cfg.sizes with sizes | sizes <;> rw [sizes.1, sizes.2.1] <;> omega
  have last : start / cfg.blockKb * cfg.subtablePtes +
      (start % cfg.blockKb + size) / 4 = (start + size) / 4 := by
    rcases cfg.sizes with sizes | sizes <;> rw [sizes.1, sizes.2.1] <;> omega
  rw [offset, first, last] at filled
  exact ⟨tables, filled⟩

theorem Refines.call (valid : cfg.Valid) (callValid : c.Valid cfg) (ends : c.endsInside cfg = true)
    (called : call cfg m c = some next) :
    ∃ tables, Refines cfg next (c.write.apply map) tables := by
  cases c with
  | configRange start size policy =>
    simp only [Armv7.call, mmuConfigRange] at called
    split_ifs at called
    cases called
    exact refines.configRange (some policy) ⟨callValid.1, callValid.2.1⟩
  | disableRange start size =>
    simp only [Armv7.call, mmuDisableRange] at called
    split_ifs at called
    cases called
    exact refines.configRange none ⟨callValid.1, callValid.2.1⟩
  | configRangeKb start size policy =>
    obtain ⟨startAligned, sizeAligned, positive, below, inBlock⟩ := callValid
    obtain ⟨⟨middle, k⟩, validated, filled⟩ := Option.bind_eq_some_iff.mp called
    dsimp only at filled
    split_ifs at filled
    cases filled
    refine refines.rangeKb valid (some policy) ⟨startAligned, sizeAligned⟩
      ⟨below, positive⟩ inBlock validated rfl ?_
    rw [divRoundUp]
    rcases cfg.sizes with sizes | sizes <;> rw [sizes.2.1] <;> omega
  | disableRangeKb start size =>
    obtain ⟨startAligned, sizeAligned, positive, below, inBlock⟩ := callValid
    obtain ⟨⟨middle, k⟩, validated, filled⟩ := Option.bind_eq_some_iff.mp called
    cases filled
    have inside : (start + size) % cfg.blockKb ≠ 0 := by
      simpa [Call.endsInside] using ends
    refine refines.rangeKb valid none ⟨startAligned, sizeAligned⟩
      ⟨below, positive⟩ inBlock validated rfl ?_
    rw [divRoundUp]
    rcases cfg.sizes with sizes | sizes <;> rw [sizes.2.1] at inBlock inside ⊢ <;> omega

theorem Refines.run (valid : cfg.Valid) {calls : List Call}
    (meets : ∀ c ∈ calls, c.Valid cfg ∧ c.endsInside cfg = true)
    (ran : runCalls cfg m calls = some next) :
    ∃ tables, Refines cfg next (RangeWrite.applyAll (calls.map Call.write) map) tables := by
  induction calls generalizing m map tables with
  | nil =>
    cases ran
    exact ⟨tables, refines⟩
  | cons first rest ih =>
    obtain ⟨middle, called, ran⟩ := Option.bind_eq_some_iff.mp ran
    obtain ⟨callValid, ends⟩ := meets first List.mem_cons_self
    obtain ⟨tables, refines⟩ := refines.call valid callValid ends called
    exact ih refines (List.forall_mem_cons.mp meets).2 ran

theorem Refines.disableRangeKb_of_end (valid : cfg.Valid)
    (callValid : (Call.disableRangeKb start size).Valid cfg)
    (ends : (start + size) % cfg.blockKb = 0)
    (called : mmuDisableRangeKb cfg m start size = some next) :
    ∃ tables, Refines cfg next map tables := by
  obtain ⟨⟨middle, k⟩, validated, filled⟩ := Option.bind_eq_some_iff.mp called
  cases filled
  have inBlocks : start / cfg.blockKb < cfg.blocks := by
    obtain ⟨-, -, positive, below, -⟩ := callValid
    rcases cfg.sizes with sizes | sizes <;> rw [sizes.2.1, sizes.2.2.2.2] <;> omega
  obtain ⟨tables, refines, -⟩ := refines.validate valid inBlocks validated
  refine ⟨tables, ?_⟩
  have nothing : middle.fillSubtable k (start % cfg.blockKb / 4)
      (divRoundUp ((start + size) % cfg.blockKb) 4)
      (BitVec.ofNat 32 ((start - start % cfg.blockKb) * 1024)) 0 = middle := by
    have none : divRoundUp 0 4 - start % cfg.blockKb / 4 = 0 := Nat.zero_sub _
    rw [Tables.fillSubtable, ends, mmuFillTable, none, fillRange, Function.update_eq_self]
  rw [nothing]
  exact refines

end

theorem call_isSome (callValid : c.Valid cfg)
    (free : ∃ k < cfg.count, m.subtables k 0 = attrUnused) :
    (call cfg m c).isSome = true := by
  have validated {start size : Nat}
      (inside : 0 < size ∧ start + size ≤ 4 * 2 ^ 20 ∧ start % cfg.blockKb + size ≤ cfg.blockKb) :
      ∃ result, mmuValidateCreateSubTable cfg m start size = some result := by
    have same : (start + size - 1) / cfg.blockKb = start / cfg.blockKb := by
      rcases cfg.sizes with sizes | sizes <;> rw [sizes.2.1] at inside ⊢ <;> omega
    rw [mmuValidateCreateSubTable, if_pos ⟨same_block same, by omega⟩]
    split_ifs
    · obtain ⟨k, inCount, unused⟩ := free
      have found : ((List.range cfg.count).find? fun k =>
          m.subtables k 0 = attrUnused).isSome = true :=
        List.find?_isSome.mpr ⟨k, List.mem_range.mpr inCount, by simp [unused]⟩
      obtain ⟨k, found⟩ := Option.isSome_iff_exists.mp found
      rw [mmuCreateSubtable, found]
      exact ⟨_, rfl⟩
    · exact ⟨_, rfl⟩
  cases c with
  | configRange start size policy =>
    rw [call, mmuConfigRange, if_pos callValid.2.2]
    rfl
  | disableRange start size =>
    rw [call, mmuDisableRange, if_pos callValid.2.2]
    rfl
  | configRangeKb start size policy =>
    obtain ⟨startAligned, sizeAligned, positive, below, inBlock⟩ := callValid
    obtain ⟨result, same⟩ := validated ⟨positive, below, inBlock⟩
    have room : divRoundUp (start + size) 4 * 4 - (start - start % cfg.blockKb) ≤ cfg.blockKb := by
      rw [divRoundUp]
      rcases cfg.sizes with sizes | sizes <;> rw [sizes.2.1] at inBlock ⊢ <;> omega
    rw [call, mmuConfigRangeKb, same]
    simp only [Option.bind_eq_bind, Option.bind_some]
    rw [if_pos room]
    rfl
  | disableRangeKb start size =>
    obtain ⟨-, -, positive, below, inBlock⟩ := callValid
    obtain ⟨result, same⟩ := validated ⟨positive, below, inBlock⟩
    rw [call, mmuDisableRangeKb, same]
    rfl

variable (cfg) in
/-- Every page is mapped to itself as the last call that covers it says. -/
def Maps (m : Tables) (calls : List Call) : Prop :=
  ∀ page < 2 ^ 20, walk cfg m page =
    cfg.identity page ((RangeWrite.last (calls.map Call.write) page).getD none)

theorem refines_init (policy : DcachePolicy)
    (called : mmuConfigRange cfg m 0 (4 * 1024) policy = some next) :
    Refines cfg next
      (RangeWrite.apply (Call.configRange 0 (4 * 1024) policy).write
        fun _ => none) fun _ => none := by
  rw [mmuConfigRange, if_pos (by decide)] at called
  cases called
  have whole : divRoundUp (0 + 4 * 1024) cfg.blockMb = cfg.blocks := by
    rw [divRoundUp]
    rcases cfg.sizes with sizes | sizes <;> rw [sizes.2.2.1, sizes.2.2.2.2]
  rw [whole, Nat.zero_div]
  exact refines_whole m (fun _ => none) (some policy)

theorem maps_of_run (cfg : Config) (valid : cfg.Valid) (m next : Tables) (policy : DcachePolicy)
    (calls : List Call) (meets : ∀ c ∈ calls, c.Valid cfg ∧ c.endsInside cfg = true)
    (ran : runCalls cfg (mmuInit cfg m) (.configRange 0 (4 * 1024) policy :: calls) = some next) :
    Maps cfg next (.configRange 0 (4 * 1024) policy :: calls) := by
  obtain ⟨middle, called, ran⟩ := Option.bind_eq_some_iff.mp ran
  obtain ⟨tables, refines⟩ := (refines_init policy called).run valid meets ran
  intro page inside
  rw [refines.walk valid inside]
  exact congrArg (cfg.identity page) (RangeWrite.applyAll_eq_last
    ((Call.configRange 0 (4 * 1024) policy :: calls).map Call.write)
    (fun _ => none) page)

def oneSubtable : Config := ⟨false, 0x100000, 1⟩

theorem oneSubtable_valid : oneSubtable.Valid := ⟨by decide, by decide⟩

def noTables : Tables := ⟨fun _ => 0, fun _ _ => 0⟩

theorem oneSubtable_run (valid : c.Valid oneSubtable) :
    ∃ middle next,
      mmuConfigRange oneSubtable (mmuInit oneSubtable noTables) 0 (4 * 1024)
          .writeback = some middle ∧
        call oneSubtable middle c = some next ∧
        runCalls oneSubtable (mmuInit oneSubtable noTables)
          [.configRange 0 (4 * 1024) .writeback, c] = some next := by
  obtain ⟨middle, called⟩ : ∃ middle,
      mmuConfigRange oneSubtable (mmuInit oneSubtable noTables) 0 (4 * 1024)
        .writeback = some middle := ⟨_, rfl⟩
  have unused : middle.subtables 0 0 = attrUnused := by
    rw [mmuConfigRange, if_pos (by decide)] at called
    obtain rfl := Option.some.inj called
    rfl
  obtain ⟨next, last⟩ := Option.isSome_iff_exists.mp (call_isSome valid ⟨0, by decide, unused⟩)
  refine ⟨middle, next, called, last, ?_⟩
  rw [runCalls, call, called, Option.bind_some, runCalls, last, Option.bind_some, runCalls]

theorem maps_uncachedPage : ∃ next,
    runCalls oneSubtable (mmuInit oneSubtable noTables)
        [.configRange 0 (4 * 1024) .writeback, .configRangeKb 1020 4 .off] =
      some next ∧
    Maps oneSubtable next [.configRange 0 (4 * 1024) .writeback, .configRangeKb 1020 4 .off] := by
  have valid : (Call.configRangeKb 1020 4 .off).Valid oneSubtable := by
    unfold Call.Valid
    decide
  obtain ⟨middle, next, -, -, ran⟩ := oneSubtable_run valid
  exact ⟨next, ran, maps_of_run oneSubtable oneSubtable_valid noTables next
    .writeback [.configRangeKb 1020 4 .off]
    (fun c member => by
      obtain rfl := List.mem_singleton.mp member
      exact ⟨valid, rfl⟩) ran⟩

/-- The last page of the first block is disabled, and stays mapped. -/
theorem not_maps_lastPage :
    ¬ ∀ (cfg : Config), cfg.Valid → ∀ (m next : Tables) (policy : DcachePolicy)
      (calls : List Call), (∀ c ∈ calls, c.Valid cfg) →
      runCalls cfg (mmuInit cfg m) (.configRange 0 (4 * 1024) policy :: calls) = some next →
      Maps cfg next (.configRange 0 (4 * 1024) policy :: calls) := by
  intro maps
  have valid : (Call.disableRangeKb 1020 4).Valid oneSubtable := by
    unfold Call.Valid
    decide
  obtain ⟨middle, next, called, last, ran⟩ := oneSubtable_run valid
  obtain ⟨tables, refines⟩ := (refines_init .writeback called).disableRangeKb_of_end
    oneSubtable_valid valid (by decide) last
  have stays := refines.walk oneSubtable_valid (show 255 < 2 ^ 20 by decide)
  have unmapped := maps oneSubtable oneSubtable_valid noTables next .writeback
    [.disableRangeKb 1020 4]
    (fun c member => by
      obtain rfl := List.mem_singleton.mp member
      exact valid) ran 255 (by decide)
  rw [stays] at unmapped
  exact absurd unmapped (by decide)

end Coreboot.Armv7
