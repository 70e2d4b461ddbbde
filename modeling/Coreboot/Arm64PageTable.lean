import Coreboot.RangeWrites
import Coreboot.WordFields
import Mathlib.Data.List.Nodup
import Mathlib.Tactic.Common
import Mathlib.Tactic.IntervalCases

/-!
# The page tables of an ARMv8 processor

Addresses of 33 bits are translated by three levels of tables with 512 entries each.
-/

namespace Coreboot.Armv8

/-- The region `_ttb`, as a number of tables. -/
structure Config where
  ttb : Nat
  count : Nat

/-- The region is aligned and can be addressed. -/
structure Config.Valid (cfg : Config) : Prop where
  aligned : cfg.ttb % 4096 = 0
  below : cfg.ttb + cfg.count * 4096 ≤ 2 ^ 33
  positive : 0 < cfg.count

variable (cfg : Config)

abbrev Desc := BitVec 64

abbrev Tag := BitVec 64

def blockDesc : Desc := 0x1#64

def tableDesc : Desc := 0x3#64

def pageDesc : Desc := 0x3#64

def descMask : Desc := 0x3#64

def unusedDesc : Desc := 0x6ebaad0bbadba6e0#64

def xlatAddrMask : Desc := 0x1fffff000#64

def getBlockAttr (tag : Tag) : Desc :=
  (if tag &&& 0x2#64 ≠ 0 then 0x20#64 else 0#64) |||
    (if tag &&& 0x4#64 ≠ 0 then 0x80#64 else 0#64) ||| 0x400#64 |||
    if tag &&& 0x1#64 ≠ 0 then
      0x300#64 ||| if tag &&& 0x8#64 ≠ 0 then 0xc#64 else 0x10#64
    else 0x40000000000000#64

/-- The words of the tables, `next_free_table`, and the tables that have been
handed out. -/
structure Tables where
  words : Nat → Nat → Desc
  nextFreeTable : Nat
  handedOut : List Nat

/-- A call stops the boot because the tables run out or an assertion fails, or its
loop runs on. -/
inductive Stop where
  | tables
  | assertion
  | fuel
deriving DecidableEq, Repr

/-- The loop of `setup_new_table` for the next free table, with the number of
tables after it. -/
def nextFree (words : Nat → Nat → Desc) : Nat → Nat → Option Nat
  | 0, table => if words table 0 = unusedDesc then some table else none
  | left + 1, table =>
    if words table 0 = unusedDesc then some table
    else nextFree words left (table + 1)

def setupNewTable (m : Tables) (desc : Desc) (xlatSize : Nat) : Except Stop (Tables × Nat) :=
  match nextFree m.words (cfg.count - 1 - m.nextFreeTable) m.nextFreeTable with
  | none => .error .tables
  | some table =>
    let first := if xlatSize = 2 ^ 12 then desc ||| pageDesc else desc
    let frame := if desc = 0 then
        fillRange (fun _ => 0) 0 512 (m.words table)
      else
        fillRange (fun i => first + BitVec.ofNat 64 (i * xlatSize)) 0 512 (m.words table)
    .ok ({ words := Function.update m.words table frame
           nextFreeTable := table
           handedOut := table :: m.handedOut }, table)

def Config.tableAddress (table : Nat) : Nat := cfg.ttb + table * 4096

def Config.tableOf (desc : Desc) : Nat := ((desc &&& xlatAddrMask).toNat - cfg.ttb) / 4096

def Tables.write (m : Tables) (table index : Nat) (desc : Desc) : Tables :=
  { m with
    words := Function.update m.words table (Function.update (m.words table) index desc) }

def getNextLevelTable (m : Tables) (table index xlatSize : Nat) : Except Stop (Tables × Nat) :=
  let desc := m.words table index
  if desc &&& descMask ≠ tableDesc then
    match setupNewTable cfg m desc xlatSize with
    | .error stop => .error stop
    | .ok (m, newTable) =>
      let desc := BitVec.ofNat 64 (cfg.tableAddress newTable) ||| tableDesc
      .ok (m.write table index desc, cfg.tableOf desc)
  else .ok (m, cfg.tableOf desc)

/-- `init_xlat_table`, with the size that the final entry maps. -/
def initXlatTable (m : Tables) (baseAddr size : Nat) (tag : Tag) : Except Stop (Tables × Nat) :=
  let l1Index := baseAddr / 2 ^ 30 % 512
  let l2Index := baseAddr / 2 ^ 21 % 512
  let l3Index := baseAddr / 2 ^ 12 % 512
  let attr := getBlockAttr tag
  let block := BitVec.ofNat 64 baseAddr ||| blockDesc ||| attr
  if size ≥ 2 ^ 30 ∧ baseAddr % 2 ^ 30 = 0 then
    .ok (m.write 0 l1Index block, 2 ^ 30)
  else
    match getNextLevelTable cfg m 0 l1Index (2 ^ 21) with
    | .error stop => .error stop
    | .ok (m, table) =>
      if size ≥ 2 ^ 21 ∧ baseAddr % 2 ^ 21 = 0 then
        .ok (m.write table l2Index block, 2 ^ 21)
      else
        match getNextLevelTable cfg m table l2Index (2 ^ 12) with
        | .error stop => .error stop
        | .ok (m, table) =>
          .ok (m.write table l3Index (BitVec.ofNat 64 baseAddr ||| pageDesc ||| attr), 2 ^ 12)

/-- The loop of `mmu_config_range`. -/
def configLoop (start size : Nat) (tag : Tag) : Nat → Nat → Tables → Except Stop Tables
  | _, 0, m => .ok m
  | 0, _ + 1, _ => .error .fuel
  | fuel + 1, tempSize + 1, m =>
    match initXlatTable cfg m (start + (size - (tempSize + 1))) (tempSize + 1) tag with
    | .error stop => .error stop
    | .ok (m, mapped) =>
      configLoop start size tag fuel (tempSize + 1 - mapped) m

/-- `mmu_config_range`.  The loop may turn as often as the range has pages. -/
def mmuConfigRange (m : Tables) (start size : Nat) (tag : Tag) :
    Except Stop Tables :=
  -- `sanity_check`
  if start % 4096 = 0 ∧ size % 4096 = 0 ∧ 4096 ≤ size then
    configLoop cfg start size tag (size / 4096) size m
  else .error .assertion

def mmuInit (words : Nat → Nat → Desc) : Except Stop Tables :=
  let marked : Tables :=
    { words := fun table =>
        if table < cfg.count then Function.update (words table) 0 unusedDesc
        else words table
      nextFreeTable := 0
      handedOut := [] }
  match setupNewTable cfg marked 0 (2 ^ 30) with
  | .error stop => .error stop
  | .ok (m, root) => if root = 0 then .ok m else .error .assertion

/-- A call of `mmu_config_range`. -/
structure Call where
  start : Nat
  size : Nat
  tag : Tag

/-- The range consists of pages below 8 GiB. -/
def Call.Valid (call : Call) : Prop :=
  call.start % 4096 = 0 ∧ call.size % 4096 = 0 ∧ 0 < call.size ∧ call.start + call.size ≤ 2 ^ 33

def Call.write (call : Call) : RangeWrite (Option Tag) :=
  ⟨call.start / 4096, (call.start + call.size) / 4096, some call.tag⟩

def runCalls (m : Tables) : List Call → Except Stop Tables
  | [] => .ok m
  | call :: rest =>
    match mmuConfigRange cfg m call.start call.size call.tag with
    | .error stop => .error stop
    | .ok m => runCalls m rest

def run (words : Nat → Nat → Desc) (calls : List Call) : Except Stop Tables :=
  match mmuInit cfg words with
  | .error stop => .error stop
  | .ok m => runCalls cfg m calls

/-- `get_pte` from a table, with the levels below it: the entry and the number of
levels below the entry. -/
def getPteFrom (m : Tables) (page : Nat) : Nat → Nat → Desc × Nat
  | 0, table => (m.words table (page % 512), 0)
  | level + 1, table =>
    let pte := m.words table (page / 512 ^ (level + 1) % 512)
    if pte &&& descMask ≠ tableDesc then (pte, level + 1)
    else getPteFrom m page level (cfg.tableOf pte)

def getPte (m : Tables) (page : Nat) : Desc × Nat := getPteFrom cfg m page 2 0

def visited (m : Tables) (page : Nat) : Nat → Nat → List Nat
  | 0, table => [table]
  | level + 1, table =>
    let pte := m.words table (page / 512 ^ (level + 1) % 512)
    if pte &&& descMask ≠ tableDesc then [table]
    else table :: visited m page level (cfg.tableOf pte)

/-- What the hardware does with a page. -/
structure Mapping where
  address : BitVec 64
  nonSecure : Bool
  readOnly : Bool
  access : Bool
  shareability : BitVec 2
  index : BitVec 3
  executeNever : Bool
deriving DecidableEq, Repr

/-- The type of an entry that maps memory: a page on the last level, a block
elsewhere. -/
def kind (level : Nat) : Desc := if level = 0 then pageDesc else blockDesc

def mapping (page : Nat) (pte : Desc × Nat) : Option Mapping :=
  if pte.1 &&& descMask = kind pte.2 then
    some
      { address := (pte.1 &&& xlatAddrMask) + BitVec.ofNat 64 (page % 512 ^ pte.2 * 4096)
        nonSecure := pte.1.getLsbD 5
        readOnly := pte.1.getLsbD 7
        access := pte.1.getLsbD 10
        shareability := pte.1.extractLsb' 8 2
        index := pte.1.extractLsb' 2 3
        executeNever := pte.1.getLsbD 54 }
  else none

def identity (page : Nat) : Option Tag → Option Mapping
  | none => none
  | some tag => some
      { address := BitVec.ofNat 64 (page * 4096)
        nonSecure := tag.getLsbD 1
        readOnly := tag.getLsbD 2
        access := true
        shareability := if tag.getLsbD 0 then 0b11#2 else 0b00#2
        index := if tag.getLsbD 0 then
            if tag.getLsbD 3 then 3#3 else 4#3
          else 0#3
        executeNever := !tag.getLsbD 0 }

def entry (level number : Nat) : Option Tag → Desc
  | none => 0
  | some tag => BitVec.ofNat 64 (number * 512 ^ level * 2 ^ 12) |||
      (kind level ||| getBlockAttr tag)

def Config.tableEntry (table : Nat) : Desc := BitVec.ofNat 64 (cfg.tableAddress table) ||| tableDesc

variable {cfg}

variable {page level number table i baseAddr size : Nat} {stop : Stop}

theorem within_page (inside : page < 2 ^ 21) : Within (BitVec.ofNat 64 (page * 2 ^ 12)) 12 33 :=
  within_ofNat (by omega)

theorem getBlockAttr_addrMask (tag : Tag) (level : Nat) :
    (kind level ||| getBlockAttr tag) &&& xlatAddrMask = 0 := by
  rw [kind, getBlockAttr]
  split_ifs <;> decide

theorem entry_kind (tag : Tag) (inside : number * 512 ^ level < 2 ^ 21) :
    entry level number (some tag) &&& descMask = kind level := by
  rw [entry, (within_page inside).or_and_of_misses (by decide), kind, getBlockAttr]
  split_ifs <;> decide

theorem entry_not_table (tag : Option Tag) (inside : number * 512 ^ (level + 1) < 2 ^ 21) :
    entry (level + 1) number tag &&& descMask ≠ tableDesc := by
  cases tag with
  | none => exact show (0#64 &&& descMask) ≠ tableDesc by decide
  | some tag =>
    rw [entry_kind tag inside, kind, if_neg (Nat.succ_ne_zero level)]
    decide

theorem entry_ne_unused (tag : Option Tag) (inside : number * 512 ^ level < 2 ^ 21) :
    entry level number tag ≠ unusedDesc := by
  cases tag with
  | none => exact show 0#64 ≠ unusedDesc by decide
  | some tag =>
    intro same
    have masked := entry_kind tag inside
    rw [same, kind] at masked
    split_ifs at masked <;> cases masked

theorem within_table (valid : cfg.Valid) (inside : table < cfg.count) :
    Within (BitVec.ofNat 64 (cfg.tableAddress table)) 12 33 := by
  have region := valid.below
  have aligned := valid.aligned
  have address : cfg.tableAddress table = (cfg.ttb / 4096 + table) * 2 ^ 12 := by
    rw [Config.tableAddress]
    omega
  rw [address]
  exact within_page (by omega)

theorem tableEntry_kind (valid : cfg.Valid) (inside : table < cfg.count) :
    cfg.tableEntry table &&& descMask = tableDesc := by
  rw [Config.tableEntry, (within_table valid inside).or_and_of_misses (by decide)]
  decide

theorem tableEntry_ne_unused (valid : cfg.Valid) (inside : table < cfg.count) :
    cfg.tableEntry table ≠ unusedDesc := by
  intro same
  have masked := tableEntry_kind valid inside
  rw [same] at masked
  cases masked

theorem tableOf_tableEntry (valid : cfg.Valid) (inside : table < cfg.count) :
    cfg.tableOf (cfg.tableEntry table) = table := by
  have region := valid.below
  rw [Config.tableOf, Config.tableEntry,
    (within_table valid inside).or_and_of_covers (by decide) (by decide),
    BitVec.toNat_ofNat, Config.tableAddress]
  omega

theorem entry_add {part : Nat} {type : Desc} (isType : type &&& xlatAddrMask = 0)
    (inPart : part < 512) (inside : number * 512 ^ (level + 1) + 512 ^ (level + 1) ≤ 2 ^ 21) :
    (BitVec.ofNat 64 (number * 512 ^ (level + 1) * 2 ^ 12) ||| type) +
        BitVec.ofNat 64 (part * (512 ^ level * 2 ^ 12)) =
      BitVec.ofNat 64 ((number * 512 + part) * 512 ^ level * 2 ^ 12) ||| type := by
  have low : part * 512 ^ level < 512 ^ (level + 1) := by
    rw [Nat.pow_succ, Nat.mul_comm (512 ^ level)]
    exact Nat.mul_lt_mul_of_pos_right inPart (Nat.pow_pos (by decide))
  have address : (number * 512 + part) * 512 ^ level =
      number * 512 ^ (level + 1) + part * 512 ^ level := by
    rw [Nat.add_mul, Nat.pow_succ, Nat.mul_assoc, Nat.mul_comm 512]
  have apart {page : Nat} (bound : page < 2 ^ 21) :
      BitVec.ofNat 64 (page * 2 ^ 12) &&& type = 0 := by
    refine (within_page bound).and_of_misses fun i high low => ?_
    have mask : ∀ i < 33, 12 ≤ i → xlatAddrMask.getLsbD i = true := by decide
    have bit := congrArg (fun word => word.getLsbD i) isType
    simpa [mask i high low] using bit
  rw [address, ← BitVec.add_eq_or_of_and_eq_zero _ _ (apart (by omega)),
    ← BitVec.add_eq_or_of_and_eq_zero _ _ (apart (by omega)), Nat.add_mul,
    BitVec.ofNat_add, Nat.mul_assoc part, BitVec.add_assoc,
    BitVec.add_comm type, ← BitVec.add_assoc]

theorem nextFree_spec {words : Nat → Nat → Desc} {left first : Nat}
    (found : nextFree words left first = some table) :
    first ≤ table ∧ table ≤ first + left ∧ words table 0 = unusedDesc := by
  induction left generalizing first with
  | zero =>
    rw [nextFree] at found
    split_ifs at found with unused
    cases found
    exact ⟨le_rfl, le_rfl, unused⟩
  | succ left ih =>
    rw [nextFree] at found
    split_ifs at found with unused
    · cases found
      exact ⟨le_rfl, Nat.le_add_right _ _, unused⟩
    · obtain ⟨low, high, unused⟩ := ih found
      exact ⟨by omega, by omega, unused⟩

/-- A new table is an unused one, and its entries are those of the parts of the
block that it replaces. -/
structure Handed (cfg : Config) (m next : Tables) (table level number : Nat)
    (tag : Option Tag) : Prop where
  bound : m.nextFreeTable < cfg.count → table < cfg.count
  unused : m.words table 0 = unusedDesc
  same : ∀ other, other ≠ table → next.words other = m.words other
  parts : ∀ part < 512, next.words table part = entry level (number * 512 + part) tag
  free : next.nextFreeTable = table
  handedOut : next.handedOut = table :: m.handedOut

theorem setupNewTable_spec {m next : Tables} (tag : Option Tag) (isLevel : level ≤ 1)
    (inside : number * 512 ^ (level + 1) + 512 ^ (level + 1) ≤ 2 ^ 21)
    (setup : setupNewTable cfg m (entry (level + 1) number tag)
      (512 ^ level * 2 ^ 12) = .ok (next, table)) : Handed cfg m next table level number tag := by
  rw [setupNewTable] at setup
  cases found : nextFree m.words (cfg.count - 1 - m.nextFreeTable) m.nextFreeTable with
  | none =>
    rw [found] at setup
    cases setup
  | some free =>
    rw [found] at setup
    cases setup
    obtain ⟨low, high, unused⟩ := nextFree_spec found
    refine
      { bound := fun _ => by omega
        unused := unused
        same := fun other different => Function.update_of_ne different _ _
        parts := fun part inPart => ?_
        free := rfl
        handedOut := rfl }
    dsimp only
    rw [Function.update_self]
    cases tag with
    | none =>
      rw [if_pos (show entry (level + 1) number none = 0 from rfl),
        fillRange_apply, if_pos ⟨Nat.zero_le part, by omega⟩]
      rfl
    | some tag =>
      have nonzero : entry (level + 1) number (some tag) ≠ 0 := by
        intro zero
        have masked := entry_kind tag
          (show number * 512 ^ (level + 1) < 2 ^ 21 by
            have size : 0 < 512 ^ (level + 1) := Nat.pow_pos (by decide)
            omega)
        rw [zero, kind, if_neg (Nat.succ_ne_zero level)] at masked
        cases masked
      rw [if_neg nonzero, fillRange_apply, if_pos ⟨Nat.zero_le part, by omega⟩, entry]
      have isType (level : Nat) : (kind level ||| getBlockAttr tag) &&&
          xlatAddrMask = 0 := getBlockAttr_addrMask tag level
      rcases Nat.le_one_iff_eq_zero_or_eq_one.mp isLevel with rfl | rfl
      · have page : kind 1 ||| getBlockAttr tag ||| pageDesc = kind 0 ||| getBlockAttr tag := by
          rw [getBlockAttr]
          split_ifs <;> decide
        rw [if_pos (by decide), entry, BitVec.or_assoc, page]
        exact entry_add (isType 0) inPart inside
      · rw [if_neg (by decide), entry]
        exact entry_add (isType 2) inPart inside

theorem tag_bit (tag : Tag) {mask : Tag} (inside : i < 64) (isBit : mask = BitVec.twoPow 64 i) :
    tag &&& mask ≠ 0 ↔ tag.getLsbD i = true := by
  subst isBit
  rw [BitVec.and_twoPow]
  cases bit : tag.getLsbD i with
  | false => simp
  | true =>
    refine iff_of_true (fun zero => ?_) rfl
    have bits := congrArg (fun word => word.getLsbD i) zero
    simp [inside] at bits

theorem mapping_entry (tag : Option Tag) (isPage : page < 2 ^ 21)
    (covers : page / 512 ^ level = number) :
    mapping page (entry level number tag, level) = identity page tag := by
  have inside : number * 512 ^ level < 2 ^ 21 := by
    rw [← covers]
    exact Nat.lt_of_le_of_lt (Nat.div_mul_le_self page _) isPage
  cases tag with
  | none =>
    rw [mapping, if_neg]
    · rfl
    · rw [kind]
      split_ifs <;> exact show ¬ (0#64 &&& descMask) = _ by decide
  | some tag =>
    have address : (entry level number (some tag) &&& xlatAddrMask) +
        BitVec.ofNat 64 (page % 512 ^ level * 4096) = BitVec.ofNat 64 (page * 4096) := by
      rw [entry, (within_page inside).or_and_of_covers (by decide)
        (getBlockAttr_addrMask tag level), ← BitVec.ofNat_add]
      refine congrArg (BitVec.ofNat 64) ?_
      have position := Nat.div_add_mod page (512 ^ level)
      rw [covers, Nat.mul_comm] at position
      omega
    have low {start len : Nat} (below : start + len ≤ 12) :
        (entry level number (some tag)).extractLsb' start len =
          (kind level ||| getBlockAttr tag).extractLsb' start len :=
      (within_page inside).or_extractLsb below
    have bit {i : Nat} (outside : i < 12 ∨ 33 ≤ i) :
        (entry level number (some tag)).getLsbD i = (kind level ||| getBlockAttr tag).getLsbD i :=
      (within_page inside).or_getLsbD outside
    have mem := tag_bit tag (show 0 < 64 by decide) (show 0x1#64 = BitVec.twoPow 64 0 by decide)
    have ns := tag_bit tag (show 1 < 64 by decide) (show 0x2#64 = BitVec.twoPow 64 1 by decide)
    have ro := tag_bit tag (show 2 < 64 by decide) (show 0x4#64 = BitVec.twoPow 64 2 by decide)
    have nc := tag_bit tag (show 3 < 64 by decide) (show 0x8#64 = BitVec.twoPow 64 3 by decide)
    rw [mapping, if_pos (entry_kind tag inside), identity]
    rw [address, low (by decide), low (by decide), bit (by decide),
      bit (by decide), bit (by decide), bit (by decide)]
    by_cases last : level = 0 <;>
      simp only [getBlockAttr, mem, ns, ro, nc, kind, last, if_true, if_false] <;>
      cases tag.getLsbD 0 <;> cases tag.getLsbD 1 <;> cases tag.getLsbD 2 <;>
        cases tag.getLsbD 3 <;> rfl

section Refinement

variable (cfg)

/-- An entry with levels below it points to the table of its number, or it maps
the pages of its number as a map does. -/
def EntryOf (map : Nat → Option Tag) (tables : Nat → Nat → Option Nat)
    (level number : Nat) (desc : Desc) : Prop :=
  (∃ child table, level = child + 1 ∧ tables child number = some table ∧
      desc = cfg.tableEntry table) ∨
    ∃ tag, (∀ child, level = child + 1 → tables child number = none) ∧
      desc = entry level number tag ∧
      ∀ page, page / 512 ^ level = number → map page = tag

/-- The tables by the levels below their entries and their numbers. -/
structure Refines (m : Tables) (map : Nat → Option Tag)
    (tables : Nat → Nat → Option Nat) : Prop where
  root : tables 2 0 = some 0
  level : ∀ level number table, tables level number = some table → level ≤ 2
  parent : ∀ level number table, tables level number = some table →
    level = 2 ∨ (tables (level + 1) (number / 512)).isSome = true
  distinct : ∀ level number level' number' table,
    tables level number = some table → tables level' number' = some table →
      level = level' ∧ number = number'
  handed : ∀ level number table, tables level number = some table → table ∈ m.handedOut
  entries : ∀ level number table, tables level number = some table →
    ∀ i < 512, (number * 512 + i) * 512 ^ level < 2 ^ 21 →
      EntryOf cfg map tables level (number * 512 + i) (m.words table i)
  used : ∀ table ∈ m.handedOut, table < cfg.count ∧ ∀ i < 512, m.words table i ≠ unusedDesc
  once : m.handedOut.Nodup
  next : m.nextFreeTable < cfg.count

end Refinement

variable {m next : Tables} {map : Nat → Option Tag} {tables : Nat → Nat → Option Nat}

section

variable (refines : Refines cfg m map tables)
include refines

theorem Refines.walkFrom (valid : cfg.Valid) (inside : page < 2 ^ 21)
    (node : tables level number = some table) (covers : page / 512 ^ (level + 1) = number) :
    mapping page (getPteFrom cfg m page level table) = identity page (map page) ∧
      ∀ other ∈ visited cfg m page level table, other ∈ m.handedOut := by
  induction level generalizing number table with
  | zero =>
    have position : number * 512 + page % 512 = page := by
      rw [Nat.zero_add, Nat.pow_one] at covers
      omega
    have handed := refines.handed 0 number table node
    refine ⟨?_, fun other member => by rwa [List.mem_singleton.mp member]⟩
    rw [getPteFrom]
    rcases refines.entries 0 number table node (page % 512)
      (Nat.mod_lt _ (by decide)) (by rw [position, Nat.pow_zero]; omega) with
      ⟨child, -, isChild, -⟩ | ⟨tag, -, desc, mapped⟩
    · cases isChild
    · rw [position] at desc mapped
      rw [desc, mapped page (by rw [Nat.pow_zero, Nat.div_one])]
      exact mapping_entry tag inside (by rw [Nat.pow_zero, Nat.div_one])
  | succ level ih =>
    have up : page / 512 ^ (level + 1) / 512 = number := by
      rw [Nat.div_div_eq_div_mul, ← Nat.pow_succ]
      exact covers
    have position : number * 512 + page / 512 ^ (level + 1) % 512 = page / 512 ^ (level + 1) := by
      omega
    have handed := refines.handed (level + 1) number table node
    have bound : page / 512 ^ (level + 1) * 512 ^ (level + 1) < 2 ^ 21 :=
      Nat.lt_of_le_of_lt (Nat.div_mul_le_self _ _) inside
    rw [getPteFrom, visited]
    rcases refines.entries (level + 1) number table node
      (page / 512 ^ (level + 1) % 512) (Nat.mod_lt _ (by decide))
      (by rw [position]; exact bound) with
      ⟨child, below, isChild, owner, desc⟩ | ⟨tag, -, desc, mapped⟩
    · obtain rfl := Nat.succ.inj isChild
      rw [position] at owner
      have inCount := (refines.used below (refines.handed _ _ _ owner)).1
      rw [desc, tableEntry_kind valid inCount, if_neg (not_not.mpr rfl),
        if_neg (not_not.mpr rfl), tableOf_tableEntry valid inCount]
      obtain ⟨mapping, others⟩ := ih owner rfl
      refine ⟨mapping, fun other member => ?_⟩
      rcases List.mem_cons.mp member with rfl | member
      · exact handed
      · exact others other member
    · rw [position] at desc mapped
      rw [desc, if_pos (entry_not_table tag bound),
        if_pos (entry_not_table tag bound), mapped page rfl]
      exact ⟨mapping_entry tag inside rfl, fun other member => by
        rwa [List.mem_singleton.mp member]⟩

omit refines in
theorem write_words (m : Tables) (table index : Nat) (desc : Desc) (other i : Nat) :
    (m.write table index desc).words other i =
      if other = table ∧ i = index then desc else m.words other i := by
  rw [Tables.write]
  dsimp only
  by_cases same : other = table
  · subst same
    rw [Function.update_self]
    by_cases isIndex : i = index
    · subst isIndex
      rw [Function.update_self, if_pos ⟨rfl, rfl⟩]
    · rw [Function.update_of_ne isIndex, if_neg fun both => isIndex both.2]
  · rw [Function.update_of_ne same, if_neg fun both => same both.1]

omit refines in
theorem room_of_lt (isLevel : level ≤ 2) (inside : number * 512 ^ level < 2 ^ 21) :
    number * 512 ^ level + 512 ^ level ≤ 2 ^ 21 := by
  interval_cases level
  · rw [Nat.pow_zero] at inside ⊢
    omega
  · rw [Nat.pow_one] at inside ⊢
    omega
  · rw [show 512 ^ 2 = 262144 by rfl] at inside ⊢
    omega

theorem Refines.hand (valid : cfg.Valid) {middle : Tables} {new : Nat} {tag : Option Tag}
    (node : tables (level + 1) number = some table) (inTable : i < 512)
    (inside : (number * 512 + i) * 512 ^ (level + 1) < 2 ^ 21)
    (desc : m.words table i = entry (level + 1) (number * 512 + i) tag)
    (empty : tables level (number * 512 + i) = none)
    (mapped : ∀ page, page / 512 ^ (level + 1) = number * 512 + i → map page = tag)
    (handed : Handed cfg m middle new level (number * 512 + i) tag) :
    Refines cfg (middle.write table i (cfg.tableEntry new)) map
      (fun level' number' =>
        if level' = level ∧ number' = number * 512 + i then some new
        else tables level' number') := by
  have isLevel : level ≤ 1 := Nat.le_of_succ_le_succ (refines.level _ _ _ node)
  have inCount := handed.bound refines.next
  have fresh : new ∉ m.handedOut := fun member =>
    (refines.used new member).2 0 (by decide) handed.unused
  have isOld {level' number' other : Nat}
      (owner : tables level' number' = some other) : other ≠ new := by
    rintro rfl
    exact fresh (refines.handed _ _ _ owner)
  have words (other j : Nat) (different : other ≠ new) :
      (middle.write table i (cfg.tableEntry new)).words other j =
        if other = table ∧ j = i then cfg.tableEntry new
        else m.words other j := by
    rw [write_words, handed.same other different]
  have parts (j : Nat) (inPart : j < 512) :
      (middle.write table i (cfg.tableEntry new)).words new j =
        entry level ((number * 512 + i) * 512 + j) tag := by
    rw [write_words, if_neg fun both => isOld node both.1.symm, handed.parts j inPart]
  refine
    { root := ?_
      level := fun level' number' other owner => ?_
      parent := fun level' number' other owner => ?_
      distinct := fun level' number' level'' number'' other first second => ?_
      handed := fun level' number' other owner => ?_
      entries := fun level' number' other owner j inPart bound => ?_
      used := fun other member => ?_
      once := ?_
      next := ?_ }
  · rw [if_neg fun both => by omega]
    exact refines.root
  · split_ifs at owner with isNew
    · omega
    · exact refines.level _ _ _ owner
  · have up {level' number' : Nat} (some : (tables level' number').isSome = true) :
        (if level' = level ∧ number' = number * 512 + i then Option.some new
          else tables level' number').isSome = true := by
      split_ifs
      · rfl
      · exact some
    split_ifs at owner with isNew
    · obtain ⟨rfl, rfl⟩ := isNew
      refine .inr (up ?_)
      rw [show (number * 512 + i) / 512 = number by omega, node]
      rfl
    · exact (refines.parent _ _ _ owner).imp_right up
  · split_ifs at first second with isFirst isSecond isSecond
    · exact ⟨isFirst.1.trans isSecond.1.symm, isFirst.2.trans isSecond.2.symm⟩
    · exact absurd (Option.some.inj first).symm (isOld second)
    · exact absurd (Option.some.inj second).symm (isOld first)
    · exact refines.distinct _ _ _ _ _ first second
  · rw [Tables.write]
    rw [handed.handedOut]
    split_ifs at owner
    · rw [Option.some.inj owner]
      exact .head _
    · exact List.mem_cons_of_mem _ (refines.handed _ _ _ owner)
  · split_ifs at owner with isNew
    · obtain ⟨rfl, rfl⟩ := isNew
      cases owner
      refine .inr ⟨tag, fun child isChild => ?_, parts j inPart, fun page covers => mapped page ?_⟩
      · dsimp only
        rw [if_neg (by omega)]
        cases other : tables child ((number * 512 + i) * 512 + j) with
        | none => rfl
        | some below =>
          rcases refines.parent _ _ _ other with top | above
          · omega
          · rw [← isChild, show ((number * 512 + i) * 512 + j) / 512 =
              number * 512 + i by omega, empty] at above
            cases above
      · rw [Nat.pow_succ, ← Nat.div_div_eq_div_mul, covers]
        omega
    · rw [words other j (isOld owner)]
      by_cases isEntry : other = table ∧ j = i
      · obtain ⟨rfl, rfl⟩ := isEntry
        obtain ⟨rfl, rfl⟩ := refines.distinct _ _ _ _ _ owner node
        rw [if_pos ⟨rfl, rfl⟩]
        exact .inl ⟨level, new, rfl, if_pos ⟨rfl, rfl⟩, rfl⟩
      · rw [if_neg isEntry]
        rcases refines.entries level' number' other owner j inPart bound with
          ⟨child, below, isChild, child_owner, desc⟩ | ⟨old, none, desc, same⟩
        · refine .inl ⟨child, below, isChild, ?_, desc⟩
          dsimp only
          rw [if_neg]
          · exact child_owner
          · rintro ⟨rfl, isNumber⟩
            rw [isNumber, empty] at child_owner
            cases child_owner
        · refine .inr ⟨old, fun child isChild => ?_, desc, same⟩
          dsimp only
          rw [if_neg]
          · exact none child isChild
          · rintro ⟨rfl, isNumber⟩
            obtain rfl : number' = number := by omega
            rw [isChild, node] at owner
            exact isEntry ⟨(Option.some.inj owner).symm, by omega⟩
  · rw [Tables.write] at member
    rw [handed.handedOut] at member
    rcases List.mem_cons.mp member with rfl | member
    · refine ⟨inCount, fun j inPart => ?_⟩
      rw [parts j inPart]
      refine entry_ne_unused tag ?_
      have room := room_of_lt (Nat.succ_le_succ isLevel) inside
      rw [Nat.succ_eq_add_one, Nat.pow_succ, Nat.mul_comm (512 ^ level),
        ← Nat.mul_assoc, ← Nat.add_mul] at room
      refine Nat.lt_of_lt_of_le ?_ room
      exact Nat.mul_lt_mul_of_pos_right (by omega) (Nat.pow_pos (by decide))
    · obtain ⟨bound, clean⟩ := refines.used other member
      refine ⟨bound, fun j inPart => ?_⟩
      rw [words other j fun same => fresh (same ▸ member)]
      split_ifs
      · exact tableEntry_ne_unused valid inCount
      · exact clean j inPart
  · rw [Tables.write]
    rw [handed.handedOut]
    exact List.nodup_cons.mpr ⟨fresh, refines.once⟩
  · rw [Tables.write]
    rw [handed.free]
    exact inCount

theorem Refines.getNextLevelTable (valid : cfg.Valid) {child : Nat}
    (node : tables (level + 1) number = some table) (inTable : i < 512)
    (inside : (number * 512 + i) * 512 ^ (level + 1) < 2 ^ 21)
    (got : getNextLevelTable cfg m table i (512 ^ level * 2 ^ 12) = .ok (next, child)) :
    ∃ tables, Refines cfg next map tables ∧ tables level (number * 512 + i) = some child := by
  have isLevel : level ≤ 1 := Nat.le_of_succ_le_succ (refines.level _ _ _ node)
  rw [Armv8.getNextLevelTable] at got
  rcases refines.entries (level + 1) number table node i inTable inside with
    ⟨below, old, isBelow, owner, desc⟩ | ⟨tag, empty, desc, mapped⟩
  · obtain rfl := Nat.succ.inj isBelow
    have inCount := (refines.used old (refines.handed _ _ _ owner)).1
    rw [desc, tableEntry_kind valid inCount, if_neg (not_not.mpr rfl),
      tableOf_tableEntry valid inCount] at got
    cases got
    exact ⟨tables, refines, owner⟩
  · rw [desc, if_pos (entry_not_table tag inside)] at got
    cases setup : setupNewTable cfg m (entry (level + 1) (number * 512 + i) tag)
        (512 ^ level * 2 ^ 12) with
    | error stop =>
      rw [setup] at got
      cases got
    | ok result =>
      obtain ⟨middle, new⟩ := result
      rw [setup] at got
      have handed := setupNewTable_spec tag isLevel
        (room_of_lt (Nat.succ_le_succ isLevel) inside) setup
      have inCount := handed.bound refines.next
      have isChild : cfg.tableOf (cfg.tableEntry new) = new := tableOf_tableEntry valid inCount
      cases got
      refine ⟨_, refines.hand valid node inTable inside desc (empty level rfl) mapped handed, ?_⟩
      rw [if_pos ⟨rfl, rfl⟩, ← Config.tableEntry, isChild]

def Below (level number level' number' : Nat) : Prop :=
  (level' + 1 = level ∧ number' = number) ∨ (level' + 2 = level ∧ number' / 512 = number)

instance (level number level' number' : Nat) : Decidable (Below level number level' number') := by
  unfold Below
  infer_instance

omit refines in
theorem Refines.write (refines : Refines cfg m map tables) {level number table i : Nat} (tag : Tag)
    (node : tables level number = some table) (inTable : i < 512)
    (inside : (number * 512 + i) * 512 ^ level < 2 ^ 21) :
    Refines cfg (m.write table i (entry level (number * 512 + i) (some tag)))
      (RangeWrite.apply ⟨(number * 512 + i) * 512 ^ level,
        (number * 512 + i + 1) * 512 ^ level, some tag⟩ map)
      (fun level' number' =>
        if Below level (number * 512 + i) level' number' then none
        else tables level' number') := by
  have isLevel := refines.level _ _ _ node
  have kept {level' number' other : Nat}
      (owner : (if Below level (number * 512 + i) level' number' then none
        else tables level' number') = some other) :
      ¬ Below level (number * 512 + i) level' number' ∧ tables level' number' = some other := by
    split_ifs at owner with below
    exact ⟨below, owner⟩
  -- An entry that overlaps the pages is the entry itself, is above it, or is in
  -- a table that has been dropped.
  have apart {level' number' other j page : Nat} (inPart : j < 512)
      (owner : tables level' number' = some other)
      (notBelow : ¬ Below level (number * 512 + i) level' number')
      (notEntry : ¬ (other = table ∧ j = i))
      (none : ∀ child, level' = child + 1 → tables child (number' * 512 + j) = none)
      (covers : page / 512 ^ level' = number' * 512 + j) :
      page / 512 ^ level ≠ number * 512 + i := by
    intro same
    have isLevel' := refines.level _ _ _ owner
    rcases Nat.lt_trichotomy level level' with above | rfl | below
    · obtain rfl | ⟨rfl, rfl⟩ : level' = level + 1 ∨ level = 0 ∧ level' = 2 := by
        omega
      · rw [Nat.pow_succ, ← Nat.div_div_eq_div_mul, same] at covers
        have empty := none level rfl
        rw [← covers, show (number * 512 + i) / 512 = number by omega, node] at empty
        cases empty
      · rcases refines.parent _ _ _ node with top | up
        · cases top
        · have empty := none 1 rfl
          rw [show number' * 512 + j = number / 512 by omega] at empty
          rw [Nat.zero_add, empty] at up
          cases up
    · obtain rfl : number' = number := by omega
      rw [node] at owner
      exact notEntry ⟨(Option.some.inj owner).symm, by omega⟩
    · obtain rfl | ⟨rfl, rfl⟩ : level = level' + 1 ∨ level' = 0 ∧ level = 2 := by
        omega
      · rw [Nat.pow_succ, ← Nat.div_div_eq_div_mul, covers] at same
        exact notBelow (.inl ⟨rfl, by omega⟩)
      · exact notBelow (.inr ⟨rfl, by omega⟩)
  refine
    { root := ?_
      level := fun level' number' other owner =>
        refines.level _ _ _ (kept owner).2
      parent := fun level' number' other owner => ?_
      distinct := fun level' number' level'' number'' other first second =>
        refines.distinct _ _ _ _ _ (kept first).2 (kept second).2
      handed := fun level' number' other owner =>
        refines.handed _ _ _ (kept owner).2
      entries := fun level' number' other owner j inPart bound => ?_
      used := fun other member => ?_
      once := refines.once
      next := refines.next }
  · rw [if_neg fun below => by rcases below with below | below <;> omega]
    exact refines.root
  · obtain ⟨notBelow, owned⟩ := kept owner
    refine (refines.parent _ _ _ owned).imp_right fun above => ?_
    rw [if_neg fun below => ?_]
    · exact above
    · rcases below with ⟨isLevel', isNumber⟩ | ⟨isLevel', -⟩
      · exact notBelow (.inr ⟨isLevel', isNumber⟩)
      · omega
  · obtain ⟨notBelow, owned⟩ := kept owner
    rw [write_words]
    by_cases isEntry : other = table ∧ j = i
    · obtain ⟨rfl, rfl⟩ := isEntry
      obtain ⟨rfl, rfl⟩ := refines.distinct _ _ _ _ _ owned node
      rw [if_pos ⟨rfl, rfl⟩]
      refine .inr ⟨some tag, fun child isChild => if_pos (.inl ⟨isChild.symm, rfl⟩),
        rfl, fun page covers => ?_⟩
      have size : 0 < 512 ^ level' := Nat.pow_pos (by decide)
      refine RangeWrite.apply_of_covers ?_ ?_ map
      · rw [← covers]
        exact Nat.div_mul_le_self page _
      · rw [← covers]
        exact (Nat.div_lt_iff_lt_mul size).mp (Nat.lt_succ_self _)
    · rw [if_neg isEntry]
      rcases refines.entries level' number' other owned j inPart bound with
        ⟨child, below, isChild, childOwner, desc⟩ | ⟨old, none, desc, same⟩
      · refine .inl ⟨child, below, isChild, ?_, desc⟩
        dsimp only
        rw [if_neg]
        · exact childOwner
        · rintro (⟨isLevel', isNumber⟩ | ⟨isLevel', isNumber⟩)
          · obtain rfl : level' = level := isChild.trans isLevel'
            obtain rfl : number' = number := by omega
            rw [node] at owned
            exact isEntry ⟨(Option.some.inj owned).symm, by omega⟩
          · exact notBelow (.inl ⟨by omega, by omega⟩)
      · refine .inr ⟨old, fun child isChild => ?_, desc, fun page covers => ?_⟩
        · dsimp only
          rw [none child isChild]
          split_ifs <;> rfl
        · rw [RangeWrite.apply_of_not_covers]
          · exact same page covers
          · have different := apart inPart owned notBelow isEntry none covers
            have size : 0 < 512 ^ level := Nat.pow_pos (by decide)
            rcases Nat.lt_or_gt_of_ne different with low | high
            · exact .inl ((Nat.div_lt_iff_lt_mul size).mp low)
            · exact .inr ((Nat.le_div_iff_mul_le size).mp high)
  · obtain ⟨bound, clean⟩ := refines.used other member
    refine ⟨bound, fun j inPart => ?_⟩
    rw [write_words]
    split_ifs
    · exact entry_ne_unused _ inside
    · exact clean j inPart

theorem Refines.writeAt (tag : Tag) (node : tables level number = some table)
    (covers : baseAddr / (512 ^ level * 4096) / 512 = number)
    (aligned : baseAddr % (512 ^ level * 4096) = 0) (below : baseAddr + 512 ^ level * 4096 ≤ 2 ^ 33) :
    ∃ tables, Refines cfg
      (m.write table (baseAddr / (512 ^ level * 4096) % 512)
        (BitVec.ofNat 64 baseAddr ||| kind level ||| getBlockAttr tag))
      (RangeWrite.apply ⟨baseAddr / 4096,
        (baseAddr + 512 ^ level * 4096) / 4096, some tag⟩ map) tables := by
  obtain ⟨block, rfl⟩ : ∃ block, baseAddr = block * (512 ^ level * 4096) :=
    ⟨_, (Nat.div_mul_cancel (Nat.dvd_of_mod_eq_zero aligned)).symm⟩
  have size : 0 < 512 ^ level * 4096 := Nat.mul_pos (Nat.pow_pos (by decide)) (by decide)
  rw [Nat.mul_div_cancel block size] at covers ⊢
  have position : number * 512 + block % 512 = block := by omega
  have first : block * (512 ^ level * 4096) / 4096 = block * 512 ^ level := by
    rw [← Nat.mul_assoc]
    exact Nat.mul_div_cancel _ (by decide)
  have last : (block * (512 ^ level * 4096) + 512 ^ level * 4096) / 4096 =
      (block + 1) * 512 ^ level := by
    rw [← Nat.succ_mul, ← Nat.mul_assoc]
    exact Nat.mul_div_cancel _ (by decide)
  have written := refines.write tag node
    (Nat.mod_lt block (show 0 < 512 by decide))
    (by rw [position]; omega)
  rw [position, entry, ← BitVec.or_assoc, Nat.mul_assoc] at written
  rw [first, last]
  exact ⟨_, written⟩

theorem Refines.initXlatTable (valid : cfg.Valid) {mapped : Nat} {tag : Tag}
    (aligned : baseAddr % 4096 = 0 ∧ size % 4096 = 0) (positive : 0 < size)
    (below : baseAddr + size ≤ 2 ^ 33)
    (got : initXlatTable cfg m baseAddr size tag = .ok (next, mapped)) :
    (mapped ≤ size ∧ 0 < mapped ∧ mapped % 4096 = 0) ∧
      ∃ tables, Refines cfg next
        (RangeWrite.apply ⟨baseAddr / 4096, (baseAddr + mapped) / 4096, some tag⟩ map) tables := by
  rw [Armv8.initXlatTable] at got
  by_cases isBlock : size ≥ 2 ^ 30 ∧ baseAddr % 2 ^ 30 = 0
  · rw [if_pos isBlock] at got
    cases got
    exact ⟨by omega, refines.writeAt tag refines.root (by omega) isBlock.2 (by omega)⟩
  · rw [if_neg isBlock] at got
    cases first : Armv8.getNextLevelTable cfg m 0 (baseAddr / 2 ^ 30 % 512) (2 ^ 21) with
    | error stop =>
      rw [first] at got
      cases got
    | ok result =>
      obtain ⟨middle, table⟩ := result
      rw [first] at got
      obtain ⟨tables, refines, node⟩ := refines.getNextLevelTable valid
        refines.root (Nat.mod_lt _ (by decide))
        (show (0 * 512 + baseAddr / 2 ^ 30 % 512) * 512 ^ 2 < 2 ^ 21 by omega)
        first
      rw [show 0 * 512 + baseAddr / 2 ^ 30 % 512 = baseAddr / 2 ^ 30 by omega] at node
      dsimp only at got
      by_cases isBlock : size ≥ 2 ^ 21 ∧ baseAddr % 2 ^ 21 = 0
      · rw [if_pos isBlock] at got
        cases got
        exact ⟨by omega, refines.writeAt tag node (by omega) isBlock.2 (by omega)⟩
      · rw [if_neg isBlock] at got
        cases second : Armv8.getNextLevelTable cfg middle table
            (baseAddr / 2 ^ 21 % 512) (2 ^ 12) with
        | error stop =>
          rw [second] at got
          cases got
        | ok result =>
          obtain ⟨last, below⟩ := result
          rw [second] at got
          cases got
          obtain ⟨tables, refines, node⟩ := refines.getNextLevelTable valid
            node (Nat.mod_lt _ (by decide))
            (show (baseAddr / 2 ^ 30 * 512 + baseAddr / 2 ^ 21 % 512) *
              512 ^ 1 < 2 ^ 21 by omega) second
          exact ⟨by omega, refines.writeAt tag node (by omega) (by omega) (by omega)⟩

end

/-- A call ends in tables, or the tables run out. -/
inductive Ends (holds : Tables → Prop) : Except Stop Tables → Prop
  | ok {m : Tables} (ends : holds m) : Ends holds (.ok m)
  | tables : Ends holds (.error .tables)

theorem setupNewTable_stop {desc : Desc} {xlatSize : Nat}
    (stopped : setupNewTable cfg m desc xlatSize = .error stop) : stop = .tables := by
  rw [setupNewTable] at stopped
  cases found : nextFree m.words (cfg.count - 1 - m.nextFreeTable) m.nextFreeTable with
  | none =>
    rw [found] at stopped
    cases stopped
    rfl
  | some table =>
    rw [found] at stopped
    cases stopped

theorem getNextLevelTable_stop {index xlatSize : Nat}
    (stopped : getNextLevelTable cfg m table index xlatSize = .error stop) : stop = .tables := by
  rw [getNextLevelTable] at stopped
  split_ifs at stopped
  cases setup : setupNewTable cfg m (m.words table index) xlatSize with
  | error other =>
    rw [setup] at stopped
    cases stopped
    exact setupNewTable_stop setup
  | ok result =>
    rw [setup] at stopped
    cases stopped

theorem initXlatTable_stop {tag : Tag}
    (stopped : initXlatTable cfg m baseAddr size tag = .error stop) : stop = .tables := by
  rw [initXlatTable] at stopped
  by_cases isBlock : size ≥ 2 ^ 30 ∧ baseAddr % 2 ^ 30 = 0
  · rw [if_pos isBlock] at stopped
    cases stopped
  · rw [if_neg isBlock] at stopped
    cases first : getNextLevelTable cfg m 0 (baseAddr / 2 ^ 30 % 512) (2 ^ 21) with
    | error other =>
      rw [first] at stopped
      cases stopped
      exact getNextLevelTable_stop first
    | ok result =>
      obtain ⟨middle, table⟩ := result
      rw [first] at stopped
      dsimp only at stopped
      split_ifs at stopped
      cases second : getNextLevelTable cfg middle table (baseAddr / 2 ^ 21 % 512) (2 ^ 12) with
      | error other =>
        rw [second] at stopped
        cases stopped
        exact getNextLevelTable_stop second
      | ok result =>
        rw [second] at stopped
        cases stopped

theorem Refines.configLoop (refines : Refines cfg m map tables) (valid : cfg.Valid)
    {start tempSize fuel : Nat} (tag : Tag) (aligned : start % 4096 = 0 ∧ size % 4096 = 0)
    (below : start + size ≤ 2 ^ 33) (rest : tempSize ≤ size) (restAligned : tempSize % 4096 = 0)
    (enough : tempSize ≤ fuel * 4096) :
    Ends (fun next => ∃ tables, Refines cfg next
        (RangeWrite.apply ⟨(start + (size - tempSize)) / 4096,
          (start + size) / 4096, some tag⟩ map) tables)
      (configLoop cfg start size tag fuel tempSize m) := by
  induction fuel generalizing tempSize m map tables with
  | zero =>
    obtain rfl : tempSize = 0 := by omega
    rw [Nat.sub_zero, RangeWrite.apply_of_empty]
    exact .ok ⟨tables, refines⟩
  | succ fuel ih =>
    cases tempSize with
    | zero =>
      rw [Nat.sub_zero, RangeWrite.apply_of_empty]
      exact .ok ⟨tables, refines⟩
    | succ tempSize =>
      rw [Armv8.configLoop]
      cases step : Armv8.initXlatTable cfg m
          (start + (size - (tempSize + 1))) (tempSize + 1) tag with
      | error stop =>
        rw [initXlatTable_stop step]
        exact .tables
      | ok result =>
        obtain ⟨middle, mapped⟩ := result
        obtain ⟨bounds, tables, refines⟩ := refines.initXlatTable valid
          (by omega) (Nat.succ_pos tempSize) (by omega) step
        have later := ih refines (show tempSize + 1 - mapped ≤ size by omega) (by omega) (by omega)
        rw [show start + (size - (tempSize + 1 - mapped)) =
          start + (size - (tempSize + 1)) + mapped by omega,
          RangeWrite.apply_apply (by omega) (by omega)] at later
        exact later

theorem Refines.mmuConfigRange (refines : Refines cfg m map tables)
    (valid : cfg.Valid) {call : Call} (callValid : call.Valid) :
    Ends (fun next => ∃ tables, Refines cfg next (call.write.apply map) tables)
      (mmuConfigRange cfg m call.start call.size call.tag) := by
  obtain ⟨start, size, positive, below⟩ := callValid
  have looped := refines.configLoop valid call.tag ⟨start, size⟩ below
    (Nat.le_refl call.size) size (show call.size ≤ call.size / 4096 * 4096 by omega)
  rw [Nat.sub_self] at looped
  rw [Armv8.mmuConfigRange, if_pos ⟨start, size, by omega⟩]
  exact looped

theorem Refines.runCalls (refines : Refines cfg m map tables) (valid : cfg.Valid)
    {calls : List Call} (callsValid : ∀ call ∈ calls, call.Valid) :
    Ends (fun next => ∃ tables, Refines cfg next
        (RangeWrite.applyAll (calls.map Call.write) map) tables)
      (runCalls cfg m calls) := by
  induction calls generalizing m map tables with
  | nil => exact .ok ⟨tables, refines⟩
  | cons call rest ih =>
    have first := refines.mmuConfigRange valid (callsValid call (.head _))
    rw [Armv8.runCalls]
    cases step : Armv8.mmuConfigRange cfg m call.start call.size call.tag with
    | error stop =>
      rw [step] at first
      cases first
      exact .tables
    | ok middle =>
      rw [step] at first
      obtain ⟨tables, refines⟩ | _ := first
      exact ih refines (List.forall_mem_cons.mp callsValid).2

theorem mmuInit_refines (valid : cfg.Valid) (words : Nat → Nat → Desc) :
    ∃ m, mmuInit cfg words = .ok m ∧
      Refines cfg m (fun _ => none) fun level number =>
        if level = 2 ∧ number = 0 then some 0 else none := by
  have positive := valid.positive
  have free (left : Nat) : nextFree (fun table =>
      if table < cfg.count then Function.update (words table) 0 unusedDesc
      else words table) left 0 = some 0 := by
    cases left <;> rw [nextFree, if_pos] <;> rw [if_pos positive] <;> rfl
  rw [mmuInit, setupNewTable, free]
  dsimp only
  rw [if_pos rfl, if_pos rfl]
  refine ⟨_, rfl, ?_⟩
  have root {level number table : Nat}
      (owner : (if level = 2 ∧ number = 0 then some 0 else none) = some table) :
      level = 2 ∧ number = 0 ∧ table = 0 := by
    split_ifs at owner with isRoot
    exact ⟨isRoot.1, isRoot.2, (Option.some.inj owner).symm⟩
  refine
    { root := rfl
      level := fun level number table owner => Nat.le_of_eq (root owner).1
      parent := fun level number table owner => .inl (root owner).1
      distinct := fun level number level' number' table first second => ?_
      handed := fun level number table owner => ?_
      entries := fun level number table owner i inTable bound => ?_
      used := fun table member => ?_
      once := List.nodup_singleton 0
      next := positive }
  · obtain ⟨rfl, rfl, -⟩ := root first
    obtain ⟨rfl, rfl, -⟩ := root second
    exact ⟨rfl, rfl⟩
  · obtain ⟨-, -, rfl⟩ := root owner
    exact List.mem_singleton_self 0
  · obtain ⟨rfl, rfl, rfl⟩ := root owner
    refine .inr ⟨none, fun child isChild => if_neg (by omega), ?_, fun page _ => rfl⟩
    dsimp only
    rw [Function.update_self, fillRange_apply, if_pos ⟨Nat.zero_le i, by omega⟩]
    rfl
  · obtain rfl := List.mem_singleton.mp member
    refine ⟨positive, fun i inTable => ?_⟩
    dsimp only
    rw [Function.update_self, fillRange_apply, if_pos ⟨Nat.zero_le i, by omega⟩]
    decide

/-- Every page is mapped to itself with the attributes of the last call that
covers it, and the tables that the walk goes through have been handed out once
and do not look unused. -/
structure Correct (cfg : Config) (m : Tables) (calls : List Call) : Prop where
  maps : ∀ page < 2 ^ 21, mapping page (getPte cfg m page) =
    identity page ((RangeWrite.last (calls.map Call.write) page).getD none)
  visited : ∀ page < 2 ^ 21, ∀ table ∈ visited cfg m page 2 0, table ∈ m.handedOut
  once : m.handedOut.Nodup
  clean : ∀ table ∈ m.handedOut, ∀ i < 512, m.words table i ≠ unusedDesc

theorem correct_of_run (cfg : Config) (valid : cfg.Valid) (words : Nat → Nat → Desc)
    (calls : List Call) (callsValid : ∀ call ∈ calls, call.Valid) :
    Ends (fun m => Correct cfg m calls) (run cfg words calls) := by
  obtain ⟨start, initialized, refines⟩ := mmuInit_refines valid words
  have ran := refines.runCalls valid callsValid
  rw [run, initialized]
  dsimp only
  cases result : runCalls cfg start calls with
  | error stop =>
    rw [result] at ran
    cases ran
    exact .tables
  | ok m =>
    rw [result] at ran
    obtain ⟨tables, refines⟩ | _ := ran
    have walk {page : Nat} (inside : page < 2 ^ 21) := refines.walkFrom valid
      inside refines.root (show page / 512 ^ 3 = 0 by omega)
    exact .ok
      { maps := fun page inside => by
          rw [getPte, (walk inside).1, RangeWrite.applyAll_eq_last]
        visited := fun page inside => (walk inside).2
        once := refines.once
        clean := fun table member => (refines.used table member).2 }

def handedOutOf : Except Stop Tables → List Nat
  | .ok m => m.handedOut
  | .error _ => []

def threeTables : Config := ⟨0x100000, 3⟩

def onePage : Call := ⟨0x2000, 0x1000, 0x2#64⟩

theorem threeTables_valid : threeTables.Valid := ⟨by decide, by decide, by decide⟩

theorem onePage_valid : onePage.Valid := by
  unfold Call.Valid
  decide

theorem correct_onePage : ∃ m,
    run threeTables (fun _ _ => 0) [onePage] = .ok m ∧
      m.handedOut = [2, 1, 0] ∧ Correct threeTables m [onePage] := by
  have correct := correct_of_run threeTables threeTables_valid (fun _ _ => 0)
    [onePage] (List.forall_mem_singleton.mpr onePage_valid)
  have handedOut : handedOutOf (run threeTables (fun _ _ => 0) [onePage]) = [2, 1, 0] := by
    decide +kernel
  cases result : run threeTables (fun _ _ => 0) [onePage] with
  | error stop =>
    rw [result] at handedOut
    cases handedOut
  | ok m =>
    rw [result] at handedOut correct
    obtain correct | _ := correct
    exact ⟨m, rfl, handedOut, correct⟩

end Coreboot.Armv8
