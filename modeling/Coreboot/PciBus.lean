import Mathlib.Data.List.Basic
import Mathlib.Data.List.Range
import Mathlib.Tactic.Common
import Mathlib.Tactic.IntervalCases

/-!
# The numbers of the PCI buses

The scan of a domain numbers the buses behind its bridges.
-/

namespace Coreboot.Pci

/-- The numbers of a link, and the command register that is kept while the bus
behind it is scanned. -/
structure Bus where
  secondary : BitVec 16
  subordinate : BitVec 16
  bridgeCmd : BitVec 16
deriving DecidableEq, Repr

/-- What is at a device and function number.  A function of the device tree may
be absent.  The enable sequences of the chip and of the operations decide
whether it is enabled, and the operations whether it is scanned as a bridge. -/
structure Slot where
  isStatic : Bool
  id : BitVec 32
  hdrType : BitVec 8
  enabled : Bool
  scanBus : Bool
  command : BitVec 16
  primaryBus : BitVec 32
deriving DecidableEq, Repr

/-- The functions of a bus by their numbers, with the buses behind them. -/
inductive Slots where
  | nil
  | cons (slot : Slot) (behind : Slots) (rest : Slots)

structure Device where
  devfn : Nat
  enabled : Bool
  hdrType : BitVec 8
  scanBus : Bool
  link : Bus
  command : BitVec 16
  primaryBus : BitVec 32
deriving DecidableEq, Repr

/-- The children of a bus, each with the children of its own link. -/
inductive Devices where
  | nil
  | cons (dev : Device) (children : Devices) (sibling : Devices)

def noBus : Bus := ⟨0, 0, 0⟩

def absent (id : BitVec 32) : Bool :=
  id = 0xffffffff || id = 0x00000000 || id = 0x0000ffff || id = 0xffff0000

def pciProbeDev (slot : Slot) (devfn : Nat) : Option Device :=
  if absent slot.id then
    -- A static device that is not found is disabled.
    if slot.isStatic then
      some ⟨devfn, false, 0, slot.scanBus, noBus, slot.command, slot.primaryBus⟩
    else none
  else
    some ⟨devfn, slot.enabled, slot.hdrType, slot.scanBus, noBus, slot.command, slot.primaryBus⟩

/-- The functions to pass over after a device: seven when the first function is
absent or the only one. -/
def pass (devfn : Nat) (dev : Option Device) : Nat :=
  if devfn % 8 = 0 ∧ dev.all fun dev =>
      dev.enabled && dev.hdrType &&& 0x80 ≠ 0x80 then 7
  else 0

/-- The first loop of `pci_scan_bus`, for the bus and the buses behind it. -/
def probe (maxDevfn : Nat) : Nat → Nat → Slots → Devices
  | _, _, .nil => .nil
  | devfn, skip + 1, .cons _ _ rest => probe maxDevfn (devfn + 1) skip rest
  | devfn, 0, .cons slot behind rest =>
    if devfn ≤ maxDevfn then
      let dev := pciProbeDev slot devfn
      let sibling := probe maxDevfn (devfn + 1) (pass devfn dev) rest
      match dev with
      | some dev => .cons dev (probe 0xff 0 0 behind) sibling
      | none => sibling
    else .nil

inductive ScanState where
  | close
  | scan
  | final
deriving DecidableEq, Repr

/-- The write to `PCI_PRIMARY_BUS` keeps the latency timer. -/
def writeBuses (reg buses : BitVec 32) : BitVec 32 := reg &&& 0xff000000#32 ||| buses

def pciBridgeRoute (parent : Bus) (dev : Device) : ScanState → Bus × Device
  | .close =>
    (parent, { dev with
      primaryBus := writeBuses dev.primaryBus (0xfeff#32 <<< 8) })
  | .scan =>
    let link : Bus := ⟨parent.subordinate + 1, parent.subordinate + 1, dev.command⟩
    let buses := (parent.secondary.setWidth 32 &&& 0xff#32) |||
      (link.secondary.setWidth 32 &&& 0xff#32) <<< 8 |||
      -- The largest bus number.
      0xff#32 <<< 16
    (parent, { dev with
      link
      command := 0
      primaryBus := writeBuses dev.primaryBus buses })
  | .final =>
    let buses := (parent.secondary.setWidth 32 &&& 0xff#32) |||
      (dev.link.secondary.setWidth 32 &&& 0xff#32) <<< 8 |||
      (dev.link.subordinate.setWidth 32 &&& 0xff#32) <<< 16
    ({ parent with subordinate := dev.link.subordinate },
      { dev with
        command := dev.link.bridgeCmd
        primaryBus := writeBuses dev.primaryBus buses })

/-- `do_pci_scan_bridge`, with the scan of the bus behind the bridge. -/
def doPciScanBridge (parent : Bus) (dev : Device)
    (doScanBus : Bus → Bus × Devices) : Bus × Device × Devices :=
  let opened := pciBridgeRoute parent dev .scan
  let scanned := doScanBus opened.2.link
  let closed := pciBridgeRoute opened.1 { opened.2 with link := scanned.1 } .final
  (closed.1, closed.2, scanned.2)

def scanBridges (bus : Bus) : Devices → Bus × Devices
  | .nil => (bus, .nil)
  | .cons dev children sibling =>
    if dev.scanBus && dev.enabled then
      let bridge := doPciScanBridge bus dev fun link =>
        scanBridges link children
      let later := scanBridges bridge.1 sibling
      (later.1, .cons bridge.2.1 bridge.2.2 later.2)
    else
      let later := scanBridges bus sibling
      (later.1, .cons dev children later.2)

def pciDomainScanBus (slots : Slots) : Bus × Devices := scanBridges noBus (probe 0xff 0 0 slots)

/-- The bridges that are scanned, in the order of a depth-first walk. -/
def bridges : Devices → List (Device × Devices)
  | .nil => []
  | .cons dev children sibling =>
    if dev.scanBus && dev.enabled then
      (dev, children) :: (bridges children ++ bridges sibling)
    else bridges sibling

def links : Devices → List Device
  | .nil => []
  | .cons dev _ sibling =>
    if dev.scanBus && dev.enabled then dev :: links sibling else links sibling

def Device.secondary (dev : Device) : Nat := dev.link.secondary.toNat

def Device.subordinate (dev : Device) : Nat := dev.link.subordinate.toNat

def numbers (tree : Devices) : List Nat := (bridges tree).map fun bridge => bridge.1.secondary

/-- The register of a bridge has the numbers of its parent and of its link. -/
structure Encodes (parent : Nat) (dev : Device) : Prop where
  primary : (dev.primaryBus.extractLsb' 0 8).toNat = parent
  secondary : (dev.primaryBus.extractLsb' 8 8).toNat = dev.secondary
  subordinate : (dev.primaryBus.extractLsb' 16 8).toNat = dev.subordinate

/-- The bridges on a bus have disjoint ranges, in order and within a range, and
their registers encode them. -/
structure Routed (secondary lower upper : Nat) (devs : List Device) : Prop where
  nested : ∀ dev ∈ devs, lower < dev.secondary ∧
    dev.secondary ≤ dev.subordinate ∧ dev.subordinate ≤ upper
  disjoint : devs.Pairwise fun first second =>
    first.subordinate < second.secondary
  encodes : ∀ dev ∈ devs, Encodes secondary dev

/-- The range of a bridge is its number and the numbers behind it, and the bus
behind it is routed. -/
structure Numbered (bridge : Device × Devices) : Prop where
  range : ∀ number,
    bridge.1.secondary ≤ number ∧ number ≤ bridge.1.subordinate ↔
      number ∈ bridge.1.secondary :: numbers bridge.2
  routed : Routed bridge.1.secondary bridge.1.secondary bridge.1.subordinate (links bridge.2)

/-- What the scan does not change in a device. -/
structure Device.Kept where
  devfn : Nat
  hdrType : BitVec 8
  command : BitVec 16
  latencyTimer : BitVec 8

def Device.kept (dev : Device) : Device.Kept :=
  ⟨dev.devfn, dev.hdrType, dev.command, dev.primaryBus.extractLsb' 24 8⟩

variable {number : BitVec 16}

theorem byte_toNat (small : number.toNat ≤ 255) :
    (number.setWidth 8).toNat = number.toNat := by
  rw [BitVec.toNat_setWidth]
  omega

theorem toNat_add_one (small : number.toNat < 255) :
    (number + 1).toNat = number.toNat + 1 := by
  rw [BitVec.toNat_add]
  change (number.toNat + 1) % 65536 = _
  omega

theorem writeBuses_bytes (reg : BitVec 32) (primary secondary subordinate : BitVec 16) :
    let written := writeBuses reg ((primary.setWidth 32 &&& 0xff#32) |||
      (secondary.setWidth 32 &&& 0xff#32) <<< 8 |||
      (subordinate.setWidth 32 &&& 0xff#32) <<< 16)
    written.extractLsb' 0 8 = primary.setWidth 8 ∧
      written.extractLsb' 8 8 = secondary.setWidth 8 ∧
      written.extractLsb' 16 8 = subordinate.setWidth 8 ∧
      written.extractLsb' 24 8 = reg.extractLsb' 24 8 := by
  refine ⟨?_, ?_, ?_, ?_⟩ <;> ext i inside <;> interval_cases i <;> simp [writeBuses]

structure Bridged (parent : Bus) (dev : Device) (link : Bus) (after : Device) :
    Prop where
  same : after.link = link
  scanBus : after.scanBus = dev.scanBus
  enabled : after.enabled = dev.enabled
  kept : after.kept = dev.kept
  primary : after.primaryBus.extractLsb' 0 8 = parent.secondary.setWidth 8
  secondary : after.primaryBus.extractLsb' 8 8 = link.secondary.setWidth 8
  subordinate : after.primaryBus.extractLsb' 16 8 = link.subordinate.setWidth 8

variable {dev : Device} {children sibling : Devices}

theorem Bridged.encodes {parent link : Bus} {after : Device}
    (bridged : Bridged parent dev link after)
    (order : parent.secondary.toNat ≤ link.secondary.toNat)
    (range : link.secondary.toNat ≤ link.subordinate.toNat) (room : link.subordinate.toNat ≤ 255) :
    Encodes parent.secondary.toNat after where
  primary := by
    rw [bridged.primary, byte_toNat (by omega)]
  secondary := by
    rw [bridged.secondary, byte_toNat (by omega), Device.secondary, bridged.same]
  subordinate := by
    rw [bridged.subordinate, byte_toNat room, Device.subordinate, bridged.same]

theorem doPciScanBridge_spec (parent : Bus) (dev : Device) (doScanBus : Bus → Bus × Devices)
    (cmd : ∀ link, (doScanBus link).1.bridgeCmd = link.bridgeCmd) :
    ∃ link after,
      doScanBus ⟨parent.subordinate + 1, parent.subordinate + 1, dev.command⟩ = link ∧
      doPciScanBridge parent dev doScanBus =
        ({ parent with subordinate := link.1.subordinate }, after, link.2) ∧
      Bridged parent dev link.1 after := by
  refine ⟨_, _, rfl, rfl, ?_⟩
  have first := writeBuses_bytes dev.primaryBus parent.secondary (parent.subordinate + 1) 0xff
  have last (reg : BitVec 32) (link : Bus) := writeBuses_bytes reg
    parent.secondary link.secondary link.subordinate
  exact
    { same := rfl
      scanBus := rfl
      enabled := rfl
      kept := by
        have command := cmd ⟨parent.subordinate + 1, parent.subordinate + 1, dev.command⟩
        refine congrArg₂ (Device.Kept.mk dev.devfn dev.hdrType) command ?_
        exact (last _ _).2.2.2.trans first.2.2.2
      primary := (last _ _).1
      secondary := (last _ _).2.1
      subordinate := (last _ _).2.2.1 }

theorem bridges_cons (scanned : (dev.scanBus && dev.enabled) = true) :
    bridges (.cons dev children sibling) =
      (dev, children) :: (bridges children ++ bridges sibling) := by
  rw [bridges, if_pos scanned]

theorem links_cons (scanned : (dev.scanBus && dev.enabled) = true) :
    links (.cons dev children sibling) = dev :: links sibling := by
  rw [links, if_pos scanned]

theorem scanBridges_bridgeCmd (bus : Bus) (tree : Devices) :
    (scanBridges bus tree).1.bridgeCmd = bus.bridgeCmd := by
  induction tree generalizing bus with
  | nil => rfl
  | cons dev children sibling _ ih =>
    rw [scanBridges]
    split_ifs
    · exact ih _
    · exact ih bus

structure Scanned (bus : Bus) (tree : Devices) (out : Bus × Devices) : Prop where
  secondary : out.1.secondary = bus.secondary
  subordinate : out.1.subordinate.toNat = bus.subordinate.toNat + (bridges tree).length
  numbers : numbers out.2 = List.range' (bus.subordinate.toNat + 1) (bridges tree).length
  kept : (bridges out.2).map (fun bridge => bridge.1.kept) =
    (bridges tree).map fun bridge => bridge.1.kept
  routed : Routed bus.secondary.toNat bus.subordinate.toNat out.1.subordinate.toNat (links out.2)
  numbered : ∀ bridge ∈ bridges out.2, Numbered bridge

theorem Scanned.nil (bus : Bus) : Scanned bus .nil (bus, .nil) where
  secondary := rfl
  subordinate := rfl
  numbers := rfl
  kept := rfl
  routed :=
    { nested := List.forall_mem_nil _
      disjoint := List.Pairwise.nil
      encodes := List.forall_mem_nil _ }
  numbered := List.forall_mem_nil _

theorem Scanned.skip {bus : Bus} {out : Bus × Devices} (rest : Scanned bus sibling out)
    (skipped : ¬ (dev.scanBus && dev.enabled) = true) :
    Scanned bus (.cons dev children sibling) (out.1, .cons dev children out.2) := by
  have same (tree : Devices) :
      bridges (.cons dev children tree) = bridges tree ∧
        links (.cons dev children tree) = links tree := by
    rw [bridges, links, if_neg skipped, if_neg skipped]
    exact ⟨rfl, rfl⟩
  refine
    { secondary := rest.secondary
      subordinate := ?_
      numbers := ?_
      kept := ?_
      routed := ?_
      numbered := ?_ }
  · rw [(same sibling).1]
    exact rest.subordinate
  · rw [Pci.numbers, (same out.2).1, (same sibling).1]
    exact rest.numbers
  · rw [(same out.2).1, (same sibling).1]
    exact rest.kept
  · rw [(same out.2).2]
    exact rest.routed
  · rw [(same out.2).1]
    exact rest.numbered

theorem Scanned.bridge {bus : Bus} {after : Device} {inner rest : Bus × Devices}
    (scanned : (dev.scanBus && dev.enabled) = true)
    (order : bus.secondary.toNat ≤ bus.subordinate.toNat)
    (room : bus.subordinate.toNat + 1 + (bridges children).length ≤ 255)
    (behind : Scanned ⟨bus.subordinate + 1, bus.subordinate + 1, dev.command⟩ children inner)
    (bridged : Bridged bus dev inner.1 after)
    (later : Scanned { bus with subordinate := inner.1.subordinate } sibling rest) :
    Scanned bus (.cons dev children sibling) (rest.1, .cons after inner.2 rest.2) := by
  have afterScanned : (after.scanBus && after.enabled) = true := by
    rw [bridged.scanBus, bridged.enabled]
    exact scanned
  have number : (bus.subordinate + 1).toNat = bus.subordinate.toNat + 1 := toNat_add_one (by omega)
  have secondary : after.secondary = bus.subordinate.toNat + 1 := by
    rw [Device.secondary, bridged.same, behind.secondary, number]
  have innerLast := behind.subordinate
  have innerNumbers := behind.numbers
  have innerRouted := behind.routed
  rw [number] at innerLast innerNumbers innerRouted
  have subordinate : after.subordinate = bus.subordinate.toNat + 1 + (bridges children).length := by
    rw [Device.subordinate, bridged.same, innerLast]
  have last := later.subordinate
  have laterNumbers := later.numbers
  rw [innerLast] at last laterNumbers
  refine
    { secondary := later.secondary
      subordinate := ?_
      numbers := ?_
      kept := ?_
      routed := ?_
      numbered := ?_ }
  · rw [bridges_cons scanned, List.length_cons, List.length_append, last]
    omega
  · rw [bridges_cons scanned, Pci.numbers, bridges_cons afterScanned,
      List.map_cons, List.map_append, List.length_cons, List.length_append]
    calc
      after.secondary :: (Pci.numbers inner.2 ++ Pci.numbers rest.2) =
          (bus.subordinate.toNat + 1) ::
            (List.range' (bus.subordinate.toNat + 1 + 1)
              ((bridges children).length + (bridges sibling).length)) := by
        rw [secondary, innerNumbers, laterNumbers, Nat.add_right_comm _ (bridges children).length 1,
          List.range'_append_1]
      _ = List.range' (bus.subordinate.toNat + 1)
            ((bridges children).length + (bridges sibling).length + 1) :=
        List.range'_succ.symm
  · rw [bridges_cons scanned, bridges_cons afterScanned]
    simp only [List.map_cons, List.map_append]
    rw [bridged.kept, behind.kept, later.kept]
  · rw [links_cons afterScanned]
    have laterRouted := later.routed
    rw [innerLast, ← subordinate] at laterRouted
    exact
      { nested := by
          intro dev member
          dsimp only
          rcases List.mem_cons.mp member with rfl | member
          · omega
          · have nested := laterRouted.nested dev member
            omega
        disjoint := List.pairwise_cons.mpr
          ⟨fun dev member => (laterRouted.nested dev member).1, laterRouted.disjoint⟩
        encodes := by
          intro dev member
          rcases List.mem_cons.mp member with rfl | member
          · refine bridged.encodes ?_ ?_ ?_
            · rw [behind.secondary, number]
              omega
            · rw [behind.secondary, number]
              omega
            · omega
          · exact laterRouted.encodes dev member }
  · rw [bridges_cons afterScanned]
    intro bridge member
    rcases List.mem_cons.mp member with rfl | member
    · rw [← bridged.same] at innerRouted
      rw [← secondary] at innerRouted innerNumbers
      refine ⟨fun other => ?_, innerRouted⟩
      rw [List.mem_cons, innerNumbers, List.mem_range'_1]
      dsimp only
      omega
    · rcases List.mem_append.mp member with inside | outside
      · exact behind.numbered bridge inside
      · exact later.numbered bridge outside

theorem scanBridges_spec (bus : Bus) (tree : Devices)
    (order : bus.secondary.toNat ≤ bus.subordinate.toNat)
    (room : bus.subordinate.toNat + (bridges tree).length ≤ 255) :
    Scanned bus tree (scanBridges bus tree) := by
  induction tree generalizing bus with
  | nil => exact Scanned.nil bus
  | cons dev children sibling inner later =>
    rw [scanBridges]
    by_cases scanned : (dev.scanBus && dev.enabled) = true
    · rw [if_pos scanned]
      rw [bridges_cons scanned, List.length_cons, List.length_append] at room
      obtain ⟨link, after, behind, result, bridged⟩ := doPciScanBridge_spec bus
        dev (fun link => scanBridges link children)
        fun link => scanBridges_bridgeCmd link children
      rw [result]
      have number : (bus.subordinate + 1).toNat = bus.subordinate.toNat + 1 :=
        toNat_add_one (by omega)
      have scannedBehind := inner
        ⟨bus.subordinate + 1, bus.subordinate + 1, dev.command⟩ (Nat.le_refl _)
        (by dsimp only; omega)
      rw [behind] at scannedBehind
      have last := scannedBehind.subordinate
      dsimp only at last
      exact scannedBehind.bridge scanned order (by omega) bridged
        (later _ (by dsimp only; omega) (by dsimp only; omega))
    · rw [if_neg scanned]
      rw [bridges, if_neg scanned] at room
      exact (later bus order room).skip scanned

/-- The buses of a domain are numbered in the order of a depth-first walk, with
the root bus first. -/
structure DomainNumbered (tree : Devices) (out : Bus × Devices) : Prop where
  root : out.1.secondary = 0
  order : numbers out.2 = List.range' 1 (bridges tree).length
  distinct : (0 :: numbers out.2).Nodup
  range : ∀ number, number ≤ out.1.subordinate.toNat ↔ number ∈ 0 :: numbers out.2
  routed : Routed 0 0 out.1.subordinate.toNat (links out.2)
  numbered : ∀ bridge ∈ bridges out.2, Numbered bridge
  kept : (bridges out.2).map (fun bridge => bridge.1.kept) =
    (bridges tree).map fun bridge => bridge.1.kept

theorem pciDomainScanBus_numbers (slots : Slots)
    (room : (bridges (probe 0xff 0 0 slots)).length ≤ 255) :
    DomainNumbered (probe 0xff 0 0 slots) (pciDomainScanBus slots) := by
  have scanned := scanBridges_spec noBus (probe 0xff 0 0 slots) (Nat.le_refl 0)
    (by rw [show noBus.subordinate.toNat = 0 from rfl, Nat.zero_add]; exact room)
  have numbers := scanned.numbers
  have last := scanned.subordinate
  rw [show noBus.subordinate.toNat = 0 from rfl, Nat.zero_add] at numbers last
  have all : 0 :: Pci.numbers (pciDomainScanBus slots).2 =
      List.range' 0 ((bridges (probe 0xff 0 0 slots)).length + 1) := by
    rw [pciDomainScanBus, numbers, List.range'_succ]
  exact
    { root := scanned.secondary
      order := numbers
      distinct := by
        rw [all]
        exact List.nodup_range'
      range := by
        intro number
        rw [all, List.mem_range'_1, pciDomainScanBus, last]
        omega
      routed := scanned.routed
      numbered := scanned.numbered
      kept := scanned.kept }

/-- Two bridges, one behind the other, an absent function and a third bridge. -/
def threeBridges : Slots :=
  let bridge : Slot := ⟨false, 0x12348086, 0x81, true, true, 7, 0x20000000⟩
  let empty : Slot := ⟨false, 0xffffffff, 0xff, false, false, 0, 0⟩
  .cons bridge (.cons bridge .nil .nil) (.cons empty .nil (.cons bridge .nil .nil))

theorem threeBridges_numbers :
    numbers (pciDomainScanBus threeBridges).2 = [1, 2, 3] ∧
      DomainNumbered (probe 0xff 0 0 threeBridges) (pciDomainScanBus threeBridges) :=
  ⟨by decide, pciDomainScanBus_numbers threeBridges (by decide)⟩

end Coreboot.Pci
