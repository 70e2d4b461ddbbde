import Coreboot.PciBus

/-!
# The device list of a PCI bus

The scan takes the static devices one by one out of the old list and puts them,
between the devices that it finds, on the list of the children.
-/

namespace Coreboot.PciScan

open Pci (absent)

inductive DevicePath where
  | pci (devfn : Nat)
  | other
deriving DecidableEq

/-- A device on a list of siblings.  The static ones are of the device tree. -/
structure Child where
  isStatic : Bool
  path : DevicePath
  enabled : Bool
  vendor : BitVec 16
  device : BitVec 16
  hdrType : BitVec 8
  classCode : BitVec 32
  command : BitVec 8
deriving DecidableEq

/-- What the functions of the bus answer, and the flag that the enable sequence
of the chip and that of the operations leave. -/
structure Functions where
  id : Nat → BitVec 32
  hdrType : Nat → BitVec 8
  classRevision : Nat → BitVec 32
  enableDev : Child → Bool
  enable : Child → Bool

structure Bus where
  children : List Child
  oldDevices : List Child

def pciScanGetDev (devfn : Nat) : List Child → Option Child × List Child
  | [] => (none, [])
  | dev :: list =>
    if dev.path = .pci devfn then
      (some dev, list)
    else
      let (found, rest) := pciScanGetDev devfn list
      (found, dev :: rest)

def allocDev (devfn : Nat) : Child := ⟨false, .pci devfn, true, 0, 0, 0, 0, 0⟩

/-- What `pci_probe_dev` reads of a function that is there. -/
def readConfig (f : Functions) (devfn : Nat) (dev : Child) : Child :=
  let id := f.id devfn
  let classCode := f.classRevision devfn >>> 8
  let dev : Child :=
    { dev with
      vendor := (id &&& 0xffff#32).setWidth 16
      device := (id >>> 16 &&& 0xffff#32).setWidth 16
      hdrType := f.hdrType devfn
      classCode
      command := if classCode >>> 16 = 0x08#32 then dev.command ||| 0x4#8 else dev.command }
  { dev with
    enabled := f.enable dev }

def pciProbeDev (f : Functions) (devfn : Nat) : Option Child → Option Child
  | none =>
    if absent (f.id devfn) then none
    else some (readConfig f devfn (allocDev devfn))
  | some dev =>
    let dev := { dev with
      enabled := f.enableDev dev }
    if absent (f.id devfn) then
      some { dev with
        enabled := false }
    else
      some (readConfig f devfn dev)

/-- The functions that are passed over behind this one. -/
def passed (devfn : Nat) (dev : Option Child) : Nat :=
  if devfn % 8 = 0 ∧ dev.all fun dev => dev.enabled ∧ dev.hdrType &&& 0x80 ≠ 0x80
  then 7 else 0

/-- The loop.  A static device is appended to the children before it is probed,
and another one when it is allocated; nothing reads the list in between. -/
def scanFns (f : Functions) (maxDevfn devfn : Nat) (bus : Bus) : Bus :=
  if devfn ≤ maxDevfn then
    let (dev, oldDevices) := pciScanGetDev devfn bus.oldDevices
    let dev := pciProbeDev f devfn dev
    scanFns f maxDevfn (devfn + passed devfn dev + 1) ⟨bus.children ++ dev.toList, oldDevices⟩
  else
    bus
termination_by maxDevfn + 1 - devfn

/-- `pci_scan_bus` up to the scan of the bridges. -/
def pciScanBus (f : Functions) (children : List Child) (minDevfn maxDevfn : Nat) : Bus :=
  scanFns f (if maxDevfn > 0xff then 0xff else maxDevfn) minDevfn ⟨[], children⟩

/-- Every function that is reached has its device on the children, once, and no
other device has left the old list. -/
structure Consistent (f : Functions) (old : List Child) (bus : Bus)
    (reached : Nat → Prop) : Prop where
  increasing : bus.children.Pairwise fun first second =>
    ∃ m n, first.path = .pci m ∧ second.path = .pci n ∧ m < n
  static : ∀ d ∈ old, ∀ devfn, d.path = .pci devfn →
    ((∃ c ∈ bus.children, c.isStatic ∧ c.path = .pci devfn) ↔ reached devfn) ∧
      (d ∈ bus.oldDevices ↔ ¬reached devfn)
  dynamic : ∀ devfn,
    (∃ c ∈ bus.children, c.isStatic = false ∧ c.path = .pci devfn) ↔
      reached devfn ∧ (∀ d ∈ old, d.path ≠ .pci devfn) ∧ ¬absent (f.id devfn)
  fromTree : ∀ c ∈ bus.children, c.isStatic → ∃ d ∈ old, d.path = c.path
  left : ∀ d ∈ bus.oldDevices, d ∈ old

/-- The static children of a bus have different function numbers. -/
structure StaticChildren (old : List Child) : Prop where
  static : ∀ d ∈ old, d.isStatic ∧ ∃ devfn, d.path = .pci devfn
  distinct : (old.map Child.path).Nodup

variable (f : Functions) (old : List Child)

/-- The device at a function when it has been probed. -/
def foundAt (devfn : Nat) : Option Child :=
  pciProbeDev f devfn (old.find? fun d => d.path = .pci devfn)

/-- The first function of the slot does not make the scan pass over the others. -/
def Reached (devfn : Nat) : Prop :=
  devfn % 8 = 0 ∨ passed (devfn - devfn % 8) (foundAt f old (devfn - devfn % 8)) = 0

instance : DecidablePred (Reached f old) := fun _ =>
  inferInstanceAs (Decidable (_ ∨ _))

/-- The lists when the functions below a number have been scanned. -/
def below (n : Nat) : Bus where
  children := ((List.range n).filter fun k => Reached f old k).filterMap (foundAt f old)
  oldDevices := old.filter fun d =>
    ∀ k < n, Reached f old k → d.path ≠ .pci k

variable {f old} {n devfn : Nat}

theorem pciScanGetDev_fst (devfn : Nat) (list : List Child) :
    (pciScanGetDev devfn list).1 = list.find? fun d => d.path = .pci devfn := by
  induction list with
  | nil => rfl
  | cons dev list ih =>
    rw [pciScanGetDev, List.find?_cons]
    by_cases here : dev.path = .pci devfn
    · simp [here]
    · simp [here, ih]

theorem pciScanGetDev_snd {list : List Child}
    (distinct : (list.map Child.path).Nodup) (devfn : Nat) :
    (pciScanGetDev devfn list).2 = list.filter fun d => d.path ≠ .pci devfn := by
  induction list with
  | nil => rfl
  | cons dev list ih =>
    rw [List.map_cons, List.nodup_cons] at distinct
    rw [pciScanGetDev]
    by_cases here : dev.path = .pci devfn
    · have others : ∀ d ∈ list, d.path ≠ .pci devfn := fun d member same =>
        distinct.1 (List.mem_map.mpr ⟨d, member, same.trans here.symm⟩)
      rw [if_pos here, List.filter_cons_of_neg (by simp [here])]
      exact (List.filter_eq_self.mpr fun d member => by simpa using others d member).symm
    · simp [here, ih distinct.2]

theorem below_find? (n : Nat) :
    (below f old n).oldDevices.find? (fun d => d.path = .pci n) =
      old.find? fun d => d.path = .pci n := by
  rw [below, List.find?_filter]
  congr 1
  funext d
  by_cases here : d.path = .pci n
  · have earlier : ∀ k < n, Reached f old k → ¬n = k := fun k less _ => Nat.ne_of_gt less
    simpa [here] using earlier
  · simp [here]

theorem below_succ_of_reached (distinct : (old.map Child.path).Nodup) (reached : Reached f old n) :
    below f old (n + 1) =
      ⟨(below f old n).children ++
          (pciProbeDev f n (pciScanGetDev n (below f old n).oldDevices).1).toList,
        (pciScanGetDev n (below f old n).oldDevices).2⟩ := by
  rw [pciScanGetDev_fst, below_find?, pciScanGetDev_snd]
  · simp only [below, List.range_succ, List.filter_append, List.filterMap_append,
      List.filter_filter, Bus.mk.injEq]
    constructor
    · have single : [n].filter (fun k => Reached f old k) = [n] := by simp [reached]
      have found : foundAt f old n = pciProbeDev f n (old.find? fun d => d.path = .pci n) := rfl
      rw [single, ← found]
      cases at_n : foundAt f old n with
      | none => simp [at_n]
      | some dev => simp [at_n]
    · apply List.filter_congr
      intro d _
      simp only [ne_eq, ← Bool.decide_and, decide_eq_decide]
      constructor
      · exact fun all => ⟨all n (Nat.lt_succ_self n) reached,
          fun k less => all k (Nat.lt_succ_of_lt less)⟩
      · rintro ⟨here, all⟩ k less
        rcases Nat.lt_succ_iff_lt_or_eq.mp less with earlier | rfl
        · exact all k earlier
        · exact fun _ => here
  · exact distinct.sublist (List.Sublist.map _ List.filter_sublist)

theorem below_of_unreached {m : Nat} (le : n ≤ m)
    (unreached : ∀ k, n ≤ k → k < m → ¬Reached f old k) : below f old m = below f old n := by
  induction m, le using Nat.le_induction with
  | base => rfl
  | succ m le ih =>
    have last := unreached m le (Nat.lt_succ_self m)
    rw [← ih fun k from_ less => unreached k from_ (Nat.lt_succ_of_lt less)]
    simp only [below, List.range_succ, List.filter_append, List.filterMap_append, Bus.mk.injEq]
    constructor
    · simp [last]
    · apply List.filter_congr
      intro d _
      rw [decide_eq_decide]
      constructor
      · exact fun all k less => all k (Nat.lt_succ_of_lt less)
      · intro all k less isReached
        rcases Nat.lt_succ_iff_lt_or_eq.mp less with earlier | rfl
        · exact all k earlier isReached
        · exact absurd isReached last

theorem passed_cases (devfn : Nat) (dev : Option Child) :
    passed devfn dev = 0 ∨ passed devfn dev = 7 ∧ devfn % 8 = 0 := by
  rw [passed]
  split
  · rename_i first
    exact .inr ⟨rfl, first.1⟩
  · exact .inl rfl

theorem Reached.next (reached : Reached f old n) (inside : n < 256) :
    let next := n + passed n (foundAt f old n) + 1
    n < next ∧ next ≤ 256 ∧ Reached f old next ∧ ∀ k, n + 1 ≤ k → k < next → ¬Reached f old k := by
  rcases passed_cases n (foundAt f old n) with zero | ⟨seven, first⟩
  · rw [zero]
    refine ⟨by omega, by omega, ?_, by omega⟩
    by_cases slot : (n + 1) % 8 = 0
    · exact .inl slot
    · have base : n + 1 - (n + 1) % 8 = n - n % 8 := by omega
      refine .inr ?_
      rw [Nat.add_zero, base]
      rcases reached with first | later
      · rw [first]
        exact zero
      · exact later
  · rw [seven]
    refine ⟨by omega, by omega, .inl (by omega), ?_⟩
    rintro k low high (slot | later)
    · omega
    · have base : k - k % 8 = n := by omega
      rw [base, seven] at later
      cases later

theorem scanFns_below (distinct : (old.map Child.path).Nodup) (le : n ≤ 256)
    (reached : Reached f old n) : scanFns f 0xff n (below f old n) = below f old 256 := by
  induction left : 256 - n using Nat.strong_induction_on generalizing n with
  | _ left ih =>
    rw [scanFns]
    split
    · obtain ⟨more, inside, next, unreached⟩ := reached.next (by omega)
      have same : pciProbeDev f n
          (pciScanGetDev n (below f old n).oldDevices).1 = foundAt f old n := by
        rw [foundAt, pciScanGetDev_fst, below_find?]
      have step := below_of_unreached more unreached
      rw [below_succ_of_reached distinct reached, same] at step
      dsimp only
      rw [same, ← step]
      exact ih _ (by omega) inside next rfl
    · have last : n = 256 := by omega
      rw [last]

theorem pciScanBus_eq (distinct : (old.map Child.path).Nodup) :
    pciScanBus f old 0 0xff = below f old 256 := by
  have start : below f old 0 = ⟨[], old⟩ := by simp [below]
  rw [pciScanBus, if_neg (Nat.lt_irrefl _), ← start]
  exact scanFns_below distinct (Nat.zero_le _) (.inl rfl)

theorem pciProbeDev_some (dev : Child) :
    ∃ c, pciProbeDev f devfn (some dev) = some c ∧ c.path = dev.path ∧
      c.isStatic = dev.isStatic := by
  rw [pciProbeDev]
  split
  · exact ⟨_, rfl, rfl, rfl⟩
  · exact ⟨_, rfl, rfl, rfl⟩

theorem pciProbeDev_none (devfn : Nat) :
    (pciProbeDev f devfn none = none ∧ absent (f.id devfn)) ∨
      ∃ c, pciProbeDev f devfn none = some c ∧ c.path = .pci devfn ∧
        c.isStatic = false ∧ ¬absent (f.id devfn) := by
  rw [pciProbeDev]
  split
  · exact .inl ⟨rfl, ‹_›⟩
  · exact .inr ⟨_, rfl, rfl, rfl, ‹_›⟩

theorem foundAt_cases (static : StaticChildren old) (devfn : Nat) :
    (∃ d ∈ old, d.path = .pci devfn ∧ ∃ c, foundAt f old devfn = some c ∧
      c.path = .pci devfn ∧ c.isStatic) ∨
    (∀ d ∈ old, d.path ≠ .pci devfn) ∧
      ((foundAt f old devfn = none ∧ absent (f.id devfn)) ∨
        ∃ c, foundAt f old devfn = some c ∧ c.path = .pci devfn ∧
          c.isStatic = false ∧ ¬absent (f.id devfn)) := by
  rw [foundAt]
  cases found : old.find? fun d => d.path = .pci devfn with
  | none =>
    refine .inr ⟨fun d member => ?_, pciProbeDev_none devfn⟩
    simpa using List.find?_eq_none.mp found d member
  | some d =>
    have member := List.mem_of_find?_eq_some found
    have path : d.path = .pci devfn := by simpa using List.find?_some found
    obtain ⟨c, probed, samePath, sameStatic⟩ := @pciProbeDev_some f devfn d
    exact .inl ⟨d, member, path, c, probed, samePath.trans path,
      sameStatic.trans (static.static d member).1⟩

theorem foundAt_path (static : StaticChildren old) {c : Child}
    (found : foundAt f old devfn = some c) : c.path = .pci devfn := by
  rcases foundAt_cases static devfn with
    ⟨_, _, _, other, same, path, _⟩ | ⟨_, ⟨none, _⟩ | ⟨other, same, path, _⟩⟩
  · rw [found, Option.some.injEq] at same
    exact same ▸ path
  · rw [found] at none
    cases none
  · rw [found, Option.some.injEq] at same
    exact same ▸ path

theorem mem_children_iff {c : Child} :
    c ∈ (below f old 256).children ↔
      ∃ k, (k ≤ 0xff ∧ Reached f old k) ∧ foundAt f old k = some c := by
  simp only [below, List.mem_filterMap, List.mem_filter, List.mem_range,
    decide_eq_true_eq, Nat.lt_succ_iff]

theorem consistent_below (static : StaticChildren old) :
    Consistent f old (below f old 256) fun k => k ≤ 0xff ∧ Reached f old k := by
  constructor
  · refine List.Pairwise.filterMap _ ?_ (List.pairwise_lt_range.filter _)
    intro m n less c first d second
    exact ⟨m, n, foundAt_path static first, foundAt_path static second, less⟩
  · intro d member devfn path
    constructor
    · constructor
      · rintro ⟨c, inChildren, -, same⟩
        obtain ⟨k, reached, found⟩ := mem_children_iff.mp inChildren
        rw [foundAt_path static found, DevicePath.pci.injEq] at same
        exact same ▸ reached
      · intro reached
        rcases foundAt_cases static devfn with ⟨_, _, _, c, found, here, isStatic⟩ | ⟨missing, _⟩
        · exact ⟨c, mem_children_iff.mpr ⟨devfn, reached, found⟩, isStatic, here⟩
        · exact absurd path (missing d member)
    · simp only [below, List.mem_filter, member, path, true_and,
        decide_eq_true_eq, DevicePath.pci.injEq, ne_eq, Nat.lt_succ_iff]
      exact ⟨fun all reached => all devfn reached.1 reached.2 rfl,
        fun unreached k le reached same => unreached (same ▸ ⟨le, reached⟩)⟩
  · intro devfn
    constructor
    · rintro ⟨c, inChildren, isDynamic, here⟩
      obtain ⟨k, reached, found⟩ := mem_children_iff.mp inChildren
      have same := (foundAt_path static found).symm.trans here
      rw [DevicePath.pci.injEq] at same
      subst same
      rcases foundAt_cases static k with ⟨_, _, _, other, again, _, isStatic⟩ |
        ⟨missing, ⟨none, _⟩ | ⟨other, _, _, _, present⟩⟩
      · rw [found, Option.some.injEq] at again
        rw [← again, isDynamic] at isStatic
        cases isStatic
      · rw [found] at none
        cases none
      · exact ⟨reached, missing, present⟩
    · rintro ⟨reached, missing, present⟩
      rcases foundAt_cases static devfn with ⟨d, member, path, _⟩ |
        ⟨_, ⟨_, none⟩ | ⟨c, found, here, isDynamic, _⟩⟩
      · exact absurd path (missing d member)
      · exact absurd none present
      · exact ⟨c, mem_children_iff.mpr ⟨devfn, reached, found⟩, isDynamic, here⟩
  · intro c inChildren isStatic
    obtain ⟨k, _, found⟩ := mem_children_iff.mp inChildren
    rcases foundAt_cases static k with ⟨d, member, path, _⟩ |
      ⟨_, ⟨none, _⟩ | ⟨other, again, _, isDynamic, _⟩⟩
    · exact ⟨d, member, path.trans (foundAt_path static found).symm⟩
    · rw [found] at none
      cases none
    · rw [found, Option.some.injEq] at again
      rw [← again, isStatic] at isDynamic
      cases isDynamic
  · exact fun d member => List.mem_of_mem_filter member

/-- The scan of a whole bus loses no device and takes none twice. -/
theorem pciScanBus_consistent (f : Functions) (old : List Child) (static : StaticChildren old) :
    Consistent f old (pciScanBus f old 0 0xff) fun devfn =>
      devfn ≤ 0xff ∧ Reached f old devfn := by
  rw [pciScanBus_eq static.distinct]
  exact consistent_below static

def onlySecond : Functions where
  id devfn := if devfn = 1 then 0x12348086 else 0xffffffff
  hdrType _ := 0
  classRevision _ := 0
  enableDev dev := dev.enabled
  enable dev := dev.enabled

def treeChild (devfn : Nat) : Child :=
  { allocDev devfn with
    isStatic := true }

theorem staticChildren_two : StaticChildren [treeChild 0, treeChild 1] where
  static := by
    simp only [List.forall_mem_cons]
    exact ⟨⟨rfl, 0, rfl⟩, ⟨rfl, 1, rfl⟩, nofun⟩
  distinct := by decide

theorem pciScanBus_consistent_two :
    Consistent onlySecond [treeChild 0, treeChild 1]
      (pciScanBus onlySecond [treeChild 0, treeChild 1] 0 0xff) fun devfn =>
        devfn ≤ 0xff ∧ Reached onlySecond [treeChild 0, treeChild 1] devfn :=
  pciScanBus_consistent _ _ staticChildren_two

/-- A first function that is absent but of the device tree does not make the
scan pass over the second one. -/
theorem not_consistent_absent_static :
    ¬ ∀ (f : Functions) (old : List Child), StaticChildren old →
      Consistent f old (pciScanBus f old 0 0xff) fun devfn =>
        devfn ≤ 0xff ∧ (devfn % 8 = 0 ∨
          ¬(absent (f.id (devfn - devfn % 8)) ∨
            f.hdrType (devfn - devfn % 8) &&& 0x80 ≠ 0x80)) := by
  intro claim
  have claimed := (claim onlySecond _ staticChildren_two).static (treeChild 1) (by simp) 1 rfl
  have scanned := (@consistent_below onlySecond _ staticChildren_two).static
    (treeChild 1) (by simp) 1 rfl
  rw [pciScanBus_eq staticChildren_two.distinct] at claimed
  have reached := claimed.1.symm.trans scanned.1
  exact absurd (reached.mpr ⟨by decide, .inr rfl⟩) (by decide)

end Coreboot.PciScan
