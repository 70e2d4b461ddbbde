import Mathlib.Data.BitVec
import Mathlib.Tactic.ByCases

/-!
# Region devices

A region device is a window on a root device that performs the accesses. A translated device is
a root that forwards what falls into its sub-region to another device.

A `size_t` has any width. A request of at most the size of its device that starts below the
largest address and ends beyond it passes the check.
-/

namespace Coreboot.RegionDevice

structure Region (width : Nat) where
  offset : BitVec width
  size : BitVec width
deriving DecidableEq, Repr

/-- The operations that take an interval. -/
inductive Operation where
  | mmap
  | readat
  | writeat
  | eraseat
deriving DecidableEq, Repr

/-- `struct region_device_ops` of a driver: which operations are not `NULL`.
Every driver provides `readat`, which the code calls unchecked. -/
structure Driver where
  name : String
  provides : Operation → Bool

/-- `struct region_device`: a root with the operations of a driver or of a
translated device, or a child of a root. -/
inductive Device (width : Nat) where
  | driver (ops : Driver) (region : Region width)
  | xlate (accessDev : Device width) (subRegion : Region width) (rw : Bool)
      (region : Region width)
  | child (root : Device width) (region : Region width)

/-- What becomes of a request: an error, the success of a missing erase, or a
call of an operation of a driver. -/
inductive Outcome (width : Nat) where
  | failed
  | assumed (size : BitVec width)
  | called (ops : Driver) (operation : Operation) (offset size : BitVec width)

section Functions

variable {width : Nat}

def regionEnd (r : Region width) : BitVec width := r.size + r.offset

def isSubregion (p c : Region width) : Bool :=
  if c.offset < p.offset then false
  else if c.size > p.size then false
  else if regionEnd c > regionEnd p then false
  else true

def normalizeAndOk (outer inner : Region width) : Option (Region width) :=
  let inner := { inner with offset := inner.offset + outer.offset }
  if isSubregion outer inner then some inner else none

def Device.region : Device width → Region width
  | driver _ region | xlate _ _ _ region | child _ region => region

def rdevRoot : Device width → Device width
  | .child root _ => root
  | rd => rd

/-- What a `NULL` operation amounts to. -/
def missing (operation : Operation) (size : BitVec width) : Outcome width :=
  match operation with
  -- The erase function is assumed to complete successfully.
  | .eraseat => .assumed size
  | _ => .failed

/-- Whether `xlate_rdev_ro_ops` or `xlate_rdev_rw_ops` has an operation. -/
def xlateProvides (rw : Bool) : Operation → Bool
  | .mmap | .readat => true
  | .writeat | .eraseat => rw

/-- The operation of the root of a device, called with an interval of the
root. -/
def callRoot (operation : Operation) : Device width → Region width → Outcome width
  | .child root _, req => callRoot operation root req
  | .driver ops _, req =>
    if ops.provides operation then
      .called ops operation req.offset req.size
    else missing operation req.size
  | .xlate accessDev subRegion rw _, req =>
    if xlateProvides rw operation then
      if isSubregion subRegion req then
        match normalizeAndOk accessDev.region ⟨req.offset - subRegion.offset, req.size⟩ with
        | none => .failed
        | some req => callRoot operation accessDev req
      else .failed
    else missing operation req.size

/-- `rdev_mmap`, `rdev_readat`, `rdev_writeat` and `rdev_eraseat`. -/
def rdevAccess (operation : Operation) (rd : Device width)
    (offset size : BitVec width) : Outcome width :=
  match normalizeAndOk rd.region ⟨offset, size⟩ with
  | none => .failed
  | some req => callRoot operation (rdevRoot rd) req

def rdevMmap : Device width → BitVec width → BitVec width → Outcome width := rdevAccess .mmap

def rdevReadat : Device width → BitVec width → BitVec width → Outcome width := rdevAccess .readat

def rdevWriteat : Device width → BitVec width → BitVec width → Outcome width := rdevAccess .writeat

def rdevEraseat : Device width → BitVec width → BitVec width → Outcome width := rdevAccess .eraseat

def rdevChain (parent : Device width) (offset size : BitVec width) : Option (Device width) :=
  (normalizeAndOk parent.region ⟨offset, size⟩).map (.child (rdevRoot parent))

end Functions

section Check

variable {width : Nat}

/-- The region ends below the largest address. -/
def Region.Fits (r : Region width) : Prop := r.offset.toNat + r.size.toNat < 2 ^ width

/-- The interval of a request of at most the size of the region starts below
the largest address and ends beyond it. -/
def Region.Wraps (outer : Region width) (offset size : BitVec width) : Prop :=
  size.toNat ≤ outer.size.toNat ∧
    outer.offset.toNat + offset.toNat < 2 ^ width ∧
      2 ^ width ≤ outer.offset.toNat + offset.toNat + size.toNat

def Region.Holds (r : Region width) (start size : Nat) : Prop :=
  r.offset.toNat ≤ start ∧ start + size ≤ r.offset.toNat + r.size.toNat

theorem isSubregion_eq_true_iff (p c : Region width) :
    isSubregion p c = true ↔ p.offset.toNat ≤ c.offset.toNat ∧
      c.size.toNat ≤ p.size.toNat ∧
        (c.size.toNat + c.offset.toNat) % 2 ^ width ≤
          (p.size.toNat + p.offset.toNat) % 2 ^ width := by
  simp only [isSubregion, regionEnd, BitVec.lt_def, gt_iff_lt, BitVec.toNat_add]
  split_ifs with below larger beyond <;> simp <;> omega

theorem isSubregion_of_fits {p c : Region width} (fits : p.Fits) (inner : c.Fits) :
    isSubregion p c = true ↔ p.Holds c.offset.toNat c.size.toNat := by
  rw [isSubregion_eq_true_iff, Region.Holds]
  rw [Region.Fits] at fits inner
  rw [Nat.mod_eq_of_lt (by omega), Nat.mod_eq_of_lt (by omega)]
  omega

theorem isSubregion_request {outer : Region width} (fits : outer.Fits)
    (offset size : BitVec width) :
    isSubregion outer ⟨offset + outer.offset, size⟩ = true ↔
      offset.toNat + size.toNat ≤ outer.size.toNat ∨ outer.Wraps offset size := by
  rw [isSubregion_eq_true_iff, Region.Wraps]
  dsimp only
  rw [BitVec.toNat_add]
  rw [Region.Fits] at fits
  have offset_lt := offset.isLt
  have size_lt := size.isLt
  rw [Nat.mod_eq_of_lt (by omega : outer.size.toNat + outer.offset.toNat < _)]
  generalize 2 ^ width = limit at *
  by_cases start : outer.offset.toNat + offset.toNat < limit
  · rw [Nat.mod_eq_of_lt (by omega : offset.toNat + outer.offset.toNat < limit)]
    by_cases finish : outer.offset.toNat + offset.toNat + size.toNat < limit
    · rw [Nat.mod_eq_of_lt (by omega)]
      omega
    · rw [Nat.mod_eq_sub_mod (by omega), Nat.mod_eq_of_lt (by omega)]
      omega
  · rw [Nat.mod_eq_sub_mod (by omega), Nat.mod_eq_of_lt
      (by omega : offset.toNat + outer.offset.toNat - limit < limit)]
    omega

end Check

section Chains

variable {width : Nat}

instance (r : Region width) (start size : Nat) : Decidable (r.Holds start size) :=
  inferInstanceAs (Decidable (_ ∧ _))

/-- The devices that `rdev_chain` makes from a root with requests that meet a
condition, with the sum of the offsets and the regions on the way. -/
inductive Chain
    (condition : Device width → BitVec width → BitVec width → Prop)
    (root : Device width) : Device width → Nat → List (Region width) → Prop
  | root : Chain condition root root root.region.offset.toNat [root.region]
  | chain {rd child : Device width} {base : Nat}
      {regions : List (Region width)} {offset size : BitVec width}
      (before : Chain condition root rd base regions)
      (meets : condition rd offset size)
      (accepted : rdevChain rd offset size = some child) :
      Chain condition root child (base + offset.toNat) (child.region :: regions)

/-- A request to a device of a chain is confined: it is accepted exactly if it
lies in the device, the root is called with the interval behind all offsets,
and the interval lies in every region of the chain.  A translated root forwards
what its sub-region holds. -/
structure Confined (root rd : Device width) (base : Nat)
    (regions : List (Region width)) (offset size : BitVec width) : Prop where
  access : ∀ operation, rdevAccess operation rd offset size =
    if offset.toNat + size.toNat ≤ rd.region.size.toNat then
      callRoot operation root ⟨BitVec.ofNat width (base + offset.toNat), size⟩
    else .failed
  chain : rdevChain rd offset size =
    if offset.toNat + size.toNat ≤ rd.region.size.toNat then
      some (.child root ⟨BitVec.ofNat width (base + offset.toNat), size⟩)
    else none
  representable : offset.toNat + size.toNat ≤ rd.region.size.toNat →
    base + offset.toNat + size.toNat < 2 ^ width
  inside : offset.toNat + size.toNat ≤ rd.region.size.toNat →
    ∀ r ∈ regions, r.Holds (base + offset.toNat) size.toNat
  translated : offset.toNat + size.toNat ≤ rd.region.size.toNat →
    ∀ accessDev subRegion rw region,
      root = .xlate accessDev subRegion rw region → subRegion.Fits →
      ∀ operation, xlateProvides rw operation = true →
        callRoot operation root ⟨BitVec.ofNat width (base + offset.toNat), size⟩ =
          if subRegion.Holds (base + offset.toNat) size.toNat then
            rdevAccess operation accessDev (BitVec.ofNat width
              (base + offset.toNat - subRegion.offset.toNat)) size
          else .failed

structure OnChain (root rd : Device width) (base : Nat)
    (regions : List (Region width)) : Prop where
  root : rdevRoot rd = root
  fits : rd.region.Fits
  start : rd.region.offset.toNat = base
  inside : ∀ r ∈ regions, r.Holds base rd.region.size.toNat

@[simp]
theorem callRoot_rdevRoot (operation : Operation) (rd : Device width) (req : Region width) :
    callRoot operation (rdevRoot rd) req = callRoot operation rd req := by
  cases rd <;> rfl

theorem normalizeAndOk_eq {outer : Region width} (fits : outer.Fits)
    (offset size : BitVec width) (exact : ¬ outer.Wraps offset size) :
    normalizeAndOk outer ⟨offset, size⟩ =
      if offset.toNat + size.toNat ≤ outer.size.toNat then
        some ⟨BitVec.ofNat width (outer.offset.toNat + offset.toNat), size⟩
      else none := by
  have check := isSubregion_request fits offset size
  rw [or_iff_left exact] at check
  have sum : BitVec.ofNat width (outer.offset.toNat + offset.toNat) = offset + outer.offset := by
    rw [BitVec.ofNat_add, BitVec.ofNat_toNat, BitVec.ofNat_toNat,
      BitVec.setWidth_eq, BitVec.setWidth_eq, BitVec.add_comm]
  rw [normalizeAndOk, sum]
  by_cases within : offset.toNat + size.toNat ≤ outer.size.toNat
  · rw [if_pos (check.mpr within), if_pos within]
  · rw [if_neg (mt check.mp within), if_neg within]

variable {size : BitVec width} {offset : BitVec width}

theorem normalizeAndOk_of_wraps {outer : Region width} (fits : outer.Fits)
    (wraps : outer.Wraps offset size) :
    normalizeAndOk outer ⟨offset, size⟩ = some ⟨offset + outer.offset, size⟩ :=
  if_pos ((isSubregion_request fits offset size).mpr (Or.inr wraps))

variable {root rd : Device width} {base : Nat} {regions : List (Region width)}

theorem onChain_root (isRoot : rdevRoot root = root) (fits : root.region.Fits) :
    OnChain root root root.region.offset.toNat [root.region] := by
  refine ⟨isRoot, fits, rfl, fun r member => ?_⟩
  rw [List.mem_singleton.mp member]
  exact ⟨le_rfl, le_rfl⟩

theorem OnChain.chain (onChain : OnChain root rd base regions)
    {child : Device width} (exact : ¬ rd.region.Wraps offset size)
    (accepted : rdevChain rd offset size = some child) :
    OnChain root child (base + offset.toNat) (child.region :: regions) := by
  obtain ⟨sameRoot, fits, start, inside⟩ := onChain
  rw [rdevChain, normalizeAndOk_eq fits offset size exact] at accepted
  split_ifs at accepted with within
  · cases accepted
    have region_fits := fits
    rw [Region.Fits] at region_fits
    have absolute : (BitVec.ofNat width
        (rd.region.offset.toNat + offset.toNat)).toNat = base + offset.toNat := by
      rw [BitVec.toNat_ofNat, Nat.mod_eq_of_lt (by omega), start]
    refine ⟨sameRoot, ?_, absolute, ?_⟩
    · show (BitVec.ofNat width _).toNat + size.toNat < _
      omega
    · intro r member
      rcases List.mem_cons.mp member with rfl | earlier
      · exact ⟨absolute.le, (congrArg (· + size.toNat) absolute.symm).le⟩
      · obtain ⟨above, below⟩ := inside r earlier
        show _ ∧ base + offset.toNat + size.toNat ≤ _
        omega
  · exact absurd accepted (by simp)

theorem Chain.onChain {condition : Device width → BitVec width → BitVec width → Prop}
    (exact : ∀ rd offset size, condition rd offset size → ¬ rd.region.Wraps offset size)
    (isRoot : rdevRoot root = root) (fits : root.region.Fits)
    (chain : Chain condition root rd base regions) : OnChain root rd base regions := by
  induction chain with
  | root => exact onChain_root isRoot fits
  | chain _ meets accepted ih => exact ih.chain (exact _ _ _ meets) accepted

theorem callRoot_xlate {accessDev : Device width} {subRegion : Region width}
    {rw : Bool} {region : Region width} (fits : subRegion.Fits)
    {operation : Operation} (provided : xlateProvides rw operation = true)
    {start : Nat} (representable : start + size.toNat < 2 ^ width) :
    callRoot operation (.xlate accessDev subRegion rw region) ⟨BitVec.ofNat width start, size⟩ =
      if subRegion.Holds start size.toNat then
        rdevAccess operation accessDev (BitVec.ofNat width (start - subRegion.offset.toNat)) size
      else .failed := by
  have exact : (BitVec.ofNat width start).toNat = start := by
    rw [BitVec.toNat_ofNat, Nat.mod_eq_of_lt (by omega)]
  have check := @isSubregion_of_fits _ _ ⟨BitVec.ofNat width start, size⟩ fits
    (show (BitVec.ofNat width start).toNat + size.toNat < _ by omega)
  rw [exact] at check
  rw [callRoot, if_pos provided]
  by_cases held : subRegion.Holds start size.toNat
  · have offset : BitVec.ofNat width (start - subRegion.offset.toNat) =
        BitVec.ofNat width start - subRegion.offset := by
      have lower := held.1
      apply BitVec.eq_of_toNat_eq
      rw [BitVec.toNat_sub_of_le (by rw [BitVec.le_def, exact]; exact lower),
        exact, BitVec.toNat_ofNat, Nat.mod_eq_of_lt (by omega)]
    rw [if_pos (check.mpr held), if_pos held, offset, rdevAccess]
    simp only [callRoot_rdevRoot]
  · rw [if_neg (mt check.mp held), if_neg held]

/-- On a chain whose requests do not wrap, a request is confined exactly if it
does not wrap. -/
theorem confined_iff (fits : root.region.Fits) (isRoot : rdevRoot root = root)
    (chain : Chain (fun rd offset size => ¬ rd.region.Wraps offset size) root rd base regions)
    (offset size : BitVec width) :
    Confined root rd base regions offset size ↔ ¬ rd.region.Wraps offset size := by
  obtain ⟨sameRoot, rdFits, start, inside⟩ := chain.onChain (fun _ _ _ exact => exact) isRoot fits
  have region_fits := rdFits
  rw [Region.Fits] at region_fits
  constructor
  · intro confined wraps
    have accepted := confined.chain
    rw [rdevChain, normalizeAndOk_of_wraps rdFits wraps,
      if_neg (by obtain ⟨_, _, beyond⟩ := wraps; omega)] at accepted
    exact absurd accepted (by simp)
  · intro exact
    have normalized := normalizeAndOk_eq rdFits offset size exact
    rw [start] at normalized
    constructor
    · intro operation
      rw [rdevAccess, normalized, sameRoot]
      split_ifs <;> rfl
    · rw [rdevChain, normalized, sameRoot]
      split_ifs <;> rfl
    · intro within
      omega
    · intro within r member
      obtain ⟨above, below⟩ := inside r member
      exact ⟨by omega, by omega⟩
    · rintro within accessDev subRegion rw region rfl subFits operation provided
      exact callRoot_xlate subFits provided (by omega)

def memRdevRo : Driver where
  name := "mem_rdev_ro_ops"
  provides
    | .mmap | .readat => true
    | .writeat | .eraseat => false

/-- `mem_region_device_ro_init` for 4 KiB with a `size_t` of 32 bits. -/
def memPage : Device 32 := .driver memRdevRo ⟨0, 4096⟩

theorem confined_iff_memPage :
    Confined memPage memPage 0 [⟨0, 4096⟩] 4000 96 ↔ ¬ memPage.region.Wraps 4000 96 :=
  confined_iff (by unfold Region.Fits; decide) rfl .root 4000 96

/-- One byte at the largest address passes the check of a device of 4 KiB. -/
theorem not_confined_lastByte :
    ¬ ∀ (width : Nat) (root rd : Device width) (base : Nat)
      (regions : List (Region width)) (offset size : BitVec width),
      root.region.Fits → rdevRoot root = root →
      Chain (fun _ _ _ => True) root rd base regions →
      Confined root rd base regions offset size := by
  intro claim
  have confined := claim 32 memPage memPage 0 [⟨0, 4096⟩] 0xffffffff 1
    (by unfold Region.Fits; decide) rfl .root
  have accepted := congrArg Option.isSome confined.chain
  revert accepted
  decide

end Chains

end Coreboot.RegionDevice
