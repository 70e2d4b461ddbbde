import Coreboot.LargestResource
import Mathlib.Tactic.IntervalCases

/-!
# Allocating the resources of a bus

The second pass of the allocator gives the resources of a bus addresses from a running base, the
largest first.
-/

namespace Coreboot.LargestResource

namespace Allocation

open WordAlignment

variable {δ ρ : Type}

def ioresourcePrefetch : BitVec 32 := 0x00001000

def ioresourceBridge : BitVec 32 := 0x00080000

def ioindexLink (index : Nat) : Nat := index / 2 ^ 16 % 16

def round (val : BitVec 64) (pow : Nat) : BitVec 64 := alignUp val pow

/-- Legacy cards decode `0x100` to `0x3ff` of each block of `0x400` ports, and the
ports of a VGA card are special. -/
def skipLegacyAliases (base : BitVec 64) : BitVec 64 :=
  if base &&& 0x300 ≠ 0 then (base &&& ~~~0x3ff) + 0x400
  else if base ≥ 0x3b0 ∧ base ≤ 0x3df then 0x3e0
  else base

def startBase (base : BitVec 64) (resource : Resource) : BitVec 64 :=
  if resource.flags &&& Resources.ioresourceIo ≠ 0 then skipLegacyAliases base
  else base

def clampLimit (bridgeLimit : BitVec 64) (resource : Resource) : Resource :=
  if resource.limit > bridgeLimit then { resource with limit := bridgeLimit }
  else resource

def fits (base : BitVec 64) (resource : Resource) : Bool :=
  round base resource.align + resource.size - 1 ≤ resource.limit

/-- The body of the loop of `allocate_resources`: the resource and the base behind
it. -/
def allocateResource (bridgeLimit base : BitVec 64) (resource : Resource) : Resource × BitVec 64 :=
  let resource := clampLimit bridgeLimit resource
  -- Size 0 resources can be skipped.
  if resource.size = 0 then
    ({ resource with
        base := resource.limit
        flags := resource.flags ||| ioresourceAssigned }, base)
  else
    let base := startBase base resource
    if fits base resource then
      let base := round base resource.align
      ({ resource with
          base := base
          limit := base + resource.size - 1
          flags := (resource.flags ||| ioresourceAssigned) &&&
            ~~~ioresourceStored }, base + resource.size)
    else (resource, base)

/-- A turn of the loop: the state before it. -/
structure Turn (ρ : Type) where
  res : ρ
  resource : Resource
  bridgeLimit : BitVec 64
  base : BitVec 64
deriving DecidableEq, Repr

def Turn.result (turn : Turn ρ) : Resource :=
  (allocateResource turn.bridgeLimit turn.base turn.resource).1

def Turn.places (turn : Turn ρ) : Bool :=
  let resource := clampLimit turn.bridgeLimit turn.resource
  resource.size ≠ 0 && fits (startBase turn.base resource) resource

/-- The store behind a function and the turns it took.  There is no store if it
does not return: a bus is missing, or the turns do not end. -/
structure Outcome (ρ : Type) where
  store : Option (Store ρ)
  turns : List (Turn ρ)

def Outcome.done (store : Store ρ) : Outcome ρ := ⟨some store, []⟩

def Outcome.andThen (outcome : Outcome ρ) (next : Store ρ → Outcome ρ) : Outcome ρ :=
  match outcome.store with
  | none => outcome
  | some store =>
    { store := (next store).store
      turns := outcome.turns ++ (next store).turns }

section Bus

variable [DecidableEq ρ]

def Store.set (store : Store ρ) (res : ρ) (resource : Resource) : Store ρ :=
  Function.update store res resource

/-- The loop of `allocate_resources`, with a bound on the turns. -/
def allocateLoop (bus : Bus δ ρ) (bridge : ρ) (typeMask type : BitVec 32) :
    Nat → Store ρ → BitVec 64 → Option ρ → Outcome ρ
  | 0, _, _, _ => ⟨none, []⟩
  | turns + 1, store, base, last =>
    match largestResource store typeMask type bus last with
    | (some _, some res) =>
      let turn : Turn ρ := ⟨res, store res, (store bridge).limit, base⟩
      let (resource, next) := allocateResource turn.bridgeLimit turn.base turn.resource
      let later := allocateLoop bus bridge typeMask type turns
        (Store.set store res resource) next (some res)
      { later with turns := turn :: later.turns }
    | _ => .done store

/-- The call of `allocate_resources` on a bus. -/
abbrev Allocate (ρ : Type) := ρ → BitVec 32 → BitVec 32 → Store ρ → Outcome ρ

/-- The bridges among the resources of a device, when the buses below it are
allocated like this. -/
def allocateBridges (links : List (Nat × Allocate ρ))
    (typeMask type : BitVec 32) : List ρ → Store ρ → Outcome ρ
  | [], store => .done store
  | childBridge :: rest, store =>
    let flags := (store childBridge).flags
    if flags &&& ioresourceBridge = 0 ∨ flags &&& typeMask ≠ type then
      allocateBridges links typeMask type rest store
    else
      match links.find? fun link =>
          link.1 = ioindexLink (store childBridge).index with
      | none => ⟨none, []⟩
      | some link =>
        -- Split prefetchable memory if combined.
        (link.2 childBridge (typeMask ||| ioresourcePrefetch)
            (type ||| (flags &&& ioresourcePrefetch)) store).andThen
          (allocateBridges links typeMask type rest)

/-- `allocate_resources`, when the children are allocated like this. -/
def allocateBus (maxTurns : Nat) (bus : Bus δ ρ)
    (children : BitVec 32 → BitVec 32 → Store ρ → Outcome ρ) : Allocate ρ :=
  fun bridge typeMask type store =>
    (allocateLoop bus bridge typeMask type maxTurns store (store bridge).base
        none).andThen fun store =>
      children typeMask type (Store.set store bridge
        { store bridge with
          flags := (store bridge).flags ||| ioresourceAssigned })

mutual

def allocateDevice (maxTurns : Nat) : Device δ ρ → BitVec 32 → BitVec 32 → Store ρ → Outcome ρ
  | .node _ _ resourceList linkList, typeMask, type, store =>
    if linkList.isEmpty then .done store
    else allocateBridges (allocateLinks maxTurns linkList) typeMask type resourceList store

def allocateLinks (maxTurns : Nat) : List (Bus δ ρ) → List (Nat × Allocate ρ)
  | [] => []
  | .node linkNum children :: rest =>
    (linkNum, allocateBus maxTurns (.node linkNum children)
      (allocateChildren maxTurns children)) :: allocateLinks maxTurns rest

/-- Each child which is a bridge, disabled ones included. -/
def allocateChildren (maxTurns : Nat) :
    List (Device δ ρ) → BitVec 32 → BitVec 32 → Store ρ → Outcome ρ
  | [], _, _, store => .done store
  | device :: rest, typeMask, type, store =>
    (allocateDevice maxTurns device typeMask type store).andThen
      (allocateChildren maxTurns rest typeMask type)

end

def allocateResources (maxTurns : Nat) : Bus δ ρ → Allocate ρ
  | .node linkNum children =>
    allocateBus maxTurns (.node linkNum children) (allocateChildren maxTurns children)

end Bus

theorem and_0x300 (word : BitVec 64) : word &&& 0x300 = 0 ↔ word.toNat % 0x400 < 0x100 := by
  have low : ∀ rest < 0x400, rest &&& 0x300 = 0 ↔ rest < 0x100 := by
    decide +kernel
  have mask : word.toNat &&& 0x300 = word.toNat % 0x400 &&& 0x300 := by
    rw [show word.toNat % 0x400 = word.toNat &&& 0x3ff from
      (Nat.and_two_pow_sub_one_eq_mod word.toNat 10).symm, Nat.and_assoc]
    rfl
  rw [← low _ (Nat.mod_lt _ (by decide)), ← mask, ← BitVec.toNat_inj]
  rfl

theorem toNat_skipLegacyAliases (base : BitVec 64) :
    (skipLegacyAliases base).toNat =
      if base.toNat % 0x400 < 0x100 then base.toNat
      else (base.toNat / 0x400 * 0x400 + 0x400) % 2 ^ 64 := by
  rw [skipLegacyAliases]
  by_cases clear : base.toNat % 0x400 < 0x100
  · -- No port of the VGA card is left.
    have other : ¬ (base ≥ 0x3b0 ∧ base ≤ 0x3df) := by
      rintro ⟨above, below⟩
      have above : 0x3b0 ≤ base.toNat := BitVec.le_def.mp above
      have below : base.toNat ≤ 0x3df := BitVec.le_def.mp below
      omega
    rw [if_neg (not_not.mpr ((and_0x300 base).mpr clear)), if_neg other, if_pos clear]
  · rw [if_pos fun zero => clear ((and_0x300 base).mp zero), if_neg clear,
      show base &&& ~~~0x3ff = alignDown base 10 from rfl, BitVec.toNat_add,
      toNat_alignDown]
    rfl

/-- An I/O resource of at most `0x100` ports, with its size as its alignment. -/
structure Turn.Small (turn : Turn ρ) : Prop where
  io : turn.resource.flags &&& Resources.ioresourceIo ≠ 0
  size : turn.resource.size.toNat = 2 ^ turn.resource.align
  le : turn.resource.size.toNat ≤ 0x100

/-- No port of the resource looks like one of a legacy card. -/
structure Turn.AliasFree (turn : Turn ρ) : Prop where
  base : turn.result.base &&& 0x300 = 0
  ports : ∀ port, turn.result.base.toNat ≤ port →
    port < turn.result.base.toNat + turn.resource.size.toNat → port % 0x400 < 0x100

/-- The base is among the aliases, and leaves them, or the resource fits in front
of them. -/
def Turn.Clear (turn : Turn ρ) : Prop :=
  turn.base &&& 0x300 ≠ 0 ∨ turn.base.toNat % 0x100 + turn.resource.size.toNat ≤ 0x100

section Small

variable {turn : Turn ρ}

theorem clampLimit_eq (bridgeLimit : BitVec 64) (resource : Resource) :
    ∃ limit, clampLimit bridgeLimit resource = { resource with limit } := by
  rw [clampLimit]
  split_ifs
  · exact ⟨bridgeLimit, rfl⟩
  · exact ⟨resource.limit, rfl⟩

theorem Turn.result_base (places : turn.places = true) :
    turn.result.base = round (startBase turn.base turn.resource) turn.resource.align := by
  obtain ⟨limit, clamped⟩ := clampLimit_eq turn.bridgeLimit turn.resource
  rw [Turn.places, clamped] at places
  obtain ⟨nonzero, inside⟩ := (Bool.and_eq_true _ _).mp places
  have nonzero : turn.resource.size ≠ 0 := of_decide_eq_true nonzero
  rw [Turn.result, allocateResource, clamped]
  rw [if_neg nonzero, if_pos inside]
  rfl

theorem round_mod {start : Nat} {power : Nat} (small : 2 ^ power ≤ 0x100)
    (clear : start % 0x400 < 0x100) :
    (ceil start power % 0x400 < 0x100 ↔ start % 0x100 + 2 ^ power ≤ 0x100) ∧
      ceil start power % 2 ^ power = 0 := by
  have power_le : power ≤ 8 :=
    (Nat.pow_le_pow_iff_right (by decide)).mp (show 2 ^ power ≤ 2 ^ 8 from small)
  rw [ceil]
  interval_cases power <;> simp only [Nat.reducePow, Nat.reduceSub] <;> omega

/-- A small resource that is placed is free of aliases exactly if the base leaves
it the room. -/
theorem Turn.aliasFree_iff (small : turn.Small) (places : turn.places = true) :
    turn.AliasFree ↔ turn.Clear := by
  obtain ⟨io, size, le⟩ := small
  have start : startBase turn.base turn.resource = skipLegacyAliases turn.base := if_pos io
  have begins := turn.result_base places
  rw [start] at begins
  have skipped := toNat_skipLegacyAliases turn.base
  have bound := turn.base.isLt
  have clear : (skipLegacyAliases turn.base).toNat % 0x400 < 0x100 := by
    rw [skipped]
    split_ifs <;> omega
  have rounded : turn.result.base.toNat =
      ceil (skipLegacyAliases turn.base).toNat turn.resource.align := by
    rw [begins]
    have below := (skipLegacyAliases turn.base).isLt
    exact toNat_alignUp_of_lt (by omega)
  obtain ⟨blocks, aligned⟩ := round_mod (size ▸ le) clear
  rw [← rounded, ← size] at blocks aligned
  have condition : turn.Clear ↔ (skipLegacyAliases turn.base).toNat % 0x100 +
      turn.resource.size.toNat ≤ 0x100 := by
    rw [Turn.Clear, ne_eq, and_0x300, skipped]
    split_ifs with before
    · exact or_iff_right (not_not.mpr before)
    · exact iff_of_true (.inl before) (by omega)
  rw [condition, ← blocks]
  constructor
  · rintro ⟨base, -⟩
    exact (and_0x300 _).mp base
  · intro inside
    refine ⟨(and_0x300 _).mpr inside, fun port above below => ?_⟩
    have power_le : turn.resource.align ≤ 8 :=
      (Nat.pow_le_pow_iff_right (by decide)).mp
        (show 2 ^ turn.resource.align ≤ 2 ^ 8 from size ▸ le)
    rw [size] at aligned below
    generalize turn.result.base.toNat = base at *
    generalize turn.resource.align = power at *
    interval_cases power <;> simp only [Nat.reducePow] at aligned below <;> omega

end Small

section Runs

variable [DecidableEq ρ]

end Runs

section Aligned

theorem add_le_of_dvd {number bound step : Nat} (aligned : step ∣ number)
    (multiple : step ∣ bound) (below : number < bound) : number + step ≤ bound := by
  have rest := Nat.le_of_dvd (by omega) (Nat.dvd_sub multiple aligned)
  omega

variable {power : Nat} {base : BitVec 64}

theorem toNat_round_of_dvd {val : BitVec 64} (aligned : 2 ^ power ∣ val.toNat) :
    (round val power).toNat = val.toNat := by
  have bound := val.isLt
  rcases Nat.lt_or_ge power 64 with small | large
  · have positive : 0 < 2 ^ power := Nat.two_pow_pos power
    have whole : 2 ^ power ∣ 2 ^ 64 := Nat.pow_dvd_pow 2 small.le
    have room : val.toNat + 2 ^ power ≤ 2 ^ 64 := add_le_of_dvd aligned whole bound
    rw [round, toNat_alignUp_of_lt (by omega), ceil_of_dvd aligned]
  · have wide : 2 ^ 64 ≤ 2 ^ power := Nat.pow_le_pow_right (by decide) large
    have zero := Nat.eq_zero_of_dvd_of_lt aligned (bound.trans_le wide)
    have below := Nat.mod_lt (val.toNat + (2 ^ power - 1)) (show 0 < 2 ^ 64 by decide)
    rw [round, toNat_alignUp, Nat.div_eq_of_lt (below.trans_le wide), zero, Nat.zero_mul]

theorem startBase_dvd (aligned : 2 ^ power ∣ base.toNat) (resource : Resource) :
    2 ^ power ∣ (startBase base resource).toNat := by
  rw [startBase]
  split_ifs with io
  · rw [toNat_skipLegacyAliases]
    split_ifs with clear
    · exact aligned
    · -- The base is a multiple of at most a block.
      have small : power ≤ 10 := by
        by_contra large
        have block : 2 ^ 10 ∣ 2 ^ power := Nat.pow_dvd_pow 2 (by omega)
        have multiple := Nat.mod_eq_zero_of_dvd (block.trans aligned)
        omega
      have block : 2 ^ power ∣ 0x400 := Nat.pow_dvd_pow 2 small
      have whole : 2 ^ power ∣ 2 ^ 64 := Nat.pow_dvd_pow 2 (by omega)
      exact (Nat.dvd_mod_iff whole).mpr (Nat.dvd_add (block.mul_left _) block)
  · exact aligned

theorem allocateResource_dvd {bridgeLimit : BitVec 64} {resource : Resource}
    (le : power ≤ resource.align) (aligned : 2 ^ resource.align ∣ base.toNat)
    (size : 2 ^ resource.align ∣ resource.size.toNat) :
    2 ^ power ∣ (allocateResource bridgeLimit base resource).2.toNat := by
  have weaker : 2 ^ power ∣ 2 ^ resource.align := Nat.pow_dvd_pow 2 le
  obtain ⟨limit, clamped⟩ := clampLimit_eq bridgeLimit resource
  have start := startBase_dvd aligned { resource with limit }
  rw [allocateResource, clamped]
  dsimp only
  split_ifs with empty placed
  · exact weaker.trans aligned
  · have sum : 2 ^ resource.align ∣ (startBase base
        { resource with limit }).toNat + resource.size.toNat :=
      Nat.dvd_add start size
    rw [BitVec.toNat_add, toNat_round_of_dvd start]
    rcases Nat.lt_or_ge resource.align 64 with small | large
    · have whole : 2 ^ power ∣ 2 ^ 64 := Nat.pow_dvd_pow 2 (by omega)
      exact (Nat.dvd_mod_iff whole).mpr (weaker.trans sum)
    · -- No other size is a multiple.
      have wide : 2 ^ 64 ≤ 2 ^ resource.align := Nat.pow_le_pow_right (by decide) large
      have zero := Nat.eq_zero_of_dvd_of_lt size (resource.size.isLt.trans_le wide)
      exact absurd (BitVec.eq_of_toNat_eq zero) empty
  · exact weaker.trans start

theorem allocateResource_kept (bridgeLimit base : BitVec 64) (resource : Resource) :
    (allocateResource bridgeLimit base resource).1.size = resource.size ∧
      (allocateResource bridgeLimit base resource).1.align = resource.align ∧
        (allocateResource bridgeLimit base resource).1.index =
          resource.index ∧
          (allocateResource bridgeLimit base resource).1.flags &&&
              ~~~(ioresourceAssigned ||| ioresourceStored) =
            resource.flags &&& ~~~(ioresourceAssigned ||| ioresourceStored) := by
  obtain ⟨limit, clamped⟩ := clampLimit_eq bridgeLimit resource
  rw [allocateResource, clamped]
  dsimp only
  split_ifs
  · exact ⟨rfl, rfl, rfl, unmarked.1⟩
  · exact ⟨rfl, rfl, rfl, unmarked.2⟩
  · exact ⟨rfl, rfl, rfl, rfl⟩

variable [DecidableEq ρ] {store : Store ρ} {names : List ρ}

theorem changes_allocateResource (store : Store ρ) (res : ρ) (bridgeLimit base : BitVec 64) :
    Changes store (Store.set store res (allocateResource bridgeLimit base (store res)).1) := by
  obtain ⟨size, align, index, flags⟩ := allocateResource_kept bridgeLimit base (store res)
  have same {α : Type} (field : Resource → α) (kept : field (allocateResource
      bridgeLimit base (store res)).1 = field (store res)) (other : ρ) :
      field (Store.set store res (allocateResource bridgeLimit base
        (store res)).1 other) = field (store other) := by
    by_cases here : other = res
    · rw [here, Store.set, Function.update_self, kept]
    · rw [Store.set, Function.update_of_ne here]
  exact ⟨same (·.size) size, same (·.align) align, same (·.index) index,
    same (·.flags &&& ~~~(ioresourceAssigned ||| ioresourceStored)) flags⟩

open StableSelection

theorem align_le_of_before {first second : ρ} (before : Before names (sizeKey store) first second) :
    (store second).align ≤ (store first).align := by
  have le : sizeKey store second ≤ sizeKey store first := by
    rcases before with smaller | ⟨same, -⟩
    · exact smaller.le
    · exact same.ge
  exact Prod.Lex.monotone_fst _ _ le

variable {typeMask type : BitVec 32} {linkNum : Nat} {children : List (Device δ ρ)}
  (apart : typeMask &&& (ioresourceAssigned ||| ioresourceStored) = 0)
  (visited : (visitChildren store typeMask type children).map Prod.snd = names)
  (nodup : names.Nodup) (sizes : ∀ res ∈ names, 2 ^ (store res).align ∣ (store res).size.toNat)
include apart visited nodup sizes

/-- With an aligned window and sizes that are multiples of their alignments, the
base leaves every small resource of the bus the room. -/
theorem allocateLoop_clear (bridge : ρ) (maxTurns : Nat) {current : Store ρ} {last : Option ρ}
    (changes : Changes store current) (aligned : ∀ res ∈ names, (store res).fixed = false →
      After names (sizeKey store) last res → 2 ^ (store res).align ∣ base.toNat) :
    ∀ turn ∈ (allocateLoop (.node linkNum children) bridge typeMask type
      maxTurns current base last).turns, turn.Small → turn.Clear := by
  induction maxTurns generalizing current base last with
  | zero => exact List.forall_mem_nil _
  | succ maxTurns ih =>
    have same : visitChildren current typeMask type children =
        visitChildren store typeMask type children :=
      visitChildren_changes changes apart children
    have spec := largestResource_spec linkNum
      ((congrArg (List.map Prod.snd) same).trans visited) nodup last
    simp only [changes.sizeKey, changes.fixed] at spec
    rw [allocateLoop]
    rcases spec with ⟨dev, res, answer, -, next⟩ | ⟨answer, -⟩
    · rw [answer]
      have here := aligned res next.member next.isAllowed next.after
      have size := sizes res next.member
      rw [← changes.align] at here
      rw [← changes.align, ← changes.size] at size
      intro turn member
      rcases List.mem_cons.mp member with rfl | later
      · rintro ⟨-, exact, le⟩
        rw [← exact] at here
        refine .inr ?_
        have power_le : (current res).align ≤ 8 :=
          (Nat.pow_le_pow_iff_right (by decide)).mp
            (show 2 ^ (current res).align ≤ 2 ^ 8 from exact ▸ le)
        have block : (current res).size.toNat ∣ 0x100 := exact ▸ Nat.pow_dvd_pow 2 power_le
        exact add_le_of_dvd ((Nat.dvd_mod_iff block).mpr here) block (Nat.mod_lt _ (by decide))
      · refine ih (changes.trans (changes_allocateResource _ _ _ _))
          (fun other inside free after => ?_) turn later
        have before := next.after.trans (after_some.mp after)
        have le : (store other).align ≤ (current res).align := by
          rw [changes.align]
          exact align_le_of_before (after_some.mp after)
        exact allocateResource_dvd le here size
    · rw [answer]
      exact List.forall_mem_nil _

end Aligned

def elcrBus : Bus Nat Nat := .node 0 [.node 0 true [1] []]

/-- The window of the bus begins behind the ports `0x4d0` and `0x4d1`, and the
device asks for 64 ports. -/
def elcrStore (res : Nat) : Resource where
  base := if res = 0 then 0x4d2 else 0
  size := if res = 0 then 0x1000 else 0x40
  limit := 0xffff
  flags := Resources.ioresourceIo
  align := if res = 0 then 12 else 6
  index := 0x10

end Allocation

end Coreboot.LargestResource
