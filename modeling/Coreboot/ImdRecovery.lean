import Coreboot.ImdRun

/-!
# Recovery after a restart

A later stage of the boot initialises a new handle with the same upper limit and recovers the
directories from memory.
-/

namespace Coreboot.Imd

open ByteMemory DescendingBlocks

variable {width : Nat}

section Directory

variable {memory : Memory} {imdr : Imdr} {d : Directory} {value limit : Nat}

theorem dvd_limitAlign_of_alignUp (fits : value + 4096 ≤ 2 ^ width)
    (same : alignUp width value limitAlign = limit) : 4096 ∣ limit := by
  have power : limitAlign = 2 ^ 12 := rfl
  rw [← same, power, alignUp_eq_ceil fits]
  exact WordAlignment.dvd_ceil value 12

theorem alignUp_limitAlign (fits : value + 4096 ≤ 2 ^ width)
    (aligned : 4096 ∣ limit) (below : value ≤ limit)
    (near : limit < value + 4096) : alignUp width value limitAlign = limit := by
  have power : limitAlign = 2 ^ 12 := rfl
  rw [power, alignUp_eq_ceil fits]
  have least := WordAlignment.ceil_le (show 2 ^ 12 ∣ limit from aligned) below
  have covers := WordAlignment.le_ceil value 12
  obtain ⟨quotient, rfl⟩ := aligned
  obtain ⟨rounded, same⟩ := WordAlignment.dvd_ceil value 12
  omega

section

variable (directory : DirectoryAt width memory imdr d)
include directory

theorem DirectoryAt.relativePointer_link :
    relativePointer width (imdr.limit - 8) (readInt32 memory (imdr.limit - 4)) = imdr.r := by
  have table := d.table
  have limit := directory.limit_eq
  have fits := directory.limit_lt
  rw [directory.link]
  exact relativePointer_of_eq (by omega) (by omega)

theorem DirectoryAt.rootPointer_eq (base : Nat) :
    imdrGetRootPointer width ⟨imdr.limit, base⟩ = imdr.limit - 8 := by
  have table := d.table
  have limit := directory.limit_eq
  have fits := directory.limit_lt
  apply relativePointer_of_eq _ (by omega)
  show (imdr.limit : Int) + -(8 : Nat) = _
  omega

omit directory in
theorem DirectoryAt.entryRecoverable (directory : DirectoryAt width memory imdr d) {lowLimit : Nat}
    (low : (lowLimit : Int) ≤ imdr.r + d.lowest) {i : Nat} (inside : i < d.entries.length) :
    entryRecoverable width memory imdr.limit imdr.r lowLimit (rootEntry width imdr.r i) = true := by
  have table := d.table
  have limit := directory.limit_eq
  have fits := directory.limit_lt
  have entry := directory.entryAt inside
  have lowest := d.lowest_le_offset (List.getElem_mem inside)
  have highest := d.descends_entries.end_le (List.getElem_mem inside)
  have nonneg : 0 ≤ imdr.r + d.entries[i].offset := by omega
  have below : d.entries[i].offset ≤ 0 := by
    cases i with
    | zero => exact le_rfl
    | succ i =>
      have inner : i < d.others.length := Nat.lt_of_succ_lt_succ inside
      have bound := d.descends.end_le (List.getElem_mem inner)
      change d.others[i].offset ≤ 0
      omega
  generalize d.entries[i] = e at *
  obtain ⟨start, startEq⟩ := Int.eq_ofNat_of_zero_le nonneg
  have startAddr : relativePointer width imdr.r e.offset = start :=
    relativePointer_of_eq startEq (by omega)
  have finish : toUnsigned width ((start : Int) + e.size) = start + e.size :=
    toUnsigned_of_lt (by omega) (by omega)
  rw [Imd.entryRecoverable, entry.offset, startAddr, entry.size, entry.magic,
    if_neg (not_not.mpr rfl), finish, if_neg (by omega), if_neg (by omega)]

theorem DirectoryAt.lowLimit_le (bounded : d.maxOffset = 0 ∨
      d.maxOffset < 0 ∧ d.maxOffset ≤ d.lowest ∧ 0 ≤ imdr.r + d.maxOffset) :
    ((if relativePointer width imdr.r (rootMaxOffset memory imdr.r) = imdr.r
      then 0 else relativePointer width imdr.r
        (rootMaxOffset memory imdr.r) : Nat) : Int) ≤ imdr.r + d.lowest := by
  have above := directory.above
  have limit := directory.limit_eq
  have fits := directory.limit_lt
  rw [directory.root.maxOffset]
  rcases bounded with unlimited | ⟨negative, reaches, nonneg⟩
  · rw [unlimited, if_pos (relativePointer_of_eq (by omega) (by omega))]
    exact above
  · obtain ⟨low, same⟩ := Int.eq_ofNat_of_zero_le nonneg
    rw [relativePointer_of_eq same (by omega), if_neg (by omega)]
    omega

omit directory in
theorem DirectoryAt.imdrRecover (directory : DirectoryAt width memory imdr d)
    (room : imdr.limit + 4096 ≤ 2 ^ width) (aligned : 4096 ∣ imdr.limit)
    (bounded : d.maxOffset = 0 ∨
      d.maxOffset < 0 ∧ d.maxOffset ≤ d.lowest ∧ 0 ≤ imdr.r + d.maxOffset) (base : Nat) :
    imdrRecover width ⟨imdr.limit, base⟩ memory = some imdr := by
  have table := d.table
  have small := d.rootSize_le
  have entries := d.room
  have positive := directory.positive
  have limit := directory.limit_eq
  have tableEnd : alignUp width (rootEntry width imdr.r
      (rootMaxEntries memory imdr.r)) limitAlign = imdr.limit := by
    rw [directory.root.maxEntries, directory.rootEntry_eq le_rfl]
    exact alignUp_limitAlign (by omega) aligned (by omega) (by omega)
  have valid : ((List.range (rootNumEntries memory imdr.r)).all fun i =>
      Imd.entryRecoverable width memory imdr.limit imdr.r
        (if relativePointer width imdr.r (rootMaxOffset memory imdr.r) = imdr.r
          then 0 else relativePointer width imdr.r (rootMaxOffset memory imdr.r))
        (rootEntry width imdr.r i)) = true := by
    rw [List.all_eq_true]
    intro i live
    rw [List.mem_range, directory.root.numEntries] at live
    exact directory.entryRecoverable (directory.lowLimit_le bounded) live
  rw [Imd.imdrRecover, directory.rootPointer_eq]
  dsimp only
  rw [if_neg (by omega), directory.magic, if_neg (not_not.mpr rfl),
    show imdr.limit - 8 + 4 = imdr.limit - 4 by omega,
    directory.relativePointer_link, tableEnd, if_neg (not_not.mpr rfl),
    if_neg (by rw [directory.root.numEntries, directory.root.maxEntries]; omega),
    directory.root.entryAlign, isPowerOf2_two_pow, if_neg (by decide),
    if_pos valid]

theorem DirectoryAt.aligned_of_imdrRecover (room : imdr.limit + 4096 ≤ 2 ^ width) {base : Nat}
    {recovered : Imdr} (accepted : Imd.imdrRecover width ⟨imdr.limit, base⟩ memory = some recovered) :
    4096 ∣ imdr.limit := by
  have table := d.table
  have limit := directory.limit_eq
  rw [Imd.imdrRecover, directory.rootPointer_eq] at accepted
  dsimp only at accepted
  rw [show imdr.limit - 8 + 4 = imdr.limit - 4 by omega, directory.relativePointer_link] at accepted
  have tableEnd : alignUp width (rootEntry width imdr.r
      (rootMaxEntries memory imdr.r)) limitAlign = imdr.limit := by
    by_contra other
    rw [if_pos other] at accepted
    split_ifs at accepted
  rw [directory.root.maxEntries, directory.rootEntry_eq le_rfl] at tableEnd
  exact dvd_limitAlign_of_alignUp (by omega) tableEnd

end

end Directory

/-- A new handle with the same upper limit finds the same directories: every
identifier leads to the same entry, at the same address and with the same
size. -/
def Recovers (width upperLimit : Nat) (imd : Handle) (memory : Memory) : Prop :=
  ∃ fresh, imdRecover width (imdHandleInit width upperLimit) memory =
      (0, fresh) ∧ fresh.lg = imd.lg ∧ fresh.sm = imd.sm ∧
    ∀ id, imdEntryFind width fresh memory id = imdEntryFind width imd memory id ∧
      ∀ e, imdEntryFind width imd memory id = some e →
        imdEntryAt width fresh memory e = imdEntryAt width imd memory e

def IsAddOrRemove : Request → Prop
  | .entryAdd _ _ | .entryFindOrAdd _ _ | .entryRemove _ => True
  | .limitSize _ | .lockdown => False

section Handle

variable {imd : Handle} {powers : Powers} {memory start : Memory}
  {limit : Option Nat} {lg sm : Directory} {size upperLimit : Nat}

theorem SmallIn.recoveredLimit (small : SmallIn width imd powers memory lg sm size)
    (large : DirectoryAt width memory imd.lg lg) :
    toUnsigned width (imdrEntryAt width imd.lg memory
      (rootEntry width imd.lg.r 1) + imdrEntrySize memory
        (rootEntry width imd.lg.r 1)) = imd.sm.limit := by
  have fits := small.size_le large
  have limit := large.limit_eq
  have limit_lt := large.limit_lt
  have smallLimit := small.limit
  rw [small.imdrEntryAt_eq large, imdrEntrySize, (small.entryAt large).size]
  exact toUnsigned_of_lt (show ((imd.lg.r - size : Nat) : Int) + size = _ by omega) (by omega)

theorem SmallIn.bounded (small : SmallIn width imd powers memory lg sm size)
    (large : DirectoryAt width memory imd.lg lg) :
    sm.maxOffset < 0 ∧ sm.maxOffset ≤ sm.lowest ∧ 0 ≤ imd.sm.r + sm.maxOffset := by
  have fits := small.size_le large
  have room := small.room
  have limit := small.limit
  have rootLimit := small.directory.limit_eq
  have maxOffset := small.maxOffset
  exact ⟨by omega, small.within, by omega⟩

theorem HandleAt.recovers_iff (handle : HandleAt width imd powers memory none lg)
    (wide : 32 ≤ width) (fits : upperLimit < 2 ^ width)
    (limitEq : imd.lg.limit = upperLimit / 4096 * 4096) (tiered : imd.sm.r ≠ 0) :
    Recovers width upperLimit imd memory ↔ 4096 ∣ imd.lg.r := by
  have large := handle.large
  obtain ⟨sm, size, small⟩ := handle.small.resolve_left tiered
  have rootLimit := large.limit_eq
  have smallLimit := small.limit
  have lgAligned : 4096 ∣ imd.lg.limit := by
    rw [limitEq]
    exact Dvd.intro_left _ rfl
  have room : imd.lg.limit + 4096 ≤ 2 ^ width := by
    have split : 2 ^ width = 2 ^ (width - 12) * 4096 := by
      rw [← Nat.pow_add 2 (width - 12) 12, Nat.sub_add_cancel (by omega)]
    omega
  have lgRecovers := large.imdrRecover room lgAligned (Or.inl handle.limited) 0
  have steps : imdRecover width (imdHandleInit width upperLimit) memory =
      recoverSmall width imd.lg ⟨imd.sm.limit, 0⟩ memory := by
    rw [imdHandleInit_eq fits, ← limitEq, imdRecover]
    rw [lgRecovers]
    dsimp only
    rw [small.find large]
    dsimp only
    rw [small.recoveredLimit large]
  constructor
  · rintro ⟨fresh, recovered, -⟩
    rw [steps, recoverSmall] at recovered
    cases accepted : imdrRecover width ⟨imd.sm.limit, 0⟩ memory with
    | none =>
      rw [accepted] at recovered
      exact absurd (Prod.mk.inj recovered).1 (by decide)
    | some found =>
      rw [← smallLimit]
      exact small.directory.aligned_of_imdrRecover (by omega) accepted
  · intro aligned
    have smRecovers := small.directory.imdrRecover (by omega)
      (by rwa [smallLimit]) (Or.inr (small.bounded large)) 0
    refine ⟨imd, ?_, rfl, rfl, fun id => ⟨rfl, fun e found => rfl⟩⟩
    rw [steps, recoverSmall, smRecovers]

theorem Run.limit_eq_none {condition : Memory → Request → Prop}
    (changes : ∀ memory request, condition memory request → IsAddOrRemove request)
    (run : Run width imd condition start memory limit) : limit = none := by
  induction run with
  | start => rfl
  | refused _ _ _ ih => exact ih
  | @accepted _ _ _ request _ meets _ ih =>
    have change := changes _ _ meets
    cases request with
    | limitSize => exact change.elim
    | entryAdd => exact ih
    | entryFindOrAdd => exact ih
    | entryRemove => exact ih
    | lockdown => exact ih

theorem Run.mono {weaker stronger : Memory → Request → Prop}
    (implies : ∀ memory request, stronger memory request → weaker memory request)
    (run : Run width imd stronger start memory limit) :
    Run width imd weaker start memory limit := by
  induction run with
  | start => exact .start
  | refused _ meets refused ih => exact ih.refused (implies _ _ meets) refused
  | accepted _ meets accepted ih =>
    exact ih.accepted (implies _ _ meets) accepted

end Handle

/-- After an accepted tiered creation and any additions and removals, recovery
finds the same directories exactly if the large root fills a page of 4 KiB. -/
theorem recovers_iff_of_run (wide : 32 ≤ width) {upperLimit : Nat} (fits : upperLimit < 2 ^ width)
    {memory start last : Memory} {lgRootPower lgPower smRootPower smPower : Nat}
    (lgLarge : 32 < 2 ^ lgRootPower) (smLarge : 32 < 2 ^ smRootPower)
    (region : 2 ^ lgRootPower + smRegionSizeOf width (2 ^ lgPower)
      (2 ^ smRootPower) (2 ^ smPower) ≤ upperLimit / 4096 * 4096) {imd : Handle}
    (created : imdCreateTieredEmpty width (imdHandleInit width upperLimit)
      memory (2 ^ lgRootPower) (2 ^ lgPower) (2 ^ smRootPower) (2 ^ smPower) =
        (0, imd, start)) {limit : Option Nat}
    (run : Run width imd (fun memory request => IsAddOrRemove request ∧
      Allowed width imd memory request) start last limit) :
    Recovers width upperLimit imd last ↔ 2 ^ lgRootPower = 4096 := by
  obtain ⟨⟨lgSmall, -⟩, limitEq, lgRoot, -, tiered, -, lg, handle⟩ :=
    imdCreateTieredEmpty_spec wide fits lgLarge smLarge region created
  obtain ⟨lg', handle'⟩ := handle.run wide (run.mono fun _ _ meets => meets.2)
  rw [run.limit_eq_none fun _ _ meets => meets.1] at handle'
  rw [handle'.recovers_iff wide fits limitEq tiered.ne']
  have positive : 0 < 2 ^ lgRootPower := Nat.two_pow_pos lgRootPower
  generalize 2 ^ lgRootPower = rootSize at *
  omega

/-- A page for the large root, and a small root of 1 KiB with regions at
multiples of 32 bytes. -/
def pageRoot : Int × Handle × Memory :=
  imdCreateTieredEmpty 32 (imdHandleInit 32 16384) (fun _ => 0) (2 ^ 12) (2 ^ 12) (2 ^ 10) (2 ^ 5)

theorem recovers_iff_of_run_pageRoot : Recovers 32 16384 pageRoot.2.1 pageRoot.2.2 :=
  (recovers_iff_of_run (by decide) (by decide) (by decide) (by decide)
    (by decide +kernel)
    (show imdCreateTieredEmpty 32 (imdHandleInit 32 16384) (fun _ => 0)
        (2 ^ 12) (2 ^ 12) (2 ^ 10) (2 ^ 5) =
        (0, pageRoot.2.1, pageRoot.2.2) from
      Prod.ext (show pageRoot.1 = 0 by decide +kernel) rfl)
    .start).mpr (by decide)

/-- A large root of 2 KiB: the small directory is created below an address that
recovery does not accept. -/
theorem not_recovers_halfPageRoot :
    ¬ ∀ (width upperLimit lgRootPower lgPower smRootPower smPower : Nat)
      (memory start last : Memory) (imd : Handle) (limit : Option Nat),
      32 ≤ width → upperLimit < 2 ^ width →
      imdCreateTieredEmpty width (imdHandleInit width upperLimit) memory
        (2 ^ lgRootPower) (2 ^ lgPower) (2 ^ smRootPower) (2 ^ smPower) = (0, imd, start) →
      Run width imd (fun memory request => IsAddOrRemove request ∧
        Allowed width imd memory request) start last limit →
      Recovers width upperLimit imd last := by
  intro claim
  let created := imdCreateTieredEmpty 32 (imdHandleInit 32 16384) (fun _ => 0)
    (2 ^ 11) (2 ^ 11) (2 ^ 10) (2 ^ 5)
  have failed : (imdRecover 32 (imdHandleInit 32 16384) created.2.2).1 = -1 := by
    decide +kernel
  obtain ⟨fresh, recovered, -⟩ := claim 32 16384 11 11 10 5 (fun _ => 0)
    created.2.2 created.2.2 created.2.1 none (by decide) (by decide)
    (Prod.ext (show created.1 = 0 by decide +kernel) rfl) .start
  rw [recovered] at failed
  exact absurd (show (0 : Int) = -1 from failed) (by decide)

end Coreboot.Imd
