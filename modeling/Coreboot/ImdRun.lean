import Coreboot.ImdCreation

/-!
# Safe runs

From an accepted creation, every run of allowed requests leaves both directories safe.
-/

namespace Coreboot.Imd

open ByteMemory

variable {width : Nat}

section Handle

variable {imd : Handle} {powers : Powers} {memory : Memory}
  {limit : Option Nat} {lg sm : Directory} {size : Nat}

section

variable (small : SmallIn width imd powers memory lg sm size)
  (large : DirectoryAt width memory imd.lg lg)
include small large

theorem SmallIn.size_le : size ≤ imd.lg.r := by
  have member : (⟨-size, size, smallRegionId⟩ : Entry) ∈ lg.entries :=
    List.mem_cons_of_mem _ (List.mem_of_mem_head? small.region)
  have lowest : lg.lowest ≤ -(size : Int) := lg.lowest_le_offset member
  have above := large.above
  omega

theorem SmallIn.entryAt :
    EntryAt memory (rootEntry width imd.lg.r 1) ⟨-size, size, smallRegionId⟩ := by
  apply large.entryAt_of_getElem?
  change lg.others[0]? = _
  rw [← List.head?_eq_getElem?, small.region]

theorem SmallIn.find :
    imdrEntryFind width imd.lg memory smallRegionId = some (rootEntry width imd.lg.r 1) := by
  have positive := large.positive
  have entry := small.entryAt large
  obtain ⟨first, rest, others⟩ : ∃ first rest, lg.others = first :: rest := by
    cases shape : lg.others with
    | nil =>
      have region := small.region
      rw [shape] at region
      exact absurd region (by simp)
    | cons first rest => exact ⟨first, rest, rfl⟩
  have count : rootNumEntries memory imd.lg.r - 1 = rest.length + 1 := by
    rw [large.root.numEntries, others]
    rfl
  rw [imdrEntryFind, if_neg (by omega), count, List.range'_succ, List.map_cons,
    List.find?_cons_of_pos]
  rw [entry.id]
  exact decide_eq_true rfl

theorem SmallIn.imdrEntryAt_eq :
    imdrEntryAt width imd.lg memory (rootEntry width imd.lg.r 1) = imd.lg.r - size := by
  have fits := small.size_le large
  have limit := large.limit_eq
  have limit_lt := large.limit_lt
  have below : (imd.lg.r : Int) + -(size : Int) = (imd.lg.r - size : Nat) := by
    omega
  rw [imdrEntryAt, (small.entryAt large).offset]
  exact relativePointer_of_eq below (by omega)

end

theorem HandleAt.safe (handle : HandleAt width imd powers memory limit lg)
    (lgAligned : 2 ^ powers.lg ∣ imd.lg.r) (smAligned : imd.sm.r ≠ 0 → 2 ^ powers.sm ∣ imd.sm.r) :
    SafeHandle width imd memory limit := by
  have large := handle.large
  have limitEq := large.limit_eq
  have above := large.above
  constructor
  · apply large.safe (by rwa [handle.power])
    cases limit with
    | none =>
      rw [Option.getD_none, Nat.sub_self]
      exact above
    | some maxSize =>
      have used := handle.limited.1
      rw [Option.getD_some]
      omega
  · intro tiered
    obtain ⟨sm, size, small⟩ := handle.small.resolve_left tiered
    have fits := small.size_le large
    have smallLimit := small.limit
    have rootLimit := small.directory.limit_eq
    have within := small.within
    have maxOffset := small.maxOffset
    have start := small.imdrEntryAt_eq large
    refine ⟨_, small.find large, ?_, small.directory.safe
      (by rw [small.power]; exact smAligned tiered) ?_⟩
    · rw [start, imdrEntrySize, (small.entryAt large).size, smallLimit]
      exact (Nat.sub_add_cancel fits).symm
    · rw [start]
      omega

end Handle

/-- A new handle below an upper limit whose creation is accepted, with power of
two sizes and alignments: the root sizes leave room for an entry, the regions
do not reach below address zero, and the small alignment is not larger than the
large root. -/
inductive Created (width upperLimit : Nat) : Handle → Memory → Prop
  | plain {memory memory' : Memory} {imd : Handle} {rootPower power : Nat}
      (large : 32 < 2 ^ rootPower)
      (below : 2 ^ rootPower < upperLimit / 4096 * 4096)
      (created : imdCreateEmpty width (imdHandleInit width upperLimit) memory
        (2 ^ rootPower) (2 ^ power) = some (imd, memory')) :
      Created width upperLimit imd memory'
  | tiered {memory memory' : Memory} {imd : Handle}
      {lgRootPower lgPower smRootPower smPower : Nat}
      (lgLarge : 32 < 2 ^ lgRootPower) (smLarge : 32 < 2 ^ smRootPower)
      (aligned : 2 ^ smPower ≤ 2 ^ lgRootPower)
      (fits : 2 ^ lgRootPower + smRegionSizeOf width (2 ^ lgPower)
        (2 ^ smRootPower) (2 ^ smPower) ≤ upperLimit / 4096 * 4096)
      (created : imdCreateTieredEmpty width (imdHandleInit width upperLimit)
        memory (2 ^ lgRootPower) (2 ^ lgPower) (2 ^ smRootPower)
          (2 ^ smPower) = (0, imd, memory')) :
      Created width upperLimit imd memory'

theorem Created.handleAt (wide : 32 ≤ width) {upperLimit : Nat} (fits : upperLimit < 2 ^ width)
    {imd : Handle} {memory : Memory} (created : Created width upperLimit imd memory) :
    ∃ powers lg, HandleAt width imd powers memory none lg ∧
      2 ^ powers.lg ∣ imd.lg.r ∧ (imd.sm.r ≠ 0 → 2 ^ powers.sm ∣ imd.sm.r) := by
  have aligned : 4096 ∣ upperLimit / 4096 * 4096 := Dvd.intro_left _ rfl
  cases created with
  | @plain memory memory' imd rootPower power large below created =>
    rw [imdHandleInit_eq fits, imdCreateEmpty] at created
    obtain ⟨⟨lgImdr, lgMemory⟩, accepted, same⟩ := Option.map_eq_some_iff.mp created
    cases same
    obtain ⟨small, align⟩ := imdrCreateEmpty_bounds accepted
    obtain ⟨limitEq, root, -, d, directory, -, dPower, -, maxOffset, -⟩ :=
      imdrCreateEmpty_spec (show Imdr.limit ⟨upperLimit / 4096 * 4096, 0⟩ =
        upperLimit / 4096 * 4096 from rfl) (by omega) large below accepted
    have rootDvd := two_pow_dvd_root aligned small align
    refine ⟨⟨power, 0⟩, d, ⟨directory, dPower, maxOffset, Or.inl rfl⟩, ?_,
      fun tiered => absurd rfl tiered⟩
    rw [← root, Nat.add_sub_cancel] at rootDvd
    exact rootDvd
  | @tiered memory memory' imd lgRootPower lgPower smRootPower smPower lgLarge
      smLarge smAligned region created =>
    obtain ⟨⟨lgSmall, lgAlign, smSmall, smAlign⟩, limitEq, lgRoot, smRoot,
      -, -, lg, handle⟩ := imdCreateTieredEmpty_spec wide fits lgLarge smLarge region created
    have lgDvd := two_pow_dvd_root aligned lgSmall lgAlign
    have smLgDvd := two_pow_dvd_root aligned lgSmall smAligned
    rw [← limitEq, ← lgRoot, Nat.add_sub_cancel] at lgDvd smLgDvd
    refine ⟨_, lg, handle, lgDvd, fun _ => ?_⟩
    have smRootDvd : 2 ^ smPower ∣ 2 ^ smRootPower :=
      Nat.pow_dvd_pow 2 ((Nat.pow_le_pow_iff_right (by decide)).mp smAlign)
    rw [← smRoot] at smLgDvd
    exact (Nat.dvd_add_iff_left smRootDvd).mpr smLgDvd

/-- Every run of allowed requests after an accepted creation is safe. -/
theorem safeHandle_of_run (wide : 32 ≤ width) {upperLimit : Nat}
    (fits : upperLimit < 2 ^ width) {imd : Handle} {start memory : Memory}
    {limit : Option Nat} (created : Created width upperLimit imd start)
    (run : Run width imd (Allowed width imd) start memory limit) :
    SafeHandle width imd memory limit := by
  obtain ⟨powers, lg, handle, lgAligned, smAligned⟩ := created.handleAt wide fits
  obtain ⟨lg', handle'⟩ := handle.run wide run
  exact handle'.safe lgAligned smAligned

/-- A plain imd with a root of 64 bytes below 8 KiB, in cleared memory. -/
def rootOnly : Handle × Memory :=
  (imdCreateEmpty 32 (imdHandleInit 32 8192) (fun _ => 0) (2 ^ 6) (2 ^ 0)).get (by decide +kernel)

theorem imdCreateEmpty_rootOnly :
    imdCreateEmpty 32 (imdHandleInit 32 8192) (fun _ => 0) (2 ^ 6) (2 ^ 0) =
      some (rootOnly.1, rootOnly.2) := by
  rw [rootOnly, Prod.mk.eta, Option.some_get]

theorem created_rootOnly : Created 32 8192 rootOnly.1 rootOnly.2 :=
  @Created.plain _ _ _ _ _ 6 0 (by decide) (by decide) imdCreateEmpty_rootOnly

/-- A region of 100 bytes below the root. -/
theorem safeHandle_of_run_rootOnly :
    ∃ memory,
      perform 32 rootOnly.1 rootOnly.2 (.entryAdd 7 100) = some memory ∧
        SafeHandle 32 rootOnly.1 memory none := by
  obtain ⟨memory, accepted⟩ := Option.isSome_iff_exists.mp
    (show (perform 32 rootOnly.1 rootOnly.2 (.entryAdd 7 100)).isSome = true by
      decide +kernel)
  refine ⟨memory, accepted, safeHandle_of_run (by decide) (by decide)
    created_rootOnly (.accepted .start ?_ accepted)⟩
  constructor
  · show _ < _
    decide +kernel
  · show _ < _
    decide +kernel

/-- Requests that stay below 2 GiB and remove only entries that were found or
that a cursor passed. -/
def Returned (width : Nat) (imd : Handle) (memory : Memory) : Request → Prop
  | .entryAdd _ size | .entryFindOrAdd _ size =>
    StaysBelow width imd memory size (2 ^ 31)
  | .entryRemove entry =>
    (∃ id, imdEntryFind width imd memory id = some entry) ∨
      ∃ cursor, (imdCursorNext width imd memory cursor).1 = some entry
  | _ => True

/-- The first entry that a cursor returns is the one of the root.  Removing it
leaves a directory without entries. -/
theorem not_safeHandle_rootRemoved :
    ¬ ∀ (width upperLimit rootPower power : Nat) (memory start last : Memory)
      (imd : Handle) (limit : Option Nat), 32 ≤ width →
      upperLimit < 2 ^ width →
      imdCreateEmpty width (imdHandleInit width upperLimit) memory
        (2 ^ rootPower) (2 ^ power) = some (imd, start) →
      Run width imd (Returned width imd) start last limit →
      SafeHandle width imd last limit := by
  intro claim
  obtain ⟨memory, removed⟩ := Option.isSome_iff_exists.mp
    (show (imdEntryRemove 32 rootOnly.1 rootOnly.2 8148).isSome = true by
      decide +kernel)
  have first : (imdCursorNext 32 rootOnly.1 rootOnly.2 imdCursorInit).1 = some 8148 := by
    decide +kernel
  have empty : (imdEntryRemove 32 rootOnly.1 rootOnly.2 8148).map
      (fun memory => rootNumEntries memory rootOnly.1.lg.r) = some 0 := by
    decide +kernel
  have safe := claim 32 8192 6 0 (fun _ => 0) rootOnly.2 memory rootOnly.1 none
    (by decide) (by decide) imdCreateEmpty_rootOnly
    (@Run.accepted _ _ _ _ _ _ _ (.entryRemove 8148) .start (Or.inr ⟨imdCursorInit, first⟩) removed)
  rw [removed, Option.map_some, Option.some_inj] at empty
  have nonempty := safe.large.nonempty
  omega

end Coreboot.Imd
