import Coreboot.ImdSafety

/-!
# Creating an imd

A created imd is a root just below the aligned upper limit, and in a tiered one the first region
below it holds the small directory.
-/

namespace Coreboot.Imd

open ByteMemory DescendingBlocks

variable {width : Nat}

variable {imdr : Imdr} {memory memory' : Memory} {power : Nat} {upperLimit : Nat}

theorem imdrCreateEmpty_bounds {rootSize entryAlign : Nat} {result : Imdr × Memory}
    (created : imdrCreateEmpty width imdr memory rootSize entryAlign = some result) :
    rootSize ≤ 4096 ∧ entryAlign ≤ rootSize := by
  rw [imdrCreateEmpty] at created
  split_ifs at created with null short large unaligned
  simp only [limitAlign, not_or, not_lt] at large
  exact ⟨large.1, not_lt.mp unaligned⟩

theorem forty_four_le_two_pow (large : 32 < 2 ^ power) : 44 ≤ 2 ^ power := by
  rcases Nat.lt_or_ge power 6 with small | more
  · have bound : 2 ^ power ≤ 2 ^ 5 := Nat.pow_le_pow_right (by decide) (by omega)
    omega
  · have bound : 2 ^ 6 ≤ 2 ^ power := Nat.pow_le_pow_right (by decide) more
    omega

theorem alignDown_limitAlign {value : Nat} (fits : value < 2 ^ width) :
    alignDown width value limitAlign = value / 4096 * 4096 := by
  have aligned := alignDown_eq 12 fits
  rwa [show 2 ^ 12 = 4096 by rfl] at aligned

theorem imdHandleInit_eq (fits : upperLimit < 2 ^ width) :
    imdHandleInit width upperLimit = ⟨⟨upperLimit / 4096 * 4096, 0⟩, ⟨0, 0⟩⟩ := by
  rw [imdHandleInit, imdrInit, imdrInit, alignDown_limitAlign fits,
    alignDown_limitAlign (Nat.two_pow_pos width), Nat.zero_div, Nat.zero_mul]

theorem smRegionSizeOf_eq (wide : 32 ≤ width) {lgPower smPower smRootSize : Nat}
    (lgAlign : 2 ^ lgPower ≤ 4096) (large : 44 ≤ smRootSize)
    (small : smRootSize ≤ 4096) (smAlign : 2 ^ smPower ≤ smRootSize) :
    let size := (smRootSize - 28) / 16 * 2 ^ smPower + smRootSize
    smRegionSizeOf width (2 ^ lgPower) smRootSize (2 ^ smPower) = WordAlignment.ceil size lgPower ∧
      smRootSize < size ∧ size ≤ 2 ^ 21 := by
  intro size
  have wideEnough : 2 ^ 32 ≤ 2 ^ width := Nat.pow_le_pow_right (by decide) wide
  have positive : 0 < 2 ^ smPower := Nat.two_pow_pos smPower
  have entries : numEntriesOfRootSize width smRootSize = (smRootSize - 28) / 16 :=
    numEntriesOfRootSize_eq (by omega) (by omega)
  have product : (smRootSize - 28) / 16 * 2 ^ smPower ≤ 254 * 4096 :=
    Nat.mul_le_mul (by omega) (by omega)
  have some : 1 * 1 ≤ (smRootSize - 28) / 16 * 2 ^ smPower := Nat.mul_le_mul (by omega) positive
  have first : toUnsigned width
      ((numEntriesOfRootSize width smRootSize : Nat) * (2 ^ smPower : Nat)) =
        (smRootSize - 28) / 16 * 2 ^ smPower := by
    apply toUnsigned_of_lt
    · rw [entries, Nat.cast_mul]
    · omega
  have second : toUnsigned width (((smRootSize - 28) / 16 * 2 ^ smPower : Nat) +
      (smRootSize : Nat)) = size := by
    apply toUnsigned_of_lt
    · rw [← Nat.cast_add]
    · omega
  refine ⟨?_, by omega, by omega⟩
  rw [smRegionSizeOf, first, second]
  exact alignUp_eq_ceil (by omega)

theorem imdrCreateEmpty_spec {limit : Nat} (limitEq : imdr.limit = limit)
    (limit_lt : limit < 2 ^ width) {rootPower : Nat} (large : 32 < 2 ^ rootPower)
    (below : 2 ^ rootPower < limit) {created : Imdr}
    (accepted : imdrCreateEmpty width imdr memory (2 ^ rootPower)
      (2 ^ power) = some (created, memory')) :
    created.limit = limit ∧ created.r + 2 ^ rootPower = limit ∧
      SameOutside memory memory' created.r limit ∧
        ∃ d : Directory, DirectoryAt width memory' created d ∧
          d.rootSize = 2 ^ rootPower ∧ d.power = power ∧ d.flags = 0 ∧
            d.maxOffset = 0 ∧ d.others = [] := by
  subst limitEq
  obtain ⟨small, align⟩ := imdrCreateEmpty_bounds accepted
  obtain ⟨next, same, directory, change⟩ := imdrCreateEmpty_eq limit_lt memory
    (forty_four_le_two_pow large) small align below
  cases same.symm.trans accepted
  exact ⟨rfl, Nat.sub_add_cancel below.le, change, _, directory, rfl, rfl, rfl, rfl, rfl⟩

theorem lowest_of_nil {d : Directory} (none : d.others = []) : d.lowest = 0 := by
  rw [Directory.lowest, none]
  rfl

theorem two_pow_dvd_root {limit rootPower : Nat} (aligned : 4096 ∣ limit)
    (small : 2 ^ rootPower ≤ 4096) (align : 2 ^ power ≤ 2 ^ rootPower) :
    2 ^ power ∣ limit - 2 ^ rootPower := by
  have rootPower_le : rootPower ≤ 12 :=
    (Nat.pow_le_pow_iff_right (by decide)).mp (show 2 ^ rootPower ≤ 2 ^ 12 from small)
  have power_le : power ≤ rootPower := (Nat.pow_le_pow_iff_right (by decide)).mp align
  have rootDvd : 2 ^ power ∣ 2 ^ rootPower := Nat.pow_dvd_pow 2 power_le
  have limitDvd : 2 ^ rootPower ∣ limit := (Nat.pow_dvd_pow 2 rootPower_le).trans aligned
  exact Nat.dvd_sub (rootDvd.trans limitDvd) rootDvd

section Accepted

variable {imd imd' : Handle} {lg sm : Imdr} {memory memory' : Memory}

theorem failure_ne_zero {imd imd' : Handle} {memory memory' : Memory} :
    ((-1 : Int), imd, memory) ≠ (0, imd', memory') :=
  fun same => absurd (Prod.mk.inj same).1 (by decide)

variable {size smRootSize smEntryAlign : Nat}

theorem limitSmall_eq_zero (created : limitSmall width lg sm memory size = (0, imd', memory')) :
    imd' = ⟨lg, sm⟩ ∧ imdrLimitSize width sm memory size = some memory' := by
  rw [limitSmall] at created
  cases limited : imdrLimitSize width sm memory size with
  | none =>
    rw [limited] at created
    exact absurd created failure_ne_zero
  | some limitedMemory =>
    rw [limited] at created
    obtain ⟨rfl, rfl⟩ := Prod.mk.inj (Prod.mk.inj created).2
    exact ⟨rfl, rfl⟩

theorem createSmall_eq_zero
    (created : createSmall width lg sm memory size smRootSize smEntryAlign = (0, imd', memory')) :
    ∃ smImdr smMemory, imdrCreateEmpty width sm memory smRootSize
        smEntryAlign = some (smImdr, smMemory) ∧
      limitSmall width lg smImdr smMemory size = (0, imd', memory') := by
  rw [createSmall] at created
  cases smResult : imdrCreateEmpty width sm memory smRootSize smEntryAlign with
  | none =>
    rw [smResult] at created
    exact absurd created failure_ne_zero
  | some smPair =>
    rw [smResult] at created
    exact ⟨smPair.1, smPair.2, rfl, created⟩

theorem addSmallRegion_eq_zero
    (created : addSmallRegion width lg sm memory size smRootSize smEntryAlign =
      (0, imd', memory')) :
    ∃ e addedMemory, imdrEntryAdd width lg memory smallRegionId size = some (e, addedMemory) ∧
      createSmall width lg ⟨toUnsigned width
        (imdrEntryAt width lg addedMemory e + size), sm.r⟩ addedMemory size
          smRootSize smEntryAlign = (0, imd', memory') := by
  rw [addSmallRegion] at created
  cases added : imdrEntryAdd width lg memory smallRegionId size with
  | none =>
    rw [added] at created
    exact absurd created failure_ne_zero
  | some addedPair =>
    rw [added] at created
    exact ⟨addedPair.1, addedPair.2, rfl, created⟩

theorem imdCreateTieredEmpty_eq_zero {lgRootSize lgEntryAlign : Nat}
    (created : imdCreateTieredEmpty width imd memory lgRootSize lgEntryAlign
      smRootSize smEntryAlign = (0, imd', memory')) :
    ∃ lgImdr lgMemory, imdrCreateEmpty width imd.lg memory lgRootSize
        lgEntryAlign = some (lgImdr, lgMemory) ∧
      addSmallRegion width lgImdr imd.sm lgMemory
        (smRegionSizeOf width lgEntryAlign smRootSize smEntryAlign) smRootSize
        smEntryAlign = (0, imd', memory') := by
  rw [imdCreateTieredEmpty] at created
  cases lgResult : imdrCreateEmpty width imd.lg memory lgRootSize lgEntryAlign with
  | none =>
    rw [lgResult] at created
    exact absurd created failure_ne_zero
  | some lgPair =>
    rw [lgResult] at created
    exact ⟨lgPair.1, lgPair.2, rfl, created⟩

end Accepted

theorem imdrEntryAdd_smallRegion (wide : 32 ≤ width) {d : Directory}
    (directory : DirectoryAt width memory imdr d) (empty : d.others = [])
    (unlocked : d.flags = 0) {size e : Nat} (aligned : 2 ^ d.power ∣ size)
    (bounded : size < 2147483648) (fits : size ≤ imdr.r)
    (added : imdrEntryAdd width imdr memory smallRegionId size = some (e, memory')) :
    imdrEntryAt width imdr memory' e = imdr.r - size ∧
      SameOutside memory memory' imdr.r (imdr.limit - 8) ∧
        ∃ d' : Directory, DirectoryAt width memory' imdr d' ∧
          d'.rootSize = d.rootSize ∧ d'.power = d.power ∧
            d'.maxOffset = d.maxOffset ∧ d'.others = [⟨-size, size, smallRegionId⟩] := by
  have wideEnough : 2 ^ 32 ≤ 2 ^ width := Nat.pow_le_pow_right (by decide) wide
  have align := d.align_le
  have small := d.rootSize_le
  have limitEq := directory.limit_eq
  have limitLt := directory.limit_lt
  have lowest := lowest_of_nil empty
  have rounded : WordAlignment.ceil size d.power = size := WordAlignment.ceil_of_dvd aligned
  have offset : (d.newEntry smallRegionId size).offset = -(size : Int) := by
    change d.lowest - WordAlignment.ceil size d.power = _
    rw [lowest, rounded, Int.zero_sub]
  have notLocked : ¬ rootIsLocked memory imdr.r = true := by
    rw [rootIsLocked, directory.root.flags, unlocked]
    decide
  rw [imdrEntryAdd, if_neg (by have := directory.positive; omega), if_neg notLocked] at added
  rcases directory.entryAdd wide (show smallRegionId < 2 ^ 32 by decide)
    (show size + 2 ^ d.power ≤ 2 ^ width by omega)
    (fun _ => by rw [offset]; exact ⟨by omega, by omega⟩) with
    refused | ⟨room, next, accepted, enough, nextAt, change⟩
  · exact absurd (refused.symm.trans added) (by simp)
  · cases accepted.symm.trans added
    have others : (d.add smallRegionId size room).others = [⟨-size, size, smallRegionId⟩] := by
      change d.others ++ [d.newEntry smallRegionId size] = _
      rw [empty, ← offset]
      rfl
    have index : d.others.length + 1 = 1 := by rw [empty]; rfl
    have second : (d.add smallRegionId size room).entries[1]? =
        some ⟨-size, size, smallRegionId⟩ := by
      rw [Directory.entries, others]
      rfl
    have entryAt := nextAt.entryAt_of_getElem? second
    refine ⟨?_, change, _, nextAt, rfl, rfl, rfl, others⟩
    have below : (imdr.r : Int) + -(size : Int) = (imdr.r - size : Nat) := by
      omega
    rw [index, imdrEntryAt, entryAt.offset]
    exact relativePointer_of_eq below (by omega)

/-- The directories of an accepted tiered creation whose small region does not
reach below address zero. -/
theorem imdCreateTieredEmpty_spec (wide : 32 ≤ width)
    (upperFits : upperLimit < 2 ^ width) {lgRootPower lgPower smRootPower smPower : Nat}
    (lgLarge : 32 < 2 ^ lgRootPower) (smLarge : 32 < 2 ^ smRootPower)
    (fits : 2 ^ lgRootPower + smRegionSizeOf width (2 ^ lgPower)
      (2 ^ smRootPower) (2 ^ smPower) ≤ upperLimit / 4096 * 4096) {imd : Handle}
    (created : imdCreateTieredEmpty width (imdHandleInit width upperLimit)
      memory (2 ^ lgRootPower) (2 ^ lgPower) (2 ^ smRootPower) (2 ^ smPower) = (0, imd, memory')) :
    (2 ^ lgRootPower ≤ 4096 ∧ 2 ^ lgPower ≤ 2 ^ lgRootPower ∧
        2 ^ smRootPower ≤ 4096 ∧ 2 ^ smPower ≤ 2 ^ smRootPower) ∧
      imd.lg.limit = upperLimit / 4096 * 4096 ∧
        imd.lg.r + 2 ^ lgRootPower = imd.lg.limit ∧
          imd.sm.r + 2 ^ smRootPower = imd.lg.r ∧ 0 < imd.sm.r ∧
            (rootNumEntries memory' imd.lg.r = 2 ∧
              rootNumEntries memory' imd.sm.r = 1) ∧
              ∃ lg, HandleAt width imd ⟨lgPower, smPower⟩ memory' none lg := by
  rw [imdHandleInit_eq upperFits] at created
  obtain ⟨lgImdr, lgMemory, lgCreated, created⟩ := imdCreateTieredEmpty_eq_zero created
  obtain ⟨e, addedMemory, added, created⟩ := addSmallRegion_eq_zero created
  obtain ⟨smImdr, smMemory, smCreated, created⟩ := createSmall_eq_zero created
  obtain ⟨rfl, limited⟩ := limitSmall_eq_zero created
  obtain ⟨lgSmall, lgAlign⟩ := imdrCreateEmpty_bounds lgCreated
  obtain ⟨smSmall, smAlign⟩ := imdrCreateEmpty_bounds smCreated
  obtain ⟨regionSize, room, bounded⟩ := smRegionSizeOf_eq wide
    (lgAlign.trans lgSmall) (forty_four_le_two_pow smLarge) smSmall smAlign
  generalize region : smRegionSizeOf width (2 ^ lgPower) (2 ^ smRootPower) (2 ^ smPower) = size at *
  generalize (2 ^ smRootPower - 28) / 16 * 2 ^ smPower + 2 ^ smRootPower =
    content at regionSize room bounded
  have rounded : content ≤ size ∧ size < content + 2 ^ lgPower := by
    rw [regionSize]
    exact ⟨WordAlignment.le_ceil _ _, WordAlignment.ceil_lt_add _ _⟩
  have aligned : 2 ^ lgPower ∣ size := by
    rw [regionSize]
    exact WordAlignment.dvd_ceil _ _
  generalize limitEq : upperLimit / 4096 * 4096 = limit at *
  have limit_lt : limit < 2 ^ width := by omega
  obtain ⟨lgLimit, lgRoot, -, lg0, lg0At, lg0Size, lg0Power, lg0Flags, lg0Max,
    lg0Empty⟩ := imdrCreateEmpty_spec (show Imdr.limit ⟨limit, 0⟩ = limit from
      rfl) limit_lt lgLarge (by omega) lgCreated
  rw [← lg0Power] at aligned
  obtain ⟨start, -, lg1, lg1At, lg1Size, lg1Power, lg1Max, lg1Others⟩ :=
    imdrEntryAdd_smallRegion wide lg0At lg0Empty lg0Flags aligned (by omega) (by omega) added
  have smLimit : toUnsigned width (imdrEntryAt width lgImdr addedMemory e + size) = lgImdr.r :=
    toUnsigned_of_lt (by rw [start]; omega) (by omega)
  obtain ⟨smLimitEq, smRoot, smChange, sm0, sm0At, sm0Size, sm0Power, -, -,
    sm0Empty⟩ := imdrCreateEmpty_spec smLimit (by omega) smLarge (by omega) smCreated
  have smLowest := lowest_of_nil sm0Empty
  have sizeFits : size < 2147483648 := by omega
  have smRoom : sm0.rootSize < size := by omega
  have within : (sm0.rootSize : Int) - size ≤ sm0.lowest := by omega
  have smRootSize : toUnsigned width (smImdr.limit - smImdr.r) = sm0.rootSize :=
    toUnsigned_of_lt (by omega) (by omega)
  rw [imdrLimitSize, if_neg (by have := sm0At.positive; omega)] at limited
  rw [smRootSize, if_neg (by omega)] at limited
  cases limited
  have positive : toSigned width ((size : Int) - sm0.rootSize) = size - sm0.rootSize :=
    toSigned_of_lt wide (by omega) (by omega)
  have negative : toSigned width (-((size : Int) - sm0.rootSize)) =
      -((size : Int) - sm0.rootSize) :=
    toSigned_of_lt wide (by omega) (by omega)
  rw [positive, negative, Int.neg_sub]
  have stored : readInt32 (writeInt32 smMemory (smImdr.r + 16)
      (sm0.rootSize - size)) (smImdr.r + 16) = sm0.rootSize - size :=
    readInt32_write_self (by omega) (by omega)
  have limitChange : SameOutside smMemory (writeInt32 smMemory (smImdr.r + 16)
      (sm0.rootSize - size)) smImdr.r lgImdr.r :=
    sameOutside_writeInt32 (by omega) (by omega)
  have large := (lg1At.congr smChange (Or.inr le_rfl)).congr limitChange (Or.inr le_rfl)
  have small := sm0At.limitOffset stored
  have lgCount := large.root.numEntries
  have smCount := small.root.numEntries
  rw [lg1Others] at lgCount
  rw [show (sm0.withMaxOffset (sm0.rootSize - size)).others = [] from sm0Empty] at smCount
  refine ⟨⟨lgSmall, lgAlign, smSmall, smAlign⟩, lgLimit, lgRoot.trans
    lgLimit.symm, smRoot, sm0At.positive, ⟨lgCount, smCount⟩, lg1, ?_⟩
  refine ⟨large, lg1Power.trans lg0Power, lg1Max.trans lg0Max,
    Or.inr ⟨_, size, ⟨small, sm0Power, ?_, smLimitEq, sizeFits, smRoom, rfl, within⟩⟩⟩
  rw [lg1Others]
  rfl

end Coreboot.Imd
