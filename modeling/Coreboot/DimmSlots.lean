import Coreboot.Ddr3

/-!
# The modules of a channel

The ranks of the two modules of a channel share a byte, and their sizes add up.
-/

namespace Coreboot.Ddr3

structure Channel where
  dimms : List DimmAttr
  rankmap : Byte
  sizeMb : Nat

abbrev IsDdr3 (memoryType : Byte) : Prop := memoryType = spdMemoryTypeSdramDdr3

/-- The profile is used if there is one that fits the channel. -/
def decodeSlot (dimmsOnChannel : Nat) (dimm : DimmAttr) (spd : Spd) : Option DimmAttr :=
  ((spdXmpDecodeDdr3 dimm spd .profile1).map Prod.snd).bind fun dimm =>
    if ¬ IsDdr3 dimm.dramType ∨ dimm.dimmsPerChannel < dimmsOnChannel ∨ dimm.voltage ≠ 1500 then
      (spdDecodeDdr3 dimm spd).map Prod.snd
    else some dimm

def Channel.add (channel : Channel) (dimm : DimmAttr) : Channel :=
  if ¬ IsDdr3 dimm.dramType then
    { channel with dimms := channel.dimms ++ [{ dimm with ranks := 0, sizeMb := 0 }] }
  else
    let ranks := BitVec.ofNat 8 ((2 ^ dimm.ranks - 1) * 4 ^ channel.dimms.length)
    ⟨channel.dimms ++ [dimm], channel.rankmap ||| ranks, channel.sizeMb + dimm.sizeMb⟩

def count (dimms : List DimmAttr) : Nat := dimms.countP fun dimm => IsDdr3 dimm.dramType

def findChannel (first second : DimmAttr) (spd spd' : Spd) : Option Channel := do
  let (_, first) ← spdDecodeDdr3 first spd
  let (_, second) ← spdDecodeDdr3 second spd'
  let dimmsOnChannel := count [first, second]
  let first ← decodeSlot dimmsOnChannel first spd
  let second ← decodeSlot dimmsOnChannel second spd'
  return [first, second].foldl Channel.add ⟨[], 0, 0⟩

/-- There is no result after a division by zero, and none is found if there are no modules. -/
def dramFindSpdsDdr3 (dimms : Nat → DimmAttr) (spds : Nat → Spd) :
    Option (Option (Channel × Channel)) := do
  let first ← findChannel (dimms 0) (dimms 1) (spds 0) (spds 1)
  let second ← findChannel (dimms 2) (dimms 3) (spds 2) (spds 3)
  return if count first.dimms + count second.dimms = 0 then none else some (first, second)

def dimmRanks (spd : Spd) : Nat := if IsDdr3 (spd 2) then ranks spd else 0

def dimmSizeMb (spd : Spd) : Nat := if IsDdr3 (spd 2) then sizeMb spd else 0

/-- The lowest bits of a slot are its module's ranks. -/
def Counted (rankmap : Byte) (ranks ranks' : Nat) : Prop :=
  rankmap.toNat < 16 ∧ rankmap.toNat % 4 = 2 ^ ranks - 1 ∧ rankmap.toNat / 4 % 4 = 2 ^ ranks' - 1

def Channel.Right (channel : Channel) (spd spd' : Spd) : Prop :=
  Counted channel.rankmap (dimmRanks spd) (dimmRanks spd') ∧
    channel.sizeMb = dimmSizeMb spd + dimmSizeMb spd'

def Right (dimms : Nat → DimmAttr) (spds : Nat → Spd) : Prop :=
  (∀ slot < 4, ∀ dimm, spdDecodeDdr3 dimm (spds slot) ≠ none ∧
    ∀ profile, spdXmpDecodeDdr3 dimm (spds slot) profile ≠ none) ∧
  ∃ found, dramFindSpdsDdr3 dimms spds = some found ∧ ∀ channels ∈ found,
    channels.1.Right (spds 0) (spds 1) ∧ channels.2.Right (spds 2) (spds 3)

/-- The image makes the decoder divide by zero: by the width of a device, which is a byte, or by
the divisor of a time base. -/
def Divides (spd : Spd) : Prop :=
  IsDdr3 (spd 2) ∧ ((width spd = 0 ∨ spd 11 = 0) ∨
    status spd = .ok ∧ spd 176 = 0x0c ∧ spd 177 = 0x4a ∧ ∃ profile : XmpProfile,
      (spd 178).getLsbD profile.enable = true ∧ spd (181 + 2 * profile.enable) = 0)

variable {spd spd' : Spd}

theorem not_isDdr3_undefined : ¬ IsDdr3 spdMemoryTypeUndefined := by decide

theorem Divides.eq_none (divides : Divides spd) (dimm : DimmAttr) :
    ∃ profile, spdXmpDecodeDdr3 dimm spd profile = none := by
  obtain ⟨isDdr3, divisor⟩ := divides
  unfold spdXmpDecodeDdr3 spdDecodeDdr3 mediumTimeBase
  by_cases base : width spd = 0 ∨ spd 11 = 0
  · refine ⟨.profile1, ?_⟩
    rcases base with base | base <;> simp [isDdr3, base]
  · obtain ⟨valid, magic, magic', profile, enabled, divisor⟩ := divisor.resolve_left base
    refine ⟨profile, ?_⟩
    simp [isDdr3, not_or.mp base, valid, magic, magic', enabled, divisor]

/-- A decoded module has the type, and if it is one of DDR3, the ranks and the size of its
image. -/
def Describes (dimm : DimmAttr) (spd : Spd) : Prop :=
  if IsDdr3 (spd 2) then
    IsDdr3 dimm.dramType ∧ dimm.ranks = ranks spd ∧ dimm.sizeMb = sizeMb spd
  else ¬ IsDdr3 dimm.dramType

section

variable (whole : ¬ Divides spd) (dimm : DimmAttr)
include whole

theorem exists_decoded : ∃ decoded, spdDecodeDdr3 dimm spd = some decoded ∧
    Describes decoded.2 spd ∧ (decoded.1 = .ok → IsDdr3 (spd 2) ∧ status spd = .ok) := by
  unfold Divides at whole
  unfold spdDecodeDdr3 mediumTimeBase Describes
  split_ifs <;> simp_all [not_isDdr3_undefined]

theorem exists_xmpDecoded (profile : XmpProfile) :
    ∃ decoded, spdXmpDecodeDdr3 dimm spd profile = some decoded ∧
      (IsDdr3 decoded.2.dramType → Describes decoded.2 spd) := by
  obtain ⟨decoded, ran, describes, valid⟩ := exists_decoded whole dimm
  rw [spdXmpDecodeDdr3, ran, Option.bind_some]
  split_ifs with failed other
  · exact ⟨decoded, rfl, fun _ => describes⟩
  · exact ⟨_, rfl, fun impossible => absurd impossible not_isDdr3_undefined⟩
  · obtain ⟨isDdr3, isOk⟩ := valid (not_not.mp failed)
    push Not at other
    have divisor : spd (181 + 2 * profile.enable) ≠ 0 := fun zero => whole ⟨isDdr3, .inr
      ⟨isOk, other.1, other.2.1, profile, Bool.eq_true_of_not_eq_false other.2.2, zero⟩⟩
    simp only [mediumTimeBase, if_neg divisor]
    exact ⟨_, rfl, fun _ => describes⟩

theorem exists_decodeSlot (dimmsOnChannel : Nat) :
    ∃ found, decodeSlot dimmsOnChannel dimm spd = some found ∧ Describes found spd := by
  obtain ⟨decoded, ran, describes⟩ := exists_xmpDecoded whole dimm .profile1
  rw [decodeSlot, ran, Option.map_some, Option.bind_some]
  split_ifs with unfit
  · obtain ⟨again, ran, describes, -⟩ := exists_decoded whole decoded.2
    exact ⟨again.2, by rw [ran, Option.map_some], describes⟩
  · exact ⟨decoded.2, rfl, describes (not_not.mp (not_or.mp unfit).1)⟩

end

/-- A module adds its ranks and its size, and is counted if it has ranks. -/
theorem Describes.add {dimm : DimmAttr} (describes : Describes dimm spd) (channel : Channel) :
    (channel.add dimm).rankmap = channel.rankmap |||
        BitVec.ofNat 8 ((2 ^ dimmRanks spd - 1) * 4 ^ channel.dimms.length) ∧
      (channel.add dimm).sizeMb = channel.sizeMb + dimmSizeMb spd ∧
      (channel.add dimm).dimms.length = channel.dimms.length + 1 ∧
      (count (channel.add dimm).dimms = 0 ↔ count channel.dimms = 0 ∧ dimmRanks spd = 0) := by
  unfold Describes at describes
  unfold Channel.add dimmRanks dimmSizeMb count
  split_ifs at describes ⊢ <;> simp_all [ranks]

theorem exists_channel (whole : ¬ Divides spd) (whole' : ¬ Divides spd') (dimm dimm' : DimmAttr) :
    ∃ channel, findChannel dimm dimm' spd spd' = some channel ∧
      (count channel.dimms = 0 ↔ dimmRanks spd = 0 ∧ dimmRanks spd' = 0) ∧
      (channel.Right spd spd' ↔ dimmRanks spd ≤ 2 ∧ dimmRanks spd' ≤ 2) := by
  obtain ⟨first, ran, -⟩ := exists_decoded whole dimm
  obtain ⟨second, ran', -⟩ := exists_decoded whole' dimm'
  obtain ⟨found, slot, describes⟩ := exists_decodeSlot whole first.2 (count [first.2, second.2])
  obtain ⟨found', slot', describes'⟩ :=
    exists_decodeSlot whole' second.2 (count [first.2, second.2])
  obtain ⟨rankmap, size, length, none⟩ := describes.add ⟨[], 0, 0⟩
  obtain ⟨rankmap', size', -, none'⟩ := describes'.add (Channel.add ⟨[], 0, 0⟩ found)
  refine ⟨(Channel.add ⟨[], 0, 0⟩ found).add found', ?_, ?_, ?_⟩
  · simp [findChannel, ran, ran', slot, slot']
  · rw [none', none]
    simp [count]
  · have masks : ∀ ranks < 9, ∀ ranks' < 9,
        Counted (0 ||| BitVec.ofNat 8 ((2 ^ ranks - 1) * 4 ^ 0) |||
          BitVec.ofNat 8 ((2 ^ ranks' - 1) * 4 ^ 1)) ranks ranks' ↔ ranks ≤ 2 ∧ ranks' ≤ 2 := by
      unfold Counted
      decide
    have bound (spd : Spd) : dimmRanks spd < 9 := by
      unfold dimmRanks ranks field
      split_ifs <;> omega
    rw [Channel.Right, rankmap', size', length, rankmap, size, ← masks _ (bound _) _ (bound _)]
    simp

theorem exists_found (dimms : Nat → DimmAttr) {spds : Nat → Spd}
    (whole : ∀ slot < 4, ¬ Divides (spds slot)) :
    ∃ found, dramFindSpdsDdr3 dimms spds = some found ∧
      ((∀ channels ∈ found,
        channels.1.Right (spds 0) (spds 1) ∧ channels.2.Right (spds 2) (spds 3)) ↔
          ∀ slot < 4, dimmRanks (spds slot) ≤ 2) := by
  obtain ⟨first, ran, none, right⟩ :=
    exists_channel (whole 0 (by decide)) (whole 1 (by decide)) (dimms 0) (dimms 1)
  obtain ⟨second, ran', none', right'⟩ :=
    exists_channel (whole 2 (by decide)) (whole 3 (by decide)) (dimms 2) (dimms 3)
  refine ⟨_, by rw [dramFindSpdsDdr3, ran, ran']; rfl, ?_⟩
  simp only [Nat.add_eq_zero_iff, none, none', Nat.forall_lt_succ_right]
  split_ifs with empty
  · simp [empty]
  · simp [right, right', and_assoc]

/-- Decoding is right exactly if it never divides by zero and no module has more than two
ranks. -/
theorem right_iff (dimms : Nat → DimmAttr) (spds : Nat → Spd) :
    Right dimms spds ↔ ∀ slot < 4, ¬ Divides (spds slot) ∧ dimmRanks (spds slot) ≤ 2 := by
  constructor
  · rintro ⟨decodes, found, ran, right⟩ slot inside
    have whole (slot) (inside : slot < 4) (divides : Divides (spds slot)) : False := by
      obtain ⟨profile, stuck⟩ := divides.eq_none default
      exact (decodes slot inside default).2 profile stuck
    obtain ⟨_, ran', ranks⟩ := exists_found dimms whole
    cases ran.symm.trans ran'
    exact ⟨whole slot inside, ranks.mp right slot inside⟩
  · intro fit
    obtain ⟨found, ran, ranks⟩ := exists_found dimms fun slot inside => (fit slot inside).1
    refine ⟨fun slot inside dimm => ⟨?_, fun profile => ?_⟩, found, ran,
      ranks.mpr fun slot inside => (fit slot inside).2⟩
    · obtain ⟨_, ran, -⟩ := exists_decoded (fit slot inside).1 dimm
      exact ran ▸ Option.some_ne_none _
    · obtain ⟨_, ran, -⟩ := exists_xmpDecoded (fit slot inside).1 dimm profile
      exact ran ▸ Option.some_ne_none _

/-- A module without a divisor of its time base. -/
theorem not_right_zeroDivisor :
    ¬ Right default fun _ index => if index = 2 then spdMemoryTypeSdramDdr3 else 0 := by
  intro right
  have divides : Divides fun index => if index = 2 then spdMemoryTypeSdramDdr3 else 0 :=
    ⟨rfl, .inl (.inr rfl)⟩
  obtain ⟨profile, stuck⟩ := divides.eq_none default
  exact (right.1 0 (by decide) default).2 profile stuck

end Coreboot.Ddr3
