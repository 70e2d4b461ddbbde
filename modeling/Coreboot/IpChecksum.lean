import Coreboot.CorebootTableWriter
import Mathlib.Data.Nat.ModEq

/-!
# Checksums of parts

The checksum of a string is that of its parts combined.  A part behind an odd number
of bytes has its low and high bytes exchanged.
-/

namespace Coreboot

variable {first second : Nat}

namespace OnesComplementSum

open ByteMemory

theorem fold_eq_of_modEq (same : first ≡ second [MOD 65535])
    (zero : first = 0 ↔ second = 0) : fold first = fold second := by
  rw [Nat.ModEq] at same
  rw [fold, fold]
  split_ifs <;> omega

theorem fold_modEq (number : Nat) : fold number ≡ number [MOD 65535] := by
  rw [fold]
  split_ifs with zero
  · rw [zero]
  · rw [Nat.ModEq]
    omega

theorem fold_eq_zero {number : Nat} : fold number = 0 ↔ number = 0 := by
  rw [fold]
  split_ifs with zero
  · exact iff_of_true rfl zero
  · exact iff_of_false id zero

/-- A byte in front exchanges the low and the high bytes behind it. -/
theorem wordSum_cons (byte : Byte) (bytes : List Byte) :
    wordSum (byte :: bytes) ≡ byte.toNat + 256 * wordSum bytes [MOD 65535] ∧
      (wordSum (byte :: bytes) = 0 ↔ byte.toNat = 0 ∧ wordSum bytes = 0) := by
  induction bytes using wordSum.induct generalizing byte with
  | case1 => exact ⟨rfl, (and_iff_left rfl).symm⟩
  | case2 second =>
    simp only [wordSum, Nat.ModEq]
    omega
  | case3 second third rest ih =>
    obtain ⟨same, zero⟩ := ih third
    rw [Nat.ModEq] at same ⊢
    simp only [wordSum] at same zero ⊢
    omega

theorem wordSum_append_odd {first : List Byte} (odd : first.length % 2 = 1) (second : List Byte) :
    wordSum (first ++ second) ≡ wordSum first + 256 * wordSum second [MOD 65535] ∧
      (wordSum (first ++ second) = 0 ↔ wordSum first = 0 ∧ wordSum second = 0) := by
  induction first using wordSum.induct with
  | case1 => cases odd
  | case2 byte => exact wordSum_cons byte second
  | case3 low high rest ih =>
    obtain ⟨same, zero⟩ := ih (by
      rw [List.length_cons, List.length_cons] at odd
      omega)
    rw [Nat.ModEq] at same ⊢
    simp only [List.cons_append, wordSum]
    omega

def swap (word : Nat) : Nat := word / 256 + word % 256 * 256

theorem fold_append_odd {first : List Byte} (odd : first.length % 2 = 1) (second : List Byte) :
    fold (wordSum (first ++ second)) =
      fold (fold (wordSum first) + swap (fold (wordSum second))) := by
  obtain ⟨same, zero⟩ := wordSum_append_odd odd second
  have firstSame := fold_modEq (wordSum first)
  have secondSame := fold_modEq (wordSum second)
  have firstZero := @fold_eq_zero (wordSum first)
  have secondZero := @fold_eq_zero (wordSum second)
  rw [Nat.ModEq] at same firstSame secondSame
  apply fold_eq_of_modEq
  · rw [Nat.ModEq, swap]
    omega
  · rw [zero, ← firstZero, ← secondZero, swap]
    omega

end OnesComplementSum

namespace CorebootTable

open ByteMemory OnesComplementSum

def addIpChecksums (offset sum new : BitVec 64) : BitVec 64 :=
  let sum := ~~~ sum &&& 0xffff#64
  let new := ~~~ new &&& 0xffff#64
  let new :=
    if offset &&& 1 ≠ 0 then ((new >>> 8) &&& 0xff#64) ||| ((new <<< 8) &&& 0xff00#64)
    else new
  let checksum := sum + new
  let checksum := if 0xffff < checksum then checksum - 0xffff else checksum
  ~~~ checksum &&& 0xffff#64

theorem toNat_not_checksum {word : Nat} (small : word ≤ 65535) :
    (~~~ BitVec.ofNat 64 (65535 - word) &&& 0xffff#64).toNat = word := by
  have mask : (~~~ BitVec.ofNat 64 (65535 - word)).toNat % 65536 = word := by
    rw [BitVec.toNat_not, BitVec.toNat_ofNat]
    omega
  rw [BitVec.toNat_and]
  exact (Nat.and_two_pow_sub_one_eq_mod _ 16).trans mask

theorem toNat_swapped {word : BitVec 64} (small : word.toNat ≤ 65535) :
    (((word >>> 8) &&& 0xff#64) ||| ((word <<< 8) &&& 0xff00#64)).toNat = swap word.toNat := by
  have low : ((word >>> 8) &&& 0xff#64).toNat = word.toNat / 256 := by
    rw [BitVec.toNat_and, BitVec.toNat_ushiftRight, Nat.shiftRight_eq_div_pow]
    refine (Nat.and_two_pow_sub_one_eq_mod _ 8).trans ?_
    omega
  have high : (word <<< 8) &&& 0xff00#64 = (word &&& 0xff#64) <<< 8 := by
    rw [BitVec.shiftLeft_and_distrib]
    rfl
  have masked : (word &&& 0xff#64).toNat = word.toNat % 256 :=
    (BitVec.toNat_and _ _).trans (Nat.and_two_pow_sub_one_eq_mod _ 8)
  rw [high, BitVec.toNat_or, low, BitVec.toNat_shiftLeft, masked, Nat.shiftLeft_eq,
    Nat.mod_eq_of_lt (by omega), Nat.or_comm, ← Nat.shiftLeft_eq,
    ← Nat.shiftLeft_add_eq_or_of_lt (by omega), Nat.shiftLeft_eq, swap, Nat.add_comm]

theorem toNat_complementOfSum {first second : BitVec 64} (firstSmall : first.toNat ≤ 65535)
    (secondSmall : second.toNat ≤ 65535) :
    (~~~ (if 0xffff < first + second then first + second - 0xffff else first + second) &&&
        0xffff#64).toNat = 65535 - fold (first.toNat + second.toNat) := by
  have sum : (first + second).toNat = first.toNat + second.toNat := by
    rw [BitVec.toNat_add]
    omega
  have folded : (if 0xffff < first + second then first + second - 0xffff
      else first + second).toNat = fold (first.toNat + second.toNat) := by
    by_cases carries : 65535 < first.toNat + second.toNat
    · have above : (0xffff : BitVec 64) < first + second := by
        rw [BitVec.lt_def, sum]
        exact carries
      rw [if_pos above, fold_of_carry carries (by omega), BitVec.toNat_sub_of_le (BitVec.le_of_lt above), sum]
      rfl
    · have below : ¬ (0xffff : BitVec 64) < first + second := by
        rw [BitVec.lt_def, sum]
        exact carries
      rw [if_neg below, fold_of_le (Nat.le_of_not_lt carries), sum]
  have bound := fold_le (first.toNat + second.toNat)
  rw [BitVec.toNat_and, BitVec.toNat_not, folded]
  refine (Nat.and_two_pow_sub_one_eq_mod _ 16).trans ?_
  omega

theorem toNat_addIpChecksums (firstSmall : first ≤ 65535)
    (secondSmall : second ≤ 65535) (offset : Nat) :
    (addIpChecksums (BitVec.ofNat 64 offset) (BitVec.ofNat 64 (65535 - first))
        (BitVec.ofNat 64 (65535 - second))).toNat =
      65535 - fold (first + if offset % 2 = 1 then swap second else second) := by
  have firstNat := toNat_not_checksum firstSmall
  have secondNat := toNat_not_checksum secondSmall
  have parity : (BitVec.ofNat 64 offset &&& 1).toNat = offset % 2 := by
    rw [BitVec.toNat_and, BitVec.toNat_ofNat]
    refine (Nat.and_two_pow_sub_one_eq_mod _ 1).trans ?_
    omega
  rw [addIpChecksums]
  by_cases odd : offset % 2 = 1
  · have some : BitVec.ofNat 64 offset &&& 1 ≠ 0 := fun none => by
      rw [none] at parity
      exact absurd (parity.trans odd) (by decide)
    have swapped := toNat_swapped (secondNat.trans_le secondSmall)
    rw [secondNat] at swapped
    have bound : swap second ≤ 65535 := by
      rw [swap]
      omega
    rw [if_pos some, if_pos odd, toNat_complementOfSum (firstNat.trans_le firstSmall)
      (swapped.trans_le bound), firstNat, swapped]
  · have none : BitVec.ofNat 64 offset &&& 1 = 0 := by
      apply BitVec.eq_of_toNat_eq
      rw [parity]
      exact Nat.mod_two_ne_one.mp odd
    rw [if_neg (not_not_intro none), if_neg odd, toNat_complementOfSum
      (firstNat.trans_le firstSmall) (secondNat.trans_le secondSmall), firstNat, secondNat]

/-- The checksum of a string combines those of its parts. -/
def Combines : Prop :=
  ∀ (whole first second : Memory) (addr firstAddr secondAddr length more : Nat),
    load whole addr (length + more) =
        load first firstAddr length ++ load second secondAddr more →
      computeIpChecksum whole addr (length + more) =
        (addIpChecksums (BitVec.ofNat 64 length)
          (BitVec.ofNat 64 (computeIpChecksum first firstAddr length))
          (BitVec.ofNat 64 (computeIpChecksum second secondAddr more))).toNat

/-- The three routines return the same below 64 KiB; one of them leaves an odd byte out. -/
def SameChecksums : Prop :=
  ∀ (memory : Memory) (addr length : Nat), length < 65536 →
    (ipchksum memory addr length).toNat = computeIpChecksum memory addr length ∧
      (2 ∣ length → (ipchcksum memory addr length).toNat = computeIpChecksum memory addr length)

/-- A string with its own checksum in a field that was zero has the checksum zero. -/
def ChecksItself : Prop :=
  ∀ (memory : Memory) (addr length field : Nat), 2 ∣ field → field + 2 ≤ length →
    load memory (addr + field) 2 = [0, 0] →
    (∃ index < length, memory (addr + index) ≠ 0) →
      computeIpChecksum (writeLE 2 memory (addr + field) (computeIpChecksum memory addr length))
        addr length = 0

theorem combines : Combines := by
  intro whole first second addr firstAddr secondAddr length more parts
  rw [computeIpChecksum_eq, computeIpChecksum_eq, computeIpChecksum_eq,
    toNat_addIpChecksums (fold_le _) (fold_le _), parts]
  by_cases odd : length % 2 = 1
  · rw [if_pos odd, fold_append_odd (by rwa [length_load])]
  · have even : 2 ∣ (load first firstAddr length).length := by
      rw [length_load]
      omega
    rw [if_neg odd, wordSum_append even, fold_fold_add, Nat.add_comm,
      Nat.add_comm _ (fold _), fold_fold_add]

theorem checksItself : ChecksItself := by
  intro memory addr length field even inside zeros ⟨index, below, nonzero⟩
  have parts : ∀ other : Memory, load other addr length =
      load other addr field ++ (load other (addr + field) 2 ++
        load other (addr + field + 2) (length - (field + 2))) := by
    intro other
    have whole : length = field + (2 + (length - (field + 2))) := by omega
    conv_lhs => rw [whole]
    rw [load_append, load_append]
  have evenField : 2 ∣ (load memory addr field).length := by rwa [length_load]
  have filled : wordSum (load memory addr length) ≠ 0 := by
    refine wordSum_ne_zero (List.mem_of_getElem? (getElem?_load below)) nonzero
  have bound := fold_le (wordSum (load memory addr length))
  rw [computeIpChecksum_eq, computeIpChecksum_eq, parts (writeLE _ _ _ _)]
  generalize checksum : 65535 - fold (wordSum (load memory addr length)) = value
  have stored : load (writeLE 2 memory (addr + field) value) (addr + field) 2 = encodeLE 2 value := by
    have self := load_store_self memory (addr + field) (encodeLE 2 value)
    rwa [length_encodeLE] at self
  have before : load (writeLE 2 memory (addr + field) value) addr field = load memory addr field :=
    load_store_of_disjoint (.inl le_rfl)
  have after : load (writeLE 2 memory (addr + field) value) (addr + field + 2)
      (length - (field + 2)) = load memory (addr + field + 2) (length - (field + 2)) :=
    load_store_of_disjoint (.inr (by rw [length_encodeLE]))
  rw [parts memory, zeros] at filled checksum
  have word : wordSum (encodeLE 2 value) = value := by
    simp only [encodeLE, wordSum, BitVec.toNat_ofNat]
    omega
  rw [stored, before, after, fold_wordSum_of_complement evenField (by decide)
    (by rw [length_encodeLE]) rfl filled (word.trans checksum.symm)]

/-- The checksums of parts combine, the three routines agree, and a stored checksum
checks itself. -/
theorem ipChecksum_algebra : Combines ∧ SameChecksums ∧ ChecksItself :=
  ⟨combines, fun _ _ _ small => ⟨ipchksum_eq_computeIpChecksum small,
    ipchcksum_eq_computeIpChecksum small⟩, checksItself⟩

end CorebootTable

end Coreboot
