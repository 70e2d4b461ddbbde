import Coreboot.Ddr3

/-!
# The fields of a memory profile

The parameters of a profile have bits of their own, apart from the supported latencies: these
are read from the bits of three other parameters.
-/

namespace Coreboot.Ddr3

inductive Parameter
  | voltage | tCK | tAA | casSupported | tWR | tRCD | tRRD | tRP | tRAS | tRC | tRFC | tWTR
  | tRTP | tFAW
deriving DecidableEq

def Parameter.value : Parameter → DimmAttr → Nat
  | voltage, dimm => dimm.voltage.toNat
  | tCK, dimm => dimm.tCK.toNat
  | tAA, dimm => dimm.tAA.toNat
  | casSupported, dimm => dimm.casSupported.toNat
  | tWR, dimm => dimm.tWR.toNat
  | tRCD, dimm => dimm.tRCD.toNat
  | tRRD, dimm => dimm.tRRD.toNat
  | tRP, dimm => dimm.tRP.toNat
  | tRAS, dimm => dimm.tRAS.toNat
  | tRC, dimm => dimm.tRC.toNat
  | tRFC, dimm => dimm.tRFC.toNat
  | tWTR, dimm => dimm.tWTR.toNat
  | tRTP, dimm => dimm.tRTP.toNat
  | tFAW, dimm => dimm.tFAW.toNat

/-- The parameter that a bit of a byte of the profile belongs to. The latencies may have all
bits that no other parameter has. -/
def owner : Nat → Nat → Parameter
  | 0, bit => if bit < 7 then .voltage else .casSupported
  | 1, _ => .tCK
  | 2, _ => .tAA
  | 6, _ => .tRP
  | 7, _ => .tRCD
  | 8, _ => .tWR
  | 9, bit => if bit < 4 then .tRAS else .tRC
  | 10, _ => .tRAS
  | 11, _ => .tRC
  | 14, _ => .tRFC
  | 15, _ => .tRFC
  | 16, _ => .tRTP
  | 17, _ => .tRRD
  | 18, bit => if bit < 4 then .tFAW else .casSupported
  | 19, _ => .tFAW
  | 20, _ => .tWTR
  | _, _ => .casSupported

/-- The bits of a parameter are the same in both images. -/
def Agree (profile : XmpProfile) (first second : Spd) (parameter : Parameter) : Prop :=
  ∀ offset < 35, ∀ bit < 8, owner offset bit = parameter →
    (first (profile.base + offset)).getLsbD bit = (second (profile.base + offset)).getLsbD bit

/-- Every parameter is read from its own bits. -/
def Independent (profile : XmpProfile) (first second : Spd) (dimm dimm' : DimmAttr) : Prop :=
  ∀ parameter, Agree profile first second parameter → parameter.value dimm = parameter.value dimm'

variable {profile : XmpProfile} {first second : Spd} {parameter : Parameter} {offset : Nat}
  {dimm dimm' decoded decoded' : DimmAttr} {mtb : BitVec 32}

section

variable (agree : Agree profile first second parameter)
include agree

theorem Agree.masked (mask : Byte) (inside : offset < 35)
    (owned : ∀ bit < 8, mask.getLsbD bit = true → owner offset bit = parameter) :
    first (profile.base + offset) &&& mask = second (profile.base + offset) &&& mask := by
  refine BitVec.eq_of_getLsbD_eq fun bit below => ?_
  rw [BitVec.getLsbD_and, BitVec.getLsbD_and]
  cases on : mask.getLsbD bit with
  | false => rw [Bool.and_false, Bool.and_false]
  | true => rw [agree offset inside bit below (owned bit below on)]

theorem Agree.byte (inside : offset < 35) (owned : ∀ bit < 8, owner offset bit = parameter) :
    first (profile.base + offset) = second (profile.base + offset) :=
  BitVec.eq_of_getLsbD_eq fun bit below => agree offset inside bit below (owned bit below)

theorem Agree.value_eq (other : parameter ≠ .casSupported) :
    parameter.value (dimm.withProfile mtb fun offset => first (profile.base + offset)) =
      parameter.value (dimm'.withProfile mtb fun offset => second (profile.base + offset)) := by
  have byte (offset : Nat) := @Agree.byte profile first second parameter offset agree
  have one (offset : Nat) (inside) (owned) :=
    congrArg (fun byte => (units mtb byte).toNat) (byte offset inside owned)
  have wide (offset : Nat) {high high' : Byte} (same : high = high') (inside) (owned) :=
    congrArg₂ (fun high low => (wideUnits mtb high low).toNat) same (byte offset inside owned)
  cases parameter with
  | casSupported => exact absurd rfl other
  | voltage =>
    have same := agree.masked 0x7f (by decide : 0 < 35) (by decide)
    have masked (byte : Byte) :
        (byte &&& 1).setWidth 16 * 50 + ((byte >>> 1) &&& 0xf).setWidth 16 * 100 +
          ((byte >>> 5) &&& 0x3).setWidth 16 * (1000 : BitVec 16) =
        ((byte &&& 0x7f) &&& 1).setWidth 16 * 50 +
          (((byte &&& 0x7f) >>> 1) &&& 0xf).setWidth 16 * 100 +
          (((byte &&& 0x7f) >>> 5) &&& 0x3).setWidth 16 * 1000 := by
      simp [BitVec.and_assoc, BitVec.ushiftRight_and_distrib]
    exact congrArg BitVec.toNat ((masked _).trans (same ▸ (masked _).symm))
  | tCK => exact one 1 (by decide) (by decide)
  | tAA => exact one 2 (by decide) (by decide)
  | tWR => exact one 8 (by decide) (by decide)
  | tRCD => exact one 7 (by decide) (by decide)
  | tRRD => exact one 17 (by decide) (by decide)
  | tRP => exact one 6 (by decide) (by decide)
  | tWTR => exact one 20 (by decide) (by decide)
  | tRTP => exact one 16 (by decide) (by decide)
  | tRAS =>
    have high := agree.masked 0x0f (by decide : 9 < 35) (by decide)
    exact wide 10 high (by decide) (by decide)
  | tRC =>
    have high := agree.masked 0xf0 (by decide : 9 < 35) (by decide)
    exact wide 11 (congrArg (fun byte : Byte => byte >>> 4) high) (by decide) (by decide)
  | tRFC => exact wide 14 (byte 15 (by decide) (by decide)) (by decide) (by decide)
  | tFAW =>
    have high := agree.masked 0x0f (by decide : 18 < 35) (by decide)
    exact wide 19 high (by decide) (by decide)

end

theorem casSupported_eq_iff {high low high' low' : Byte} :
    (high.setWidth 16 <<< 8) + low.setWidth 16 =
      ((high'.setWidth 16 <<< 8) + low'.setWidth 16 : BitVec 16) ↔ low = low' ∧ high = high' := by
  constructor
  · intro same
    bv_omega
  · rintro ⟨rfl, rfl⟩
    rfl

theorem value_of_decoded {spd : Spd}
    (ran : spdXmpDecodeDdr3 dimm spd profile = some (.ok, decoded)) :
    ∃ mtb, ∃ before : DimmAttr, mediumTimeBase (spd (180 + 2 * profile.enable))
        (spd (181 + 2 * profile.enable)) = some mtb ∧
      ∀ parameter : Parameter, parameter.value decoded =
        parameter.value (before.withProfile mtb fun offset => spd (profile.base + offset)) := by
  obtain ⟨⟨status, before⟩, -, rest⟩ := Option.bind_eq_some_iff.mp ran
  split_ifs at rest with failed invalid
  · obtain ⟨rfl, -⟩ := Prod.mk.inj (Option.some.inj rest)
    exact absurd rfl failed
  · obtain ⟨impossible, -⟩ := Prod.mk.inj (Option.some.inj rest)
    cases impossible
  · obtain ⟨mtb, base, result⟩ := Option.map_eq_some_iff.mp rest
    obtain ⟨-, rfl⟩ := Prod.mk.inj result
    refine ⟨mtb, before, base, fun parameter => ?_⟩
    cases parameter <;> rfl

section Decoded

variable (same : ∀ i, i < profile.base ∨ profile.base + 35 ≤ i → first i = second i)
  (ran : spdXmpDecodeDdr3 dimm first profile = some (.ok, decoded))
  (ran' : spdXmpDecodeDdr3 dimm' second profile = some (.ok, decoded'))
include same ran ran'

theorem Agree.decoded_eq (agree : Agree profile first second parameter)
    (other : parameter ≠ .casSupported) : parameter.value decoded = parameter.value decoded' := by
  obtain ⟨mtb, before, base, values⟩ := value_of_decoded ran
  obtain ⟨mtb', before', base', values'⟩ := value_of_decoded ran'
  have low : 181 + 2 * profile.enable < profile.base := by cases profile <;> decide
  rw [same _ (.inl (by omega)), same _ (.inl low), base'] at base
  cases base
  rw [values, values']
  exact agree.value_eq other

omit same in
theorem latencies_eq_iff :
    Parameter.casSupported.value decoded = Parameter.casSupported.value decoded' ↔
      first (profile.base + 8) = second (profile.base + 8) ∧
        first (profile.base + 9) = second (profile.base + 9) := by
  obtain ⟨_, _, -, values⟩ := value_of_decoded ran
  obtain ⟨_, _, -, values'⟩ := value_of_decoded ran'
  rw [values, values', ← casSupported_eq_iff]
  exact BitVec.toNat_inj

/-- A change of a profile changes other parameters exactly if it changes the bytes of the write
recovery or of the active times, and no bit is changed that the latencies could have. -/
theorem independent_iff : Independent profile first second decoded decoded' ↔
    (first (profile.base + 8) = second (profile.base + 8) ∧
      first (profile.base + 9) = second (profile.base + 9)) ∨
    ¬ Agree profile first second .casSupported := by
  rw [← latencies_eq_iff ran ran']
  constructor
  · intro independent
    exact or_iff_not_imp_right.mpr fun agree => independent _ (not_not.mp agree)
  · intro either parameter agree
    by_cases isCas : parameter = .casSupported
    · subst isCas
      exact either.resolve_right (not_not_intro agree)
    · exact Agree.decoded_eq same ran ran' agree isCas

end Decoded

/-- A module with a first profile of these bytes. -/
def moduleSpd (profile : Nat → Byte) (index : Nat) : Byte :=
  if 185 ≤ index then profile (index - 185)
  else
    match index with
    | 0 => 109
    | 1 => 189
    | 2 => 0x0b
    | 11 => 1
    | 12 => 0x10
    | 13 => 0x21
    | 176 => 0x0c
    | 177 => 0x4a
    | 178 => 1
    | 181 => 1
    | _ => 0

theorem foldl_crcByte_zeros (count : Nat) :
    (List.replicate count (0 : Byte)).foldl crcByte 0 = 0 := by
  induction count with
  | zero => rfl
  | succ count ih =>
    have zero : crcByte 0 0 = 0 := by decide
    rw [List.replicate_succ, List.foldl_cons, zero, ih]

theorem crc_moduleSpd (profile : Nat → Byte) : spdDdr3CalcCrc (moduleSpd profile) = 0 := by
  have bytes : ByteMemory.load (moduleSpd profile) 0 126 =
      [109, 189, 0x0b] ++ (List.replicate 8 0 ++ ([1, 0x10, 0x21] ++ List.replicate 112 0)) := rfl
  have first : [109, 189, 0x0b].foldl crcByte 0 = 0 := by decide +kernel
  have second : [1, 0x10, 0x21].foldl crcByte 0 = 0 := by decide +kernel
  rw [spdDdr3CalcCrc, show moduleSpd profile 0 = 109 from rfl, if_neg (by decide), bytes, crc16,
    List.foldl_append, first, List.foldl_append, foldl_crcByte_zeros, List.foldl_append, second,
    foldl_crcByte_zeros]

theorem decodes_moduleSpd (profile : Nat → Byte) : ∃ decoded,
    spdXmpDecodeDdr3 default (moduleSpd profile) .profile1 = some (.ok, decoded) := by
  unfold spdXmpDecodeDdr3 spdDecodeDdr3 status
  simp [crc_moduleSpd, moduleSpd, mediumTimeBase, spdMemoryTypeSdramDdr3, XmpProfile.enable, width,
    field]

def oneByte (offset : Nat) (value : Byte) : Spd :=
  moduleSpd fun i => if i = offset then value else 0

theorem independent_iff_cycleTime : ∃ decoded decoded',
    spdXmpDecodeDdr3 default (oneByte 1 0) .profile1 = some (.ok, decoded) ∧
    spdXmpDecodeDdr3 default (oneByte 1 9) .profile1 = some (.ok, decoded') ∧
    Independent .profile1 (oneByte 1 0) (oneByte 1 9) decoded decoded' := by
  obtain ⟨decoded, ran⟩ := decodes_moduleSpd fun i => if i = 1 then 0 else 0
  obtain ⟨decoded', ran'⟩ := decodes_moduleSpd fun i => if i = 1 then 9 else 0
  refine ⟨decoded, decoded', ran, ran', (independent_iff ?_ ran ran').mpr (.inl (by decide))⟩
  intro i outside
  have other : ¬ i - 185 = 1 := by
    change i < 185 ∨ 185 + 35 ≤ i at outside
    omega
  unfold moduleSpd
  simp only [if_neg other]

/-- Another write recovery time gives other latencies. -/
theorem not_independent_writeRecovery : ∃ decoded decoded',
    spdXmpDecodeDdr3 default (oneByte 8 0) .profile1 = some (.ok, decoded) ∧
    spdXmpDecodeDdr3 default (oneByte 8 9) .profile1 = some (.ok, decoded') ∧
    ¬ Independent .profile1 (oneByte 8 0) (oneByte 8 9) decoded decoded' := by
  obtain ⟨decoded, ran⟩ := decodes_moduleSpd fun i => if i = 8 then 0 else 0
  obtain ⟨decoded', ran'⟩ := decodes_moduleSpd fun i => if i = 8 then 9 else 0
  refine ⟨decoded, decoded', ran, ran', fun independent => ?_⟩
  have agree := independent .casSupported (by rw [Agree]; decide)
  exact absurd ((latencies_eq_iff ran ran').mp agree) (by decide)

end Coreboot.Ddr3
