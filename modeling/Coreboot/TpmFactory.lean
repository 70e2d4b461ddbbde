import Coreboot.ByteMemory
import Coreboot.CommandProgram
import Mathlib.Data.List.Induction

/-!
# Factory initialisation of a TPM

The firmware, kernel and recovery hash spaces live in the storage of a TPM.
-/

namespace Coreboot.TpmFactory

/-- A defined space of the storage, with what has been written to it. -/
structure Space where
  size : Nat
  contents : Option (List Byte)
deriving DecidableEq, Repr

/-- The storage, by index. -/
abbrev Tpm := Nat → Option Space

inductive Command where
  | startup (resume : Bool)
  | selfTest
  | clear
  | nvRead (index size : Nat)
  | nvWrite (index : Nat) (data : List Byte)
  | nvDefineSpace (index size : Nat)
deriving DecidableEq, Repr

def Command.isWrite : Command → Bool
  | .nvWrite _ _ => true
  | _ => false

structure Response where
  tpmCode : Nat
  buffer : List Byte
deriving DecidableEq, Repr

def tpm2RcNvDefined : Nat := 0x14c
def tpmRcInitialize : Nat := 0x100

/-- The code that `tlcl_read` takes for an undefined index. -/
def undefinedIndex : Nat := 0x28b

/-- What lies outside the sources: the code for a space that has not been
written, and the secure data of the verified boot library. -/
structure Platform where
  notWritten : Nat
  secdataSize : Nat
  secdataCreate : List Byte
  secdataCheck : List Byte → Bool
  /-- `CONFIG_VBOOT_HAS_REC_HASH_SPACE`. -/
  hasRecHashSpace : Bool
  fails : notWritten ≠ 0
  isDefined : notWritten ≠ undefinedIndex
  created : secdataCreate.length = secdataSize
  checked : secdataCheck secdataCreate = true

def Platform.reply (platform : Platform) (tpm : Tpm) : Command → Response
  | .startup _ | .selfTest | .clear => ⟨0, []⟩
  | .nvRead index size =>
    match tpm index with
    | none => ⟨undefinedIndex, []⟩
    | some ⟨_, none⟩ => ⟨platform.notWritten, []⟩
    | some ⟨_, some data⟩ => ⟨0, data.take size⟩
  | .nvWrite index _ =>
    match tpm index with
    | none => ⟨undefinedIndex, []⟩
    | some _ => ⟨0, []⟩
  | .nvDefineSpace index _ =>
    match tpm index with
    | none => ⟨0, []⟩
    | some _ => ⟨tpm2RcNvDefined, []⟩

/-- `TPM2_Clear` keeps the spaces of the platform. -/
def Platform.next (tpm : Tpm) : Command → Tpm
  | .startup _ | .selfTest | .clear | .nvRead _ _ => tpm
  | .nvWrite index data =>
    match tpm index with
    | none => tpm
    | some space =>
      Function.update tpm index (some ⟨space.size, some data⟩)
  | .nvDefineSpace index size =>
    match tpm index with
    | none => Function.update tpm index (some ⟨size, none⟩)
    | some _ => tpm

def Platform.device (platform : Platform) : Device Command Response Tpm where
  reply := platform.reply
  next := Platform.next

def tpmSuccess : Nat := 0
def tpmEBadindex : Nat := 0x2
def tpmEIoerror : Nat := 0x1f
def tpmEInternalInconsistency : Nat := 0x5001
def tpmECorruptedState : Nat := 0x5003
def tpmEResponseTooLarge : Nat := 0x5005
def tpmEWriteFailure : Nat := 0x5008
def tpmEReadEmpty : Nat := 0x5009
def tpmEReadFailure : Nat := 0x500a
def tpmENvDefined : Nat := 0x500b

abbrev Tlcl (α : Type) := Program Command Response α

open Program (request)

def tlclSendStartup (resume : Bool) : Tlcl Nat := do
  let response ← request (.startup resume)
  if response.tpmCode ≠ 0 ∧ response.tpmCode ≠ tpmRcInitialize then
    return tpmEIoerror
  return tpmSuccess

def tlclResume : Tlcl Nat := tlclSendStartup true

def tlclStartup : Tlcl Nat := tlclSendStartup false

def tlclForceClear : Tlcl Nat := do
  let response ← request .clear
  if response.tpmCode ≠ 0 then return tpmEIoerror
  return tpmSuccess

def tlclSelfTestFull : Tlcl Nat := do
  let _ ← request .selfTest
  return tpmSuccess

def tlclRead (index length : Nat) : Tlcl (Nat × List Byte) := do
  let response ← request (.nvRead index length)
  if response.tpmCode = 0 then
    if length > response.buffer.length then
      return (tpmEResponseTooLarge, [])
    if length < response.buffer.length then return (tpmEReadEmpty, [])
    return (tpmSuccess, response.buffer)
  if response.tpmCode = undefinedIndex then return (tpmEBadindex, [])
  return (tpmEReadFailure, [])

def tlclWrite (index : Nat) (data : List Byte) : Tlcl Nat := do
  let response ← request (.nvWrite index data)
  if response.tpmCode ≠ 0 then return tpmEWriteFailure
  return tpmSuccess

def tlclDefineSpace (index size : Nat) : Tlcl Nat := do
  let response ← request (.nvDefineSpace index size)
  if response.tpmCode = 0 then return tpmSuccess
  if response.tpmCode = tpm2RcNvDefined then return tpmENvDefined
  return tpmEInternalInconsistency

def firmwareNvIndex : Nat := 0x1007
def kernelNvIndex : Nat := 0x1008
def recHashNvIndex : Nat := 0x100b

def secdataKernel : List Byte :=
  [0x02, 0x4C, 0x57, 0x52, 0x47, 0x00, 0x00, 0x00, 0x00, 0x00, 0x00, 0x00, 0xE8]

def recHashData : List Byte := List.replicate 32 0

/-- `setup_tpm`: physical presence and the flags of a TPM2 are constants. -/
def setupTpm (s3Resume : Bool) : Tlcl Nat := do
  if s3Resume then
    let _ ← tlclResume
    return tpmSuccess
  let result ← tlclStartup
  if result ≠ tpmSuccess then return result
  return tpmSuccess

def safeWrite (index : Nat) (data : List Byte) : Tlcl Nat := tlclWrite index data

variable (platform : Platform)

def setFirmwareSpace (firmwareBlob : List Byte) : Tlcl Nat := do
  let result ← tlclDefineSpace firmwareNvIndex platform.secdataSize
  if result ≠ tpmSuccess then return result
  let result ← safeWrite firmwareNvIndex firmwareBlob
  if result ≠ tpmSuccess then return result
  return tpmSuccess

/-- A space that exists already is taken for initialised. -/
def setSpace (index : Nat) (data : List Byte) : Tlcl Nat := do
  let rv ← tlclDefineSpace index data.length
  if rv = tpmENvDefined then return tpmSuccess
  if rv ≠ tpmSuccess then return rv
  safeWrite index data

def setKernelSpace (kernelBlob : List Byte) : Tlcl Nat := setSpace kernelNvIndex kernelBlob

def setRecHashSpace (data : List Byte) : Tlcl Nat := setSpace recHashNvIndex data

def readSpaceFirmware : Nat → Tlcl Nat
  | 0 => return tpmECorruptedState
  | attempts + 1 => do
      let (result, secdata) ← tlclRead firmwareNvIndex platform.secdataSize
      if result ≠ tpmSuccess then return result
      if platform.secdataCheck secdata = true then return tpmSuccess
      readSpaceFirmware attempts

/-- `_factory_initialize_tpm`. -/
def initializeSpaces (secdata : List Byte) : Tlcl Nat := do
  let result ← tlclForceClear
  if result ≠ tpmSuccess then return result
  -- the firmware space must be defined last
  let result ← setKernelSpace secdataKernel
  if result ≠ tpmSuccess then return result
  if platform.hasRecHashSpace then
    let result ← setRecHashSpace recHashData
    if result ≠ tpmSuccess then return result
    setFirmwareSpace platform secdata
  else
    setFirmwareSpace platform secdata

def factoryInitializeTpm : Tlcl Nat := do
  let result ← tlclSelfTestFull
  if result ≠ tpmSuccess then return result
  let result ← initializeSpaces platform platform.secdataCreate
  if result ≠ tpmSuccess then return result
  return tpmSuccess

def antirollbackReadSpaceFirmware (s3Resume : Bool) : Tlcl Nat := do
  let rv ← setupTpm s3Resume
  if rv ≠ 0 then return rv
  let rv ← readSpaceFirmware platform 3
  if rv = tpmEBadindex then
    let result ← factoryInitializeTpm platform
    if result ≠ tpmSuccess then return result
    return tpmSuccess
  if rv ≠ tpmSuccess then return tpmECorruptedState
  return tpmSuccess

/-- A boot, and how many commands are sent before the power is lost. -/
structure Boot where
  s3Resume : Bool
  commands : Nat
deriving DecidableEq, Repr

def Boot.after (tpm : Tpm) (boot : Boot) : Tpm :=
  (antirollbackReadSpaceFirmware platform boot.s3Resume).interrupted
    platform.device tpm boot.commands

def afterBoots (tpm : Tpm) (boots : List Boot) : Tpm := boots.foldl (Boot.after platform) tpm

/-- The power is lost after a space has been defined, before it is written. -/
def Boot.CutBeforeWrite (tpm : Tpm) (boot : Boot) : Prop :=
  ∃ command,
    (antirollbackReadSpaceFirmware platform boot.s3Resume).upcoming
        platform.device tpm boot.commands = some command ∧
      command.isWrite = true

/-- The spaces with their initial contents, in the order of their definition. -/
def Platform.spaces : List (Nat × List Byte) :=
  (kernelNvIndex, secdataKernel) ::
    (if platform.hasRecHashSpace then [(recHashNvIndex, recHashData)] else []) ++
      [(firmwareNvIndex, platform.secdataCreate)]

/-- A space is defined and has its initial contents. -/
def Written (tpm : Tpm) (space : Nat × List Byte) : Prop :=
  tpm space.1 = some ⟨space.2.length, some space.2⟩

/-- An existing firmware space stands for all of the others, and a boot that is
not cut off succeeds and leaves all the spaces written. -/
structure Restartable (tpm : Tpm) : Prop where
  complete : tpm firmwareNvIndex ≠ none →
    ∀ space ∈ platform.spaces, space.1 ≠ firmwareNvIndex → Written tpm space
  succeeds : ∀ s3Resume,
    ((antirollbackReadSpaceFirmware platform s3Resume).run platform.device tpm).1 = tpmSuccess
  written : ∀ s3Resume, ∀ space ∈ platform.spaces,
    Written ((antirollbackReadSpaceFirmware platform s3Resume).run platform.device tpm).2 space

section

variable {platform} {condition : Tpm → Command → Prop} {tpm : Tpm}

variable {ends : Nat → Tpm → Prop} {index size other : Nat} {space : Space} {data : List Byte}
  {s3Resume : Bool}

theorem meets_returnOnFailure {first rest : Tlcl Nat}
    (meets : first.Meets platform.device condition (fun result middle =>
      (result ≠ tpmSuccess → ends result middle) ∧
        (result = tpmSuccess → rest.Meets platform.device condition ends middle)) tpm) :
    (first >>= fun result =>
      if result ≠ tpmSuccess then pure result else rest).Meets platform.device
        condition ends tpm := by
  rw [Program.meets_bind]
  refine meets.mono fun result middle follows => ?_
  by_cases failed : result ≠ tpmSuccess
  · rw [if_pos failed]
    exact follows.1 failed
  · rw [if_neg failed]
    exact follows.2 (not_not.mp failed)

theorem meets_setupTpm :
    (setupTpm s3Resume).Meets platform.device condition ends tpm ↔
      condition tpm (.startup s3Resume) ∧ ends tpmSuccess tpm := by
  cases s3Resume <;> rfl

theorem meets_tlclDefineSpace_fresh (fresh : tpm index = none) :
    (tlclDefineSpace index size).Meets platform.device condition ends tpm ↔
      condition tpm (.nvDefineSpace index size) ∧
        ends tpmSuccess (Function.update tpm index (some ⟨size, none⟩)) := by
  simp [tlclDefineSpace, Platform.device, Platform.reply, Platform.next, fresh]

theorem meets_tlclDefineSpace_defined (found : tpm index = some space) :
    (tlclDefineSpace index size).Meets platform.device condition ends tpm ↔
      condition tpm (.nvDefineSpace index size) ∧ ends tpmENvDefined tpm := by
  simp [tlclDefineSpace, Platform.device, Platform.reply, Platform.next, found, tpm2RcNvDefined]

theorem meets_tlclWrite (found : tpm index = some space) :
    (tlclWrite index data).Meets platform.device condition ends tpm ↔
      condition tpm (.nvWrite index data) ∧
        ends tpmSuccess (Function.update tpm index (some ⟨space.size, some data⟩)) := by
  simp [tlclWrite, Platform.device, Platform.reply, Platform.next, found]

theorem meets_tlclRead_undefined {length : Nat}
    {ends : Nat × List Byte → Tpm → Prop} (fresh : tpm index = none) :
    (tlclRead index length).Meets platform.device condition ends tpm ↔
      condition tpm (.nvRead index length) ∧ ends (tpmEBadindex, []) tpm := by
  simp [tlclRead, Platform.device, Platform.reply, Platform.next, fresh, undefinedIndex]

theorem meets_tlclRead_written {ends : Nat × List Byte → Tpm → Prop}
    (found : tpm index = some ⟨size, some data⟩) :
    (tlclRead index data.length).Meets platform.device condition ends tpm ↔
      condition tpm (.nvRead index data.length) ∧ ends (tpmSuccess, data) tpm := by
  simp [tlclRead, Platform.device, Platform.reply, Platform.next, found]

section

variable (found : tpm other = some space) {secdata : List Byte}
include found

theorem keeps_setSpace :
    (setSpace index data).Meets platform.device (fun _ _ => True)
      (fun _ after => after other = some space) tpm := by
  rw [setSpace, Program.meets_bind]
  cases here : tpm index with
  | none =>
    have different : other ≠ index := by
      rintro rfl
      rw [here] at found
      cases found
    rw [meets_tlclDefineSpace_fresh here]
    refine ⟨trivial, ?_⟩
    rw [if_neg (by decide), if_neg (not_not_intro rfl), safeWrite,
      meets_tlclWrite (Function.update_self index _ tpm)]
    refine ⟨trivial, ?_⟩
    rwa [Function.update_of_ne different, Function.update_of_ne different]
  | some existing =>
    rw [meets_tlclDefineSpace_defined here, if_pos rfl]
    exact ⟨trivial, found⟩

theorem keeps_setFirmwareSpace :
    (setFirmwareSpace platform secdata).Meets platform.device
      (fun _ _ => True) (fun _ after => after other = some space) tpm := by
  apply meets_returnOnFailure
  cases here : tpm firmwareNvIndex with
  | none =>
    have different : other ≠ firmwareNvIndex := by
      rintro rfl
      rw [here] at found
      cases found
    rw [meets_tlclDefineSpace_fresh here]
    refine ⟨trivial, fun failed => absurd rfl failed, fun _ => ?_⟩
    apply meets_returnOnFailure
    rw [safeWrite, meets_tlclWrite (Function.update_self firmwareNvIndex _ tpm),
      Function.update_idem]
    have kept : Function.update tpm firmwareNvIndex
        (some ⟨platform.secdataSize, some secdata⟩) other = some space := by
      rwa [Function.update_of_ne different]
    exact ⟨trivial, fun _ => kept, fun _ => kept⟩
  | some existing =>
    rw [meets_tlclDefineSpace_defined here]
    refine ⟨trivial, fun _ => found, fun fresh => ?_⟩
    cases fresh

theorem keeps_initializeSpaces :
    (initializeSpaces platform secdata).Meets platform.device
      (fun _ _ => True) (fun _ after => after other = some space) tpm := by
  apply meets_returnOnFailure
  refine ⟨trivial, fun _ => found, fun _ => ?_⟩
  apply meets_returnOnFailure
  refine (keeps_setSpace found).mono fun result middle found =>
    ⟨fun _ => found, fun _ => ?_⟩
  split_ifs with hasRecHashSpace
  · apply meets_returnOnFailure
    refine (keeps_setSpace found).mono fun result middle found =>
      ⟨fun _ => found, fun _ => ?_⟩
    exact keeps_setFirmwareSpace found
  · exact keeps_setFirmwareSpace found

omit found in
theorem keeps_readSpaceFirmware (attempts : Nat) :
    (readSpaceFirmware platform attempts).Meets platform.device
      (fun _ _ => True) (fun _ after => after = tpm) tpm := by
  induction attempts with
  | zero => rfl
  | succ attempts ih =>
    have reads : (tlclRead firmwareNvIndex platform.secdataSize).Meets
        platform.device (fun _ _ => True) (fun _ after => after = tpm) tpm := by
      rw [tlclRead, Program.meets_bind, Program.meets_request]
      refine ⟨trivial, ?_⟩
      split_ifs <;> rfl
    rw [readSpaceFirmware, Program.meets_bind]
    refine reads.mono ?_
    rintro ⟨result, secdata⟩ middle rfl
    dsimp only
    split_ifs
    · rfl
    · rfl
    · exact ih

theorem keeps_boot :
    (antirollbackReadSpaceFirmware platform s3Resume).Meets platform.device
      (fun _ _ => True) (fun _ after => after other = some space) tpm := by
  apply meets_returnOnFailure
  rw [meets_setupTpm]
  refine ⟨trivial, fun _ => found, fun _ => ?_⟩
  rw [Program.meets_bind]
  refine (keeps_readSpaceFirmware 3).mono ?_
  rintro result middle rfl
  split_ifs
  · apply meets_returnOnFailure
    apply meets_returnOnFailure
    refine ⟨trivial, fun failed => absurd rfl failed, fun _ => ?_⟩
    apply meets_returnOnFailure
    exact (keeps_initializeSpaces found).mono fun _ _ found =>
      ⟨fun _ => ⟨fun _ => found, fun _ => found⟩, fun _ => ⟨fun _ => found, fun _ => found⟩⟩
  · exact found
  · exact found

end

variable (platform) in
/-- Every space is undefined or written, and the firmware space stands for all
of them. -/
structure Sound (tpm : Tpm) : Prop where
  spaces : ∀ space ∈ platform.spaces, tpm space.1 = none ∨ Written tpm space
  last : tpm firmwareNvIndex ≠ none → ∀ space ∈ platform.spaces, Written tpm space

variable (platform) in
/-- A space is defined and has not been written. -/
def Unwritten (tpm : Tpm) : Prop :=
  ∃ space ∈ platform.spaces, ∃ size, tpm space.1 = some ⟨size, none⟩

variable (platform) in
/-- The invariant holds in front of every command that is not a write. -/
def Allows (tpm : Tpm) (command : Command) : Prop :=
  if command.isWrite = true then Unwritten platform tpm
  else Sound platform tpm

variable (platform) in
/-- All the spaces have their initial contents. -/
def Complete (tpm : Tpm) : Prop := ∀ space ∈ platform.spaces, Written tpm space

theorem Complete.sound (complete : Complete platform tpm) : Sound platform tpm where
  spaces := fun space member => .inr (complete space member)
  last := fun _ => complete

theorem Sound.allows (sound : Sound platform tpm) {command : Command}
    (reads : command.isWrite = false) : Allows platform tpm command := by
  rw [Allows, if_neg (by rw [reads]; exact Bool.false_ne_true)]
  exact sound

theorem firmware_ne_kernel : firmwareNvIndex ≠ kernelNvIndex := by decide

theorem firmware_ne_recHash : firmwareNvIndex ≠ recHashNvIndex := by decide

theorem kernel_mem_spaces : (kernelNvIndex, secdataKernel) ∈ platform.spaces := .head _

theorem firmware_mem_spaces : (firmwareNvIndex, platform.secdataCreate) ∈ platform.spaces :=
  List.mem_append_right _ (.head _)

theorem recHash_mem_spaces (has : platform.hasRecHashSpace = true) :
    (recHashNvIndex, recHashData) ∈ platform.spaces := by
  rw [Platform.spaces, if_pos has]
  exact List.mem_cons_of_mem _ (.head _)

theorem forall_spaces {property : Nat × List Byte → Prop}
    (kernel : property (kernelNvIndex, secdataKernel))
    (recHash : platform.hasRecHashSpace = true → property (recHashNvIndex, recHashData))
    (firmware : property (firmwareNvIndex, platform.secdataCreate)) :
    ∀ space ∈ platform.spaces, property space := by
  intro space member
  rw [Platform.spaces, List.cons_append, List.mem_cons, List.mem_append,
    List.mem_singleton] at member
  rcases member with rfl | member | rfl
  · exact kernel
  · split_ifs at member with has
    · rw [List.mem_singleton.mp member]
      exact recHash has
    · cases member
  · exact firmware

theorem written_update_of_ne {space : Nat × List Byte} {value : Option Space}
    (other : space.1 ≠ index) :
    Written (Function.update tpm index value) space ↔ Written tpm space := by
  rw [Written, Function.update_of_ne other, Written]

section

variable (sound : Sound platform tpm)
include sound

section

variable (absent : tpm firmwareNvIndex = none)
include absent

theorem Sound.setSpace (member : (index, data) ∈ platform.spaces) (early : index ≠ firmwareNvIndex)
    (only : ∀ space ∈ platform.spaces, space.1 = index → space = (index, data)) :
    (setSpace index data).Meets platform.device (Allows platform)
      (fun result after => result = tpmSuccess ∧ Sound platform after ∧
        after firmwareNvIndex = none ∧ Written after (index, data) ∧
          ∀ space, Written tpm space → Written after space) tpm := by
  rw [TpmFactory.setSpace, Program.meets_bind]
  cases here : tpm index with
  | none =>
    rw [meets_tlclDefineSpace_fresh here]
    refine ⟨sound.allows rfl, ?_⟩
    rw [if_neg (by decide), if_neg (not_not_intro rfl), safeWrite,
      meets_tlclWrite (Function.update_self index _ tpm),
      Function.update_idem]
    have fresh : ∀ space, Written tpm space → space.1 ≠ index := by
      rintro space written rfl
      rw [Written, here] at written
      cases written
    have absent' : Function.update tpm index (some ⟨data.length, some data⟩)
        firmwareNvIndex = none := by
      rwa [Function.update_of_ne early.symm]
    refine ⟨⟨(index, data), member, _, Function.update_self index _ tpm⟩,
      rfl, ⟨fun space inside => ?_, fun exists' => absurd absent' exists'⟩,
      absent', Function.update_self index _ tpm, fun space written => ?_⟩
    · by_cases same : space.1 = index
      · rw [only space inside same]
        exact .inr (Function.update_self index _ tpm)
      · rw [Function.update_of_ne same, written_update_of_ne same]
        exact sound.spaces space inside
    · rw [written_update_of_ne (fresh space written)]
      exact written
  | some existing =>
    have written : Written tpm (index, data) := by
      refine (sound.spaces _ member).resolve_left ?_
      rw [here]
      exact Option.some_ne_none existing
    rw [meets_tlclDefineSpace_defined here, if_pos rfl]
    exact ⟨sound.allows rfl, rfl, sound, absent, written, fun _ => id⟩

theorem Sound.setFirmwareSpace (kernel : Written tpm (kernelNvIndex, secdataKernel))
    (recHash : platform.hasRecHashSpace = true → Written tpm (recHashNvIndex, recHashData)) :
    (setFirmwareSpace platform platform.secdataCreate).Meets platform.device
      (Allows platform)
      (fun result after => result = tpmSuccess ∧ Complete platform after)
      tpm := by
  rw [TpmFactory.setFirmwareSpace, Program.meets_bind, meets_tlclDefineSpace_fresh absent]
  refine ⟨sound.allows rfl, ?_⟩
  rw [if_neg (not_not_intro rfl), safeWrite, Program.meets_bind,
    meets_tlclWrite (Function.update_self firmwareNvIndex _ tpm),
    Function.update_idem, if_neg (not_not_intro rfl)]
  refine ⟨⟨_, firmware_mem_spaces, _, Function.update_self firmwareNvIndex _ tpm⟩, rfl, ?_⟩
  refine forall_spaces ?_ (fun has => ?_) ?_
  · exact (written_update_of_ne (by decide)).mpr kernel
  · exact (written_update_of_ne (by decide)).mpr (recHash has)
  · rw [Written, Function.update_self, platform.created]

theorem Sound.initializeSpaces :
    (initializeSpaces platform platform.secdataCreate).Meets platform.device
      (Allows platform)
      (fun result after => result = tpmSuccess ∧ Complete platform after)
      tpm := by
  apply meets_returnOnFailure
  refine ⟨sound.allows rfl, fun failed => absurd rfl failed, fun _ => ?_⟩
  apply meets_returnOnFailure
  refine (sound.setSpace absent kernel_mem_spaces (by decide) ?_).mono ?_
  · exact forall_spaces (fun _ => rfl) (fun _ same => absurd same (by decide))
      fun same => absurd same firmware_ne_kernel
  rintro result middle ⟨rfl, sound, absent, kernel, -⟩
  refine ⟨fun failed => absurd rfl failed, fun _ => ?_⟩
  split_ifs with has
  · apply meets_returnOnFailure
    refine (sound.setSpace absent (recHash_mem_spaces has) (by decide) ?_).mono ?_
    · exact forall_spaces (fun same => absurd same (by decide))
        (fun _ _ => rfl)
        fun same => absurd same firmware_ne_recHash
    rintro result last ⟨rfl, sound, absent, recHash, kept⟩
    exact ⟨fun failed => absurd rfl failed, fun _ =>
      sound.setFirmwareSpace absent (kept _ kernel) fun _ => recHash⟩
  · exact sound.setFirmwareSpace absent kernel fun has' => absurd has' has

end

theorem Sound.readSpaceFirmware (attempts : Nat) :
    (readSpaceFirmware platform (attempts + 1)).Meets platform.device
      (Allows platform)
      (fun result after => after = tpm ∧
        ((result = tpmEBadindex ∧ tpm firmwareNvIndex = none) ∨
          (result = tpmSuccess ∧ Complete platform tpm))) tpm := by
  rw [TpmFactory.readSpaceFirmware, Program.meets_bind]
  cases here : tpm firmwareNvIndex with
  | none =>
    rw [meets_tlclRead_undefined here]
    exact ⟨sound.allows rfl, rfl, .inl ⟨rfl, rfl⟩⟩
  | some space =>
    have complete : Complete platform tpm := by
      apply sound.last
      rw [here]
      exact Option.some_ne_none space
    rw [← platform.created, meets_tlclRead_written (complete _ firmware_mem_spaces)]
    refine ⟨sound.allows rfl, ?_⟩
    dsimp only
    rw [if_neg (not_not_intro rfl), if_pos platform.checked]
    exact ⟨rfl, .inr ⟨rfl, complete⟩⟩

/-- A boot that starts with the invariant keeps it up to a write, and leaves
everything written. -/
theorem Sound.boot (s3Resume : Bool) :
    (antirollbackReadSpaceFirmware platform s3Resume).Meets platform.device
      (Allows platform)
      (fun result after => result = tpmSuccess ∧ Complete platform after)
      tpm := by
  apply meets_returnOnFailure
  rw [meets_setupTpm]
  refine ⟨sound.allows rfl, fun failed => absurd rfl failed, fun _ => ?_⟩
  rw [Program.meets_bind]
  refine (sound.readSpaceFirmware 2).mono ?_
  rintro result middle ⟨rfl, ⟨rfl, absent⟩ | ⟨rfl, complete⟩⟩
  · rw [if_pos rfl]
    apply meets_returnOnFailure
    apply meets_returnOnFailure
    refine ⟨sound.allows rfl, fun failed => absurd rfl failed, fun _ => ?_⟩
    apply meets_returnOnFailure
    refine (sound.initializeSpaces absent).mono ?_
    rintro result last ⟨rfl, complete⟩
    exact ⟨fun failed => absurd rfl failed, fun _ =>
      ⟨fun failed => absurd rfl failed, fun _ => ⟨rfl, complete⟩⟩⟩
  · rw [if_neg (by decide), if_neg (not_not_intro rfl)]
    exact ⟨rfl, complete⟩

end

section

variable (sound : Sound platform tpm) {boot : Boot} {boots : List Boot}
include sound

theorem Sound.restartable : Restartable platform tpm where
  complete := fun present space member _ => sound.last present space member
  succeeds := fun s3Resume => (sound.boot s3Resume).run.1
  written := fun s3Resume => (sound.boot s3Resume).run.2

omit sound in
theorem Unwritten.not_restartable (unwritten : Unwritten platform tpm) :
    ¬ Restartable platform tpm := by
  intro restartable
  obtain ⟨space, member, size, found⟩ := unwritten
  have written := restartable.written false space member
  rw [Written, (keeps_boot found).run] at written
  cases written

theorem Sound.after (whole : ¬ boot.CutBeforeWrite platform tpm) :
    Sound platform (boot.after platform tpm) := by
  rw [Boot.after]
  cases stops : (antirollbackReadSpaceFirmware platform
      boot.s3Resume).upcoming platform.device tpm boot.commands with
  | none =>
    rw [Program.interrupted_of_upcoming_none stops]
    exact (sound.boot boot.s3Resume).run.2.sound
  | some command =>
    have allowed := (sound.boot boot.s3Resume).interrupted stops
    rwa [Allows, if_neg fun writes => whole ⟨command, stops, writes⟩] at allowed

theorem Sound.unwritten_after (cut : boot.CutBeforeWrite platform tpm) :
    Unwritten platform (boot.after platform tpm) := by
  obtain ⟨command, stops, writes⟩ := cut
  have allowed := (sound.boot boot.s3Resume).interrupted stops
  rwa [Allows, if_pos writes] at allowed

omit sound in
theorem afterBoots_append (tpm : Tpm) (boots : List Boot) (boot : Boot) :
    afterBoots platform tpm (boots ++ [boot]) =
      boot.after platform (afterBoots platform tpm boots) := by
  rw [afterBoots, List.foldl_append]
  rfl

omit sound in
theorem Sound.afterBoots (sound : Sound platform tpm)
    (whole : ∀ before boot, before ++ [boot] <+: boots →
      ¬ boot.CutBeforeWrite platform (afterBoots platform tpm before)) :
    Sound platform (afterBoots platform tpm boots) := by
  induction boots using List.reverseRecOn with
  | nil => exact sound
  | append_singleton boots boot ih =>
    rw [afterBoots_append]
    have earlier := ih fun before other initial =>
      whole before other (initial.trans (List.prefix_append _ _))
    exact earlier.after (whole boots boot List.prefix_rfl)

theorem Sound.whole (restartable : Restartable platform (boot.after platform tpm)) :
    ¬ boot.CutBeforeWrite platform tpm :=
  fun cut => (sound.unwritten_after cut).not_restartable restartable

theorem Sound.of_restartable (restartable : ∀ before, before <+: boots →
      Restartable platform (TpmFactory.afterBoots platform tpm before)) :
    Sound platform (TpmFactory.afterBoots platform tpm boots) := by
  induction boots using List.reverseRecOn with
  | nil => exact sound
  | append_singleton boots boot ih =>
    have earlier := ih fun before initial =>
      restartable before (initial.trans (List.prefix_append _ _))
    have last := restartable _ List.prefix_rfl
    rw [afterBoots_append] at last ⊢
    exact earlier.after (earlier.whole last)

end

end

/-- From a TPM without the spaces, the storage is restartable after every one of
some boots if and only if no boot loses the power between the definition of a
space and its write. -/
theorem restartable_iff (platform : Platform) (tpm : Tpm) (boots : List Boot)
    (blank : ∀ space ∈ platform.spaces, tpm space.1 = none) :
    (∀ before, before <+: boots → Restartable platform (afterBoots platform tpm before)) ↔
      ∀ before boot, before ++ [boot] <+: boots →
        ¬ boot.CutBeforeWrite platform (afterBoots platform tpm before) := by
  have sound : Sound platform tpm :=
    ⟨fun space member => .inl (blank space member),
      fun present => absurd (blank _ firmware_mem_spaces) present⟩
  constructor
  · intro restartable before boot initial
    have earlier := sound.of_restartable fun first inside => restartable first
      (inside.trans ((List.prefix_append _ _).trans initial))
    have last := restartable _ initial
    rw [afterBoots_append] at last
    exact earlier.whole last
  · intro whole before initial
    exact (sound.afterBoots fun first boot inside =>
      whole first boot (inside.trans initial)).restartable

def plainPlatform : Platform where
  notWritten := 0x14a
  secdataSize := 10
  secdataCreate := [0x02, 0, 0, 0, 0, 0, 0, 0, 0, 0x75]
  secdataCheck := fun secdata => secdata = [0x02, 0, 0, 0, 0, 0, 0, 0, 0, 0x75]
  hasRecHashSpace := false
  fails := by decide
  isDefined := by decide
  created := rfl
  checked := by decide

/-- The power is lost before the kernel space is defined, and before the
firmware space is defined. -/
def wholeSteps : List Boot := [⟨false, 4⟩, ⟨false, 6⟩]

theorem restartable_wholeSteps :
    Restartable plainPlatform (afterBoots plainPlatform (fun _ => none) wholeSteps) := by
  refine (restartable_iff plainPlatform (fun _ => none) wholeSteps
    fun _ _ => rfl).mpr (fun before boot initial => ?_) wholeSteps List.prefix_rfl
  rintro ⟨command, stops, writes⟩
  have reads : ((antirollbackReadSpaceFirmware plainPlatform
      boot.s3Resume).upcoming plainPlatform.device
        (afterBoots plainPlatform (fun _ => none) before)
          boot.commands).map Command.isWrite = some false := by
    rcases before with _ | ⟨first, _ | ⟨second, rest⟩⟩
    · obtain rfl : boot = ⟨false, 4⟩ := by simpa [wholeSteps] using initial
      rfl
    · obtain ⟨rfl, rfl⟩ : first = ⟨false, 4⟩ ∧ boot = ⟨false, 6⟩ := by
        simpa [wholeSteps] using initial
      rfl
    · simp [wholeSteps] at initial
  rw [stops, Option.map_some, writes] at reads
  exact Bool.noConfusion (Option.some.inj reads)

/-- The power is lost between the definition and the write of the kernel
space. -/
def cutKernel : List Boot := [⟨false, 5⟩]

theorem not_restartable_cutKernel :
    ¬ ∀ (platform : Platform) (tpm : Tpm) (boots : List Boot),
      (∀ space ∈ platform.spaces, tpm space.1 = none) →
        ∀ before, before <+: boots → Restartable platform (afterBoots platform tpm before) := by
  intro restartable
  have after := restartable plainPlatform (fun _ => none) cutKernel
    (fun _ _ => rfl) cutKernel List.prefix_rfl
  have written := after.written false _ kernel_mem_spaces
  exact absurd (Option.some.inj written) (by decide)

end Coreboot.TpmFactory
