import Coreboot.ByteMemory

/-!
# Writing to SST flash chips

A leading byte is programmed alone; behind it one writer programs words at an address that the
chip increments, the other one pages.
-/

namespace Coreboot.SstFlash

open ByteMemory

structure Chip where
  bytes : Memory
  writeEnabled : Bool
  autoAddress : Option Nat

/-- Data that goes beyond a page of 256 bytes wraps around in it. -/
def programPage (bytes : Memory) (address : Nat) (data : List Byte) : Memory :=
  program (program bytes address (data.take (256 - address % 256)))
    (address - address % 256) (data.drop (256 - address % 256))

def addressOf (a b c : Byte) : Nat := a.toNat * 65536 + b.toNat * 256 + c.toNat

def Chip.word (chip : Chip) (address : Nat) (first second : Byte) : Chip :=
  { chip with
    bytes := program chip.bytes address [first, second]
    autoAddress := some (address + 2) }

def Chip.execute (chip : Chip) : List Byte → Chip
  | [0x06] =>
    { chip with
      writeEnabled := true }
  | [0x04] =>
    { chip with
      writeEnabled := false
      autoAddress := none }
  | [0xad, first, second] =>
    match chip.autoAddress with
    | some address => chip.word address first second
    | none => chip
  | [0xad, a, b, c, first, second] =>
    if chip.writeEnabled ∧ chip.autoAddress = none then
      chip.word (addressOf a b c) first second
    else
      chip
  | 0x02 :: a :: b :: c :: data =>
    if chip.writeEnabled then
      { chip with
        bytes := programPage chip.bytes (addressOf a b c) data
        writeEnabled := false }
    else
      chip
  | _ => chip

/-- Which transfers succeed, how often the chip is still busy when its status is
polled (never longer than the timeout), and how the controller crops a chunk. -/
structure Bus where
  succeeds : Nat → Bool
  busy : Nat → Nat
  spiCropChunk : Nat → Nat → Nat
  crop_pos : ∀ cmdLen chunk, 0 < chunk → 0 < spiCropChunk cmdLen chunk
  crop_le : ∀ cmdLen chunk, spiCropChunk cmdLen chunk ≤ chunk

structure World where
  chip : Chip
  sent : Nat
  failed : Bool

/-- A transfer that fails has no effect, and 1 is returned. -/
def transfer (bus : Bus) (effect : Chip → Chip) (w : World) : Int × World :=
  if bus.succeeds w.sent then
    (0, ⟨effect w.chip, w.sent + 1, w.failed⟩)
  else
    (1, ⟨w.chip, w.sent + 1, true⟩)

def doSpiFlashCmd (bus : Bus) (dout : List Byte) : World → Int × World :=
  transfer bus fun chip => chip.execute dout

/-- `if (ret) return ret;` between two operations. -/
def andThen (first second : World → Int × World) (w : World) : Int × World :=
  if (first w).1 ≠ 0 then first w else second (first w).2

def spiFlashCmdPollBit (bus : Bus) : Nat → World → Int × World
  | 0, w =>
    let (ret, w) := doSpiFlashCmd bus [0x05] w
    (if ret ≠ 0 then -1 else 0, w)
  | busy + 1, w =>
    let (ret, w) := doSpiFlashCmd bus [0x05] w
    if ret ≠ 0 then (-1, w) else spiFlashCmdPollBit bus busy w

def spiFlashCmdWaitReady (bus : Bus) (w : World) : Int × World :=
  spiFlashCmdPollBit bus (bus.busy w.sent) w

def addressBytes (offset : Nat) : List Byte :=
  [BitVec.ofNat 8 (offset >>> 16), BitVec.ofNat 8 (offset >>> 8), BitVec.ofNat 8 offset]

def sstEnableWriting (bus : Bus) : World → Int × World := doSpiFlashCmd bus [0x06]

def sstDisableWriting (bus : Bus) : World → Int × World := doSpiFlashCmd bus [0x04]

/-- A program command, and the wait for its end. -/
def programAndWait (bus : Bus) (cmd data : List Byte) : World → Int × World :=
  andThen (doSpiFlashCmd bus (cmd ++ data)) (spiFlashCmdWaitReady bus)

def sstByteWrite (bus : Bus) (offset : Nat) (byte : Byte) : World → Int × World :=
  andThen (sstEnableWriting bus) (programAndWait bus (0x02 :: addressBytes offset) [byte])

/-- What both writers begin with. -/
def writeLeading (bus : Bus) (offset : Nat) (buf : Memory) : World → Int × World :=
  andThen (fun w => if offset % 2 ≠ 0 then sstByteWrite bus offset (buf 0) w
    else (0, w)) (sstEnableWriting bus)

/-- The loop of `sst_write_ai`; `none` is a loop that has not ended.  The counter
is a `size_t` of 32 bits. -/
def wordLoop (bus : Bus) (buf : Memory) (last : Nat) :
    Nat → List Byte → Nat → Nat → World → Option (Int × Nat × Nat × World)
  | 0, _, _, _, _ => none
  | fuel + 1, cmd, actual, offset, w =>
    if actual < last then
      let (ret, w) := programAndWait bus cmd [buf actual, buf (actual + 1)] w
      if ret ≠ 0 then
        some (ret, actual, offset, w)
      else
        wordLoop bus buf last fuel (cmd.take 1) ((actual + 2) % 2 ^ 32) ((offset + 2) % 2 ^ 32) w
    else
      some (0, actual, offset, w)

/-- What `sst_write_ai` does behind its loop. -/
def finishWords (bus : Bus) (len : Nat) (buf : Memory) :
    Int × Nat × Nat × World → Int × World := fun (ret, actual, offset, w) =>
  if ret ≠ 0 then (ret, w)
  else andThen (sstDisableWriting bus) (fun w =>
    if actual ≠ len then sstByteWrite bus offset (buf actual) w else (0, w)) w

def sstWriteAi (bus : Bus) (fuel offset len : Nat) (buf : Memory) (w : World) :
    Option (Int × World) :=
  let start := offset + offset % 2
  let (ret, w) := writeLeading bus offset buf w
  if ret ≠ 0 then
    some (ret, w)
  else
    (wordLoop bus buf ((len + 2 ^ 32 - 1) % 2 ^ 32) fuel
      (0xad :: addressBytes start) (offset % 2) start w).map (finishWords bus len buf)

theorem chunk_pos (bus : Bus) {actual len : Nat} (more : actual < len) (offset : Nat) :
    0 < bus.spiCropChunk 4 (min (len - actual) (256 - offset % 256)) :=
  bus.crop_pos 4 _ (by omega)

/-- The loop of `sst_write_256`, which breaks at errors below zero. -/
def pageLoop (bus : Bus) (buf : Memory) (len actual offset : Nat) (w : World) : Int × World :=
  if more : actual < len then
    let chunk := bus.spiCropChunk 4 (min (len - actual) (256 - offset % 256))
    have := chunk_pos bus more offset
    let (ret, w) := doSpiFlashCmd bus [0x06] w
    if ret < 0 then (ret, w)
    else
      let (ret, w) := doSpiFlashCmd bus (0x02 :: addressBytes offset ++ load buf actual chunk) w
      if ret < 0 then (ret, w)
      else
        let (ret, w) := spiFlashCmdWaitReady bus w
        if ret ≠ 0 then (ret, w)
        else pageLoop bus buf len (actual + chunk) (offset + chunk) w
  else
    (0, w)
termination_by len - actual
decreasing_by omega

def sstWrite256 (bus : Bus) (offset len : Nat) (buf : Memory) : World → Int × World :=
  andThen (writeLeading bus offset buf) (pageLoop bus buf len 0 (offset + offset % 2))

inductive Writer where
  | sstWriteAi
  | sstWrite256
deriving DecidableEq

def Writer.write : Writer → Bus → Nat → Nat → Nat → Memory → World → Option (Int × World)
  | .sstWriteAi => SstFlash.sstWriteAi
  | .sstWrite256 => fun bus _ offset len buf w =>
    some (SstFlash.sstWrite256 bus offset len buf w)

structure SstSpiFlashParams where
  nrSectors : Nat
  write : Writer
deriving DecidableEq

def sstSectorSize : Nat := 4 * 1024

def sstSpiFlashTable : List SstSpiFlashParams :=
  [⟨128, .sstWriteAi⟩, ⟨256, .sstWriteAi⟩, ⟨512, .sstWriteAi⟩,
    ⟨1024, .sstWriteAi⟩, ⟨2048, .sstWrite256⟩, ⟨16, .sstWriteAi⟩,
    ⟨32, .sstWriteAi⟩, ⟨64, .sstWriteAi⟩, ⟨128, .sstWriteAi⟩]

def World.initial (bytes : Memory) (writeEnabled : Bool) : World :=
  ⟨⟨bytes, writeEnabled, none⟩, 0, false⟩

/-- While all transfers succeed, the buffer is programmed and nothing else. -/
def Programs (writer : Writer) (offset len : Nat) : Prop :=
  ∀ (bus : Bus) (buf bytes : Memory) (writeEnabled : Bool),
    (∀ n, bus.succeeds n = true) → ∃ fuel w,
      writer.write bus fuel offset len buf (.initial bytes writeEnabled) =
        some (0, w) ∧ w.chip.bytes = program bytes offset (load buf 0 len)

/-- Success is only returned if no transfer has failed. -/
def Reports (writer : Writer) (offset len : Nat) : Prop :=
  ∀ (bus : Bus) (buf bytes : Memory) (writeEnabled : Bool) (fuel : Nat)
    (w : World),
    writer.write bus fuel offset len buf (.initial bytes writeEnabled) =
      some (0, w) → w.failed = false

variable {m other : Memory} {base address offset len : Nat} {bytes : List Byte}
  {first second : World → Int × World} {chip : Chip}

theorem program_cons_apply (m : Memory) (base : Nat) (byte : Byte)
    (bytes : List Byte) (address : Nat) :
    program m base (byte :: bytes) address =
      if address = base then m address &&& byte
      else program m (base + 1) bytes address :=
  rfl

theorem program_congr (same : m address = other address) :
    program m base bytes address = program other base bytes address := by
  induction bytes generalizing base with
  | nil => exact same
  | cons byte rest ih => rw [program_cons_apply, program_cons_apply, same, ih]

theorem program_append (m : Memory) (base : Nat) (first second : List Byte) :
    program (program m base first) (base + first.length) second =
      program m base (first ++ second) := by
  induction first generalizing base with
  | nil => rfl
  | cons byte rest ih =>
    funext address
    rw [List.cons_append, program_cons_apply, ← ih, List.length_cons]
    by_cases here : address = base
    · rw [if_pos here, program_of_outside (.inl (by omega)), program_cons_apply, if_pos here]
    · rw [if_neg here, Nat.add_comm rest.length, ← Nat.add_assoc]
      apply program_congr
      rw [program_cons_apply, if_neg here]

theorem program_load_append (m buf : Memory) (base first second : Nat) :
    program (program m base (load buf 0 first)) (base + first)
      (load buf first second) = program m base (load buf 0 (first + second)) := by
  have joined := program_append m base (load buf 0 first) (load buf first second)
  rw [length_load] at joined
  rw [joined, load_append, Nat.zero_add]

theorem program_zero (zero : m address = 0) (base : Nat) (bytes : List Byte) :
    program m base bytes address = 0 := by
  induction bytes generalizing base with
  | nil => exact zero
  | cons byte rest ih =>
    rw [program_cons_apply, zero, ih, BitVec.ofNat_eq_ofNat, BitVec.zero_and, ite_self]

theorem programPage_of_fits (fits : address % 256 + bytes.length ≤ 256) :
    programPage m address bytes = program m address bytes := by
  rw [programPage, List.take_of_length_le (by omega), List.drop_eq_nil_of_le (by omega)]
  rfl

theorem addressOf_addressBytes (offset : Nat) :
    addressOf (BitVec.ofNat 8 (offset >>> 16)) (BitVec.ofNat 8 (offset >>> 8))
      (BitVec.ofNat 8 offset) = offset % 2 ^ 24 := by
  simp only [addressOf, BitVec.toNat_ofNat, Nat.shiftRight_eq_div_pow]
  omega

theorem execute_program (enabled : chip.writeEnabled = true)
    (fits : offset % 256 + bytes.length ≤ 256) :
    chip.execute (0x02 :: addressBytes offset ++ bytes) =
      ⟨program chip.bytes (offset % 2 ^ 24) bytes, false, chip.autoAddress⟩ := by
  have address := addressOf_addressBytes offset
  rw [← programPage_of_fits (by omega), ← address]
  simp [addressBytes, Chip.execute, enabled]

theorem execute_zero (zero : chip.bytes address = 0)
    (dout : List Byte) : (chip.execute dout).bytes address = 0 := by
  rw [Chip.execute.eq_def]
  split
  · exact zero
  · exact zero
  · split
    · exact program_zero zero _ _
    · exact zero
  · split
    · exact program_zero zero _ _
    · exact zero
  · split
    · exact program_zero (program_zero zero _ _) _ _
    · exact zero
  · exact zero

/-- The operation succeeds, and leaves the chip as given. -/
def Yields (op : World → Int × World) (w : World) (chip : Chip) : Prop :=
  ∃ sent, w.sent ≤ sent ∧ op w = (0, ⟨chip, sent, w.failed⟩)

section Success

variable {bus : Bus} {buf : Memory} {w : World}
variable (ok : ∀ n, w.sent ≤ n → bus.succeeds n = true)

theorem yields_andThen {chip last : Chip} (one : Yields first w chip)
    (two : ∀ sent, w.sent ≤ sent → Yields second ⟨chip, sent, w.failed⟩ last) :
    Yields (andThen first second) w last := by
  obtain ⟨middle, later, one⟩ := one
  obtain ⟨sent, more, two⟩ := two middle later
  refine ⟨sent, Nat.le_trans later more, ?_⟩
  rw [andThen, one]
  exact two

include ok

theorem yields_transfer (effect : Chip → Chip) : Yields (transfer bus effect) w (effect w.chip) :=
  ⟨w.sent + 1, Nat.le_succ _, if_pos (ok _ le_rfl)⟩

theorem yields_cmd (dout : List Byte) : Yields (doSpiFlashCmd bus dout) w (w.chip.execute dout) :=
  yields_transfer ok _

theorem yields_waitReady : Yields (spiFlashCmdWaitReady bus) w w.chip := by
  have polls (busy : Nat) : Yields (spiFlashCmdPollBit bus busy) w w.chip := by
    induction busy generalizing w with
    | zero =>
      obtain ⟨sent, later, read⟩ := yields_cmd ok [0x05]
      exact ⟨sent, later, by rw [spiFlashCmdPollBit, read]; rfl⟩
    | succ busy ih =>
      obtain ⟨sent, later, read⟩ := yields_cmd ok [0x05]
      obtain ⟨last, more, polled⟩ := @ih ⟨w.chip, sent, w.failed⟩
        fun n le => ok n (Nat.le_trans later le)
      refine ⟨last, Nat.le_trans later more, ?_⟩
      rw [spiFlashCmdPollBit, read]
      exact polled
  exact polls _

theorem yields_programAndWait (cmd data : List Byte) :
    Yields (programAndWait bus cmd data) w (w.chip.execute (cmd ++ data)) :=
  yields_andThen (yields_cmd ok _) fun _ later =>
    yields_waitReady fun n le => ok n (Nat.le_trans later le)

theorem yields_byteWrite (inside : offset < 2 ^ 24) (byte : Byte) :
    Yields (sstByteWrite bus offset byte) w
      ⟨program w.chip.bytes offset [byte], false, w.chip.autoAddress⟩ := by
  refine yields_andThen (yields_cmd ok _) fun sent later => ?_
  have written := @yields_programAndWait bus
    ⟨w.chip.execute [0x06], sent, w.failed⟩
    (fun n le => ok n (Nat.le_trans later le)) (0x02 :: addressBytes offset) [byte]
  rwa [execute_program (by rfl) (by
    rw [List.length_singleton]
    omega), Nat.mod_eq_of_lt inside] at written

theorem yields_leading (inside : offset < 2 ^ 24) :
    Yields (writeLeading bus offset buf) w
      ⟨program w.chip.bytes offset (load buf 0 (offset % 2)), true, w.chip.autoAddress⟩ := by
  have lead : Yields (fun w => if offset % 2 ≠ 0 then
      sstByteWrite bus offset (buf 0) w else (0, w)) w
      ⟨program w.chip.bytes offset (load buf 0 (offset % 2)),
        if offset % 2 ≠ 0 then false else w.chip.writeEnabled,
        w.chip.autoAddress⟩ := by
    rcases Nat.mod_two_eq_zero_or_one offset with even | odd
    · rw [even]
      exact ⟨w.sent, le_rfl, rfl⟩
    · rw [odd]
      exact yields_byteWrite ok inside _
  exact yields_andThen lead fun sent later =>
    @yields_cmd bus ⟨_, sent, w.failed⟩ (fun n le => ok n (Nat.le_trans later le)) _

end Success

section Loops

variable {bus : Bus} {buf : Memory} {w : World}

/-- The next data is programmed as a word at the offset. -/
def Accepts (chip : Chip) (cmd : List Byte) (offset : Nat) : Prop :=
  cmd.take 1 = [0xad] ∧ ∀ first second,
    chip.execute (cmd ++ [first, second]) = chip.word offset first second

theorem wordLoop_yields {last actual : Nat} {cmd : List Byte} (count : Nat)
    (ok : ∀ n, w.sent ≤ n → bus.succeeds n = true) (accepts : 0 < count → Accepts w.chip cmd offset)
    (more : ∀ k < count, actual + 2 * k < last) (ends : last ≤ actual + 2 * count)
    (small : actual + 2 * count < 2 ^ 32) (inside : offset + 2 * count < 2 ^ 32) :
    ∃ enabled auto sent, w.sent ≤ sent ∧
      wordLoop bus buf last (count + 1) cmd actual offset w =
        some (0, actual + 2 * count, offset + 2 * count,
          ⟨⟨program w.chip.bytes offset (load buf actual (2 * count)), enabled,
            auto⟩, sent, w.failed⟩) := by
  induction count generalizing w cmd actual offset with
  | zero =>
    refine ⟨w.chip.writeEnabled, w.chip.autoAddress, w.sent, le_rfl, ?_⟩
    rw [wordLoop, if_neg (by omega)]
    rfl
  | succ count ih =>
    obtain ⟨head, word⟩ := accepts (Nat.succ_pos count)
    obtain ⟨sent, later, written⟩ := yields_programAndWait ok cmd [buf actual, buf (actual + 1)]
    rw [word] at written
    obtain ⟨enabled, auto, final, latest, looped⟩ :=
      @ih (offset + 2) ⟨w.chip.word offset (buf actual) (buf (actual + 1)), sent,
        w.failed⟩ (actual + 2) [0xad] (fun n le => ok n (Nat.le_trans later le))
        (fun _ => ⟨rfl, fun _ _ => rfl⟩) (fun k less => by
          have next := more (k + 1) (by omega)
          omega) (by omega) (by omega) (by omega)
    refine ⟨enabled, auto, final, Nat.le_trans later latest, ?_⟩
    have joined : program (w.chip.word offset (buf actual)
        (buf (actual + 1))).bytes (offset + 2)
        (load buf (actual + 2) (2 * count)) =
        program w.chip.bytes offset (load buf actual (2 * (count + 1))) := by
      rw [Nat.mul_succ, Nat.add_comm (2 * count), load_append]
      exact program_append w.chip.bytes offset (load buf actual 2) _
    have first := more 0 (Nat.succ_pos count)
    rw [wordLoop, if_pos (by omega), written]
    dsimp only at looped ⊢
    rw [if_neg (by simp), head, Nat.mod_eq_of_lt (by omega),
      Nat.mod_eq_of_lt (by omega), looped, joined, Nat.mul_succ,
      Nat.add_right_comm actual, Nat.add_right_comm offset, Nat.add_assoc,
      Nat.add_assoc]

theorem pageLoop_step {actual sent : Nat} {ret second : Int} {middle paged : World}
    (more : actual < len) (enable : doSpiFlashCmd bus [0x06] w = (ret, middle)) (enabled : ¬ret < 0)
    (page : doSpiFlashCmd bus (0x02 :: addressBytes offset ++ load buf actual
      (bus.spiCropChunk 4 (min (len - actual) (256 - offset % 256)))) middle =
        (second, paged)) (programmed : ¬second < 0)
    (wait : spiFlashCmdWaitReady bus paged = (0, ⟨chip, sent, paged.failed⟩)) :
    let chunk := bus.spiCropChunk 4 (min (len - actual) (256 - offset % 256))
    pageLoop bus buf len actual offset w =
      pageLoop bus buf len (actual + chunk) (offset + chunk) ⟨chip, sent, paged.failed⟩ := by
  intro chunk
  rw [pageLoop, dif_pos more, enable]
  dsimp only
  rw [if_neg enabled, page]
  rw [if_neg programmed, wait]
  exact if_neg (by simp)

/-- Only three bytes of the address are sent, and what is behind them keeps its contents. -/
theorem pageLoop_yields {actual : Nat} (le : actual ≤ len)
    (ok : ∀ n, w.sent ≤ n → bus.succeeds n = true) :
    ∃ chip sent, pageLoop bus buf len actual offset w = (0, ⟨chip, sent, w.failed⟩) ∧
      (offset + (len - actual) ≤ 2 ^ 24 →
        chip.bytes = program w.chip.bytes offset (load buf actual (len - actual))) ∧
      ∀ address, 2 ^ 24 ≤ address → chip.bytes address = w.chip.bytes address := by
  induction left : len - actual using Nat.strongRecOn generalizing w actual offset with
  | ind left ih =>
    by_cases more : actual < len
    case neg =>
      refine ⟨w.chip, w.sent, by rw [pageLoop, dif_neg more], fun _ => ?_, fun _ _ => rfl⟩
      rw [← left, Nat.sub_eq_zero_of_le (Nat.not_lt.mp more)]
      rfl
    have positive := chunk_pos bus more offset
    have notMore := bus.crop_le 4 (min (len - actual) (256 - offset % 256))
    obtain ⟨first, later, enable⟩ := yields_cmd ok [0x06]
    obtain ⟨second, more2, page⟩ := @yields_cmd bus
      ⟨w.chip.execute [0x06], first, w.failed⟩ (fun n le =>
        ok n (Nat.le_trans later le)) (0x02 :: addressBytes offset ++
          load buf actual (bus.spiCropChunk 4 (min (len - actual) (256 - offset % 256))))
    obtain ⟨third, more3, wait⟩ := @yields_waitReady bus ⟨_, second, w.failed⟩
      (fun n le => ok n (Nat.le_trans later (Nat.le_trans more2 le)))
    have stepped := pageLoop_step more enable (by simp) page (by simp) wait
    rw [execute_program (by rfl) (by rw [length_load]; omega)] at stepped
    generalize bus.spiCropChunk 4 (min (len - actual) (256 - offset % 256)) = chunk at *
    obtain ⟨chip, sent, looped, contents, behind⟩ := @ih (len - (actual + chunk))
      (by omega) (offset + chunk) ⟨⟨program w.chip.bytes (offset % 2 ^ 24)
        (load buf actual chunk), false, w.chip.autoAddress⟩, third, w.failed⟩
      (actual + chunk) (by omega) (fun n le => ok n (Nat.le_trans later
        (Nat.le_trans more2 (Nat.le_trans more3 le)))) rfl
    refine ⟨chip, sent, stepped.trans looped, fun inside => ?_, fun address above => ?_⟩
    · have joined := program_append w.chip.bytes offset (load buf actual chunk)
        (load buf (actual + chunk) (len - (actual + chunk)))
      rw [length_load, ← load_append] at joined
      rw [contents (by omega)]
      rw [Nat.mod_eq_of_lt (by omega), joined, ← left]
      congr 2
      omega
    · exact (behind address above).trans
        (program_of_outside (.inr (by rw [length_load]; omega)))

end Loops

/-- The operation keeps what holds, unless it reports an error. -/
def Preserves (holds : World → Prop) (op : World → Int × World) : Prop :=
  ∀ w, holds w → (op w).1 = 0 → holds (op w).2

section Preserved

variable {bus : Bus} {buf : Memory} {w : World} {holds : World → Prop}

theorem preserves_andThen (one : Preserves holds first)
    (two : Preserves holds second) : Preserves holds (andThen first second) := by
  intro w before
  rw [andThen]
  by_cases ret : (first w).1 = 0
  · rw [if_neg (not_not.mpr ret)]
    exact two _ (one w before ret)
  · rw [if_pos ret]
    exact fun zero => absurd zero ret

theorem preserves_ite {op : World → Int × World} (condition : Prop)
    [Decidable condition] (preserves : Preserves holds op) :
    Preserves holds fun w => if condition then op w else (0, w) := by
  intro w before
  split
  · exact preserves w before
  · exact fun _ => before

theorem preserves_waitReady (poll : Preserves holds (doSpiFlashCmd bus [0x05])) :
    Preserves holds (spiFlashCmdWaitReady bus) := by
  have polls (busy : Nat) : Preserves holds (spiFlashCmdPollBit bus busy) := by
    induction busy with
    | zero =>
      intro w before ret
      rw [spiFlashCmdPollBit] at ret ⊢
      dsimp only at ret ⊢
      refine poll w before ?_
      by_contra failed
      rw [if_pos failed] at ret
      cases ret
    | succ busy ih =>
      intro w before ret
      rw [spiFlashCmdPollBit] at ret ⊢
      dsimp only at ret ⊢
      split at ret
      · cases ret
      · rename_i done
        rw [if_neg done]
        exact ih _ (poll w before (not_not.mp done)) ret
  exact fun w => polls _ w

variable (cmd : ∀ dout, Preserves holds (doSpiFlashCmd bus dout))

include cmd

theorem preserves_programAndWait (header data : List Byte) :
    Preserves holds (programAndWait bus header data) :=
  preserves_andThen (cmd _) (preserves_waitReady (cmd _))

theorem preserves_byteWrite (offset : Nat) (byte : Byte) :
    Preserves holds (sstByteWrite bus offset byte) :=
  preserves_andThen (cmd _) (preserves_programAndWait cmd _ _)

theorem preserves_leading (offset : Nat) : Preserves holds (writeLeading bus offset buf) :=
  preserves_andThen (preserves_ite _ (preserves_byteWrite cmd _ _)) (cmd _)

theorem preserves_words {last fuel actual offset len : Nat} {header : List Byte} {next : World}
    (before : holds w) (written : (wordLoop bus buf last fuel header actual offset w).map
      (finishWords bus len buf) = some (0, next)) : holds next := by
  induction fuel generalizing header actual offset w with
  | zero => cases written
  | succ fuel ih =>
    rw [wordLoop] at written
    have step := preserves_programAndWait cmd header [buf actual, buf (actual + 1)] w before
    split at written
    · dsimp only at written
      split at written
      · rename_i failed
        rw [Option.map_some, finishWords, if_pos failed] at written
        exact absurd (Prod.mk.inj (Option.some.inj written)).1 failed
      · rename_i done
        exact ih (step (not_not.mp done)) written
    · rw [Option.map_some, finishWords, if_neg (by simp), Option.some.injEq] at written
      have finish := preserves_andThen (cmd [0x04]) (preserves_ite (actual ≠ len)
        (preserves_byteWrite cmd offset (buf actual))) w before
      rw [← sstDisableWriting, written] at finish
      exact finish rfl

end Preserved

/-- What the loops rely on to program the buffer. -/
def Writer.Aligned : Writer → Nat → Nat → Prop
  | .sstWriteAi, _, len => 0 < len
  | .sstWrite256, offset, _ => offset % 2 = 0

/-- Where no error is overlooked. -/
def Writer.Checked : Writer → Nat → Prop
  | .sstWriteAi, _ => True
  | .sstWrite256, len => len = 0

theorem preserves_unfailed (bus : Bus) (dout : List Byte) :
    Preserves (fun w => w.failed = false) (doSpiFlashCmd bus dout) := by
  intro w before
  rw [doSpiFlashCmd, transfer]
  split
  · exact fun _ => before
  · exact nofun

theorem preserves_zero (bus : Bus) (address : Nat) (dout : List Byte) :
    Preserves (fun w => w.chip.bytes address = 0) (doSpiFlashCmd bus dout) := by
  intro w before
  rw [doSpiFlashCmd, transfer]
  split
  · exact fun _ => execute_zero before dout
  · exact nofun

theorem reports_sstWriteAi (offset len : Nat) : Reports .sstWriteAi offset len := by
  intro bus buf bytes writeEnabled fuel w written
  have leading := @preserves_leading bus buf _ (preserves_unfailed bus) offset
    (.initial bytes writeEnabled) rfl
  rw [Writer.write, sstWriteAi] at written
  dsimp only at written
  split at written
  · rename_i failed
    rw [Option.some.injEq] at written
    exact absurd (congrArg Prod.fst written) failed
  · rename_i done
    exact preserves_words (preserves_unfailed bus) (leading (not_not.mp done)) written

theorem programs_sstWriteAi (positive : 0 < len)
    (inside : offset + len ≤ 2 ^ 23) : Programs .sstWriteAi offset len := by
  intro bus buf bytes writeEnabled succeeds
  have ok (w : World) : ∀ n, w.sent ≤ n → bus.succeeds n = true := fun n _ => succeeds n
  obtain ⟨first, -, leading⟩ := @yields_leading offset bus buf
    (.initial bytes writeEnabled) (ok _) (by omega)
  obtain ⟨count, total⟩ : ∃ count, offset % 2 + 2 * count = len ∨
      offset % 2 + 2 * count + 1 = len := ⟨(len - offset % 2) / 2, by omega⟩
  obtain ⟨enabled, auto, second, -, words⟩ := @wordLoop_yields
    (offset + offset % 2) bus buf ⟨⟨program bytes offset
      (load buf 0 (offset % 2)), true, none⟩, first, false⟩
    ((len + 2 ^ 32 - 1) % 2 ^ 32) (offset % 2)
    (0xad :: addressBytes (offset + offset % 2)) count (ok _)
    (fun some => ⟨rfl, fun b c => by
      have address := (addressOf_addressBytes (offset + offset % 2)).trans
        (Nat.mod_eq_of_lt (by omega))
      simp [addressBytes, Chip.execute, address]⟩)
    (by omega) (by omega) (by omega) (by omega)
  rw [program_load_append] at words
  obtain ⟨third, -, disable⟩ := @yields_cmd bus ⟨⟨program bytes offset
    (load buf 0 (offset % 2 + 2 * count)), enabled, auto⟩, second, false⟩
    (ok _) [0x04]
  have run (w : World) (finish : (if offset % 2 + 2 * count ≠ len then
      sstByteWrite bus (offset + offset % 2 + 2 * count)
        (buf (offset % 2 + 2 * count)) ⟨⟨program bytes offset
          (load buf 0 (offset % 2 + 2 * count)), false, none⟩, third, false⟩
      else (0, ⟨⟨program bytes offset (load buf 0 (offset % 2 + 2 * count)),
        false, none⟩, third, false⟩)) = (0, w)) :
      sstWriteAi bus (count + 1) offset len buf (.initial bytes writeEnabled) = some (0, w) := by
    rw [sstWriteAi, leading]
    dsimp only
    rw [if_neg (by simp)]
    refine (congrArg (Option.map _) words).trans (congrArg some ?_)
    rw [finishWords, if_neg (by simp), andThen, sstDisableWriting, disable, if_neg (by simp)]
    exact finish
  by_cases all : offset % 2 + 2 * count = len
  · refine ⟨count + 1, _, run _ (if_neg (not_not.mpr all)), ?_⟩
    rw [all]
  · have one := total.resolve_left all
    obtain ⟨fourth, -, last⟩ := @yields_byteWrite
      (offset + offset % 2 + 2 * count) bus ⟨⟨program bytes offset
        (load buf 0 (offset % 2 + 2 * count)), false, none⟩, third, false⟩
      (ok _) (by omega) (buf (offset % 2 + 2 * count))
    refine ⟨count + 1, _, run _ ((if_pos all).trans last), ?_⟩
    rw [← one, Nat.add_assoc offset]
    exact program_load_append bytes buf offset (offset % 2 + 2 * count) 1

/-- A bus without a fault, and a chip that is never busy. -/
def usualBus (succeeds : Nat → Bool) : Bus where
  succeeds
  busy _ := 0
  spiCropChunk _ chunk := chunk
  crop_pos _ _ positive := positive
  crop_le _ chunk := Nat.le_refl chunk

theorem not_programs_sstWriteAi (inside : offset < 2 ^ 24) : ¬Programs .sstWriteAi offset 0 := by
  intro programs
  obtain ⟨fuel, w, run, contents⟩ :=
    programs (usualBus fun _ => true) (fun _ => 0) (fun _ => 0xff) false fun _ => rfl
  obtain ⟨first, -, leading⟩ := @yields_leading offset (usualBus fun _ => true)
    (fun _ => 0) (.initial (fun _ => 0xff) false) (fun _ _ => rfl) inside
  have cmd := preserves_zero (usualBus fun _ => true) offset
  have cleared : w.chip.bytes offset = 0 := by
    rw [Writer.write, sstWriteAi, leading] at run
    dsimp only at run
    rw [if_neg (by simp)] at run
    rcases Nat.mod_two_eq_zero_or_one offset with even | odd
    · cases fuel with
      | zero => cases run
      | succ fuel =>
        rw [even, wordLoop, if_pos (by decide)] at run
        obtain ⟨second, -, written⟩ := @yields_programAndWait
          (usualBus fun _ => true) ⟨⟨fun _ => 0xff, true, none⟩, first, false⟩
          (fun _ _ => rfl) (0xad :: addressBytes offset) [0, 0]
        have address := (addressOf_addressBytes offset).trans (Nat.mod_eq_of_lt inside)
        simp only [World.initial, load, program, Nat.add_zero] at run
        rw [written] at run
        rw [if_neg (by simp)] at run
        refine preserves_words cmd ?_ run
        simp [addressBytes, Chip.execute, Chip.word, address, program]
    · refine preserves_words cmd ?_ run
      rw [odd]
      exact (if_pos rfl).trans (BitVec.and_zero)
  rw [contents] at cleared
  cases cleared

theorem yields_sstWrite256 {bus : Bus} (buf bytes : Memory) (writeEnabled : Bool)
    (succeeds : ∀ n, bus.succeeds n = true) (inside : offset + len ≤ 2 ^ 23) :
    ∃ w, sstWrite256 bus offset len buf (.initial bytes writeEnabled) = (0, w) ∧
      w.chip.bytes = program (program bytes offset (load buf 0 (offset % 2)))
        (offset + offset % 2) (load buf 0 len) := by
  obtain ⟨first, -, leading⟩ := @yields_leading offset bus buf
    (.initial bytes writeEnabled) (fun n _ => succeeds n) (by omega)
  obtain ⟨chip, sent, run, contents, -⟩ := @pageLoop_yields (offset + offset % 2)
    len bus buf ⟨⟨program bytes offset (load buf 0 (offset % 2)), true, none⟩,
      first, false⟩ 0 (Nat.zero_le _) (fun n _ => succeeds n)
  refine ⟨⟨chip, sent, false⟩, ?_, contents (by omega)⟩
  rw [sstWrite256, andThen, leading, if_neg (by simp)]
  exact run

theorem programs_sstWrite256_iff (inside : offset + len ≤ 2 ^ 23) :
    Programs .sstWrite256 offset len ↔ offset % 2 = 0 := by
  constructor
  · intro programs
    by_contra unaligned
    have odd : offset % 2 = 1 := by omega
    obtain ⟨fuel, w, run, contents⟩ := programs (usualBus fun _ => true)
      (fun _ => 0) (fun _ => 0xff) false fun _ => rfl
    obtain ⟨next, written, found⟩ := @yields_sstWrite256 offset len
      (usualBus fun _ => true) (fun _ => 0) (fun _ => 0xff) false (fun _ => rfl) inside
    have same := run.symm.trans (congrArg some written)
    rw [Option.some.injEq, Prod.mk.injEq] at same
    rw [same.2, found, odd] at contents
    have here := congrFun contents (offset + len)
    have behind : program (fun _ => 0xff) offset (load (fun _ => 0) 0 len)
        (offset + len) = 0xff := program_of_outside (.inr (by rw [length_load]))
    rw [behind] at here
    cases len with
    | zero => exact absurd here (by simp [load, program])
    | succ len =>
      have last := program_load_append (program (fun _ => 0xff) offset
        (load (fun _ => 0) 0 1)) (fun _ => 0) (offset + 1) len 1
      rw [← last, Nat.add_assoc offset, Nat.add_comm 1] at here
      exact absurd here (by simp [load, program])
  · intro aligned bus buf bytes writeEnabled succeeds
    obtain ⟨w, run, contents⟩ := yields_sstWrite256 buf bytes writeEnabled succeeds inside
    rw [aligned] at contents
    exact ⟨0, w, congrArg some run, contents⟩

/-- When the command to enable writing fails, the loop goes on. -/
theorem pageLoop_overlooks (positive : 0 < len) (offset : Nat) (buf : Memory) (chip : Chip)
    (first : Nat) :
    ∃ last sent, pageLoop (usualBus fun n => n ≠ first) buf len 0 offset ⟨chip, first, false⟩ =
      (0, ⟨last, sent, true⟩) := by
  have later : ∀ n, first + 1 ≤ n → n ≠ first := fun n => by omega
  have ok (n : Nat) (le : first + 1 ≤ n) : (usualBus fun n => n ≠ first).succeeds n = true :=
    decide_eq_true (later n le)
  have enable : doSpiFlashCmd (usualBus fun n => n ≠ first) [0x06]
      ⟨chip, first, false⟩ = (1, ⟨chip, first + 1, true⟩) :=
    if_neg (by simp [usualBus])
  obtain ⟨second, more, page⟩ := @yields_cmd _ ⟨chip, first + 1, true⟩ ok
    (0x02 :: addressBytes offset ++ load buf 0 (min (len - 0) (256 - offset % 256)))
  obtain ⟨third, most, wait⟩ := @yields_waitReady _ ⟨_, second, true⟩
    fun n le => ok n (Nat.le_trans more le)
  have stepped := pageLoop_step positive enable (by decide) page (by decide) wait
  obtain ⟨last, sent, looped, -⟩ := @pageLoop_yields (offset + min (len - 0) (256 - offset % 256))
    len _ buf ⟨_, third, true⟩ (0 + min (len - 0) (256 - offset % 256)) (by omega)
    fun n le => ok n (Nat.le_trans more (Nat.le_trans most le))
  exact ⟨last, sent, stepped.trans looped⟩

theorem reports_sstWrite256_iff :
    Reports .sstWrite256 offset len ↔ len = 0 := by
  constructor
  · intro reports
    by_contra some
    obtain ⟨first, leads⟩ : ∃ first, ∃ chip, writeLeading
        (usualBus fun n => n ≠ first) offset (fun _ => 0)
        (.initial (fun _ => 0) false) = (0, ⟨chip, first, false⟩) := by
      rcases Nat.mod_two_eq_zero_or_one offset with even | odd
      · refine ⟨1, ⟨fun _ => 0, true, none⟩, ?_⟩
        rw [writeLeading, andThen, even]
        rfl
      · refine ⟨4, ((Chip.execute ⟨fun _ => 0, true, none⟩
          (0x02 :: addressBytes offset ++ [0])).execute [0x05]).execute [0x06], ?_⟩
        rw [writeLeading, andThen, odd]
        rfl
    obtain ⟨chip, leading⟩ := leads
    obtain ⟨last, sent, run⟩ := pageLoop_overlooks (Nat.pos_of_ne_zero some)
      (offset + offset % 2) (fun _ => 0) chip first
    have reported := reports (usualBus fun n => n ≠ first) (fun _ => 0) (fun _ => 0)
      false 0 ⟨last, sent, true⟩ (by
        refine congrArg Option.some ?_
        rw [sstWrite256, andThen, leading, if_neg (by simp)]
        exact run)
    cases reported
  · rintro rfl bus buf bytes writeEnabled fuel w run
    have keeps : Preserves (fun w => w.failed = false) (sstWrite256 bus offset 0 buf) :=
      preserves_andThen (preserves_leading (preserves_unfailed bus) offset)
        fun w before _ => by
          rw [pageLoop, dif_neg (Nat.lt_irrefl 0)]
          exact before
    have result := Option.some.inj run
    have kept := keeps (.initial bytes writeEnabled) rfl (congrArg Prod.fst result)
    rwa [result] at kept

/-- A writer programs every buffer of the length at the offset, and never
overlooks an error. -/
structure Writer.Correct (writer : Writer) (offset len : Nat) : Prop where
  programs : Programs writer offset len
  reports : Reports writer offset len

theorem sstWriter_correct_iff (part : SstSpiFlashParams) (member : part ∈ sstSpiFlashTable)
    (offset len : Nat) (inside : offset + len ≤ part.nrSectors * sstSectorSize) :
    part.write.Correct offset len ↔ part.write.Aligned offset len ∧ part.write.Checked len := by
  have small : offset + len ≤ 2 ^ 23 := by
    have sectors : ∀ part ∈ sstSpiFlashTable, part.nrSectors ≤ 2048 := by decide
    have few := sectors part member
    rw [sstSectorSize] at inside
    omega
  rw [show part.write.Correct offset len ↔ Programs part.write offset len ∧
    Reports part.write offset len from ⟨fun both => ⟨both.1, both.2⟩, fun both => ⟨both.1, both.2⟩⟩]
  cases part.write with
  | sstWriteAi =>
    refine and_congr ⟨fun programs => ?_, fun positive => ?_⟩
      (iff_of_true (reports_sstWriteAi offset len) trivial)
    · rcases Nat.eq_zero_or_pos len with rfl | positive
      · exact absurd programs (not_programs_sstWriteAi (by omega))
      · exact positive
    · exact programs_sstWriteAi positive small
  | sstWrite256 =>
    exact and_congr (programs_sstWrite256_iff small) reports_sstWrite256_iff

theorem correct_threeBytes : Writer.sstWriteAi.Correct 4095 3 :=
  (sstWriter_correct_iff ⟨128, .sstWriteAi⟩ (by decide) 4095 3 (by decide)).mpr
    ⟨Nat.succ_pos 2, trivial⟩

theorem not_correct_odd :
    ¬ ∀ part ∈ sstSpiFlashTable, ∀ offset len,
      offset + len ≤ part.nrSectors * sstSectorSize → part.write.Correct offset len := by
  intro claim
  have correct := claim ⟨2048, .sstWrite256⟩ (by decide) 257 2 (by decide)
  have aligned := (programs_sstWrite256_iff (by decide)).mp correct.programs
  cases aligned

end Coreboot.SstFlash
