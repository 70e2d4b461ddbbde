import Coreboot.SstFlash

/-!
# Winbond flash chips

Pages are programmed in a loop that only stops at errors below zero, while a command that is not
sent returns 1. Sectors are erased in a loop that stops at every error.
-/

namespace Coreboot.WinbondFlash

open ByteMemory SstFlash

structure WinbondSpiFlashParams where
  l2PageSize : Nat
  pagesPerSector : Nat
  sectorsPerBlock : Nat
  nrBlocks : Nat
deriving DecidableEq

def winbondSpiFlashTable : List WinbondSpiFlashParams :=
  [⟨8, 16, 16, 32⟩, ⟨8, 16, 16, 64⟩, ⟨8, 16, 16, 128⟩, ⟨8, 16, 16, 32⟩, ⟨8, 16, 16, 64⟩,
    ⟨8, 16, 16, 64⟩, ⟨8, 16, 16, 128⟩, ⟨8, 16, 16, 128⟩, ⟨8, 16, 16, 256⟩, ⟨8, 16, 16, 256⟩,
    ⟨8, 16, 16, 512⟩]

def WinbondSpiFlashParams.sectorSize (params : WinbondSpiFlashParams) : Nat :=
  1 <<< params.l2PageSize * params.pagesPerSector

def WinbondSpiFlashParams.size (params : WinbondSpiFlashParams) : Nat :=
  1 <<< params.l2PageSize * params.pagesPerSector * params.sectorsPerBlock * params.nrBlocks

/-- The sectors of every part are those that a chip erases. -/
def chipSectorSize : Nat := 4096

/-- The loop is that of the writer for pages; all parts have pages of 256 bytes. -/
def winbondWrite (bus : Bus) (offset len : Nat) (buf : Memory) : World → Int × World :=
  pageLoop bus buf len 0 offset

/-- What the chip does with the sector erase command. -/
def eraseSector (dout : List Byte) (chip : Chip) : Chip :=
  match dout with
  | [0x20, a, b, c] =>
    if chip.writeEnabled then
      { chip with
        bytes := fill chip.bytes (addressOf a b c - addressOf a b c % chipSectorSize)
          chipSectorSize 0xff
        writeEnabled := false }
    else
      chip
  | _ => chip

def eraseTurn (bus : Bus) (offset : Nat) : World → Int × World :=
  andThen (doSpiFlashCmd bus [0x06])
    (andThen (transfer bus (eraseSector (0x20 :: addressBytes offset))) (spiFlashCmdWaitReady bus))

/-- The loop of `spi_flash_cmd_erase`; `ret` is what the variable holds. -/
def eraseLoop (bus : Bus) (stop offset : Nat) (ret : Int) (w : World) : Int × World :=
  if _more : offset < stop then
    let (ret, w) := eraseTurn bus offset w
    if ret ≠ 0 then (ret, w) else eraseLoop bus stop (offset + chipSectorSize) ret w
  else
    (ret, w)
termination_by stop - offset
decreasing_by
  unfold chipSectorSize
  omega

/-- `ret` is not initialised, so that it may be anything. -/
def spiFlashCmdErase (bus : Bus) (eraseSize : Nat) (ret : Int) (offset len : Nat)
    (w : World) : Int × World :=
  if offset % eraseSize ≠ 0 ∨ len % eraseSize ≠ 0 then (-1, w)
  else eraseLoop bus (offset + len) offset ret w

/-- Success is only returned if no transfer failed and the buffer is programmed. -/
def Writes (offset len : Nat) : Prop :=
  ∀ (bus : Bus) (buf bytes : Memory) (writeEnabled : Bool) (w : World),
    winbondWrite bus offset len buf (.initial bytes writeEnabled) = (0, w) →
      w.failed = false ∧ w.chip.bytes = program bytes offset (load buf 0 len)

/-- While all transfers succeed, the buffer is programmed and nothing else. -/
def Fills (offset len : Nat) : Prop :=
  ∀ (bus : Bus) (buf bytes : Memory) (writeEnabled : Bool),
    (∀ n, bus.succeeds n = true) → ∃ w,
      winbondWrite bus offset len buf (.initial bytes writeEnabled) = (0, w) ∧
        w.chip.bytes = program bytes offset (load buf 0 len)

/-- Success is only returned if the sectors are erased and nothing else. -/
def Erases (eraseSize offset len : Nat) : Prop :=
  ∀ (bus : Bus) (bytes : Memory) (writeEnabled : Bool) (ret : Int) (w : World),
    spiFlashCmdErase bus eraseSize ret offset len (.initial bytes writeEnabled) = (0, w) →
      w.failed = false ∧ w.chip.bytes = fill bytes offset len 0xff

/-- The addresses that are sent are those that are meant. -/
def Addressed (offset len : Nat) : Prop := len = 0 ∨ offset + len ≤ 2 ^ 24

variable {bus : Bus} {offset len : Nat} {w : World}

theorem winbondWrite_zero (bus : Bus) (offset : Nat) (buf : Memory) (w : World) :
    winbondWrite bus offset 0 buf w = (0, w) := by
  rw [winbondWrite, pageLoop, dif_neg (Nat.lt_irrefl 0)]

theorem writes_iff : Writes offset len ↔ len = 0 := by
  constructor
  · intro writes
    by_contra some
    obtain ⟨last, sent, run⟩ := pageLoop_overlooks (Nat.pos_of_ne_zero some) offset (fun _ => 0)
      ⟨fun _ => 0, false, none⟩ 0
    exact absurd (writes _ _ (fun _ => 0) false _ run).1 (by simp)
  · rintro rfl bus buf bytes writeEnabled w run
    rw [winbondWrite_zero] at run
    cases run
    exact ⟨rfl, rfl⟩

theorem program_inside {base address start count : Nat} (inside : base ≤ address)
    (below : address < base + count) (m : Memory) :
    program m base (load (fun _ => 0) start count) address = 0 := by
  induction count generalizing base start with
  | zero => omega
  | succ count ih =>
    rw [load, program_cons_apply]
    by_cases here : address = base
    · rw [if_pos here]
      exact BitVec.and_zero
    · rw [if_neg here]
      exact ih (by omega) (by omega)

theorem fills_iff : Fills offset len ↔ Addressed offset len := by
  constructor
  · intro fills
    by_contra missed
    obtain ⟨some, above⟩ := not_or.mp missed
    obtain ⟨w, run, contents⟩ := fills (usualBus fun _ => true) (fun _ => 0) (fun _ => 0xff) false
      fun _ => rfl
    obtain ⟨chip, sent, same, -, behind⟩ := @pageLoop_yields offset len (usualBus fun _ => true)
      (fun _ => 0) (.initial (fun _ => 0xff) false) 0 (Nat.zero_le _) fun _ _ => rfl
    obtain rfl := (Prod.mk.inj (same.symm.trans run)).2
    have kept := behind (offset + len - 1) (by omega)
    rw [contents, program_inside (by omega) (by omega)] at kept
    cases kept
  · rintro (rfl | inside) bus buf bytes writeEnabled succeeds
    · exact ⟨_, winbondWrite_zero _ _ _ _, rfl⟩
    · obtain ⟨chip, sent, run, contents, -⟩ := @pageLoop_yields offset len bus buf
        (.initial bytes writeEnabled) 0 (Nat.zero_le _) fun n _ => succeeds n
      exact ⟨_, run, contents (by omega)⟩

/-- Without an error, the operation has its effect on the chip, and no transfer failed. -/
def Settles (op : World → Int × World) (effect : Chip → Chip) : Prop :=
  ∀ w, (op w).1 = 0 → (op w).2.chip = effect w.chip ∧ (op w).2.failed = w.failed

theorem settles_transfer (bus : Bus) (effect : Chip → Chip) :
    Settles (transfer bus effect) effect := by
  intro w
  rw [transfer]
  split
  · exact fun _ => ⟨rfl, rfl⟩
  · intro succeeded
    cases succeeded

theorem settles_andThen {first second : World → Int × World} {one two : Chip → Chip}
    (before : Settles first one) (after : Settles second two) :
    Settles (andThen first second) fun chip => two (one chip) := by
  intro w
  rw [andThen]
  by_cases ret : (first w).1 = 0
  · rw [if_neg (not_not.mpr ret)]
    intro done
    obtain ⟨chip, failed⟩ := before w ret
    obtain ⟨last, still⟩ := after _ done
    exact ⟨last.trans (congrArg two chip), still.trans failed⟩
  · rw [if_pos ret]
    exact fun zero => absurd zero ret

theorem settles_waitReady (bus : Bus) : Settles (spiFlashCmdWaitReady bus) id := by
  intro w
  have poll : Preserves (fun v => v.chip = w.chip ∧ v.failed = w.failed)
      (doSpiFlashCmd bus [0x05]) := fun v same done =>
    have read := settles_transfer bus (fun chip => chip.execute [0x05]) v done
    ⟨read.1.trans same.1, read.2.trans same.2⟩
  exact preserves_waitReady poll w ⟨rfl, rfl⟩

theorem eraseSector_enabled (aligned : chipSectorSize ∣ offset) (chip : Chip) :
    eraseSector (0x20 :: addressBytes offset) (chip.execute [0x06]) =
      ⟨fill chip.bytes (offset % 2 ^ 24) chipSectorSize 0xff, false, chip.autoAddress⟩ := by
  have address := addressOf_addressBytes offset
  have start : offset % 16777216 - offset % 4096 = offset % 16777216 := by
    unfold chipSectorSize at aligned
    omega
  simp [eraseSector, addressBytes, Chip.execute, address, start, chipSectorSize]

theorem settles_eraseTurn (bus : Bus) (aligned : chipSectorSize ∣ offset) :
    Settles (eraseTurn bus offset) fun chip =>
      ⟨fill chip.bytes (offset % 2 ^ 24) chipSectorSize 0xff, false, chip.autoAddress⟩ := by
  have settles := settles_andThen (settles_transfer bus fun chip => chip.execute [0x06])
    (settles_andThen (settles_transfer bus (eraseSector (0x20 :: addressBytes offset)))
      (settles_waitReady bus))
  simp only [eraseSector_enabled aligned] at settles
  exact settles

theorem fill_append (m : Memory) (base first second : Nat) (byte : Byte) :
    fill (fill m base first byte) (base + first) second byte =
      fill m base (first + second) byte := by
  funext address
  unfold fill
  split_ifs <;> first | rfl | omega

theorem eraseLoop_settles (count : Nat) {ret : Int} {final : World}
    (aligned : chipSectorSize ∣ offset)
    (run : eraseLoop bus (offset + chipSectorSize * count) offset ret w = (0, final)) :
    final.failed = w.failed ∧
      (offset + chipSectorSize * count ≤ 2 ^ 24 →
        final.chip.bytes = fill w.chip.bytes offset (chipSectorSize * count) 0xff) ∧
      ∀ address, 2 ^ 24 ≤ address → final.chip.bytes address = w.chip.bytes address := by
  induction count generalizing offset ret w with
  | zero =>
    rw [eraseLoop, dif_neg (by omega)] at run
    obtain rfl := (Prod.mk.inj run).2
    refine ⟨rfl, fun _ => ?_, fun _ _ => rfl⟩
    funext address
    exact (if_neg (by omega)).symm
  | succ count ih =>
    rw [eraseLoop, dif_pos (by unfold chipSectorSize; omega)] at run
    dsimp only at run
    by_cases done : (eraseTurn bus offset w).1 = 0
    · rw [if_neg (not_not.mpr done), Nat.mul_succ, Nat.add_comm (chipSectorSize * count),
        ← Nat.add_assoc] at run
      obtain ⟨chip, failed⟩ := settles_eraseTurn bus aligned w done
      obtain ⟨still, erased, behind⟩ := ih (Nat.dvd_add aligned (Nat.dvd_refl _)) run
      rw [chip] at erased behind
      refine ⟨still.trans failed, fun inside => ?_, fun address above => ?_⟩
      · rw [Nat.mul_succ] at inside
        unfold chipSectorSize at *
        rw [erased (by omega), Nat.mod_eq_of_lt (by omega), fill_append, Nat.mul_succ,
          Nat.add_comm 4096]
      · rw [behind address above]
        refine if_neg ?_
        unfold chipSectorSize at *
        omega
    · rw [if_pos done] at run
      exact absurd (Prod.mk.inj run).1 done

theorem eraseLoop_returns (count : Nat) (ok : ∀ n, bus.succeeds n = true) :
    ∃ final, eraseLoop bus (offset + chipSectorSize * count) offset 0 w = (0, final) := by
  induction count generalizing offset w with
  | zero => exact ⟨w, by rw [eraseLoop, dif_neg (by omega)]⟩
  | succ count ih =>
    have ready (chip : Chip) (sent : Nat) (failed : Bool) :
        Yields (spiFlashCmdWaitReady bus) ⟨chip, sent, failed⟩ chip :=
      yields_waitReady fun n _ => ok n
    obtain ⟨sent, -, turn⟩ : Yields (eraseTurn bus offset) w
        (eraseSector (0x20 :: addressBytes offset) (w.chip.execute [0x06])) :=
      yields_andThen (yields_cmd (fun n _ => ok n) _) fun _ _ =>
        yields_andThen (yields_transfer (fun n _ => ok n) _) fun _ _ => ready _ _ _
    obtain ⟨final, run⟩ := @ih (offset + chipSectorSize) _
    rw [eraseLoop, dif_pos (by unfold chipSectorSize; omega), turn, Nat.mul_succ,
      Nat.add_comm (chipSectorSize * count), ← Nat.add_assoc]
    dsimp only
    rw [if_neg (by simp)]
    exact ⟨final, run⟩

theorem erases_iff {eraseSize : Nat} (size : eraseSize = chipSectorSize)
    (offsetAligned : eraseSize ∣ offset) (lenAligned : eraseSize ∣ len) :
    Erases eraseSize offset len ↔ Addressed offset len := by
  subst size
  obtain ⟨count, rfl⟩ := lenAligned
  have loop (bus : Bus) (ret : Int) (w : World) :
      spiFlashCmdErase bus chipSectorSize ret offset (chipSectorSize * count) w =
        eraseLoop bus (offset + chipSectorSize * count) offset ret w :=
    if_neg (by rw [Nat.mod_eq_zero_of_dvd offsetAligned, Nat.mul_mod_right]; simp)
  constructor
  · intro erases
    by_contra missed
    obtain ⟨some, above⟩ := not_or.mp missed
    obtain ⟨final, run⟩ := @eraseLoop_returns (usualBus fun _ => true) offset
      (.initial (fun _ => 0) false) count fun _ => rfl
    obtain ⟨-, -, behind⟩ := eraseLoop_settles count offsetAligned run
    have kept := behind (offset + chipSectorSize * count - 1) (by omega)
    rw [(erases _ (fun _ => 0) false 0 final ((loop _ _ _).trans run)).2, fill,
      if_pos (by omega)] at kept
    cases kept
  · intro addressed bus bytes writeEnabled ret w run
    rw [loop] at run
    obtain ⟨failed, erased, -⟩ := eraseLoop_settles count offsetAligned run
    refine ⟨failed, ?_⟩
    rcases addressed with zero | inside
    · rw [zero, Nat.add_zero, eraseLoop, dif_neg (Nat.lt_irrefl _)] at run
      obtain rfl := (Prod.mk.inj run).2
      rw [zero]
      funext address
      exact (if_neg (by omega)).symm
    · exact erased inside

structure Correct (params : WinbondSpiFlashParams) (offset len : Nat) : Prop where
  writes : Writes offset len
  erases : params.sectorSize ∣ offset → params.sectorSize ∣ len →
    Erases params.sectorSize offset len

/-- Only nothing is written without overlooking an error.  While there is none, the buffer
is programmed where its addresses fit in three bytes, and so are the sectors erased. -/
theorem winbond_correct_iff (params : WinbondSpiFlashParams)
    (member : params ∈ winbondSpiFlashTable) (offset len : Nat) (_ : offset + len ≤ params.size) :
    (Correct params offset len ↔ len = 0) ∧ (Fills offset len ↔ Addressed offset len) ∧
      (params.sectorSize ∣ offset → params.sectorSize ∣ len →
        (Erases params.sectorSize offset len ↔ Addressed offset len)) := by
  have sectors : ∀ params ∈ winbondSpiFlashTable, params.sectorSize = chipSectorSize := by decide
  have erases (aligned : params.sectorSize ∣ offset) (whole : params.sectorSize ∣ len) :=
    erases_iff (sectors params member) aligned whole
  refine ⟨⟨fun correct => writes_iff.mp correct.writes, fun zero => ?_⟩, fills_iff, erases⟩
  exact ⟨writes_iff.mpr zero, fun aligned whole => (erases aligned whole).mpr (.inl zero)⟩

theorem winbond_correct_zero : Correct ⟨8, 16, 16, 512⟩ 4096 0 :=
  (winbond_correct_iff ⟨8, 16, 16, 512⟩ (by decide) 4096 0 (by decide)).1.mpr rfl

theorem not_winbond_correct :
    ¬ ∀ params ∈ winbondSpiFlashTable, ∀ offset len, offset + len ≤ params.size →
      Correct params offset len := by
  intro claim
  exact absurd (writes_iff.mp (claim ⟨8, 16, 16, 32⟩ (by decide) 0 1 (by decide)).writes)
    (by decide)

end Coreboot.WinbondFlash
