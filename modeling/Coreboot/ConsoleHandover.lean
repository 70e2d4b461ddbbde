import Coreboot.ByteMemory
import Coreboot.DecimalDigits

/-!
# Hand-over of the console

The console of an earlier stage is appended to the one in CBMEM. A cursor counts all characters,
also those for which there is no room.
-/

namespace Coreboot.Console

open ByteMemory DecimalDigits

structure CbmemConsole where
  bufferSize : BitVec 32
  bufferCursor : BitVec 32
  bufferBody : Memory

def CbmemConsole.txByte (cons : CbmemConsole) (data : Byte) : CbmemConsole :=
  { cons with
    bufferCursor := cons.bufferCursor + 1
    bufferBody := if cons.bufferCursor < cons.bufferSize then
        store cons.bufferBody cons.bufferCursor.toNat [data]
      else cons.bufferBody }

/-- Bytes that are written to a buffer. -/
structure Write where
  dest : Nat
  bytes : List Byte

def Write.apply (memory : Memory) (write : Write) : Memory := store memory write.dest write.bytes

/-- All bytes are between two bounds. -/
def Write.Inside (write : Write) (lower upper : Nat) : Prop :=
  write.bytes ≠ [] → lower ≤ write.dest ∧ write.dest + write.bytes.length ≤ upper

/-- What a function writes to the body of a console, and its cursor at the end. -/
structure Output where
  writes : List Write
  cursor : BitVec 32

def ascii (text : String) : List Byte :=
  text.toList.map fun character => BitVec.ofNat 8 character.toNat

def lossStr1 : List Byte := ascii "\n\n*** Log truncated, "

def lossStr2 : List Byte := ascii " characters dropped. ***\n\n"

/-- `strcpy` writes the terminator too. -/
def strcpy (cursor : BitVec 32) (text : List Byte) : Write := ⟨cursor.toNat, text ++ [0]⟩

def itoaLoop (droppedChars mult cursor : BitVec 32) (gotFirstDigit : Bool) : Output :=
  if _ : mult = 0 then ⟨[], cursor⟩
  else
    let digit := droppedChars / mult
    if gotFirstDigit || digit ≠ 0 then
      let rest := itoaLoop (droppedChars % mult) (mult / 10) (cursor + 1) true
      ⟨⟨cursor.toNat, [(digit + 0x30).setWidth 8]⟩ :: rest.writes, rest.cursor⟩
    else
      itoaLoop droppedChars (mult / 10) cursor gotFirstDigit
termination_by mult.toNat
decreasing_by
  all_goals
    have positive : mult.toNat ≠ 0 := fun zero =>
      absurd (BitVec.eq_of_toNat_eq zero) ‹_›
    rw [BitVec.toNat_udiv]
    exact Nat.div_lt_self (Nat.pos_of_ne_zero positive) (by decide)

def heldSize (cons : CbmemConsole) : BitVec 32 :=
  if cons.bufferCursor < cons.bufferSize then cons.bufferCursor
  else cons.bufferSize

def copySize (old new : CbmemConsole) : BitVec 32 :=
  if new.bufferCursor > new.bufferSize then 0
  else if new.bufferCursor + heldSize old > new.bufferSize then
    new.bufferSize - new.bufferCursor
  else heldSize old

/-- The notice, behind the characters that are copied. -/
def reportLoss (droppedChars cursor : BitVec 32) : Output :=
  let digits := itoaLoop droppedChars 100000 (cursor + BitVec.ofNat 32 lossStr1.length) false
  ⟨strcpy cursor lossStr1 :: (digits.writes ++ [strcpy digits.cursor lossStr2]),
    digits.cursor + BitVec.ofNat 32 lossStr2.length⟩

def memcpy (old new : CbmemConsole) (count : BitVec 32) : Write :=
  ⟨new.bufferCursor.toNat, load old.bufferBody 0 count.toNat⟩

def copyConsoleBuffer (old new : CbmemConsole) : Output :=
  let copySize := copySize old new
  let droppedChars := old.bufferCursor - copySize
  if droppedChars = 0 then
    ⟨[memcpy old new copySize], new.bufferCursor + copySize⟩
  -- 80 characters are reserved for the notice.
  else if copySize < 80 then ⟨[], new.bufferCursor⟩
  else
    let report := reportLoss (droppedChars + 80) (new.bufferCursor + (copySize - 80))
    ⟨memcpy old new (copySize - 80) :: report.writes, report.cursor⟩

def handedOver (old new : CbmemConsole) : CbmemConsole :=
  { new with
    bufferCursor := (copyConsoleBuffer old new).cursor
    bufferBody := (copyConsoleBuffer old new).writes.foldl Write.apply new.bufferBody }

/-- The text has been sent to the console since it was reset, and the cursor has
counted its characters. -/
def Received (cons : CbmemConsole) (sent : List Byte) : Prop :=
  cons.bufferCursor.toNat = sent.length ∧
    ∃ body, cons = sent.foldl CbmemConsole.txByte ⟨cons.bufferSize, 0, body⟩

def digitByte (digit : Nat) : Byte := BitVec.ofNat 8 (digit + 0x30)

def notice (dropped : Nat) : List Byte := lossStr1 ++ ((decimal dropped).map digitByte ++ lossStr2)

def held (cons : CbmemConsole) : Nat := min cons.bufferCursor.toNat cons.bufferSize.toNat

def room (old new : CbmemConsole) : Nat :=
  min (held old) (new.bufferSize.toNat - new.bufferCursor.toNat)

def appended (old new : CbmemConsole) : List Byte :=
  load (handedOver old new).bufferBody new.bufferCursor.toNat
    ((handedOver old new).bufferCursor.toNat - new.bufferCursor.toNat)

/-- Only bytes of the new buffer from its cursor on are written, and the text that
is appended says how much is missing. -/
structure HandsOver (old new : CbmemConsole) : Prop where
  inside : ∀ write ∈ (copyConsoleBuffer old new).writes,
    write.Inside new.bufferCursor.toNat new.bufferSize.toNat
  kept : ∀ i < new.bufferCursor.toNat, (handedOver old new).bufferBody i = new.bufferBody i
  forward : new.bufferCursor ≤ (handedOver old new).bufferCursor
  text : new.bufferCursor ≤ new.bufferSize → ∀ sent, Received old sent →
    appended old new = sent ∨
      (∃ count < sent.length, appended old new = sent.take count ++ notice (sent.length - count)) ∨
      room old new < 80 ∧ appended old new = []

/-- The new cursor and the characters to be copied do not exceed 32 bits, or the
number of characters is not wanted, or the notice for those that are lost ends in
the buffer nevertheless. -/
def Unwrapped (old new : CbmemConsole) : Prop :=
  new.bufferSize < new.bufferCursor ∨
    new.bufferCursor.toNat + held old < 4294967296 ∨
    old.bufferSize < old.bufferCursor ∧ (held old < 80 ∨
      new.bufferCursor.toNat + (held old - 80) +
        (notice (old.bufferCursor.toNat - (held old - 80))).length < new.bufferSize.toNat)

section Cursors

theorem toNat_add_of_lt {first second : BitVec 32}
    (fits : first.toNat + second.toNat < 4294967296) :
    (first + second).toNat = first.toNat + second.toNat := by
  rw [BitVec.toNat_add]
  exact Nat.mod_eq_of_lt fits

theorem add_one_add_ofNat (cursor : BitVec 32) (count : Nat) :
    cursor + 1 + BitVec.ofNat 32 count = cursor + BitVec.ofNat 32 (count + 1) := by
  apply BitVec.eq_of_toNat_eq
  simp only [BitVec.toNat_add, BitVec.toNat_ofNat, BitVec.ofNat_eq_ofNat]
  omega

end Cursors

variable {count : Nat}

section Sent

theorem load_store_append (memory : Memory) (base : Nat) (first second : List Byte) :
    load (store memory base (first ++ second)) base first.length = first := by
  rw [store_append]
  exact load_store_self _ base first

variable {bytes : List Byte}

theorem load_store_take (small : count ≤ bytes.length) (memory : Memory) (base : Nat) :
    load (store memory base bytes) base count = bytes.take count := by
  have first := load_store_append memory base (bytes.take count) (bytes.drop count)
  rwa [List.take_append_drop, List.length_take, Nat.min_eq_left small] at first

theorem foldl_txByte (sent : List Byte) (cons : CbmemConsole)
    (fits : cons.bufferCursor.toNat + sent.length < 4294967296) :
    sent.foldl CbmemConsole.txByte cons =
      ⟨cons.bufferSize, cons.bufferCursor + BitVec.ofNat 32 sent.length,
        store cons.bufferBody cons.bufferCursor.toNat
          (sent.take (cons.bufferSize.toNat - cons.bufferCursor.toNat))⟩ := by
  induction sent generalizing cons with
  | nil => simp [store]
  | cons data rest ih =>
    rw [List.length_cons] at fits
    have next : (cons.bufferCursor + 1).toNat = cons.bufferCursor.toNat + 1 :=
      toNat_add_of_lt (show _ + 1 < _ by omega)
    have cursor := add_one_add_ofNat cons.bufferCursor rest.length
    rw [List.foldl_cons, ih _ (by
      show (cons.bufferCursor + 1).toNat + _ < _
      omega)]
    simp only [CbmemConsole.txByte, next, cursor, List.length_cons, CbmemConsole.mk.injEq, true_and]
    by_cases inside : cons.bufferCursor < cons.bufferSize
    · have below : cons.bufferCursor.toNat < cons.bufferSize.toNat := inside
      obtain ⟨more, room⟩ := Nat.exists_eq_add_of_lt below
      rw [if_pos inside]
      have left : cons.bufferSize.toNat - (cons.bufferCursor.toNat + 1) = more := by
        omega
      have whole : cons.bufferSize.toNat - cons.bufferCursor.toNat = more + 1 := by
        omega
      rw [left, whole, List.take_succ_cons]
      exact store_store_append cons.bufferBody _ [data] _
    · have above : cons.bufferSize.toNat ≤ cons.bufferCursor.toNat := Nat.le_of_not_lt inside
      rw [if_neg inside, Nat.sub_eq_zero_of_le above,
        Nat.sub_eq_zero_of_le (Nat.le_succ_of_le above)]
      rfl

theorem Received.load_eq {cons : CbmemConsole} {sent : List Byte} (received : Received cons sent)
    (small : count ≤ held cons) : load cons.bufferBody 0 count = sent.take count := by
  obtain ⟨length, body, run⟩ := received
  have bound := cons.bufferCursor.isLt
  have run' := foldl_txByte sent ⟨cons.bufferSize, 0, body⟩ (by
    show 0 + sent.length < _
    omega)
  have stored : cons.bufferBody = store body 0 (sent.take (cons.bufferSize.toNat - 0)) :=
    (congrArg CbmemConsole.bufferBody (run.trans run') :)
  unfold held at small
  rw [stored, load_store_take, List.take_take, Nat.min_eq_left (by omega)]
  rw [List.length_take]
  omega

end Sent

variable {lower upper : Nat}

section Digits

def digitWrites : BitVec 32 → List Nat → List Write
  | _, [] => []
  | cursor, digit :: rest =>
    ⟨cursor.toNat, [digitByte digit]⟩ :: digitWrites (cursor + 1) rest

theorem setWidth_digit (digit : BitVec 32) : (digit + 0x30).setWidth 8 = digitByte digit.toNat := by
  apply BitVec.eq_of_toNat_eq
  simp only [digitByte, BitVec.toNat_setWidth, BitVec.toNat_add,
    BitVec.toNat_ofNat, BitVec.ofNat_eq_ofNat]
  omega

theorem itoaLoop_eq {droppedChars mult : BitVec 32}
    (power : mult.toNat = 10 ^ count / 10) (cursor : BitVec 32) (gotFirstDigit : Bool) :
    itoaLoop droppedChars mult cursor gotFirstDigit =
      ⟨digitWrites cursor (printed count gotFirstDigit droppedChars.toNat),
        cursor + BitVec.ofNat 32 (printed count gotFirstDigit droppedChars.toNat).length⟩ := by
  induction count generalizing droppedChars mult cursor gotFirstDigit with
  | zero =>
    have zero : mult = 0 := BitVec.eq_of_toNat_eq power
    unfold itoaLoop
    simp [zero, printed, digitWrites]
  | succ count ih =>
    have whole : mult.toNat = 10 ^ count := by
      rw [power, Nat.pow_succ, Nat.mul_div_cancel _ (by decide)]
    have positive : ¬ mult = 0 := by
      rintro rfl
      have positive : 0 < 10 ^ count := Nat.pow_pos (by decide)
      rw [← whole] at positive
      cases positive
    have later : (mult / 10).toNat = 10 ^ count / 10 := by
      rw [BitVec.toNat_udiv, whole]
      rfl
    have digit : (droppedChars / mult).toNat = droppedChars.toNat / 10 ^ count := by
      rw [BitVec.toNat_udiv, whole]
    have rest : (droppedChars % mult).toNat = droppedChars.toNat % 10 ^ count := by
      rw [BitVec.toNat_umod, whole]
    have zero_iff : droppedChars / mult = 0 ↔ droppedChars.toNat / 10 ^ count = 0 := by
      rw [← BitVec.toNat_inj, digit]
      rfl
    unfold itoaLoop printed
    rw [dif_neg positive, ih later, ih later, rest]
    by_cases written : (gotFirstDigit || droppedChars.toNat / 10 ^ count ≠ 0) = true
    · have written' : (gotFirstDigit || droppedChars / mult ≠ 0) = true := by
        simp only [zero_iff, ne_eq]
        exact written
      rw [if_pos written, if_pos written', setWidth_digit, digit, add_one_add_ofNat]
      rfl
    · have written' : ¬ (gotFirstDigit || droppedChars / mult ≠ 0) = true := by
        simp only [zero_iff, ne_eq]
        exact written
      rw [if_neg written, if_neg written']

variable {digits : List Nat}

theorem digitWrites_inside {cursor : BitVec 32}
    (below : cursor.toNat ≤ upper) (bound : upper < 4294967296)
    (inside : ∀ write ∈ digitWrites cursor digits, write.Inside lower upper) :
    cursor.toNat + digits.length ≤ upper := by
  induction digits generalizing cursor with
  | nil => exact below
  | cons digit rest ih =>
    have first : cursor.toNat + 1 ≤ upper := (inside _ (.head _) (List.cons_ne_nil _ _)).2
    have next : (cursor + 1).toNat = cursor.toNat + 1 := toNat_add_of_lt (show _ + 1 < _ by omega)
    have later := ih (by omega) (List.forall_mem_cons.mp inside).2
    rw [List.length_cons]
    omega

theorem foldl_digitWrites {cursor : BitVec 32}
    (fits : cursor.toNat + digits.length < 4294967296) (memory : Memory) :
    (digitWrites cursor digits).foldl Write.apply memory =
      store memory cursor.toNat (digits.map digitByte) := by
  induction digits generalizing cursor memory with
  | nil => rfl
  | cons digit rest ih =>
    rw [List.length_cons] at fits
    have next : (cursor + 1).toNat = cursor.toNat + 1 := toNat_add_of_lt (show _ + 1 < _ by omega)
    unfold digitWrites
    rw [List.foldl_cons, ih (by omega), next, List.map_cons]
    exact store_store_append memory cursor.toNat [digitByte digit] _

theorem mem_digitWrites {cursor : BitVec 32} (fits : cursor.toNat + digits.length < 4294967296) :
    ∀ write ∈ digitWrites cursor digits,
      write.Inside cursor.toNat (cursor.toNat + digits.length) := by
  induction digits generalizing cursor with
  | nil => exact List.forall_mem_nil _
  | cons digit rest ih =>
    rw [List.length_cons] at fits ⊢
    have next : (cursor + 1).toNat = cursor.toNat + 1 := toNat_add_of_lt (show _ + 1 < _ by omega)
    intro write member
    rcases List.mem_cons.mp member with rfl | member
    · intro _
      exact ⟨le_rfl, show cursor.toNat + 1 ≤ _ by omega⟩
    · have later := ih (by omega) write member
      rw [next] at later
      intro written
      have bounds := later written
      exact ⟨by omega, by omega⟩

end Digits

section Notice

theorem store_store_overwrite {tail second : List Byte}
    (shorter : tail.length ≤ second.length) (memory : Memory) (base : Nat) :
    store (store memory base tail) base second = store memory base second := by
  induction second generalizing tail memory base with
  | nil =>
    obtain rfl := List.length_eq_zero_iff.mp (Nat.le_zero.mp shorter)
    rfl
  | cons byte rest ih =>
    cases tail with
    | nil => rfl
    | cons old tail =>
      rw [List.length_cons, List.length_cons] at shorter
      funext address
      rw [store_cons_apply, store_cons_apply]
      split_ifs with here
      · rfl
      · have same : store memory base (old :: tail) address =
            store memory (base + 1) tail address := if_neg here
        rw [store_apply_congr same, ih (by omega)]

theorem store_strcpy {cursor : BitVec 32} {text more : List Byte}
    (more_ne : more ≠ []) (memory : Memory) :
    store ((strcpy cursor text).apply memory) (cursor.toNat + text.length) more =
      store memory cursor.toNat (text ++ more) := by
  have longer : ([0] : List Byte).length ≤ more.length := List.length_pos_iff.mpr more_ne
  unfold strcpy Write.apply
  rw [← store_store_append, store_store_overwrite longer, store_store_append]

theorem length_lossStr1 : lossStr1.length = 21 := by decide

theorem length_lossStr2 : lossStr2.length = 26 := by decide

theorem length_notice (dropped : Nat) :
    (notice dropped).length = 47 + (decimal dropped).length := by
  simp only [notice, List.length_append, List.length_map, length_lossStr1, length_lossStr2]
  omega

theorem decimal_ne_nil {number : Nat} (positive : 0 < number) : decimal number ≠ [] := by
  rw [decimal_of_pos positive]
  simp

variable {droppedChars : BitVec 32}

def digitsStart (cursor : BitVec 32) : BitVec 32 := cursor + BitVec.ofNat 32 21

def digitsEnd (droppedChars cursor : BitVec 32) : BitVec 32 :=
  digitsStart cursor + BitVec.ofNat 32 (decimal droppedChars.toNat).length

theorem reportLoss_eq (small : droppedChars.toNat < 1000000) (cursor : BitVec 32) :
    reportLoss droppedChars cursor =
      ⟨strcpy cursor lossStr1 ::
          (digitWrites (digitsStart cursor) (decimal droppedChars.toNat) ++
            [strcpy (digitsEnd droppedChars cursor) lossStr2]),
        digitsEnd droppedChars cursor + BitVec.ofNat 32 26⟩ := by
  have power : (100000 : BitVec 32).toNat = 10 ^ 6 / 10 := by decide
  unfold reportLoss
  rw [itoaLoop_eq power, length_lossStr1, length_lossStr2,
    printed_eq_decimal (show droppedChars.toNat < 10 ^ 6 from small)]
  rfl

section Fits

variable {cursor : BitVec 32} (small : droppedChars.toNat < 1000000)
  (positive : 0 < droppedChars.toNat)
  (fits : cursor.toNat + (notice droppedChars.toNat).length < 4294967296)

include fits

theorem toNat_digitsStart : (digitsStart cursor).toNat = cursor.toNat + 21 := by
  rw [length_notice] at fits
  exact toNat_add_of_lt (show _ + 21 < _ by omega)

theorem toNat_digitsEnd : (digitsEnd droppedChars cursor).toNat =
    cursor.toNat + 21 + (decimal droppedChars.toNat).length := by
  have start := toNat_digitsStart fits
  rw [length_notice] at fits
  have count : (BitVec.ofNat 32 (decimal droppedChars.toNat).length).toNat =
      (decimal droppedChars.toNat).length :=
    Nat.mod_eq_of_lt (show _ < 4294967296 by omega)
  unfold digitsEnd
  rw [toNat_add_of_lt (by omega), start, count]

include small

theorem toNat_reportLoss : (reportLoss droppedChars cursor).cursor.toNat =
    cursor.toNat + (notice droppedChars.toNat).length := by
  have stop := toNat_digitsEnd fits
  rw [length_notice] at fits ⊢
  rw [reportLoss_eq small, toNat_add_of_lt (by
    show _ + 26 < _
    omega), stop]
  show _ + 26 = _
  omega

theorem reportLoss_inside :
    ∀ write ∈ (reportLoss droppedChars cursor).writes,
      write.Inside cursor.toNat (cursor.toNat + (notice droppedChars.toNat).length + 1) := by
  have start := toNat_digitsStart fits
  have stop := toNat_digitsEnd fits
  have digits := @mem_digitWrites (decimal droppedChars.toNat)
    (digitsStart cursor) (by
      rw [length_notice] at fits
      omega)
  rw [length_notice, reportLoss_eq small]
  intro write member
  rcases List.mem_cons.mp member with rfl | member
  · intro _
    refine ⟨le_rfl, ?_⟩
    simp only [strcpy, List.length_append, length_lossStr1, List.length_singleton]
    omega
  · rcases List.mem_append.mp member with member | last
    · intro written
      have bounds := digits write member written
      omega
    · obtain rfl := List.mem_singleton.mp last
      intro _
      simp only [strcpy, List.length_append, length_lossStr2, List.length_singleton, stop]
      omega

include positive

theorem foldl_reportLoss (memory : Memory) :
    (reportLoss droppedChars cursor).writes.foldl Write.apply memory =
      store memory cursor.toNat (notice droppedChars.toNat ++ [0]) := by
  have start := toNat_digitsStart fits
  have stop := toNat_digitsEnd fits
  have digits_ne : (decimal droppedChars.toNat).map digitByte ≠ [] := fun none' =>
    decimal_ne_nil positive (List.map_eq_nil_iff.mp none')
  rw [reportLoss_eq small]
  simp only [List.foldl_cons, List.foldl_append, List.foldl_nil]
  rw [foldl_digitWrites (by
    rw [length_notice] at fits
    omega), start, ← length_lossStr1, store_strcpy digits_ne]
  unfold strcpy Write.apply
  rw [stop, ← length_lossStr1]
  have place : cursor.toNat + lossStr1.length +
      (decimal droppedChars.toNat).length = cursor.toNat +
        (lossStr1 ++ (decimal droppedChars.toNat).map digitByte).length := by
    rw [List.length_append, List.length_map, Nat.add_assoc]
  rw [place, store_store_append]
  simp only [notice, List.append_assoc]

end Fits

/-- A notice whose bytes are all between the cursor of the console and its end does
not wrap around, and ends with its terminator in the buffer. -/
theorem notice_fits_of_inside {droppedChars start cursor : BitVec 32} {upper : Nat}
    (small : droppedChars.toNat < 1000000) (bound : upper < 4294967296)
    (inside : ∀ write ∈ (reportLoss droppedChars cursor).writes, write.Inside start.toNat upper) :
    start.toNat ≤ cursor.toNat ∧ cursor.toNat + (notice droppedChars.toNat).length < upper := by
  rw [reportLoss_eq small] at inside
  have first := inside _ (.head _) (by simp [strcpy])
  simp only [strcpy, List.length_append, length_lossStr1, List.length_singleton] at first
  have begin' : (digitsStart cursor).toNat = cursor.toNat + 21 :=
    toNat_add_of_lt (show _ + 21 < _ by omega)
  have digits := digitWrites_inside (by omega) bound fun write member =>
    inside write (.tail _ (List.mem_append_left _ member))
  have stop : (digitsEnd droppedChars cursor).toNat =
      cursor.toNat + 21 + (decimal droppedChars.toNat).length := by
    have count : (BitVec.ofNat 32 (decimal droppedChars.toNat).length).toNat =
        (decimal droppedChars.toNat).length :=
      Nat.mod_eq_of_lt (show _ < 4294967296 by omega)
    unfold digitsEnd
    rw [toNat_add_of_lt (by omega), begin', count]
  have last := inside _ (.tail _ (List.mem_append_right _
    (.head _))) (by simp [strcpy])
  simp only [strcpy, List.length_append, length_lossStr2, List.length_singleton, stop] at last
  rw [length_notice]
  exact ⟨first.1, by omega⟩

end Notice

section Amounts

variable {old new : CbmemConsole}

theorem toNat_heldSize (cons : CbmemConsole) : (heldSize cons).toNat = held cons := by
  unfold heldSize held
  split_ifs with below
  · have lt : cons.bufferCursor.toNat < cons.bufferSize.toNat := below
    omega
  · have le : cons.bufferSize.toNat ≤ cons.bufferCursor.toNat := Nat.le_of_not_lt below
    omega

theorem copySize_of_outside (outside : new.bufferSize < new.bufferCursor) : copySize old new = 0 :=
  if_pos outside

theorem toNat_copySize (inside : new.bufferCursor ≤ new.bufferSize) :
    (copySize old new).toNat =
      if new.bufferCursor.toNat + held old < 4294967296 then room old new
      else held old := by
  have le : new.bufferCursor.toNat ≤ new.bufferSize.toNat := inside
  have bound := new.bufferSize.isLt
  have small : held old < 4294967296 := by
    rw [← toNat_heldSize]
    exact (heldSize old).isLt
  have sum : (new.bufferCursor + heldSize old).toNat =
      (new.bufferCursor.toNat + held old) % 4294967296 := by
    rw [BitVec.toNat_add, toNat_heldSize]
  have outside : ¬ new.bufferCursor > new.bufferSize := Nat.not_lt.mpr le
  unfold copySize room
  rw [if_neg outside]
  by_cases above : new.bufferCursor + heldSize old > new.bufferSize
  · have above' : new.bufferSize.toNat < (new.bufferCursor + heldSize old).toNat := above
    rw [if_pos above, BitVec.toNat_sub_of_le inside]
    rw [sum] at above'
    split_ifs with fits
    · rw [Nat.mod_eq_of_lt fits] at above'
      omega
    · omega
  · have below : (new.bufferCursor + heldSize old).toNat ≤
        new.bufferSize.toNat := Nat.le_of_not_lt above
    rw [if_neg above, toNat_heldSize]
    split_ifs with fits
    · rw [sum, Nat.mod_eq_of_lt fits] at below
      omega
    · rfl

theorem held_le (cons : CbmemConsole) : held cons ≤ cons.bufferCursor.toNat := Nat.min_le_left _ _

theorem copySize_le : (copySize old new).toNat ≤ held old := by
  rcases Nat.lt_or_ge new.bufferSize.toNat new.bufferCursor.toNat with
    outside | inside
  · rw [copySize_of_outside outside]
    exact Nat.zero_le _
  · rw [toNat_copySize inside]
    split_ifs
    · exact Nat.min_le_left _ _
    · exact le_rfl

theorem toNat_dropped : (old.bufferCursor - copySize old new).toNat =
    old.bufferCursor.toNat - (copySize old new).toNat :=
  BitVec.toNat_sub_of_le (Nat.le_trans copySize_le (held_le old))

theorem copyConsoleBuffer_whole (all : copySize old new = old.bufferCursor) :
    copyConsoleBuffer old new =
      ⟨[memcpy old new old.bufferCursor], new.bufferCursor + old.bufferCursor⟩ := by
  unfold copyConsoleBuffer
  simp [all]

theorem copyConsoleBuffer_nothing (lost : (copySize old new).toNat < old.bufferCursor.toNat)
    (few : (copySize old new).toNat < 80) : copyConsoleBuffer old new = ⟨[], new.bufferCursor⟩ := by
  have dropped : ¬ old.bufferCursor - copySize old new = 0 := fun none' => by
    have zero := @toNat_dropped old new
    rw [none'] at zero
    have : (0 : BitVec 32).toNat = 0 := rfl
    omega
  have few' : copySize old new < 80 := few
  unfold copyConsoleBuffer
  simp only [dropped, few', if_false, if_true]

theorem copyConsoleBuffer_notice (lost : (copySize old new).toNat < old.bufferCursor.toNat)
    (enough : 80 ≤ (copySize old new).toNat) :
    ∃ count droppedChars : BitVec 32,
      count.toNat = (copySize old new).toNat - 80 ∧
      droppedChars.toNat = old.bufferCursor.toNat - count.toNat ∧
      copyConsoleBuffer old new =
        ⟨memcpy old new count :: (reportLoss droppedChars (new.bufferCursor + count)).writes,
          (reportLoss droppedChars (new.bufferCursor + count)).cursor⟩ := by
  have dropped := @toNat_dropped old new
  have some' : ¬ old.bufferCursor - copySize old new = 0 := fun none' => by
    rw [none'] at dropped
    have : (0 : BitVec 32).toNat = 0 := rfl
    omega
  have enough' : ¬ copySize old new < 80 := Nat.not_lt.mpr enough
  have count : (copySize old new - 80).toNat = (copySize old new).toNat - 80 :=
    BitVec.toNat_sub_of_le enough
  have bound := old.bufferCursor.isLt
  refine ⟨_, old.bufferCursor - copySize old new + 80, count, ?_, ?_⟩
  · rw [toNat_add_of_lt (by
      show _ + 80 < _
      omega), dropped, count]
    show _ + 80 = _
    omega
  · unfold copyConsoleBuffer
    simp only [some', enough', if_false]

end Amounts

section HandOver

variable {old new : CbmemConsole}

theorem kept_of_inside {writes : List Write}
    (inside : ∀ write ∈ writes, write.Inside lower upper) (memory : Memory) {i : Nat}
    (below : i < lower) : writes.foldl Write.apply memory i = memory i := by
  induction writes generalizing memory with
  | nil => rfl
  | cons write rest ih =>
    rw [List.foldl_cons, ih (List.forall_mem_cons.mp inside).2]
    unfold Write.apply
    by_cases none' : write.bytes = []
    · rw [none']
      rfl
    · have bounds := inside write (.head _) none'
      exact store_of_outside (.inl (by omega))

/-- The appended text is what has been stored from the cursor on, without the last
terminator. -/
theorem appended_eq {text terminator : List Byte} (stored : (handedOver old new).bufferBody =
      store new.bufferBody new.bufferCursor.toNat (text ++ terminator))
    (cursor : (handedOver old new).bufferCursor.toNat = new.bufferCursor.toNat + text.length) :
    appended old new = text := by
  unfold appended
  rw [stored, cursor, Nat.add_sub_cancel_left]
  exact load_store_append _ _ text terminator

theorem handsOver_whole (all : copySize old new = old.bufferCursor)
    (fits : old.bufferCursor.toNat ≠ 0 →
      new.bufferCursor.toNat + old.bufferCursor.toNat ≤
        new.bufferSize.toNat) : HandsOver old new := by
  have output := copyConsoleBuffer_whole all
  have bound := new.bufferSize.isLt
  have bound' := new.bufferCursor.isLt
  have cursor : (new.bufferCursor + old.bufferCursor).toNat =
      new.bufferCursor.toNat + old.bufferCursor.toNat := by
    apply toNat_add_of_lt
    by_cases none' : old.bufferCursor.toNat = 0
    · omega
    · have := fits none'
      omega
  have inside : ∀ write ∈ (copyConsoleBuffer old new).writes,
      write.Inside new.bufferCursor.toNat new.bufferSize.toNat := by
    rw [output]
    intro write member written
    obtain rfl := List.mem_singleton.mp member
    refine ⟨le_rfl, ?_⟩
    simp only [memcpy, length_load]
    refine fits fun none' => written ?_
    simp [memcpy, none', load]
  refine ⟨inside, fun i below => kept_of_inside inside _ below, ?_, ?_⟩
  · show new.bufferCursor.toNat ≤ (copyConsoleBuffer old new).cursor.toNat
    rw [output, cursor]
    exact Nat.le_add_right _ _
  · intro _ sent received
    have held' : old.bufferCursor.toNat ≤ held old := by
      rw [← all]
      exact copySize_le
    have text := received.load_eq held'
    rw [received.1, List.take_length] at text
    left
    apply @appended_eq old new _ []
    · show (copyConsoleBuffer old new).writes.foldl Write.apply _ = _
      rw [output, List.append_nil, ← text, ← received.1]
      rfl
    · show (copyConsoleBuffer old new).cursor.toNat = _
      rw [output, cursor, received.1]

theorem handsOver_nothing (lost : (copySize old new).toNat < old.bufferCursor.toNat)
    (few : (copySize old new).toNat < 80)
    (little : new.bufferCursor ≤ new.bufferSize → room old new < 80) : HandsOver old new := by
  have output := copyConsoleBuffer_nothing lost few
  have inside : ∀ write ∈ (copyConsoleBuffer old new).writes,
      write.Inside new.bufferCursor.toNat new.bufferSize.toNat := by
    simp [output]
  have cursor : (handedOver old new).bufferCursor = new.bufferCursor :=
    congrArg Output.cursor output
  refine ⟨inside, fun i below => kept_of_inside inside _ below, ?_, ?_⟩
  · rw [cursor]
    exact Nat.le_refl _
  · intro fits sent received
    right
    right
    refine ⟨little fits, ?_⟩
    unfold appended
    rw [cursor, Nat.sub_self]
    rfl

theorem handsOver_notice (short : old.bufferCursor.toNat < 1000000)
    (lost : (copySize old new).toNat < old.bufferCursor.toNat)
    (enough : 80 ≤ (copySize old new).toNat)
    (fits : new.bufferCursor.toNat + ((copySize old new).toNat - 80) +
      (notice (old.bufferCursor.toNat -
        ((copySize old new).toNat - 80))).length < new.bufferSize.toNat) : HandsOver old new := by
  obtain ⟨count, droppedChars, count_eq, dropped_eq, output⟩ := copyConsoleBuffer_notice lost enough
  rw [← count_eq, ← dropped_eq] at fits
  have bound := new.bufferSize.isLt
  have cursor : (new.bufferCursor + count).toNat = new.bufferCursor.toNat + count.toNat :=
    toNat_add_of_lt (by omega)
  have small : droppedChars.toNat < 1000000 := by omega
  have positive : 0 < droppedChars.toNat := by omega
  have fits' : (new.bufferCursor + count).toNat +
      (notice droppedChars.toNat).length < 4294967296 := by omega
  have report := reportLoss_inside small fits'
  have final := toNat_reportLoss small fits'
  have inside : ∀ write ∈ (copyConsoleBuffer old new).writes,
      write.Inside new.bufferCursor.toNat new.bufferSize.toNat := by
    rw [output]
    intro write member written
    rcases List.mem_cons.mp member with rfl | member
    · refine ⟨le_rfl, ?_⟩
      simp only [memcpy, length_load]
      omega
    · have bounds := report write member written
      omega
  refine ⟨inside, fun i below => kept_of_inside inside _ below, ?_, ?_⟩
  · show new.bufferCursor.toNat ≤ (copyConsoleBuffer old new).cursor.toNat
    rw [output]
    dsimp only
    omega
  · intro _ sent received
    have copied : load old.bufferBody 0 count.toNat = sent.take count.toNat :=
      received.load_eq (Nat.le_trans (by omega) (@copySize_le old new))
    have length : (sent.take count.toNat).length = count.toNat := by
      rw [← copied, length_load]
    have total := received.1
    right
    left
    refine ⟨count.toNat, by omega, ?_⟩
    rw [← total, ← dropped_eq]
    apply @appended_eq old new _ [0]
    · show (copyConsoleBuffer old new).writes.foldl Write.apply _ = _
      rw [output]
      simp only [List.foldl_cons]
      rw [foldl_reportLoss small positive fits', cursor, List.append_assoc]
      have stored := store_store_append new.bufferBody new.bufferCursor.toNat
        (sent.take count.toNat) (notice droppedChars.toNat ++ [0])
      rw [length] at stored
      unfold Write.apply memcpy
      rw [copied, stored]
    · show (copyConsoleBuffer old new).cursor.toNat = _
      rw [output, final, cursor, List.length_append, length, Nat.add_assoc]

theorem length_notice_le {dropped : Nat} (small : dropped < 1000000) :
    (notice dropped).length ≤ 53 := by
  have digits : (decimal dropped).length ≤ 6 := length_decimal_le (show dropped < 10 ^ 6 from small)
  rw [length_notice]
  omega

theorem handsOver_of_sum (short : old.bufferCursor.toNat < 1000000)
    (inside : new.bufferCursor.toNat ≤ new.bufferSize.toNat)
    (sum : new.bufferCursor.toNat + held old < 4294967296) : HandsOver old new := by
  have size := @toNat_copySize old new inside
  have most := @copySize_le old new
  have least := held_le old
  have into : room old new ≤ new.bufferSize.toNat - new.bufferCursor.toNat := Nat.min_le_right _ _
  rw [if_pos sum] at size
  by_cases all : (copySize old new).toNat = old.bufferCursor.toNat
  · apply handsOver_whole (BitVec.eq_of_toNat_eq all)
    omega
  · by_cases few : (copySize old new).toNat < 80
    · exact handsOver_nothing (by omega) few fun _ => by omega
    · have notices := @length_notice_le (old.bufferCursor.toNat -
        ((copySize old new).toNat - 80)) (by omega)
      exact handsOver_notice short (by omega) (by omega) (by omega)

theorem handsOver_of_outside (outside : new.bufferSize < new.bufferCursor) : HandsOver old new := by
  have size := @copySize_of_outside old new outside
  have zero : (copySize old new).toNat = 0 := congrArg BitVec.toNat size
  by_cases none' : old.bufferCursor = 0
  · apply handsOver_whole (size.trans none'.symm)
    intro some'
    exact absurd (congrArg BitVec.toNat none') some'
  · have positive : old.bufferCursor.toNat ≠ 0 := fun zero' =>
      none' (BitVec.eq_of_toNat_eq zero')
    exact handsOver_nothing (by omega) (by omega) fun inside =>
      absurd outside (Nat.not_lt.mpr inside)

/-- With a wrap-around all characters in the old console are copied, and the notice
has to end in the buffer. -/
theorem fits_of_handsOver (short : old.bufferCursor.toNat < 1000000) (hands : HandsOver old new)
    (inside : new.bufferCursor.toNat ≤ new.bufferSize.toNat)
    (wraps : 4294967296 ≤ new.bufferCursor.toNat + held old) :
    old.bufferSize < old.bufferCursor ∧ (held old < 80 ∨
      new.bufferCursor.toNat + (held old - 80) +
        (notice (old.bufferCursor.toNat - (held old - 80))).length < new.bufferSize.toNat) := by
  have bound := new.bufferSize.isLt
  have bound' := new.bufferCursor.isLt
  have size := @toNat_copySize old new inside
  have all := hands.inside
  rw [if_neg (by omega)] at size
  rcases Nat.lt_or_ge old.bufferSize.toNat old.bufferCursor.toNat with
    lost | whole
  · refine ⟨lost, ?_⟩
    by_cases few : held old < 80
    · exact .inl few
    · have lost' : (copySize old new).toNat < old.bufferCursor.toNat := by
        rw [size]
        exact Nat.lt_of_le_of_lt (Nat.min_le_right _ _) lost
      obtain ⟨count, droppedChars, count_eq, dropped_eq, output⟩ :=
        copyConsoleBuffer_notice lost' (by omega)
      rw [output] at all
      have fits := notice_fits_of_inside (by omega) bound (List.forall_mem_cons.mp all).2
      have cursor : (new.bufferCursor + count).toNat =
          (new.bufferCursor.toNat + count.toNat) % 4294967296 :=
        BitVec.toNat_add _ _
      have least := held_le old
      rw [dropped_eq, count_eq, size] at fits
      rw [count_eq, size] at cursor
      right
      omega
  · have copied : held old = old.bufferCursor.toNat := by
      unfold held
      omega
    rw [copyConsoleBuffer_whole (BitVec.eq_of_toNat_eq (size.trans copied))] at all
    have last := (all _ (.head _) fun none' => by
      have length := congrArg List.length none'
      simp only [memcpy, length_load, List.length_nil] at length
      omega).2
    simp only [memcpy, length_load] at last
    omega

/-- The console is handed over as it should be exactly if the amounts do not wrap
around, or the wrap-around does no harm. -/
theorem handsOver_iff (old new : CbmemConsole) (short : old.bufferCursor.toNat < 1000000) :
    HandsOver old new ↔ Unwrapped old new := by
  unfold Unwrapped
  rcases Nat.lt_or_ge new.bufferSize.toNat new.bufferCursor.toNat with
    outside | inside
  · exact iff_of_true (handsOver_of_outside outside) (.inl outside)
  · rcases Nat.lt_or_ge (new.bufferCursor.toNat + held old) 4294967296 with
      sum | wraps
    · exact iff_of_true (handsOver_of_sum short inside sum) (.inr (.inl sum))
    · have size := @toNat_copySize old new inside
      rw [if_neg (Nat.not_lt.mpr wraps)] at size
      constructor
      · exact fun hands =>
          .inr (.inr (fits_of_handsOver short hands inside wraps))
      · rintro (outside | sum | ⟨lost, harmless⟩)
        · exact absurd outside (Nat.not_lt.mpr inside)
        · exact absurd sum (Nat.not_lt.mpr wraps)
        · have lost' : held old < old.bufferCursor.toNat :=
            Nat.lt_of_le_of_lt (Nat.min_le_right _ _) lost
          by_cases few : held old < 80
          · refine handsOver_nothing (by omega) (by omega) fun _ => ?_
            exact Nat.lt_of_le_of_lt (Nat.min_le_left _ _) few
          · rw [← size] at harmless few
            exact handsOver_notice short (by omega) (by omega) (harmless.resolve_left few)

def smallConsole : CbmemConsole := ⟨16, 2, fun _ => 0x61⟩

theorem handsOver_smallConsole : HandsOver smallConsole smallConsole :=
  (handsOver_iff _ _ (by decide)).mpr (.inr (.inl (by decide)))

/-- The two characters do not fit behind a cursor at the end of the largest buffer,
but the sum of the cursor and their number is 0. -/
theorem not_handsOver_largest : ¬ ∀ old new : CbmemConsole,
    old.bufferCursor.toNat < 1000000 → HandsOver old new := by
  intro hands
  have inside := (hands smallConsole ⟨0xffffffff, 0xfffffffe, fun _ => 0⟩
    (by decide)).inside ⟨0xfffffffe, [0x61, 0x61]⟩ (by
      rw [copyConsoleBuffer_whole (by decide)]
      exact List.mem_singleton.mpr rfl) (List.cons_ne_nil _ _)
  exact absurd inside.2 (by decide)

end HandOver

end Coreboot.Console
