import Coreboot.CbfsLocated
import Coreboot.SteppedRun

/-!
# The firmware interface table

The processor loads microcode updates before the firmware runs, and finds them through a table
near the top of the flash.
-/

namespace Coreboot.Fit

open ByteMemory Cbfs SteppedRun

/-- The memory of the host, by the distance from the start of a buffer. -/
abbrev Host := Int → Byte

def viewAt (host : Host) (place : Int) : Memory := fun offset => host (place + offset)

def imageOf (host : Host) (size : Nat) : Image := ⟨size, viewAt host 0⟩

def fitPointerLocation : Nat := 0xffffffc0
def fitTableLowestAddress : Nat := 0xff000000
def fitEntryChecksumValid : Nat := 0x80
def fitTypeHeader : Nat := 0x0
def fitHeaderVersion : Nat := 0x0100
def fitTypeMicrocode : Nat := 0x1
def fitMicrocodeVersion : Nat := 0x0100

def fitHeaderAddress : List Byte := [0x5f, 0x46, 0x49, 0x54, 0x5f, 0x20, 0x20, 0x20]

def sizeofEntry : Nat := 16

def sizeReserved (table : Memory) (entry : Nat) : Nat := readLE 4 table (entry + 8)

def fitEntrySizeBytes (table : Memory) (entry : Nat) : Nat := sizeReserved table entry % 2 ^ 24 * 16

def fitEntryUpdateSize (table : Memory) (entry : Nat) (sizeBytes : Int) : Memory :=
  writeLE 4 table (entry + 8) (sizeBytes / 16 % 2 ^ 24).toNat

def fitEntryAddSize (table : Memory) (entry : Nat) (sizeBytes : Int) : Memory :=
  fitEntryUpdateSize table entry (fitEntrySizeBytes table entry + sizeBytes)

def fitEntryType (table : Memory) (entry : Nat) : Nat :=
  readLE 1 table (entry + 14) % fitEntryChecksumValid

def ptrToOffset (helper : Nat → Nat) (hostPtr : Nat) : Int := toInt32 (helper (sub32 0 hostPtr))

def offsetToPtr (helper : Nat → Nat) (offset : Int) : Nat :=
  sub32 0 (helper (offset % 2 ^ 32).toNat)

/-- `locate_fit_table`: where the table is in the buffer. -/
def locateFitTable (helper : Nat → Nat) (buffer : Host) : Option Int :=
  let fitPointer := viewAt buffer (ptrToOffset helper fitPointerLocation)
  if readLE 4 fitPointer 4 ≠ 0 ∨ readLE 4 fitPointer 0 < fitTableLowestAddress then
    none
  else
    let place := ptrToOffset helper (readLE 4 fitPointer 0)
    let table := viewAt buffer place
    if load table 0 8 ≠ fitHeaderAddress then none
    else if readLE 2 table 12 ≠ fitHeaderVersion then none
    else if fitEntryType table 0 ≠ fitTypeHeader then none
    else if fitEntrySizeBytes table 0 ≠ sizeofEntry then none
    else some place

/-- The sum of bytes in a `uint8_t`. -/
def byteSum (bytes : List Byte) : Byte := bytes.foldl (· + ·) 0

def updateFitChecksum (fit : Memory) : Memory :=
  let fit := store fit 15 [0]
  let sizeBytes := fitEntrySizeBytes fit 0
  store fit 15 [-byteSum (load fit 0 sizeBytes)]

structure MicrocodeEntry where
  offset : Int
  size : Int
deriving DecidableEq

/-- The turn of `add_microcodde_entries` for an entry. -/
def addMicrocodeEntry (helper : Nat → Nat) (fit : Memory) (index : Nat)
    (mcu : MicrocodeEntry) : Memory :=
  let entry := sizeofEntry + sizeofEntry * index
  let fit := writeLE 8 fit entry (offsetToPtr helper mcu.offset)
  let fit := fitEntryUpdateSize fit entry mcu.size
  let fit := writeLE 2 fit (entry + 12) fitMicrocodeVersion
  let fit := writeLE 1 fit (entry + 14) fitTypeMicrocode
  let fit := writeLE 1 fit (entry + 15) 0
  fitEntryAddSize fit 0 sizeofEntry

def addMicrocoddeEntries (helper : Nat → Nat) : Memory → Nat → List MicrocodeEntry → Memory
  | fit, _, [] => fit
  | fit, index, mcu :: rest =>
    addMicrocoddeEntries helper (addMicrocodeEntry helper fit index mcu) (index + 1) rest

def sizeofMicrocodeHeader : Nat := 48

def totalSize (host : Host) (place : Int) : Nat := readLE 4 (viewAt host place) 32

/-- The variables of the loop of `parse_microcode_blob`. -/
structure BlobState where
  currentOffset : Nat
  fileLength : Nat
  mcus : List MicrocodeEntry

def blobStep (host : Host) (totalMcus : Nat) (state : BlobState) :
    BlobState ⊕ List MicrocodeEntry :=
  if state.fileLength > sizeofMicrocodeHeader then
    let total := totalSize host (toInt32 state.currentOffset)
    if total < sizeofMicrocodeHeader then .inr state.mcus
    else
      let mcus := state.mcus ++ [⟨toInt32 state.currentOffset, toInt32 total⟩]
      let currentOffset := add32 state.currentOffset total
      let fileLength := sub32 state.fileLength total
      -- Reached limit of FIT entries.
      if mcus.length = totalMcus then .inr mcus
      else if fileLength < sizeofMicrocodeHeader then .inr mcus
      else .inl ⟨currentOffset, fileLength, mcus⟩
  else .inr state.mcus

def dataStart (host : Host) (file : Nat) : Nat := add32 (entryOffset (viewAt host 0) file) file

def dataLength (host : Host) (file : Nat) : Nat := entryLen (viewAt host 0) file

/-- `parse_microcode_blob` records these updates. -/
def ParsesBlob (host : Host) (file totalMcus : Nat) (mcus : List MicrocodeEntry) : Prop :=
  EndsWith (blobStep host totalMcus) ⟨dataStart host file, dataLength host file, []⟩ mcus

/-- The table at the end of `fit_update_table`. -/
def updatedTable (helper : Nat → Nat) (table : Memory) (mcus : List MicrocodeEntry) : Memory :=
  updateFitChecksum (addMicrocoddeEntries helper table 0 mcus)

/-- The bootblock with the table at the end of `fit_update_table`. -/
def bootblockAfter (helper : Nat → Nat) (bootblock : Host) (place : Int)
    (mcus : List MicrocodeEntry) : Host :=
  fun address => if address < place then bootblock address
    else updatedTable helper (viewAt bootblock place) mcus (address - place).toNat

/-- `fit_update_table` succeeds with a bootblock at the end: the table and the file
are found, and the updates in it are recorded.  The converters are those of the two
regions. -/
structure FitUpdateTable (bootblockHelper imageHelper : Nat → Nat)
    (bootblock host : Host) (size : Nat) (name : List Byte) (emptyEntries : Nat)
    (place : Int) (file : Nat) (mcus : List MicrocodeEntry) (final : Host) :
    Prop where
  located : locateFitTable bootblockHelper bootblock = some place
  found : cbfsGetEntry (imageOf host size) name = some (some file)
  parsed : ParsesBlob host file emptyEntries mcus
  after : final = bootblockAfter imageHelper bootblock place mcus

/-- Every update starts where the one before it ends. -/
def Consecutive : Int → List MicrocodeEntry → Prop
  | _, [] => True
  | start, mcu :: rest => mcu.offset = start ∧ Consecutive (start + mcu.size) rest

/-- The updates that are recorded are one behind the other in the data. -/
structure Recorded (start length totalMcus : Nat) (mcus : List MicrocodeEntry) :
    Prop where
  few : mcus.length ≤ totalMcus
  inside : ∀ mcu ∈ mcus, start ≤ mcu.offset ∧ 0 < mcu.size ∧ mcu.offset + mcu.size ≤ start + length
  consecutive : Consecutive start mcus
  disjoint : mcus.Pairwise fun first second =>
    first.offset + first.size ≤ second.offset

/-- The header counts itself and the entries, and the bytes of the table have the sum
zero. -/
structure Counts (table : Memory) (entries : Nat) : Prop where
  size : fitEntrySizeBytes table 0 = sizeofEntry + sizeofEntry * entries
  sum : byteSum (load table 0 (fitEntrySizeBytes table 0)) = 0

/-- The parser ends, and what it records and the table are as they should be. -/
def UpdatesWell (bootblockHelper imageHelper : Nat → Nat) (bootblock host : Host)
    (size : Nat) (name : List Byte) (emptyEntries : Nat) (place : Int) (file : Nat) :
    Prop :=
  ∃ mcus final, FitUpdateTable bootblockHelper imageHelper bootblock host size name
      emptyEntries place file mcus final ∧
    Recorded (dataStart host file) (dataLength host file) emptyEntries mcus ∧
    Counts (viewAt final place) mcus.length

/-- The sizes of up to a number of updates in the rest of a file. -/
def sizesFrom (host : Host) : Nat → Nat → Nat → List Nat
  | 0, _, _ => []
  | count + 1, place, left =>
    if sizeofMicrocodeHeader < left ∧ sizeofMicrocodeHeader ≤ totalSize host place then
      totalSize host place ::
        sizesFrom host count (place + totalSize host place) (left - totalSize host place)
    else []

/-- The updates that are met end in the file, there are entries for them, and the
size of the table has 24 bits. -/
structure Contained (host : Host) (start length totalMcus : Nat) : Prop where
  sum : (sizesFrom host (max totalMcus 1) start length).sum ≤ length
  few : (sizesFrom host (max totalMcus 1) start length).length ≤ totalMcus
  count : (sizesFrom host (max totalMcus 1) start length).length + 1 < 2 ^ 24

section Loop

variable {host : Host} {totalMcus : Nat}

def entriesFrom : Nat → List Nat → List MicrocodeEntry
  | _, [] => []
  | start, size :: rest => ⟨start, size⟩ :: entriesFrom (start + size) rest

theorem length_entriesFrom (start : Nat) (sizes : List Nat) :
    (entriesFrom start sizes).length = sizes.length := by
  induction sizes generalizing start with
  | nil => rfl
  | cons size rest ih => simp [entriesFrom, ih]

theorem totalSize_lt (host : Host) (place : Int) : totalSize host place < 4294967296 :=
  readLE_lt 4 _ _

variable {state : BlobState} {place left : Nat} {count : Nat}

theorem blobStep_of_short (short : ¬ (sizeofMicrocodeHeader < state.fileLength ∧
      sizeofMicrocodeHeader ≤ totalSize host (toInt32 state.currentOffset))) :
    blobStep host totalMcus state = .inr state.mcus := by
  unfold blobStep
  by_cases long : state.fileLength > sizeofMicrocodeHeader
  · have small := Nat.lt_of_not_le fun large => short ⟨long, large⟩
    rw [if_pos long, if_pos small]
  · rw [if_neg long]

def afterUpdate (host : Host) (state : BlobState) : BlobState :=
  let total := totalSize host (toInt32 state.currentOffset)
  ⟨add32 state.currentOffset total, sub32 state.fileLength total,
    state.mcus ++ [⟨toInt32 state.currentOffset, toInt32 total⟩]⟩

theorem blobStep_of_long {state : BlobState} (long : sizeofMicrocodeHeader < state.fileLength)
    (large : sizeofMicrocodeHeader ≤ totalSize host (toInt32 state.currentOffset)) :
    blobStep host totalMcus state =
      if (afterUpdate host state).mcus.length = totalMcus ∨
          (afterUpdate host state).fileLength < sizeofMicrocodeHeader then
        .inr (afterUpdate host state).mcus
      else .inl (afterUpdate host state) := by
  have long' : state.fileLength > sizeofMicrocodeHeader := long
  unfold blobStep
  rw [if_pos long', if_neg (Nat.not_lt.mpr large)]
  change (if (afterUpdate host state).mcus.length = totalMcus then
      Sum.inr (afterUpdate host state).mcus
    else if (afterUpdate host state).fileLength < sizeofMicrocodeHeader then
      Sum.inr (afterUpdate host state).mcus
    else Sum.inl (afterUpdate host state)) = _
  by_cases full : (afterUpdate host state).mcus.length = totalMcus
  · rw [if_pos full, if_pos (Or.inl full)]
  · by_cases short : (afterUpdate host state).fileLength < sizeofMicrocodeHeader
    · rw [if_neg full, if_pos short, if_pos (Or.inr short)]
    · rw [if_neg full, if_neg short, if_neg (not_or.mpr ⟨full, short⟩)]

theorem prefix_of_step (state : BlobState) :
    match blobStep host totalMcus state with
    | .inl next => state.mcus <+: next.mcus
    | .inr mcus => state.mcus <+: mcus := by
  by_cases turn : sizeofMicrocodeHeader < state.fileLength ∧
      sizeofMicrocodeHeader ≤ totalSize host (toInt32 state.currentOffset)
  · rw [blobStep_of_long turn.1 turn.2]
    have extended : state.mcus <+: (afterUpdate host state).mcus := List.prefix_append _ _
    split_ifs
    · exact extended
    · exact extended
  · simp only [blobStep_of_short turn, List.prefix_refl]

theorem prefix_of_endsWith {mcus : List MicrocodeEntry}
    (ends : EndsWith (blobStep host totalMcus) state mcus) : state.mcus <+: mcus := by
  obtain ⟨last, reaches, ended⟩ := ends
  have kept : state.mcus <+: last.mcus := by
    apply reaches.invariant (fun reached => state.mcus <+: reached.mcus) (List.prefix_refl _)
    intro reached next before moves
    have turn := @prefix_of_step host totalMcus reached
    rw [moves] at turn
    exact before.trans turn
  have turn := @prefix_of_step host totalMcus last
  rw [ended] at turn
  exact kept.trans turn

theorem afterUpdate_of_fits {state : BlobState}
    (fits : state.currentOffset + state.fileLength < 2147483648)
    (inside : totalSize host state.currentOffset ≤ state.fileLength) :
    afterUpdate host state =
      ⟨state.currentOffset + totalSize host state.currentOffset,
        state.fileLength - totalSize host state.currentOffset,
        state.mcus ++ [⟨state.currentOffset, totalSize host state.currentOffset⟩]⟩ := by
  have place : toInt32 state.currentOffset = state.currentOffset := toInt32_of_lt (by omega)
  have size : toInt32 (totalSize host state.currentOffset) = totalSize host state.currentOffset :=
    toInt32_of_lt (by omega)
  unfold afterUpdate
  rw [place]
  dsimp only
  rw [size, add32_of_lt (by omega), sub32_of_le inside (by omega)]

theorem sizesFrom_of_short
    (short : ¬ (sizeofMicrocodeHeader < left ∧ sizeofMicrocodeHeader ≤ totalSize host place)) :
    sizesFrom host count place left = [] := by
  cases count with
  | zero => rfl
  | succ count => rw [sizesFrom, if_neg short]

theorem sizesFrom_of_long (count : Nat)
    (long : sizeofMicrocodeHeader < left ∧ sizeofMicrocodeHeader ≤ totalSize host place) :
    sizesFrom host (count + 1) place left = totalSize host place ::
      sizesFrom host count (place + totalSize host place) (left - totalSize host place) := by
  rw [sizesFrom, if_pos long]

theorem length_sizesFrom (count place left : Nat) :
    (sizesFrom host count place left).length ≤ count := by
  induction count generalizing place left with
  | zero => exact le_rfl
  | succ count ih =>
    by_cases long : sizeofMicrocodeHeader < left ∧ sizeofMicrocodeHeader ≤ totalSize host place
    · rw [sizesFrom_of_long count long, List.length_cons]
      exact Nat.succ_le_succ (ih _ _)
    · rw [sizesFrom_of_short long]
      exact Nat.zero_le _

theorem pos_of_mem_sizesFrom {count size : Nat}
    (member : size ∈ sizesFrom host count place left) : 0 < size := by
  induction count generalizing place left with
  | zero => cases member
  | succ count ih =>
    by_cases long : sizeofMicrocodeHeader < left ∧ sizeofMicrocodeHeader ≤ totalSize host place
    · rw [sizesFrom_of_long count long, List.mem_cons] at member
      rcases member with rfl | later
      · exact Nat.lt_of_lt_of_le (by decide) long.2
      · exact ih later
    · rw [sizesFrom_of_short long] at member
      cases member

theorem endsWith_of_sum {state : BlobState}
    (fits : state.currentOffset + state.fileLength < 2147483648)
    (room : state.mcus.length + (count + 1) = totalMcus)
    (sum : (sizesFrom host (count + 1) state.currentOffset state.fileLength).sum ≤
      state.fileLength) :
    EndsWith (blobStep host totalMcus) state (state.mcus ++
      entriesFrom state.currentOffset
        (sizesFrom host (count + 1) state.currentOffset state.fileLength)) := by
  induction count generalizing state with
  | zero =>
    have place : toInt32 state.currentOffset = state.currentOffset := toInt32_of_lt (by omega)
    by_cases long : sizeofMicrocodeHeader < state.fileLength ∧
        sizeofMicrocodeHeader ≤ totalSize host state.currentOffset
    · rw [sizesFrom_of_long 0 long, List.sum_cons] at sum
      rw [sizesFrom_of_long 0 long]
      have after := @afterUpdate_of_fits host state fits (by omega)
      refine ⟨state, .refl, ?_⟩
      rw [blobStep_of_long long.1 (by rw [place]; exact long.2), if_pos, after]
      · rfl
      · left
        rw [after, List.length_append]
        exact room
    · refine ⟨state, .refl, ?_⟩
      rw [sizesFrom_of_short long, blobStep_of_short (by rwa [place]), entriesFrom, List.append_nil]
  | succ count ih =>
    have place : toInt32 state.currentOffset = state.currentOffset := toInt32_of_lt (by omega)
    by_cases long : sizeofMicrocodeHeader < state.fileLength ∧
        sizeofMicrocodeHeader ≤ totalSize host state.currentOffset
    · rw [sizesFrom_of_long _ long, List.sum_cons] at sum
      rw [sizesFrom_of_long _ long, entriesFrom]
      have after := @afterUpdate_of_fits host state fits (by omega)
      have step := @blobStep_of_long host totalMcus state long.1 (by rw [place]; exact long.2)
      have open' : (afterUpdate host state).mcus.length ≠ totalMcus := by
        rw [after, List.length_append, List.length_singleton]
        omega
      by_cases short : (afterUpdate host state).fileLength < sizeofMicrocodeHeader
      · refine ⟨state, .refl, ?_⟩
        rw [step, if_pos (.inr short)]
        rw [after] at short ⊢
        rw [sizesFrom_of_short fun both => absurd both.1 (Nat.not_lt.mpr short.le), entriesFrom]
      · rw [if_neg (not_or.mpr ⟨open', short⟩)] at step
        have rest := @ih (afterUpdate host state)
        rw [after] at rest step
        have later := rest (by dsimp only; omega)
          (by rw [List.length_append, List.length_singleton]; omega)
          (by dsimp only; omega)
        rw [List.append_assoc, List.singleton_append] at later
        exact .of_moves step later
    · refine ⟨state, .refl, ?_⟩
      rw [sizesFrom_of_short long, blobStep_of_short (by rwa [place]), entriesFrom, List.append_nil]

theorem lt_of_toInt32_pos {value : Nat} (word : value < 4294967296)
    (positive : 0 < toInt32 value) : value < 2147483648 := by
  unfold toInt32 at positive
  rw [Int.bmod_def] at positive
  split_ifs at positive <;> omega

theorem afterUpdate_prefix {mcus : List MicrocodeEntry}
    (long : sizeofMicrocodeHeader < state.fileLength ∧
      sizeofMicrocodeHeader ≤ totalSize host (toInt32 state.currentOffset))
    (ends : EndsWith (blobStep host totalMcus) state mcus) :
    (afterUpdate host state).mcus <+: mcus := by
  have step := @blobStep_of_long host totalMcus state long.1 long.2
  split_ifs at step with behind
  · rw [endsWith_iff_of_ended step] at ends
    simp only [ends, List.prefix_refl]
  · exact prefix_of_endsWith ((endsWith_iff_of_moves step).mp ends)

theorem sum_of_endsWith {state : BlobState} {mcus : List MicrocodeEntry}
    (fits : state.currentOffset + state.fileLength < 2147483648)
    (room : state.mcus.length + count = totalMcus)
    (ends : 0 < count → EndsWith (blobStep host totalMcus) state mcus)
    (inside : ∀ mcu ∈ mcus, 0 < mcu.size ∧
      mcu.offset + mcu.size ≤ (state.currentOffset + state.fileLength : Nat)) :
    (sizesFrom host count state.currentOffset state.fileLength).sum ≤ state.fileLength := by
  induction count generalizing state with
  | zero => exact Nat.zero_le _
  | succ count ih =>
    have place : toInt32 state.currentOffset = state.currentOffset := toInt32_of_lt (by omega)
    by_cases long : sizeofMicrocodeHeader < state.fileLength ∧
        sizeofMicrocodeHeader ≤ totalSize host state.currentOffset
    · have long' := long
      rw [← place] at long'
      have step := @blobStep_of_long host totalMcus state long'.1 long'.2
      have ends' := ends (Nat.succ_pos count)
      have recorded := afterUpdate_prefix long' ends'
      obtain ⟨positive, ends''⟩ := inside _ (recorded.subset (List.mem_append_right _ (.head _)))
      dsimp only at positive ends''
      rw [place] at positive ends''
      have word := lt_of_toInt32_pos (totalSize_lt _ _) positive
      rw [toInt32_of_lt word] at ends''
      have contained : totalSize host state.currentOffset ≤ state.fileLength := by
        omega
      have after := @afterUpdate_of_fits host state fits contained
      rw [sizesFrom_of_long _ long, List.sum_cons]
      have rest := @ih (afterUpdate host state)
      rw [after] at rest
      dsimp only at rest
      have together : state.currentOffset + totalSize host state.currentOffset +
          (state.fileLength - totalSize host state.currentOffset) =
            state.currentOffset + state.fileLength := by
        omega
      rw [together] at rest
      rw [after] at step
      dsimp only at step
      by_cases short : state.fileLength - totalSize host state.currentOffset < sizeofMicrocodeHeader
      · rw [sizesFrom_of_short fun both => absurd both.1 (Nat.not_lt.mpr short.le)]
        exact contained
      · have room' : (state.mcus ++ [(⟨state.currentOffset,
            totalSize host state.currentOffset⟩ : MicrocodeEntry)]).length + count = totalMcus := by
          rw [List.length_append, List.length_singleton]
          omega
        have later := rest fits room' ?_ inside
        · omega
        · intro more
          rw [if_neg (not_or.mpr ⟨by omega, short⟩)] at step
          exact (endsWith_iff_of_moves step).mp ends'
    · rw [sizesFrom_of_short long]
      exact Nat.zero_le _

end Loop

section Records

variable {host : Host} {start : Nat} {sizes : List Nat}

theorem consecutive_entriesFrom (start : Nat) (sizes : List Nat) :
    Consecutive start (entriesFrom start sizes) := by
  induction sizes generalizing start with
  | nil => trivial
  | cons size rest ih =>
    refine ⟨rfl, ?_⟩
    have later := ih (start + size)
    rw [Nat.cast_add] at later
    exact later

theorem bounds_of_mem_entriesFrom (positive : ∀ size ∈ sizes, 0 < size)
    {mcu : MicrocodeEntry} (member : mcu ∈ entriesFrom start sizes) :
    start ≤ mcu.offset ∧ 0 < mcu.size ∧ mcu.offset + mcu.size ≤ start + sizes.sum := by
  induction sizes generalizing start with
  | nil => cases member
  | cons size rest ih =>
    rw [entriesFrom, List.mem_cons] at member
    rw [List.sum_cons]
    have here := positive size (.head _)
    rcases member with rfl | later
    · dsimp only
      omega
    · have bounds := ih (fun other found => positive other (.tail _ found)) later
      omega

theorem pairwise_entriesFrom (positive : ∀ size ∈ sizes, 0 < size) :
    (entriesFrom start sizes).Pairwise fun first second =>
      first.offset + first.size ≤ second.offset := by
  induction sizes generalizing start with
  | nil => exact .nil
  | cons size rest ih =>
    have later : ∀ other ∈ rest, 0 < other := fun other found => positive other (.tail _ found)
    rw [entriesFrom, List.pairwise_cons]
    refine ⟨fun mcu member => ?_, ih later⟩
    have bounds := bounds_of_mem_entriesFrom later member
    dsimp only
    omega

end Records

section Table

variable {table : Memory} {helper : Nat → Nat}

theorem foldl_add (bytes : List Byte) (first : Byte) :
    bytes.foldl (· + ·) first = first + byteSum bytes := by
  unfold byteSum
  induction bytes generalizing first with
  | nil => simp
  | cons byte rest ih =>
    rw [List.foldl_cons, List.foldl_cons, ih, ih (0 + byte)]
    simp [BitVec.add_assoc]

@[simp]
theorem byteSum_append (first second : List Byte) :
    byteSum (first ++ second) = byteSum first + byteSum second := by
  rw [byteSum, List.foldl_append, foldl_add]
  rfl

@[simp]
theorem byteSum_cons (byte : Byte) (rest : List Byte) :
    byteSum (byte :: rest) = byte + byteSum rest := by
  rw [byteSum, List.foldl_cons, foldl_add]
  simp

theorem byteSum_load_store {size : Nat} (inside : 16 ≤ size) (byte : Byte) :
    byteSum (load (store table 15 [byte]) 0 size) =
      byteSum (load table 0 15) + byte + byteSum (load table 16 (size - 16)) := by
  obtain ⟨rest, rfl⟩ := Nat.exists_eq_add_of_le inside
  have before : load (store table 15 [byte]) 0 15 = load table 0 15 :=
    load_store_of_disjoint (.inl le_rfl)
  have here : load (store table 15 [byte]) 15 1 = [byte] := load_store_self table 15 [byte]
  have behind : load (store table 15 [byte]) 16 rest = load table 16 rest :=
    load_store_of_disjoint (.inr le_rfl)
  rw [Nat.add_sub_cancel_left, load_append _ 0 16, load_append _ 0 15 1, before]
  simp [here, behind, BitVec.add_assoc]

@[simp]
theorem fitEntrySizeBytes_store_checksum (table : Memory) (byte : Byte) :
    fitEntrySizeBytes (store table 15 [byte]) 0 = fitEntrySizeBytes table 0 := by
  unfold fitEntrySizeBytes sizeReserved
  rw [readLE_store_of_disjoint (.inl (by decide))]

@[simp]
theorem fitEntrySizeBytes_updateFitChecksum (table : Memory) :
    fitEntrySizeBytes (updateFitChecksum table) 0 = fitEntrySizeBytes table 0 := by
  simp [updateFitChecksum]

theorem byteSum_updateFitChecksum (header : 16 ≤ fitEntrySizeBytes table 0) :
    byteSum (load (updateFitChecksum table) 0 (fitEntrySizeBytes table 0)) = 0 := by
  unfold updateFitChecksum
  dsimp only
  rw [fitEntrySizeBytes_store_checksum, byteSum_load_store header, byteSum_load_store header]
  have before : load (store table 15 [0]) 0 15 = load table 0 15 :=
    load_store_of_disjoint (.inl le_rfl)
  have behind : load (store table 15 [0]) 16 (fitEntrySizeBytes table 0 - 16) =
      load table 16 (fitEntrySizeBytes table 0 - 16) :=
    load_store_of_disjoint (.inr le_rfl)
  rw [before, behind]
  grind

theorem sizeReserved_addMicrocodeEntry (table : Memory) (index : Nat) (mcu : MicrocodeEntry) :
    sizeReserved (addMicrocodeEntry helper table index mcu) 0 % 2 ^ 24 =
      (sizeReserved table 0 % 2 ^ 24 + 1) % 2 ^ 24 := by
  have apart (fit : Memory) (width base number : Nat) (behind : 12 ≤ base) :
      sizeReserved (writeLE width fit base number) 0 = sizeReserved fit 0 :=
    readLE_store_of_disjoint (.inl behind)
  have header (fit : Memory) (number : Nat) (word : number < 4294967296) :
      sizeReserved (writeLE 4 fit 8 number) 0 = number :=
    readLE_writeLE_self fit 8 word
  unfold addMicrocodeEntry fitEntryAddSize fitEntryUpdateSize fitEntrySizeBytes
  simp only [sizeofEntry, Nat.zero_add]
  rw [header _ _ (by omega), apart _ _ _ _ (by omega), apart _ _ _ _ (by omega),
    apart _ _ _ _ (by omega), apart _ _ _ _ (by omega), apart _ _ _ _ (by omega)]
  omega

theorem sizeReserved_addMicrocoddeEntries (table : Memory) (index : Nat)
    (mcus : List MicrocodeEntry) :
    sizeReserved (addMicrocoddeEntries helper table index mcus) 0 % 2 ^ 24 =
      (sizeReserved table 0 % 2 ^ 24 + mcus.length) % 2 ^ 24 := by
  induction mcus generalizing table index with
  | nil => simp [addMicrocoddeEntries]
  | cons mcu rest ih =>
    rw [addMicrocoddeEntries, ih, sizeReserved_addMicrocodeEntry, List.length_cons]
    omega

theorem counts_updatedTable (header : fitEntrySizeBytes table 0 = sizeofEntry)
    {mcus : List MicrocodeEntry} (few : mcus.length + 1 < 2 ^ 24) :
    Counts (updatedTable helper table mcus) mcus.length := by
  have added := @sizeReserved_addMicrocoddeEntries helper table 0 mcus
  have counted : fitEntrySizeBytes (addMicrocoddeEntries helper table 0 mcus) 0 =
      sizeofEntry + sizeofEntry * mcus.length := by
    unfold fitEntrySizeBytes sizeofEntry at *
    omega
  have size : fitEntrySizeBytes (updatedTable helper table mcus) 0 =
      sizeofEntry + sizeofEntry * mcus.length := by
    rw [updatedTable, fitEntrySizeBytes_updateFitChecksum, counted]
  refine ⟨size, ?_⟩
  rw [size, ← counted, updatedTable]
  apply byteSum_updateFitChecksum
  rw [counted]
  exact Nat.le_add_right _ _

theorem lt_of_counts {entries : Nat} (counts : Counts table entries) : entries + 1 < 2 ^ 24 := by
  have size := counts.size
  unfold fitEntrySizeBytes sizeofEntry at size
  omega

@[simp]
theorem viewAt_bootblockAfter (helper : Nat → Nat) (bootblock : Host) (place : Int)
    (mcus : List MicrocodeEntry) :
    viewAt (bootblockAfter helper bootblock place mcus) place =
      updatedTable helper (viewAt bootblock place) mcus := by
  funext offset
  have behind : ¬ place + (offset : Int) < place := by omega
  simp [viewAt, bootblockAfter, behind]

theorem fitEntrySizeBytes_of_located {buffer : Host} {place : Int}
    (located : locateFitTable helper buffer = some place) :
    fitEntrySizeBytes (viewAt buffer place) 0 = sizeofEntry := by
  unfold locateFitTable at located
  dsimp only at located
  split_ifs at located with _ _ _ _ size
  rw [← Option.some.inj located]
  exact not_not.mp size

end Table

section Update

variable {bootblockHelper imageHelper : Nat → Nat} {bootblock host : Host}
  {size : Nat} {name : List Byte} {emptyEntries : Nat} {place : Int} {file : Nat}
  {entries : List Entry}

theorem data_of_held (held : Held (imageOf host size) entries)
    (found : cbfsGetEntry (imageOf host size) name = some (some file)) :
    dataStart host file + dataLength host file < 2147483648 := by
  rw [cbfsGetEntry_spec held name] at found
  obtain ⟨⟨before, e, after⟩, looked, same⟩ := Option.map_eq_some_iff.mp (Option.some.inj found)
  obtain ⟨split, -⟩ := lookup_spec looked
  rw [split] at held
  obtain ⟨entryAt, -, inside⟩ := held.parts
  have small := held.small
  have fits := entryAt.header.fits
  rw [show spanOf before = file from same] at fits inside
  change entryOffset (viewAt host 0) file + entryLen (viewAt host 0) file ≤ _ at fits
  change _ ≤ size at inside
  change size < _ at small
  unfold dataStart dataLength
  rw [add32_of_lt (by omega)]
  omega

theorem parsesBlob_of_contained (fits : dataStart host file + dataLength host file < 2147483648)
    (contained : Contained host (dataStart host file) (dataLength host file) emptyEntries) :
    ParsesBlob host file emptyEntries (entriesFrom (dataStart host file)
      (sizesFrom host (max emptyEntries 1) (dataStart host file) (dataLength host file))) := by
  unfold ParsesBlob
  cases emptyEntries with
  | zero =>
    have few := contained.few
    have none' := List.eq_nil_of_length_eq_zero (Nat.le_zero.mp few)
    have place : toInt32 (dataStart host file) = dataStart host file := toInt32_of_lt (by omega)
    rw [none']
    refine ⟨_, .refl, ?_⟩
    rw [blobStep_of_short, entriesFrom]
    rw [place]
    intro long
    rw [Nat.zero_max, sizesFrom_of_long 0 long] at none'
    cases none'
  | succ count =>
    have sum := contained.sum
    rw [Nat.max_eq_left (Nat.succ_pos count)] at sum ⊢
    have ends := @endsWith_of_sum host (count + 1) count
      ⟨dataStart host file, dataLength host file, []⟩ fits (Nat.zero_add _) sum
    rwa [List.nil_append] at ends

theorem UpdatesWell.contained (fits : dataStart host file + dataLength host file < 2147483648)
    (well : UpdatesWell bootblockHelper imageHelper bootblock host size name
      emptyEntries place file) :
    Contained host (dataStart host file) (dataLength host file) emptyEntries := by
  obtain ⟨mcus, final, ⟨-, -, parsed, after⟩, recorded, counts⟩ := well
  rw [after, viewAt_bootblockAfter] at counts
  have few := lt_of_counts counts
  cases emptyEntries with
  | zero =>
    have nothing := List.eq_nil_of_length_eq_zero (Nat.le_zero.mp recorded.few)
    have place : toInt32 (dataStart host file) = dataStart host file := toInt32_of_lt (by omega)
    have short : ¬ (sizeofMicrocodeHeader < dataLength host file ∧
        sizeofMicrocodeHeader ≤ totalSize host (dataStart host file)) := by
      intro long
      rw [← place] at long
      have first := afterUpdate_prefix long parsed
      rw [nothing, List.prefix_nil] at first
      exact absurd first (List.append_ne_nil_of_right_ne_nil _ (by simp))
    constructor
    · rw [sizesFrom_of_short short]
      exact Nat.zero_le _
    · rw [sizesFrom_of_short short]
      exact le_rfl
    · rw [sizesFrom_of_short short]
      decide
  | succ count =>
    have sum := @sum_of_endsWith host (count + 1) (count + 1)
      ⟨dataStart host file, dataLength host file, []⟩ mcus fits (Nat.zero_add _)
      (fun _ => parsed) fun mcu member =>
        ⟨(recorded.inside mcu member).2.1, (recorded.inside mcu member).2.2⟩
    have ends := @endsWith_of_sum host (count + 1) count
      ⟨dataStart host file, dataLength host file, []⟩ fits (Nat.zero_add _) sum
    have same := congrArg List.length (parsed.unique ends)
    rw [List.nil_append, length_entriesFrom] at same
    rw [same] at few
    have most : max (count + 1) 1 = count + 1 := Nat.max_eq_left (Nat.succ_pos count)
    constructor
    · rw [most]
      exact sum
    · rw [most]
      exact length_sizesFrom _ _ _
    · rw [most]
      exact few

/-- The updates of a file are recorded as they should be if and only if they end in
the file and there are entries for them. -/
theorem updatesWell_iff (held : Held (imageOf host size) entries)
    (located : locateFitTable bootblockHelper bootblock = some place)
    (found : cbfsGetEntry (imageOf host size) name = some (some file)) :
    UpdatesWell bootblockHelper imageHelper bootblock host size name emptyEntries place file ↔
      Contained host (dataStart host file) (dataLength host file) emptyEntries := by
  have fits := data_of_held held found
  refine ⟨UpdatesWell.contained fits, fun contained => ?_⟩
  have positive : ∀ size ∈ sizesFrom host (max emptyEntries 1) (dataStart host file)
      (dataLength host file), 0 < size :=
    fun size member => pos_of_mem_sizesFrom member
  refine ⟨_, _, ⟨located, found, parsesBlob_of_contained fits contained, rfl⟩,
    ⟨?_, ?_, consecutive_entriesFrom _ _, pairwise_entriesFrom positive⟩, ?_⟩
  · rw [length_entriesFrom]
    exact contained.few
  · intro mcu member
    have bounds := bounds_of_mem_entriesFrom positive member
    have sum := contained.sum
    omega
  · rw [viewAt_bootblockAfter]
    apply counts_updatedTable (fitEntrySizeBytes_of_located located)
    rw [length_entriesFrom]
    exact contained.count

end Update

def hostOf (bytes : List Byte) : Host := fun place => bytes.getD place.toNat 0

/-- An image with one file of 64 bytes, that says how large an update it holds. -/
def microcodeHost (total : Byte) : Host :=
  hostOf (cbfsFileMagic ++ [0, 0, 0, 64, 0, 0, 0, 0x53, 0, 0, 0, 0, 0, 0, 0, 64] ++
    (0x6d :: List.replicate 39 0) ++ (List.replicate 32 0 ++ [total]))

/-- A bootblock of 72 bytes that ends with a table and room for two entries. -/
def bootblockHost : Host :=
  hostOf (List.replicate 8 0 ++ [0xd0, 0xff, 0xff, 0xff] ++ List.replicate 12 0 ++
    (fitHeaderAddress ++ [1, 0, 0, 0, 0, 1]))

def smallRegion (offset : Nat) : Nat := sub32 72 offset

theorem held_microcodeHost (total : Byte) : ∃ metadata content,
    Held (imageOf (microcodeHost total) 128) [⟨128, .file ⟨metadata, content⟩⟩] := by
  have offset : entryOffset (viewAt (microcodeHost total) 0) 0 = 64 := rfl
  have len : entryLen (viewAt (microcodeHost total) 0) 0 = 64 := rfl
  have type : entryType (viewAt (microcodeHost total) 0) 0 = 0x53 := rfl
  have header : HeaderAt (viewAt (microcodeHost total) 0) 0 128 := by
    constructor
    · rfl
    · rw [offset]
      decide
    · rw [offset, len]
    · rw [offset, len]
      decide
    · decide
  have small : 128 < 2147483648 := by decide
  refine ⟨load (viewAt (microcodeHost total) 0) 0 64,
    load (viewAt (microcodeHost total) 0) 64 64, ⟨⟨⟨header, ?_⟩, trivial⟩, rfl, small⟩⟩
  change (entryType (viewAt (microcodeHost total) 0) 0 ≠ _ ∧
    entryType (viewAt (microcodeHost total) 0) 0 ≠ _) ∧ _
  rw [type]
  refine ⟨⟨by decide, by decide⟩, ⟨?_, ?_⟩, ?_, ?_⟩
  · rw [length_load]
    exact offset
  · rw [length_load]
    exact len
  · rw [length_load]
    rfl
  · rw [length_load, length_load]
    rfl

theorem found_microcodeHost (total : Byte) :
    cbfsGetEntry (imageOf (microcodeHost total) 128) [0x6d] = some (some 0) := by
  obtain ⟨metadata, content, held⟩ := held_microcodeHost total
  rw [cbfsGetEntry_spec held]
  rfl

theorem located_bootblockHost : locateFitTable smallRegion bootblockHost = some 24 := by
  have pointer : ptrToOffset smallRegion fitPointerLocation = 8 := by decide +kernel
  have table : ptrToOffset smallRegion 0xffffffd0 = 24 := by decide +kernel
  have address : readLE 4 (viewAt bootblockHost 8) 0 = 0xffffffd0 := rfl
  have high : readLE 4 (viewAt bootblockHost 8) 4 = 0 := rfl
  unfold locateFitTable
  dsimp only
  rw [pointer, address, high, table, if_neg (by decide)]
  rfl

/-- An update that fills its file. -/
theorem updatesWell_whole :
    UpdatesWell smallRegion smallRegion bootblockHost (microcodeHost 64) 128 [0x6d] 1 24 0 ↔
      Contained (microcodeHost 64) (dataStart (microcodeHost 64) 0)
        (dataLength (microcodeHost 64) 0) 1 := by
  obtain ⟨metadata, content, held⟩ := held_microcodeHost 64
  exact updatesWell_iff held located_bootblockHost (found_microcodeHost 64)

/-- An update of 65 bytes in a file of 64. -/
theorem not_updatesWell_truncated :
    ¬ ∀ (bootblock host : Host) (size : Nat) (name : List Byte) (emptyEntries : Nat)
      (place : Int) (file : Nat) (entries : List Entry),
      Held (imageOf host size) entries →
      locateFitTable smallRegion bootblock = some place →
      cbfsGetEntry (imageOf host size) name = some (some file) →
      UpdatesWell smallRegion smallRegion bootblock host size name emptyEntries place file := by
  intro claim
  obtain ⟨metadata, content, held⟩ := held_microcodeHost 65
  have found := found_microcodeHost 65
  have well := claim _ _ _ _ 1 _ _ _ held located_bootblockHost found
  have sum := (well.contained (data_of_held held found)).sum
  have start : dataStart (microcodeHost 65) 0 = 64 := rfl
  have length : dataLength (microcodeHost 65) 0 = 64 := rfl
  have total : totalSize (microcodeHost 65) (64 : Nat) = 65 := rfl
  have long : sizeofMicrocodeHeader < 64 ∧
      sizeofMicrocodeHeader ≤ totalSize (microcodeHost 65) (64 : Nat) := by
    rw [total]
    decide
  rw [start, length, show max 1 1 = 0 + 1 from rfl, sizesFrom_of_long 0 long, total] at sum
  exact absurd sum (by decide)

end Coreboot.Fit
