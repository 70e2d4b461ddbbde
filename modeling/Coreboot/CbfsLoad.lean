import Coreboot.CbfsAttributeWalk
import Coreboot.Lz4Frame
import Coreboot.RegionDevice

/-!
# Loading a file

The length of the contents, the size of the buffer and the compression come from different
places of the flash. Addresses are counted from one turn of the address space below the buffer.
-/

namespace Coreboot.CbfsLoad

open ByteMemory SteppedRun Lz4Frame RegionDevice

def cbfsCompressNone : Nat := 0

def cbfsCompressLzma : Nat := 1

def cbfsCompressLz4 : Nat := 2

structure Build where
  envBootblock : Bool
  envVerstage : Bool
  envRomstage : Bool
  envPostcar : Bool
  configCompressPreramStages : Bool
  configCompressRamstage : Bool
  configNoXipEarlyStages : Bool
  configBootDeviceMemoryMapped : Bool
  configFatalAsserts : Bool

def Build.lz4 (build : Build) : Bool :=
  !((build.envBootblock || build.envVerstage) && !build.configCompressPreramStages)

def Build.lzma (build : Build) : Bool :=
  !(build.envBootblock || build.envVerstage) &&
    !((build.envRomstage || build.envPostcar) && !build.configCompressRamstage)

structure ReadOutcome (width : Nat) where
  data : List Byte
  returned : BitVec width

structure Mapping where
  base : Nat
  contents : Memory

/-- The operations of the drivers.  A read stores no more than was asked for. -/
structure Media (width : Nat) where
  readat : Driver → BitVec width → BitVec width → ReadOutcome width
  mmap : Driver → BitVec width → BitVec width → Option Mapping
  bounded : ∀ ops offset size, (readat ops offset size).data.length ≤ size.toNat

/-- `ulzman`: the memory after it and what it returns, for the mapped source, its
size, the destination and its size. -/
abbrev Ulzman := Memory → Mapping → Nat → Nat → Nat → Memory × Nat

/-- The arguments of `cbfs_load_and_decompress`. -/
structure LoadCall (width : Nat) where
  rdev : RegionDevice.Device width
  offset : BitVec width
  inSize : BitVec width
  buffer : BitVec width
  bufferSize : BitVec width
  compression : Nat

namespace LoadCall

variable {width : Nat} (call : LoadCall width)

/-- The address of the buffer, from one turn of the address space below. -/
def start : Nat := 2 ^ width + call.buffer.toNat

def comprStart : Nat := call.start + call.bufferSize.toNat - call.inSize.toNat

def buffers : Buffers where
  source := call.comprStart
  sourceSize := call.inSize.toNat
  dest := call.start
  destSize := call.bufferSize.toNat

def InBuffer (address : Nat) : Prop :=
  (address + 2 ^ width - call.buffer.toNat) % 2 ^ width < call.bufferSize.toNat

end LoadCall

/-- A call begins, or it is in the loop of `ulz4fn`. -/
inductive LoadState where
  | start (memory : Memory)
  | block (hasBlockChecksum : Bool) (state : LoopState)

def LoadState.accesses : LoadState → List Access
  | .start _ => []
  | .block _ state => state.accesses

section Functions

variable {width : Nat} (build : Build) (media : Media width) (ulzman : Ulzman)
  (decompress : DecompressGeneric)

/-- `rdev_readat` into a buffer. -/
def readat (rd : RegionDevice.Device width) (offset size : BitVec width) : ReadOutcome width :=
  match rdevReadat rd offset size with
  | .called ops _ offset size => media.readat ops offset size
  | _ => ⟨[], -1⟩

def mmap (rd : RegionDevice.Device width) (offset size : BitVec width) : Option Mapping :=
  match rdevMmap rd offset size with
  | .called ops _ offset size => media.mmap ops offset size
  | _ => none

variable (call : LoadCall width)

def loadPlain (memory : Memory) : Result :=
  if call.bufferSize < call.inSize then ⟨0, memory, []⟩
  else
    let read := readat media call.rdev call.offset call.inSize
    let memory := store memory call.start read.data
    let accesses := [.write call.start read.data.length]
    if read.returned ≠ call.inSize then ⟨0, memory, accesses⟩
    else ⟨call.inSize.toNat, memory, accesses⟩

/-- The case of LZ4, up to the loop of `ulz4fn`. -/
def loadLz4 (memory : Memory) : LoadState ⊕ Result :=
  if build.lz4 then
    let read := readat media call.rdev call.offset call.inSize
    let memory := store memory call.comprStart read.data
    let accesses := [.write call.comprStart read.data.length]
    if read.returned ≠ call.inSize then .inr ⟨0, memory, accesses⟩
    else
      match enterFrame call.buffers memory with
      | .inl (hasBlockChecksum, state) =>
        .inl (.block hasBlockChecksum { state with accesses := accesses ++ state.accesses })
      | .inr result =>
        .inr { result with accesses := accesses ++ result.accesses }
  else .inr ⟨0, memory, []⟩

def loadLzma (memory : Memory) : Result :=
  if build.lzma then
    match mmap media call.rdev call.offset call.inSize with
    | none => ⟨0, memory, []⟩
    | some map =>
      let (memory, outSize) := ulzman memory map call.inSize.toNat call.start call.bufferSize.toNat
      ⟨outSize, memory, [.write call.start call.bufferSize.toNat]⟩
  else ⟨0, memory, []⟩

/-- A step of `cbfs_load_and_decompress`. -/
def loadStep : LoadState → LoadState ⊕ Result
  | .start memory =>
    if call.compression = cbfsCompressNone then
      .inr (loadPlain media call memory)
    else if call.compression = cbfsCompressLz4 then
      loadLz4 build media call memory
    else if call.compression = cbfsCompressLzma then
      .inr (loadLzma build media ulzman call memory)
    else .inr ⟨0, memory, []⟩
  | .block hasBlockChecksum state =>
    match blockStep width decompress call.buffers hasBlockChecksum state with
    | .inl next => .inl (.block hasBlockChecksum next)
    | .inr result => .inr result

def cbfsLoadAndDecompress (fuel : Nat) (memory : Memory) : Option Result :=
  run (loadStep build media ulzman decompress call) fuel (.start memory)

end Functions

structure CbfsStage where
  compression : Nat
  entry : Nat
  load : Nat
  len : Nat
  memlen : Nat

def cbfsStageSize : Nat := 28

/-- The fields are in the endianness of the processor. -/
def decodeStage (memory : Memory) : CbfsStage where
  compression := readLE 4 memory 0
  entry := readLE 8 memory 4
  load := readLE 8 memory 12
  len := readLE 4 memory 20
  memlen := readLE 4 memory 24

structure Cbfsf (width : Nat) where
  metadata : RegionDevice.Device width
  data : RegionDevice.Device width

section Callers

variable {width : Nat} (build : Build) (media : Media width)

/-- The call that `cbfs_boot_load_struct` makes for the file that it located. -/
def cbfsBootLoadStruct (fuel : Nat) (fh : Cbfsf width)
    (buf bufSize : BitVec width) : Option (LoadCall width) := do
  let metadataSize := fh.metadata.region.size
  let map ← mmap media fh.metadata 0 metadataSize
  let (compressionAlgo, decompressedSize) ←
    (CbfsAttributeWalk.cbfsfDecompressionInfo width
      (load map.contents 0 metadataSize.toNat) fuel fh.data.region.size.toNat).join
  if bufSize.toNat < decompressedSize then none
  else return ⟨fh.data, 0, fh.data.region.size, buf, bufSize, compressionAlgo⟩

/-- The call that `cbfs_prog_stage_load` makes; the header is read into a local
variable, over what was there. -/
def cbfsProgStageLoad (stack : Memory) (fh : RegionDevice.Device width) : Option (LoadCall width) :=
  let size := BitVec.ofNat width cbfsStageSize
  let read := readat media fh 0 size
  if read.returned ≠ size then none
  else
    let stage := decodeStage (store stack 0 read.data)
    let fsize := fh.region.size - size
    if build.configFatalAsserts ∧ fsize.toNat ≠ stage.len then none
    else
      let load := BitVec.ofNat width stage.load
      -- Programs over read only media initialize themselves.
      if build.envVerstage ∧ ¬ build.configNoXipEarlyStages ∧
          build.configBootDeviceMemoryMapped ∧
            ((mmap media fh size fsize).map Mapping.base).getD 0 = load.toNat then
        none
      else some ⟨fh, size, fsize, load, BitVec.ofNat width stage.memlen, stage.compression⟩

/-- The rest of `cbfs_prog_stage_load`, if something was loaded: the area that is
not covered by the file is cleared. -/
def clearRest (call : LoadCall width) (result : Result) : Option Result :=
  if result.outSize = 0 then none
  else
    let size := (call.bufferSize.toNat + 2 ^ width - result.outSize) % 2 ^ width
    some
      { result with
        memory := fill result.memory (call.start + result.outSize) size 0
        accesses := result.accesses ++ [.write (call.start + result.outSize) size] }

/-- The functions that call `cbfs_load_and_decompress`, with their arguments. -/
inductive Caller (width : Nat) where
  | bootLoadStruct (fh : Cbfsf width) (buf bufSize : BitVec width)
  | progStageLoad (stack : Memory) (fh : RegionDevice.Device width)

def Caller.Calls (caller : Caller width) (call : LoadCall width) : Prop :=
  match caller with
  | .bootLoadStruct fh buf bufSize =>
    ∃ fuel, cbfsBootLoadStruct media fuel fh buf bufSize = some call
  | .progStageLoad stack fh => cbfsProgStageLoad build media stack fh = some call

end Callers

/-- `ulzman` keeps to the destination. -/
structure UlzmanBounded (ulzman : Ulzman) : Prop where
  writes : ∀ memory map sourceSize dest destSize address,
    address < dest ∨ dest + destSize ≤ address →
    (ulzman memory map sourceSize dest destSize).1 address = memory address
  returns : ∀ memory map sourceSize dest destSize,
    (ulzman memory map sourceSize dest destSize).2 ≤ destSize

section Contract

variable {width : Nat} (build : Build) (media : Media width) (ulzman : Ulzman)
  (decompress : DecompressGeneric)

/-- Every write is inside of the buffer, and so is what is returned. -/
structure LoadSafe (call : LoadCall width) (memory : Memory) : Prop where
  writes : ∀ state,
    Reaches (loadStep build media ulzman decompress call) (.start memory) state →
      WritesWithin call.InBuffer state.accesses
  result : ∀ fuel result,
    cbfsLoadAndDecompress build media ulzman decompress call fuel memory = some result →
      WritesWithin call.InBuffer result.accesses ∧ result.outSize ≤ call.bufferSize.toNat

def Overflows (call : LoadCall width) : Prop :=
  call.compression = cbfsCompressLz4 ∧ build.lz4 = true ∧
    call.bufferSize < call.inSize ∧ (readat media call.rdev call.offset call.inSize).data ≠ []

instance (call : LoadCall width) : Decidable (Overflows build media call) :=
  inferInstanceAs (Decidable (_ ∧ _ ∧ _ ∧ _))

end Contract

section Safe

variable {width : Nat} {build : Build} {media : Media width} {ulzman : Ulzman}
  {decompress : DecompressGeneric} {call : LoadCall width}

theorem size_of_callRoot {operation called : Operation} {ops : Driver}
    {rd : RegionDevice.Device width} {req : Region width} {offset size : BitVec width}
    (is : callRoot operation rd req = .called ops called offset size) : size = req.size := by
  induction rd generalizing req with
  | child root region ih => exact ih is
  | driver driver region =>
    rw [callRoot] at is
    split_ifs at is
    · cases is
      rfl
    · cases operation <;> cases is
  | xlate accessDev subRegion rw region ih =>
    rw [callRoot] at is
    split_ifs at is
    · split at is
      · cases is
      · next inner accepted =>
          rw [normalizeAndOk] at accepted
          split_ifs at accepted
          cases accepted
          have called := ih is
          exact called
    · cases operation <;> cases is

theorem length_readat (media : Media width) (rd : RegionDevice.Device width)
    (offset size : BitVec width) : (readat media rd offset size).data.length ≤ size.toNat := by
  rw [readat]
  split
  · next ops operation start length is =>
      rw [rdevReadat, rdevAccess] at is
      split at is
      · cases is
      · next req accepted =>
          rw [normalizeAndOk] at accepted
          split_ifs at accepted
          cases accepted
          rw [size_of_callRoot is]
          exact media.bounded _ _ _
  · exact Nat.zero_le _

theorem inBuffer_start {call : LoadCall width} {address : Nat} (above : call.start ≤ address)
    (below : address < call.start + call.bufferSize.toNat) : call.InBuffer address := by
  rw [LoadCall.start] at above below
  obtain ⟨skip, rfl⟩ := Nat.exists_eq_add_of_le above
  have size := call.bufferSize.isLt
  rw [LoadCall.InBuffer, show 2 ^ width + call.buffer.toNat + skip + 2 ^ width -
      call.buffer.toNat = skip + 2 ^ width + 2 ^ width by omega,
    Nat.add_mod_right, Nat.add_mod_right, Nat.mod_eq_of_lt (by omega)]
  omega

theorem writesWithin_buffer (call : LoadCall width) {skip size : Nat}
    (fits : skip + size ≤ call.bufferSize.toNat) :
    WritesWithin call.InBuffer [.write (call.start + skip) size] :=
  writesWithin_write fun _ above below =>
    inBuffer_start (by omega) (by omega)

structure LoadInvariant (call : LoadCall width) (state : LoadState) : Prop where
  writes : WritesWithin call.InBuffer state.accesses
  room : ∀ hasBlockChecksum inner, state = .block hasBlockChecksum inner →
    inner.output ≤ call.bufferSize.toNat

structure LoadResult (call : LoadCall width) (result : Result) : Prop where
  writes : WritesWithin call.InBuffer result.accesses
  room : result.outSize ≤ call.bufferSize.toNat

theorem loadResult_failed (memory : Memory) {accesses : List Access}
    (writes : WritesWithin call.InBuffer accesses) :
    LoadResult call ⟨0, memory, accesses⟩ where
  writes := writes
  room := Nat.zero_le _

theorem loadPlain_spec (memory : Memory) : LoadResult call (loadPlain media call memory) := by
  rw [loadPlain]
  split_ifs with larger
  · exact loadResult_failed _ writesWithin_nil
  have fits : call.inSize.toNat ≤ call.bufferSize.toNat := Nat.not_lt.mp larger
  have stored := length_readat media call.rdev call.offset call.inSize
  have writes := writesWithin_buffer call ((Nat.zero_add _).le.trans (stored.trans fits))
  dsimp only
  split_ifs
  · exact loadResult_failed _ writes
  · exact ⟨writes, fits⟩

theorem writesWithin_image (lz4 : call.compression = cbfsCompressLz4)
    (enabled : build.lz4 = true) (fine : ¬ Overflows build media call) :
    WritesWithin call.InBuffer [.write call.comprStart
      (readat media call.rdev call.offset call.inSize).data.length] := by
  have stored := length_readat media call.rdev call.offset call.inSize
  by_cases larger : call.bufferSize < call.inSize
  · have nothing : (readat media call.rdev call.offset call.inSize).data = [] :=
      by_contra fun something => fine ⟨lz4, enabled, larger, something⟩
    rw [nothing]
    exact writesWithin_write fun _ above below => absurd above (Nat.not_le.mpr below)
  · have fits : call.inSize.toNat ≤ call.bufferSize.toNat := Nat.not_lt.mp larger
    have start : call.comprStart = call.start + (call.bufferSize.toNat - call.inSize.toNat) := by
      rw [LoadCall.comprStart]
      omega
    rw [start]
    exact writesWithin_buffer call (by omega)

theorem loadLz4_spec (lz4 : call.compression = cbfsCompressLz4)
    (fine : ¬ Overflows build media call) (memory : Memory) :
    match loadLz4 build media call memory with
    | .inl next => LoadInvariant call next
    | .inr result => LoadResult call result := by
  rw [loadLz4]
  split_ifs with enabled
  · have writes := writesWithin_image lz4 enabled fine
    dsimp only
    split_ifs
    · exact loadResult_failed _ writes
    · have frame := enterFrame_spec call.InBuffer call.buffers
        (store memory call.comprStart (readat media call.rdev call.offset call.inSize).data)
      cases entered : enterFrame call.buffers (store memory call.comprStart
          (readat media call.rdev call.offset call.inSize).data) with
      | inl loop =>
        rw [entered] at frame
        obtain ⟨begins, more⟩ := frame
        exact
          { writes := writes.append more
            room := by
              rintro _ _ ⟨⟩
              exact begins.le.trans (Nat.zero_le _) }
      | inr result =>
        rw [entered] at frame
        exact ⟨writes.append frame.2, frame.1.le.trans (Nat.zero_le _)⟩
  · exact loadResult_failed _ writesWithin_nil

theorem loadLzma_spec (bounded : UlzmanBounded ulzman) (memory : Memory) :
    LoadResult call (loadLzma build media ulzman call memory) := by
  rw [loadLzma]
  split_ifs
  · split
    · exact loadResult_failed _ writesWithin_nil
    · exact
        { writes := writesWithin_buffer call (Nat.zero_add _).le
          room := bounded.returns _ _ _ _ _ }
  · exact loadResult_failed _ writesWithin_nil

theorem loadStep_spec (build : Build) (media : Media width) (ulzmanBounded : UlzmanBounded ulzman)
    (bounded : Bounded decompress) (fine : ¬ Overflows build media call) {state : LoadState}
    (invariant : LoadInvariant call state) :
    match loadStep build media ulzman decompress call state with
    | .inl next => LoadInvariant call next
    | .inr result => LoadResult call result := by
  cases state with
  | start memory =>
    rw [loadStep]
    split_ifs with _ lz4
    · exact loadPlain_spec memory
    · exact loadLz4_spec lz4 fine memory
    · exact loadLzma_spec ulzmanBounded memory
    · exact loadResult_failed _ writesWithin_nil
  | block hasBlockChecksum inner =>
    have turn := blockStep_writes call.buffers bounded
      (fun _ above below => inBuffer_start above below) width hasBlockChecksum
        (invariant.room _ _ rfl) invariant.writes
    rw [loadStep]
    cases taken : blockStep width decompress call.buffers hasBlockChecksum inner with
    | inl next =>
      rw [taken] at turn
      exact
        { writes := turn.2
          room := by
            rintro _ _ ⟨⟩
            exact turn.1 }
    | inr result =>
      rw [taken] at turn
      exact ⟨turn.2, turn.1⟩

theorem loadSafe_of_not_overflows (ulzmanBounded : UlzmanBounded ulzman)
    (bounded : Bounded decompress) (fine : ¬ Overflows build media call) (memory : Memory) :
    LoadSafe build media ulzman decompress call memory := by
  have start : LoadInvariant call (.start memory) := ⟨writesWithin_nil, nofun⟩
  have reached : ∀ state,
      Reaches (loadStep build media ulzman decompress call) (.start memory)
        state → LoadInvariant call state := by
    intro state reaches
    refine reaches.invariant (LoadInvariant call) start ?_
    intro state next invariant moves
    have spec := loadStep_spec build media ulzmanBounded bounded fine invariant
    rwa [moves] at spec
  constructor
  · exact fun state reaches => (reached state reaches).writes
  · intro fuel result ran
    obtain ⟨last, reaches, ended⟩ := exists_run_iff.mp ⟨fuel, ran⟩
    have spec := loadStep_spec build media ulzmanBounded bounded fine (reached last reaches)
    rw [ended] at spec
    exact ⟨spec.writes, spec.room⟩

end Safe

section Overflow

variable {width : Nat} {build : Build} {media : Media width} {ulzman : Ulzman}
  {decompress : DecompressGeneric} {call : LoadCall width}

theorem not_inBuffer_comprStart (larger : call.bufferSize < call.inSize) :
    ¬ call.InBuffer call.comprStart := by
  have more : call.bufferSize.toNat < call.inSize.toNat := larger
  have size := call.inSize.isLt
  have buffer := call.buffer.isLt
  rw [LoadCall.InBuffer, LoadCall.comprStart, LoadCall.start,
    show 2 ^ width + call.buffer.toNat + call.bufferSize.toNat -
        call.inSize.toNat + 2 ^ width - call.buffer.toNat =
      2 ^ width - (call.inSize.toNat - call.bufferSize.toNat) + 2 ^ width by
        omega,
    Nat.add_mod_right, Nat.mod_eq_of_lt (by omega)]
  omega

theorem image_mem_accesses (media : Media width) (call : LoadCall width)
    (enabled : build.lz4 = true) (memory : Memory) :
    match loadLz4 build media call memory with
    | .inl next => .write call.comprStart
        (readat media call.rdev call.offset call.inSize).data.length ∈ next.accesses
    | .inr result => .write call.comprStart
        (readat media call.rdev call.offset call.inSize).data.length ∈ result.accesses := by
  rw [loadLz4, if_pos enabled]
  dsimp only
  split_ifs
  · exact List.mem_singleton_self _
  · cases enterFrame call.buffers (store memory call.comprStart
        (readat media call.rdev call.offset call.inSize).data) with
    | inl loop => exact .head _
    | inr result => exact .head _

theorem not_loadSafe_of_overflows (overflows : Overflows build media call) (memory : Memory) :
    ¬ LoadSafe build media ulzman decompress call memory := by
  intro safe
  obtain ⟨lz4, enabled, larger, something⟩ := overflows
  have step : loadStep build media ulzman decompress call (.start memory) =
      loadLz4 build media call memory := by
    have notNone : call.compression ≠ cbfsCompressNone := by
      rw [lz4]
      decide
    rw [loadStep, if_neg notNone, if_pos lz4]
  have outside : ∀ accesses, WritesWithin call.InBuffer accesses →
      .write call.comprStart
        (readat media call.rdev call.offset call.inSize).data.length ∉ accesses :=
    fun accesses within member => not_inBuffer_comprStart larger
      (within _ member call.comprStart ⟨le_rfl,
        Nat.lt_add_of_pos_right (List.length_pos_of_ne_nil something)⟩)
  have member := image_mem_accesses media call enabled memory
  cases taken : loadLz4 build media call memory with
  | inl next =>
    rw [taken] at member
    exact outside _ (safe.writes next (.single (step.trans taken))) member
  | inr result =>
    rw [taken] at member
    obtain ⟨fuel, ran⟩ := exists_run_iff.mpr ⟨_, .refl, step.trans taken⟩
    exact outside _ (safe.result fuel result ran).1 member

end Overflow

section CallerSafety

variable {width : Nat} (build : Build) (media : Media width) (ulzman : Ulzman)
  (decompress : DecompressGeneric)

theorem cbfsBootLoadStruct_of_info {fuel algo size : Nat} {fh : Cbfsf width}
    {buf bufSize : BitVec width} {map : Mapping} {media : Media width}
    (mapped : mmap media fh.metadata 0 fh.metadata.region.size = some map)
    (info : CbfsAttributeWalk.cbfsfDecompressionInfo width
      (load map.contents 0 fh.metadata.region.size.toNat) fuel
        fh.data.region.size.toNat = some (some (algo, size))) (fits : size ≤ bufSize.toNat) :
    cbfsBootLoadStruct media fuel fh buf bufSize =
      some ⟨fh.data, 0, fh.data.region.size, buf, bufSize, algo⟩ := by
  rw [cbfsBootLoadStruct, mapped]
  simp only [Option.bind_eq_bind, Option.bind_some, info, Option.join_some]
  exact if_neg (Nat.not_lt.mpr fits)

def CallerSafe (caller : Caller width) (memory : Memory) : Prop :=
  ∀ call, caller.Calls build media call → LoadSafe build media ulzman decompress call memory

/-- The area that `cbfs_prog_stage_load` clears is inside of the buffer. -/
theorem clearRest_writes {call : LoadCall width} {result after : Result}
    (loaded : LoadResult call result) (cleared : clearRest call result = some after) :
    WritesWithin call.InBuffer after.accesses := by
  rw [clearRest] at cleared
  split_ifs at cleared
  cases cleared
  have size := call.bufferSize.isLt
  have room := loaded.room
  have rest : (call.bufferSize.toNat + 2 ^ width - result.outSize) % 2 ^ width =
      call.bufferSize.toNat - result.outSize := by
    rw [show call.bufferSize.toNat + 2 ^ width - result.outSize =
        call.bufferSize.toNat - result.outSize + 2 ^ width by omega,
      Nat.add_mod_right, Nat.mod_eq_of_lt (by omega)]
  refine loaded.writes.append (writesWithin_buffer call ?_)
  rw [rest]
  omega

end CallerSafety

/-- A caller is safe exactly when it does not have contents read for LZ4 that are
longer than the buffer. -/
theorem callerSafe_iff {width : Nat} (build : Build) (media : Media width) {ulzman : Ulzman}
    (ulzmanBounded : UlzmanBounded ulzman) {decompress : DecompressGeneric}
    (bounded : Bounded decompress) (caller : Caller width) (memory : Memory) :
    CallerSafe build media ulzman decompress caller memory ↔
      ¬ ∃ call, caller.Calls build media call ∧ Overflows build media call := by
  constructor
  · rintro safe ⟨call, calls, overflows⟩
    exact not_loadSafe_of_overflows overflows memory (safe call calls)
  · intro fine call calls
    exact loadSafe_of_not_overflows ulzmanBounded bounded
      (fun overflows => fine ⟨call, calls, overflows⟩) memory

/-- The metadata of a file of 32 bytes, compressed with LZ4 from 16 bytes. -/
def structMetadata : List Byte :=
  [0x4c, 0x41, 0x52, 0x43, 0x48, 0x49, 0x56, 0x45, 0, 0, 0, 32, 0, 0, 0, 0x70,
    0, 0, 0, 28, 0, 0, 0, 44, 0x63, 0, 0, 0,
    0x42, 0x43, 0x5a, 0x4c, 0, 0, 0, 16, 0, 0, 0, 2, 0, 0, 0, 16]

/-- A driver whose reads give zeros, and whose mappings give the metadata. -/
def zeroMedia : Media 32 where
  readat _ _ size := ⟨List.replicate size.toNat 0, size⟩
  mmap _ offset _ := some ⟨offset.toNat, fun index => structMetadata.getD index 0⟩
  bounded _ _ _ := (List.length_replicate).le

def memoryMapped : Driver := ⟨"mem_rdev", fun _ => true⟩

def structFile : Cbfsf 32 where
  metadata := .driver memoryMapped ⟨0, 44⟩
  data := .driver memoryMapped ⟨44, 32⟩

def ramstage : Build := ⟨false, false, false, false, true, true, true, true, false⟩

def rejectLzma : Ulzman := fun memory _ _ _ _ => (memory, 0)

theorem ulzmanBounded_rejectLzma : UlzmanBounded rejectLzma where
  writes _ _ _ _ _ _ _ := rfl
  returns _ _ _ _ _ := Nat.zero_le _

theorem callerSafe_iff_structFile :
    CallerSafe ramstage zeroMedia rejectLzma rejectAll
        (.bootLoadStruct structFile 0x1000 64) (fun _ => 0) ↔
      ¬ ∃ call, Caller.Calls ramstage zeroMedia (.bootLoadStruct structFile 0x1000 64) call ∧
        Overflows ramstage zeroMedia call :=
  callerSafe_iff ramstage zeroMedia ulzmanBounded_rejectLzma bounded_rejectAll
    (.bootLoadStruct structFile 0x1000 64) (fun _ => 0)

/-- The 16 bytes of the structure fit into the buffer, and the 32 compressed ones
start in front of it. -/
theorem not_callerSafe_structFile :
    ¬ CallerSafe ramstage zeroMedia rejectLzma rejectAll
      (.bootLoadStruct structFile 0x1000 16) (fun _ => 0) := by
  intro safe
  have metadata : load (structMetadata.getD · 0) 0 44 = structMetadata := by
    decide
  have info : CbfsAttributeWalk.cbfsfDecompressionInfo 32
      (load (structMetadata.getD · 0) 0 44) 3 32 = some (some (2, 16)) := by
    rw [metadata]
    decide
  have calls : Caller.Calls ramstage zeroMedia
      (.bootLoadStruct structFile 0x1000 16)
        ⟨structFile.data, 0, 32, 0x1000, 16, cbfsCompressLz4⟩ :=
    ⟨3, cbfsBootLoadStruct_of_info rfl info (by decide)⟩
  exact not_loadSafe_of_overflows (by decide) _ (safe _ calls)

end Coreboot.CbfsLoad
