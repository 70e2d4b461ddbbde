import Coreboot.ElfStage

/-!
# The image in a stage

A stage should hold what the segments put into memory, from the location on.
-/

namespace Coreboot.ElfStage

open ByteMemory ElfHeaders

def segments (headers : List Phdr) : List Phdr := headers.filter isLoaded

def finish (phdr : Phdr) : Nat := phdr.paddr + max phdr.memsz phdr.filesz

def lowest (headers : List Phdr) : Nat :=
  ((segments headers).map Phdr.paddr).foldl min (2 ^ 64 - 1)

def fileEnd (headers : List Phdr) : Nat :=
  ((segments headers).map fun phdr => phdr.paddr + phdr.filesz).foldl max 0

def memoryEnd (headers : List Phdr) : Nat :=
  ((segments headers).map fun phdr => phdr.paddr + phdr.memsz).foldl max 0

def stageStart (location : Nat) (headers : List Phdr) : Nat := max (lowest headers) location

def shift (phdr : Phdr) : Nat := sub64 phdr.paddr phdr.vaddr

/-- The segments are inside of the file, and their places do not overlap. -/
structure Separate (input : Buffer) (headers : List Phdr) : Prop where
  inside : ∀ phdr ∈ segments headers, phdr.filesz ≠ 0 → phdr.offset + phdr.filesz ≤ input.size
  bounded : ∀ phdr ∈ segments headers, finish phdr < 2 ^ 64
  apart : (segments headers).Pairwise fun first second =>
    finish first ≤ second.paddr ∨ finish second ≤ first.paddr

/-- The bytes are those of the segments from one address up to another, with zeros
between them. -/
structure Image (input : Buffer) (headers : List Phdr) (start stop : Nat)
    (data : List Byte) : Prop where
  length : data.length = stop - start
  copied : ∀ phdr ∈ segments headers, ∀ index < phdr.filesz, start ≤ phdr.paddr + index →
    data[phdr.paddr + index - start]? = some (input.memory (phdr.offset + index))
  gaps : ∀ address, start ≤ address → address < stop →
    (∀ phdr ∈ segments headers, address < phdr.paddr ∨ phdr.paddr + phdr.filesz ≤ address) →
    data[address - start]? = some 0

structure Faithful (input : Buffer) (location entry : Nat) (headers : List Phdr)
    (output : Output) : Prop where
  load : output.stage.load = stageStart location headers
  image : Image input headers (stageStart location headers) (fileEnd headers) output.data
  memory : stageStart location headers + output.stage.memlen = memoryEnd headers
  entry : ∀ phdr ∈ segments headers, phdr.vaddr ≤ entry → entry < phdr.vaddr + phdr.memsz →
    output.stage.entry = phdr.paddr + (entry - phdr.vaddr)
  copies : ∀ copy ∈ output.copies,
    copy.source + copy.length ≤ input.size ∧ copy.dest + copy.length ≤ output.size

/-- The first shift that is not zero is used for all segments. -/
def firstShift (headers : List Phdr) : Nat :=
  (((segments headers).map shift).find? fun shift => shift ≠ 0).getD 0

/-- No bytes of a segment end below the location. -/
def Reached (location : Nat) (headers : List Phdr) : Prop :=
  ∀ phdr ∈ segments headers, phdr.filesz ≠ 0 → location ≤ phdr.paddr + phdr.filesz

/-- The segments reach the location, the sizes fit their types, and the
segment with the entry is shifted as the first one that is. -/
structure Plain (location entry : Nat) (headers : List Phdr) : Prop where
  reached : Reached location headers
  data : fileEnd headers - stageStart location headers < 2 ^ 31
  above : stageStart location headers ≤ memoryEnd headers
  memory : memoryEnd headers - stageStart location headers < 2 ^ 32
  entry : ∀ phdr ∈ segments headers, phdr.vaddr ≤ entry → entry < phdr.vaddr + phdr.memsz →
    shift phdr = firstShift headers

variable {input : Buffer} {headers : List Phdr} {location entry : Nat} {phdr : Phdr}
  {compressors : Compressors} {algo : CompAlgo} {output : Output}

theorem foldl_add_segments (headers : List Phdr) (bounds : Bounds) :
    headers.foldl Bounds.add bounds = (segments headers).foldl Bounds.add bounds := by
  induction headers generalizing bounds with
  | nil => rfl
  | cons phdr rest ih =>
    rw [List.foldl_cons, ih]
    by_cases loaded : isLoaded phdr = true
    · rw [segments, segments, List.filter_cons_of_pos loaded, List.foldl_cons]
    · rw [segments, segments, List.filter_cons_of_neg loaded, Bounds.add,
        if_pos (by simpa using loaded)]

theorem add64_eq {first second : Nat} (small : first + second < 2 ^ 64) :
    add64 first second = first + second :=
  Nat.mod_eq_of_lt small

theorem Bounds.add_of_loaded (loaded : isLoaded phdr = true) (bounded : finish phdr < 2 ^ 64)
    (bounds : Bounds) :
    bounds.add phdr =
      { dataStart := min bounds.dataStart phdr.paddr
        dataEnd := max bounds.dataEnd (phdr.paddr + phdr.filesz)
        memEnd := max bounds.memEnd (phdr.paddr + phdr.memsz)
        virtToPhys := if bounds.virtToPhys = 0 then shift phdr else bounds.virtToPhys } := by
  unfold finish at bounded
  have mend : add64 phdr.paddr phdr.memsz = phdr.paddr + phdr.memsz := add64_eq (by omega)
  have rend : add64 phdr.paddr phdr.filesz = phdr.paddr + phdr.filesz := add64_eq (by omega)
  simp only [Bounds.add, loaded, mend, rend, shift, Bounds.mk.injEq, Bool.not_true,
    Bool.false_eq_true, if_false, and_true]
  refine ⟨?_, ?_, ?_⟩
  all_goals split <;> omega

theorem foldl_add (rest : List Phdr) (loaded : ∀ phdr ∈ rest, isLoaded phdr = true)
    (bounded : ∀ phdr ∈ rest, finish phdr < 2 ^ 64) (bounds : Bounds) :
    rest.foldl Bounds.add bounds =
      { dataStart := (rest.map Phdr.paddr).foldl min bounds.dataStart
        dataEnd := (rest.map fun phdr => phdr.paddr + phdr.filesz).foldl max bounds.dataEnd
        memEnd := (rest.map fun phdr => phdr.paddr + phdr.memsz).foldl max bounds.memEnd
        virtToPhys := (rest.map shift).foldl (fun found shift => if found = 0 then shift else found)
          bounds.virtToPhys } := by
  induction rest generalizing bounds with
  | nil => rfl
  | cons phdr rest ih =>
    rw [List.forall_mem_cons] at loaded bounded
    rw [List.foldl_cons, ih loaded.2 bounded.2, Bounds.add_of_loaded loaded.1 bounded.1]
    simp only [List.map_cons, List.foldl_cons]

theorem foldl_found (shifts : List Nat) (found : Nat) :
    shifts.foldl (fun found shift => if found = 0 then shift else found) found =
      if found = 0 then (shifts.find? fun shift => shift ≠ 0).getD 0 else found := by
  induction shifts generalizing found with
  | nil => by_cases zero : found = 0 <;> simp [zero]
  | cons shift rest ih =>
    rw [List.foldl_cons, ih]
    by_cases zero : found = 0
    · by_cases still : shift = 0 <;> simp [zero, still]
    · simp [zero]

theorem isLoaded_of_mem (member : phdr ∈ segments headers) : isLoaded phdr = true :=
  (List.mem_filter.mp member).2

theorem boundsOf_eq (separate : Separate input headers) :
    boundsOf headers =
      ⟨lowest headers, fileEnd headers, memoryEnd headers, firstShift headers⟩ := by
  rw [boundsOf, foldl_add_segments,
    foldl_add _ (fun _ member => isLoaded_of_mem member) separate.bounded, foldl_found]
  rfl

theorem cutStart_eq (separate : Separate input headers) (location : Nat) :
    cutStart (boundsOf headers) location = stageStart location headers := by
  rw [boundsOf_eq separate]
  unfold cutStart stageStart
  dsimp only
  split <;> omega

theorem foldl_min_le (numbers : List Nat) (first : Nat) :
    numbers.foldl min first ≤ first ∧ ∀ number ∈ numbers, numbers.foldl min first ≤ number := by
  induction numbers generalizing first with
  | nil => exact ⟨le_rfl, List.forall_mem_nil _⟩
  | cons number rest ih =>
    obtain ⟨start, rest⟩ := ih (min first number)
    rw [List.foldl_cons, List.forall_mem_cons]
    exact ⟨by omega, by omega, rest⟩

theorem le_foldl_max (numbers : List Nat) (first : Nat) :
    first ≤ numbers.foldl max first ∧ ∀ number ∈ numbers, number ≤ numbers.foldl max first := by
  induction numbers generalizing first with
  | nil => exact ⟨le_rfl, List.forall_mem_nil _⟩
  | cons number rest ih =>
    obtain ⟨start, rest⟩ := ih (max first number)
    rw [List.foldl_cons, List.forall_mem_cons]
    exact ⟨by omega, by omega, rest⟩

theorem lowest_le (member : phdr ∈ segments headers) : lowest headers ≤ phdr.paddr :=
  (foldl_min_le _ _).2 _ (List.mem_map_of_mem member)

theorem le_fileEnd (member : phdr ∈ segments headers) :
    phdr.paddr + phdr.filesz ≤ fileEnd headers :=
  (le_foldl_max _ _).2 _ (List.mem_map.mpr ⟨phdr, member, rfl⟩)

/-- The part of a segment in the file that is not below the location. -/
def partOf (location start : Nat) (phdr : Phdr) : Copy where
  source := phdr.offset + (location - phdr.paddr)
  dest := max phdr.paddr location - start
  length := phdr.filesz - (location - phdr.paddr)

def filled (headers : List Phdr) : List Phdr :=
  (segments headers).filter fun phdr => phdr.filesz ≠ 0

theorem mem_filled : phdr ∈ filled headers ↔ phdr ∈ segments headers ∧ phdr.filesz ≠ 0 := by
  simp [filled]

theorem copiesOf_eq {start : Nat} {copies : List Copy}
    (copied : copiesOf input location start headers = some copies) :
    copies = (filled headers).map (copyOf location start) := by
  induction headers generalizing copies with
  | nil => exact (Option.some.inj copied).symm
  | cons phdr rest ih =>
    rw [copiesOf] at copied
    by_cases loaded : isLoaded phdr = true
    · rw [filled, segments, List.filter_cons_of_pos loaded]
      rw [if_neg (by simpa using loaded)] at copied
      by_cases empty : phdr.filesz = 0
      · rw [if_pos empty] at copied
        rw [List.filter_cons_of_neg (by simpa using empty)]
        exact ih copied
      · rw [if_neg empty] at copied
        rw [List.filter_cons_of_pos (by simpa using empty), List.map_cons]
        split at copied
        · cases copied
        · obtain ⟨later, run, rfl⟩ := Option.map_eq_some_iff.mp copied
          rw [ih run]
          rfl
    · rw [filled, segments, List.filter_cons_of_neg loaded]
      rw [if_pos (by simpa using loaded)] at copied
      exact ih copied

section Copies

variable (separate : Separate input headers) (small : input.size < 2 ^ 63)
  (below : location < 2 ^ 32)
include separate small below

theorem copyOf_eq (member : phdr ∈ filled headers) (reached : location ≤ phdr.paddr + phdr.filesz) :
    copyOf location (stageStart location headers) phdr =
      partOf location (stageStart location headers) phdr := by
  obtain ⟨member, nonempty⟩ := mem_filled.mp member
  have bounded := separate.bounded phdr member
  have inside := separate.inside phdr member nonempty
  have least := lowest_le member
  unfold finish at bounded
  unfold copyOf partOf stageStart add64 sub64
  split <;> simp only [Copy.mk.injEq] <;> refine ⟨?_, ?_, ?_⟩ <;> omega

theorem length_copyOf (member : phdr ∈ filled headers)
    (missed : phdr.paddr + phdr.filesz < location) (start : Nat) :
    2 ^ 63 ≤ (copyOf location start phdr).length := by
  obtain ⟨member, nonempty⟩ := mem_filled.mp member
  have inside := separate.inside phdr member nonempty
  unfold copyOf sub64
  rw [if_pos (by omega)]
  dsimp only
  omega

theorem applied_iff {start : Nat} (stop : stageStart location headers = start)
    (space : fileEnd headers - start < 2 ^ 63) :
    (∀ copy ∈ (filled headers).map (copyOf location start),
      copy.source + copy.length ≤ input.size ∧ copy.dest + copy.length ≤ fileEnd headers - start) ↔
      Reached location headers := by
  subst stop
  rw [List.forall_mem_map]
  constructor
  · intro inside phdr member nonempty
    have member := mem_filled.mpr ⟨member, nonempty⟩
    by_contra missed
    have long := length_copyOf separate small below member (Nat.lt_of_not_le missed)
      (stageStart location headers)
    have short := (inside phdr member).2
    omega
  · intro reached phdr member
    obtain ⟨segment, nonempty⟩ := mem_filled.mp member
    have reached := reached phdr segment nonempty
    have inside := separate.inside phdr segment nonempty
    have stop := le_fileEnd segment
    have least := lowest_le segment
    rw [copyOf_eq separate small below member reached]
    unfold partOf stageStart
    constructor <;> dsimp only <;> omega

theorem apart_parts (reached : Reached location headers) :
    ((filled headers).map (copyOf location (stageStart location headers))).Pairwise Copy.Apart := by
  rw [List.pairwise_map]
  refine List.Pairwise.imp_of_mem ?_ (separate.apart.filter _)
  intro first second left right apart
  have reachedLeft := reached first (mem_filled.mp left).1 (mem_filled.mp left).2
  have reachedRight := reached second (mem_filled.mp right).1 (mem_filled.mp right).2
  rw [copyOf_eq separate small below left reachedLeft,
    copyOf_eq separate small below right reachedRight]
  have leastLeft := lowest_le (mem_filled.mp left).1
  have leastRight := lowest_le (mem_filled.mp right).1
  unfold finish at apart
  unfold Copy.Apart partOf stageStart
  dsimp only
  omega

theorem image_of_reached (reached : Reached location headers) :
    Image input headers (stageStart location headers) (fileEnd headers)
      (load (Copy.applyAll input.memory
        ((filled headers).map (copyOf location (stageStart location headers))) fun _ => 0) 0
        (fileEnd headers - stageStart location headers)) where
  length := length_load _ _ _
  copied := by
    intro phdr member index inside above
    have filled' := mem_filled.mpr ⟨member, Nat.ne_of_gt (Nat.zero_lt_of_lt inside)⟩
    have part := copyOf_eq separate small below filled'
      (reached phdr member (Nat.ne_of_gt (Nat.zero_lt_of_lt inside)))
    have stop := le_fileEnd member
    have least := lowest_le member
    have behind : location ≤ stageStart location headers := Nat.le_max_right _ _
    rw [getElem?_load (by omega), Nat.zero_add]
    have byte := @Copy.applyAll_of_mem _ _ (phdr.paddr + index - max phdr.paddr location)
      (apart_parts separate small below reached) (List.mem_map_of_mem filled')
      (by rw [part]; unfold partOf; dsimp only; omega) input.memory fun _ => 0
    rw [part] at byte
    unfold partOf at byte
    have start : stageStart location headers ≤ max phdr.paddr location := by
      unfold stageStart; omega
    rw [show max phdr.paddr location - stageStart location headers +
        (phdr.paddr + index - max phdr.paddr location) =
          phdr.paddr + index - stageStart location headers by omega,
      show phdr.offset + (location - phdr.paddr) +
        (phdr.paddr + index - max phdr.paddr location) = phdr.offset + index by omega] at byte
    rw [byte]
  gaps := by
    intro address above inside outside
    rw [getElem?_load (by omega), Nat.zero_add, Copy.applyAll_of_misses]
    rw [List.forall_mem_map]
    intro phdr member
    obtain ⟨segment, nonempty⟩ := mem_filled.mp member
    have reached := reached phdr segment nonempty
    have outside := outside phdr segment
    have least := lowest_le segment
    rw [copyOf_eq separate small below member reached]
    unfold Copy.Misses partOf stageStart at *
    dsimp only
    omega

end Copies

theorem length_kept {size : Nat} (space : size < 2 ^ 63) :
    (toInt size % 2 ^ 64).toNat = size ↔ size < 2 ^ 31 := by
  have low : -(2 ^ 32 : Nat) / 2 ≤ toInt size := Int.le_bmod (by decide)
  have high : toInt size < ((2 ^ 32 : Nat) + 1) / 2 := Int.bmod_lt (by decide)
  have same : toInt size % (2 ^ 32 : Nat) = size % (2 ^ 32 : Nat) := Int.bmod_emod
  generalize toInt size = number at *
  omega

/-- Data that is not compressed is the buffer, for a length that becomes an `int`. -/
theorem compressData_of_plain {buffer : Memory} {size : Nat}
    (plain : (compressData compressors algo buffer size).1.number = 0) :
    (compressData compressors algo buffer size).2 = keptBytes buffer (toInt size) := by
  unfold compressData at plain ⊢
  cases run : compressors.compress algo buffer (toInt size) with
  | none => simp only
  | some bytes =>
    rw [run] at plain
    dsimp only at plain ⊢
    by_cases bigger : bytes.length % 2 ^ 32 > size
    · rw [if_pos bigger]
    · rw [if_neg bigger] at plain ⊢
      cases algo with
      | none => exact (Option.some.inj run).symm
      | lzma => cases plain
      | lz4 => cases plain

theorem makeStage_eq (separate : Separate input headers)
    (done : makeStage input compressors algo location entry headers = some output)
    (plain : output.stage.compression = 0) :
    output.stage.load = stageStart location headers ∧
      fileEnd headers - stageStart location headers < 2 ^ 63 ∧
      output.stage.memlen = sub64 (memoryEnd headers) (stageStart location headers) % 2 ^ 32 ∧
      output.stage.entry = add64 entry (firstShift headers) ∧
      output.size = fileEnd headers - stageStart location headers ∧
      output.copies = (filled headers).map (copyOf location (stageStart location headers)) ∧
      output.data = keptBytes (Copy.applyAll input.memory output.copies fun _ => 0)
        (toInt output.size) := by
  rw [makeStage] at done
  rw [cutStart_eq separate, boundsOf_eq separate] at done
  split at done
  · cases done
  · split at done
    · cases done
    next space =>
      obtain ⟨copies, copied, done⟩ := Option.bind_eq_some_iff.mp done
      dsimp only at done
      split at done
      · cases done
        exact ⟨rfl, Nat.lt_of_not_le space, rfl, rfl, rfl, copiesOf_eq copied,
          compressData_of_plain plain⟩
      · cases done

theorem shifted_iff {used : Nat} (behind : phdr.vaddr ≤ entry)
    (inside : entry < phdr.vaddr + phdr.memsz) (wide : entry < 2 ^ 64)
    (bounded : finish phdr < 2 ^ 64) (small : used < 2 ^ 64) :
    add64 entry used = phdr.paddr + (entry - phdr.vaddr) ↔ shift phdr = used := by
  unfold finish at bounded
  unfold shift add64 sub64
  omega

theorem shift_lt (phdr : Phdr) : shift phdr < 2 ^ 64 := by
  rw [shift, sub64]
  exact Nat.mod_lt _ (Nat.two_pow_pos 64)

theorem firstShift_lt (headers : List Phdr) : firstShift headers < 2 ^ 64 := by
  unfold firstShift
  cases found : ((segments headers).map shift).find? fun shift => shift ≠ 0 with
  | none =>
    rw [Option.getD_none]
    exact Nat.two_pow_pos 64
  | some number =>
    obtain ⟨phdr, -, same⟩ := List.mem_map.mp (List.mem_of_find?_eq_some found)
    rw [Option.getD_some, ← same]
    exact shift_lt phdr

theorem makeStage_faithful_iff (separate : Separate input headers) (small : input.size < 2 ^ 63)
    (below : location < 2 ^ 32) (wide : entry < 2 ^ 64)
    (done : makeStage input compressors algo location entry headers = some output)
    (plain : output.stage.compression = 0) :
    Faithful input location entry headers output ↔ Plain location entry headers := by
  obtain ⟨start, space, memlen, translated, size, copies, data⟩ := makeStage_eq separate done plain
  have inCopies := applied_iff separate small below rfl space
  rw [← copies, ← size] at inCopies
  rw [size] at data
  have kept := length_kept space
  have onlyBounded : ∀ phdr ∈ segments headers, phdr.vaddr ≤ entry →
      entry < phdr.vaddr + phdr.memsz →
      (output.stage.entry = phdr.paddr + (entry - phdr.vaddr) ↔
        shift phdr = firstShift headers) := fun phdr member behind inside => by
    rw [translated]
    exact shifted_iff behind inside wide (separate.bounded phdr member) (firstShift_lt headers)
  constructor
  · intro faithful
    have reached := inCopies.mp faithful.copies
    have length := faithful.image.length
    have memory := faithful.memory
    rw [memlen] at memory
    rw [data, keptBytes, length_load] at length
    exact {
      reached
      data := kept.mp length
      above := by omega
      memory := by omega
      entry := fun phdr member behind inside =>
        (onlyBounded phdr member behind inside).mp (faithful.entry phdr member behind inside) }
  · intro good
    have above := good.above
    have memory := good.memory
    exact {
      load := start
      image := by
        rw [data, keptBytes, kept.mpr good.data, copies]
        exact image_of_reached separate small below good.reached
      memory := by
        rw [memlen]
        unfold sub64
        omega
      entry := fun phdr member behind inside =>
        (onlyBounded phdr member behind inside).mpr (good.entry phdr member behind inside)
      copies := inCopies.mpr good.reached }

/-- A stage that is made without compression holds the image of the segments, exactly when they
reach the location, fit and have the shift of the first one. -/
theorem parseElfToStage_faithful_iff (input : Buffer) (compressors : Compressors) (algo : CompAlgo)
    (location : Nat) (ignoreSection : Option (List Byte)) (pelf : ParsedElf) (headers : List Phdr)
    (output : Output) (parsed : parseElf input stageFlags = some pelf)
    (taken : stageHeaders pelf ignoreSection = some headers) (separate : Separate input headers)
    (small : input.size < 2 ^ 63) (below : location < 2 ^ 32) (wide : pelf.ehdr.entry < 2 ^ 64)
    (done : parseElfToStage input compressors algo location ignoreSection = some output)
    (plain : output.stage.compression = 0) :
    Faithful input location pelf.ehdr.entry headers output ↔
      Plain location pelf.ehdr.entry headers := by
  rw [parseElfToStage, parsed, Option.bind_some, taken, Option.bind_some] at done
  exact makeStage_faithful_iff separate small below wide done plain

/-- An executable with a segment of four bytes at 0 and one of eight bytes at 16, where
the entry is. -/
def twoSegments : Buffer where
  memory address := (elfmag ++ [1, 1, 1] ++ List.replicate 9 0 ++
    [2, 0, 3, 0, 1, 0, 0, 0] ++ [16, 0, 0, 0] ++ [52, 0, 0, 0] ++ [116, 0, 0, 0] ++
    [0, 0, 0, 0] ++ [52, 0, 32, 0, 2, 0, 40, 0, 1, 0, 0, 0] ++
    [1, 0, 0, 0] ++ [156, 0, 0, 0] ++ List.replicate 8 0 ++ [4, 0, 0, 0, 4, 0, 0, 0] ++
    List.replicate 8 0 ++
    [1, 0, 0, 0] ++ [160, 0, 0, 0] ++ [16, 0, 0, 0, 16, 0, 0, 0] ++ [8, 0, 0, 0, 8, 0, 0, 0] ++
    List.replicate 48 0).getD address 0xaa
  size := 168

def twoElf : ParsedElf where
  ehdr := ⟨elfmag ++ [1, 1, 1] ++ List.replicate 9 0, 2, 3, 1, 16, 52, 116, 0, 52, 32, 2, 40, 1, 0⟩
  phdr := [⟨1, 0, 156, 0, 0, 4, 4, 0⟩, ⟨1, 0, 160, 16, 16, 8, 8, 0⟩]
  shdr := [emptyShdr]
  relocs := []
  strtabs := [none]
  syms := []

theorem parsed_twoSegments : parseElf twoSegments stageFlags = some twoElf := rfl

theorem separate_twoSegments : Separate twoSegments twoElf.phdr :=
  ⟨by decide, by decide, by decide⟩

def noCompressors : Compressors where
  lzmaCompress _ _ := none
  lz4Compress _ _ := none
  ulz4fn _ _ := none

/-- Without a location both segments are in the stage. -/
theorem parseElfToStage_faithful_twoSegments :
    ∃ output, parseElfToStage twoSegments noCompressors .none 0 none = some output ∧
      Faithful twoSegments 0 16 twoElf.phdr output := by
  obtain ⟨output, done, plain⟩ : ∃ output,
      makeStage twoSegments noCompressors .none 0 16 twoElf.phdr = some output ∧
        output.stage.compression = 0 := ⟨_, rfl, rfl⟩
  refine ⟨output, done, (parseElfToStage_faithful_iff twoSegments noCompressors .none 0 none twoElf
    twoElf.phdr output parsed_twoSegments rfl separate_twoSegments (by decide) (by decide)
    (by decide) done plain).mpr ?_⟩
  exact {
    reached := show ∀ phdr ∈ segments twoElf.phdr, _ by decide
    data := by decide
    above := by decide
    memory := by decide
    entry := by decide }

/-- With the location 8 the length of the first copy wraps around. -/
theorem not_faithful_missedSegment :
    ¬ ∀ (input : Buffer) (compressors : Compressors) (algo : CompAlgo) (location : Nat)
      (ignoreSection : Option (List Byte)) (pelf : ParsedElf) (headers : List Phdr)
      (output : Output), parseElf input stageFlags = some pelf →
      stageHeaders pelf ignoreSection = some headers → Separate input headers →
      input.size < 2 ^ 63 → location < 2 ^ 32 → pelf.ehdr.entry < 2 ^ 64 →
      parseElfToStage input compressors algo location ignoreSection = some output →
      output.stage.compression = 0 →
      Faithful input location pelf.ehdr.entry headers output := by
  intro claim
  obtain ⟨output, done, plain⟩ : ∃ output,
      makeStage twoSegments noCompressors .none 8 16 twoElf.phdr = some output ∧
        output.stage.compression = 0 := ⟨_, rfl, rfl⟩
  have faithful := claim twoSegments noCompressors .none 8 none twoElf twoElf.phdr output
    parsed_twoSegments rfl separate_twoSegments (by decide) (by decide) (by decide) done plain
  have good := (makeStage_faithful_iff separate_twoSegments (by decide) (by decide) (by decide)
    done plain).mp faithful
  exact absurd (good.reached _ List.mem_cons_self) (by decide)

end Coreboot.ElfStage
