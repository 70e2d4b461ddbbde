import Coreboot.ElfBounds
import Coreboot.ElfStage
import Coreboot.RmoduleCreate
import Coreboot.WordPatches

/-!
# Stages that are executed in place

The host tool makes a stage of the only loadable segment of an x86 executable, for a location in
the flash.
-/

namespace Coreboot.XipStage

open ByteMemory ElfHeaders ElfStage FaultFree WordPatches

/-- The tool returns -1 when it parses the file or later, reads a name or a symbol outside
of its table, or adjusts a word that is not in the bytes of the segment. -/
inductive Stop
  | parse (stop : ElfParsing.Stop)
  | error
  | outside
  | adjusted
deriving DecidableEq

def etExec : Nat := 2

def em386 : Nat := 3

def supportedArchs : List Nat := [em386, 40, 183]

def r38632 : Nat := 1

/-- `ELF64_R_TYPE` and `ELF64_R_SYM`. -/
def relaType (rela : Rela) : Nat := rela.info % 2 ^ 32

def relaSymbol (rela : Rela) : Nat := rela.info / 2 ^ 32

/-- The executable, with the relocations that are kept, and the segment of the program. -/
structure Context where
  pelf : ParsedElf
  phdr : Phdr

def findProgramSegment (pelf : ParsedElf) : Except Stop Phdr :=
  match pelf.phdr.filter fun phdr => phdr.type = ptLoad with
  | [phdr] => .ok phdr
  | _ => .error .error

/-- The strings of section names, which may be a null pointer. -/
def nameTable (pelf : ParsedElf) : Except Stop Nat :=
  match pelf.strtabs.getD pelf.ehdr.shstrndx none with
  | some _ => .ok (pelf.shdr.getD pelf.ehdr.shstrndx emptyShdr).offset
  | none => .error .outside

def inputFrom (input : Buffer) (place : Nat) : List Byte :=
  load input.memory place (input.size - place)

/-- `strstr` of a name in the input, if it ends there. -/
def nameContains (needle bytes : List Byte) : Except Stop Bool :=
  if (0 : Byte) ∈ bytes then
    .ok ((bytes.takeWhile fun byte => byte ≠ 0).tails.any fun tail => needle.isPrefixOf tail)
  else .error .outside

def debugName : List Byte := [0x2e, 0x64, 0x65, 0x62, 0x75, 0x67]

/-- A turn of `filter_relocation_sections`, and the relocations that it keeps. -/
def filterRelocationSection (input : Buffer) (pelf : ParsedElf) (shstrtab : Nat)
    (phdr : Phdr) (i : Nat) : Except Stop (List Rela) :=
  let shdr := pelf.shdr.getD i emptyShdr
  if shdr.type ≠ shtRela ∧ shdr.type ≠ shtRel then .ok (pelf.relocs.getD i [])
  else
    let target := pelf.shdr.getD shdr.info emptyShdr
    match nameContains debugName (inputFrom input (shstrtab + target.name)) with
    | .error stop => .error stop
    | .ok true => .ok []
    | .ok false =>
      if target.type ≠ shtProgbits then .ok []
      else if target.addr < phdr.vaddr ∨
          add64 target.addr target.size > add64 phdr.vaddr phdr.memsz then .error .error
      else .ok (pelf.relocs.getD i [])

def filterRelocationSections (input : Buffer) (pelf : ParsedElf) (phdr : Phdr) :
    Except Stop (List (List Rela)) := do
  let shstrtab ← nameTable pelf
  tabulate (filterRelocationSection input pelf shstrtab phdr) pelf.ehdr.shnum

def rmoduleInit (input : Buffer) (pelf : ParsedElf) : Except Stop Context :=
  if pelf.ehdr.type ≠ etExec then .error .error
  else if pelf.ehdr.machine ∉ supportedArchs then .error .error
  else do
    let phdr ← findProgramSegment pelf
    let relocs ← filterRelocationSections input pelf phdr
    .ok ⟨{ pelf with relocs }, phdr⟩

/-- The loop of `find_ignored_section_header`, which gives the index. -/
def findIgnored (input : Buffer) (shstrtab : Nat) (name : List Byte) :
    List Shdr → Nat → Except Stop (Option Nat)
  | [], _ => .ok none
  | shdr :: rest, i =>
    let bytes := inputFrom input (shstrtab + shdr.name)
    -- `strcmp` stops at the first difference.
    if (name ++ [0]).isPrefixOf bytes then .ok (some i)
    else if bytes.isPrefixOf (name ++ [0]) then .error .outside
    else findIgnored input shstrtab name rest (i + 1)

/-- `find_ignored_section_header`. -/
def findIgnoredSection (input : Buffer) (pelf : ParsedElf) :
    Option (List Byte) → Except Stop (Option Nat)
  | none => .ok none
  | some name => do
      let shstrtab ← nameTable pelf
      findIgnored input shstrtab name pelf.shdr 0

def rmodFilter (pelf : ParsedElf) (ignored : Option Nat) (rela : Rela) : Except Stop Bool :=
  match ignored with
  | none => .ok true
  | some index =>
    match pelf.syms[relaSymbol rela]? with
    | none => .error .outside
    | some sym =>
      if sym.shndx ≠ index then .ok true
      else if relaType rela ≠ r38632 then .error .error
      else .ok false

/-- The loop of `for_each_reloc`, with the addresses that have been emitted and their
number, which becomes an `int`. -/
def forEachReloc (pelf : ParsedElf) (ignored : Option Nat) (doEmit : Bool) :
    List Rela → List Nat → Nat → Except Stop (List Nat × Nat)
  | [], emitted, nrelocs => .ok (emitted, nrelocs)
  | rela :: rest, emitted, nrelocs =>
    if ¬ Rmodule.ops386.validType (relaType rela) then .error .error
    else
      match rmodFilter pelf ignored rela with
      | .error stop => .error stop
      | .ok filterEmit =>
        if filterEmit && Rmodule.ops386.shouldEmit (relaType rela) then
          if doEmit ∧ 2 ^ 31 ≤ nrelocs then .error .outside
          else forEachReloc pelf ignored doEmit rest
            (if doEmit then emitted ++ [rela.offset] else emitted) (nrelocs + 1)
        else forEachReloc pelf ignored doEmit rest emitted nrelocs

def rmoduleCollectRelocations (pelf : ParsedElf) (ignored : Option Nat) :
    Except Stop (List Nat) := do
  let (_, nrelocs) ← forEachReloc pelf ignored false pelf.relocs.flatten [] 0
  if nrelocs = 0 then .ok []
  else
    let (emitted, count) ← forEachReloc pelf ignored true pelf.relocs.flatten [] 0
    if count ≠ nrelocs then .error .error
    else .ok (emitted.insertionSort fun first second => first ≤ second)

structure Output where
  stage : Stage
  data : Buffer
  location : Nat

/-- A difference in a `uint32_t`. -/
def sub32 (first second : Nat) : Nat := (first + 2 ^ 32 - second % 2 ^ 32) % 2 ^ 32

/-- The bytes of a segment in the file. -/
def fileImage (input : Buffer) (phdr : Phdr) : Memory :=
  store (fun _ => 0) 0 (load input.memory phdr.offset phdr.filesz)

def relocOffset (phdr : Phdr) (reloc : Nat) : Nat := sub64 reloc (phdr.vaddr % 2 ^ 64)

def adjustRelocations (phdr : Phdr) (adjustment : Nat) : List Nat → Memory → Except Stop Memory
  | [], memory => .ok memory
  | reloc :: rest, memory =>
    if relocOffset phdr reloc + 4 ≤ phdr.filesz then
      adjustRelocations phdr adjustment rest (addWord 4 adjustment memory (relocOffset phdr reloc))
    else .error .adjusted

/-- The rest of `parse_elf_to_xip_stage`, from the output buffer on.  It uses the first
program header. -/
def makeXipStage (input : Buffer) (pelf : ParsedElf) (phdr : Phdr) (relocs : List Nat)
    (location : Nat) : Except Stop Output :=
  -- No object is larger than `PTRDIFF_MAX`, and `calloc` fails.
  if 2 ^ 63 ≤ sizeofStage + phdr.filesz then .error .error
  else do
    let adjustment := sub32 location phdr.vaddr
    let memory ← adjustRelocations phdr adjustment relocs (fileImage input phdr)
    .ok {
      stage := fillCbfsStage .none ((pelf.ehdr.entry + adjustment) % 2 ^ 32)
        ((phdr.vaddr + adjustment) % 2 ^ 32) phdr.filesz phdr.memsz
      data := ⟨memory, phdr.filesz⟩
      location := sub32 location sizeofStage }

/-- `parse_elf_to_xip_stage`, after `rmodule_init`. -/
def behindInit (input : Buffer) (ignoreSection : Option (List Byte)) (location : Nat)
    (ctx : Context) : Except Stop Output :=
  if ctx.pelf.ehdr.machine ≠ em386 then .error .error
  else do
    let ignored ← findIgnoredSection input ctx.pelf ignoreSection
    let relocs ← rmoduleCollectRelocations ctx.pelf ignored
    makeXipStage input ctx.pelf (ctx.pelf.phdr.headD ctx.phdr) relocs location

def parseAll : ParseFlags := ⟨true, true, true, true, true⟩

/-- `parse_elf_to_xip_stage` comes to this. -/
def ParseElfToXipStage (input : Buffer) (ignoreSection : Option (List Byte))
    (location : Nat) (outcome : Except Stop Output) : Prop :=
  ∃ parsed, ElfParsing.ParseElf input parseAll parsed ∧
    outcome = match parsed with
      | .error stop => .error (.parse stop)
      | .ok pelf => do
          let ctx ← rmoduleInit input pelf
          behindInit input ignoreSection location ctx

/-- The symbol of the relocation is in the section that is ignored. -/
def inIgnored (pelf : ParsedElf) (ignored : Option Nat) (rela : Rela) : Bool :=
  match ignored, pelf.syms[relaSymbol rela]? with
  | some index, some sym => sym.shndx = index
  | _, _ => false

def adjustedOf (pelf : ParsedElf) (ignored : Option Nat) (relocs : List Rela) : List Nat :=
  (relocs.filter fun rela => relaType rela = r38632 && !inIgnored pelf ignored rela).map
    fun rela => rela.offset

/-- The addresses of the words that should be adjusted. -/
def adjusted (pelf : ParsedElf) (ignored : Option Nat) : List Nat :=
  adjustedOf pelf ignored pelf.relocs.flatten

def offsetsIn (phdr : Phdr) (relocs : List Nat) : List Nat := relocs.map (relocOffset phdr)

structure Located (input : Buffer) (ctx : Context) (ignored : Option Nat) (location : Nat)
    (output : Output) : Prop where
  load : output.stage.load = location
  entry : output.stage.entry = (ctx.pelf.ehdr.entry + sub32 location ctx.phdr.vaddr) % 2 ^ 32
  len : output.stage.len = ctx.phdr.filesz
  memlen : output.stage.memlen = ctx.phdr.memsz
  size : output.data.size = ctx.phdr.filesz
  inside : ∀ offset ∈ offsetsIn ctx.phdr (adjusted ctx.pelf ignored), offset + 4 ≤ ctx.phdr.filesz
  image : Increased 4 (sub32 location ctx.phdr.vaddr)
    (offsetsIn ctx.phdr (adjusted ctx.pelf ignored)) (fileImage input ctx.phdr)
    output.data.memory

/-- No word outside of the segment is adjusted, and the stage is what it should be. -/
def PlacesWell (input : Buffer) (ignoreSection : Option (List Byte)) (location : Nat) : Prop :=
  ∀ outcome, ParseElfToXipStage input ignoreSection location outcome →
    match outcome with
    | .error stop => stop ≠ .adjusted
    | .ok output => ∃ pelf ctx ignored, ElfParsing.ParseElf input parseAll (.ok pelf) ∧
        rmoduleInit input pelf = .ok ctx ∧
        findIgnoredSection input ctx.pelf ignoreSection = .ok ignored ∧
        Located input ctx ignored location output

/-- The relocation is known, and its symbol; it is absolute if the symbol is in the section
that is ignored. -/
def Known (pelf : ParsedElf) (ignored : Option Nat) (rela : Rela) : Prop :=
  Rmodule.ops386.validType (relaType rela) = true ∧ ∀ index ∈ ignored,
    ∃ sym, pelf.syms[relaSymbol rela]? = some sym ∧ (sym.shndx = index → relaType rela = r38632)

structure Collects (pelf : ParsedElf) (ignored : Option Nat) : Prop where
  known : ∀ rela ∈ pelf.relocs.flatten, Known pelf ignored rela
  few : (adjusted pelf ignored).length ≤ 2147483648

/-- The first program header is as good as that of the segment, and the words that are
adjusted are in the bytes of the segment and do not overlap. -/
structure Agrees (input : Buffer) (first phdr : Phdr) (relocs : List Nat) : Prop where
  filesz : first.filesz = phdr.filesz
  short : phdr.filesz < 4294967296
  memsz : first.memsz % 4294967296 = phdr.memsz
  vaddr : first.vaddr % 4294967296 = phdr.vaddr % 4294967296
  image : fileImage input first = fileImage input phdr
  offsets : offsetsIn first relocs = offsetsIn phdr relocs
  inside : ∀ offset ∈ offsetsIn phdr relocs, offset + 4 ≤ phdr.filesz
  apart : Apart 4 (offsetsIn phdr relocs)

def Placeable (input : Buffer) (ignoreSection : Option (List Byte)) (ctx : Context) : Prop :=
  ∀ ignored, findIgnoredSection input ctx.pelf ignoreSection = .ok ignored →
    Collects ctx.pelf ignored →
    sizeofStage + (ctx.pelf.phdr.headD ctx.phdr).filesz < 2 ^ 63 →
    Agrees input (ctx.pelf.phdr.headD ctx.phdr) ctx.phdr (adjusted ctx.pelf ignored)

section Collect

variable {input : Buffer} {pelf : ParsedElf} {ignored : Option Nat} {doEmit : Bool}
  {rela : Rela} {relocs : List Rela} {emitted : List Nat} {nrelocs : Nat} {stop : Stop}

theorem rmodFilter_of_known (known : Known pelf ignored rela) :
    rmodFilter pelf ignored rela = .ok (!inIgnored pelf ignored rela) := by
  obtain ⟨-, symbol⟩ := known
  cases ignored with
  | none => rfl
  | some index =>
    obtain ⟨sym, found, absolute⟩ := symbol index rfl
    unfold rmodFilter inIgnored
    rw [found]
    by_cases same : sym.shndx = index
    · simp [same, absolute same]
    · simp [same]

theorem rmodFilter_of_not_known (valid : Rmodule.ops386.validType (relaType rela) = true)
    (unknown : ¬ Known pelf ignored rela) :
    ∃ stop, rmodFilter pelf ignored rela = .error stop ∧ stop ≠ .adjusted := by
  cases ignored with
  | none =>
    exact absurd ⟨valid, fun index member => absurd member (by simp)⟩ unknown
  | some index =>
    unfold rmodFilter
    cases found : pelf.syms[relaSymbol rela]? with
    | none => exact ⟨.outside, rfl, by simp⟩
    | some sym =>
      have bad : ¬ (sym.shndx = index → relaType rela = r38632) := by
        intro absolute
        apply unknown
        refine ⟨valid, ?_⟩
        rintro _ ⟨⟩
        exact ⟨sym, found, absolute⟩
      obtain ⟨same, other⟩ := Classical.not_imp.mp bad
      dsimp only
      rw [if_neg (not_not.mpr same), if_pos other]
      exact ⟨.error, rfl, by simp⟩

theorem shouldEmit_eq (type : Nat) : Rmodule.ops386.shouldEmit type = decide (type = r38632) := rfl

theorem adjustedOf_cons_of_emit
    (emit : relaType rela = r38632 ∧ inIgnored pelf ignored rela = false) :
    adjustedOf pelf ignored (rela :: relocs) = rela.offset :: adjustedOf pelf ignored relocs := by
  simp [adjustedOf, emit]

theorem adjustedOf_cons_of_not
    (passed : ¬ (relaType rela = r38632 ∧ inIgnored pelf ignored rela = false)) :
    adjustedOf pelf ignored (rela :: relocs) = adjustedOf pelf ignored relocs := by
  unfold adjustedOf
  rw [List.filter_cons_of_neg]
  simpa using passed

theorem forEachReloc_of_known (known : ∀ rela ∈ relocs, Known pelf ignored rela)
    (few : doEmit = true → nrelocs + (adjustedOf pelf ignored relocs).length ≤ 2147483648) :
    forEachReloc pelf ignored doEmit relocs emitted nrelocs =
      .ok (emitted ++ (if doEmit then adjustedOf pelf ignored relocs else []),
        nrelocs + (adjustedOf pelf ignored relocs).length) := by
  induction relocs generalizing emitted nrelocs with
  | nil => cases doEmit <;> simp [forEachReloc, adjustedOf]
  | cons rela rest ih =>
    rw [List.forall_mem_cons] at known
    obtain ⟨here, later⟩ := known
    rw [forEachReloc, if_neg (not_not.mpr here.1), rmodFilter_of_known here]
    dsimp only
    rw [shouldEmit_eq]
    by_cases emit : relaType rela = r38632 ∧ inIgnored pelf ignored rela = false
    · rw [adjustedOf_cons_of_emit emit, List.length_cons] at few ⊢
      have room : ¬ (doEmit = true ∧ 2 ^ 31 ≤ nrelocs) := by
        rintro ⟨emits, full⟩
        have bound := few emits
        omega
      rw [if_pos (by simp [emit]), if_neg room, ih later fun emits => by
        have bound := few emits
        omega]
      cases doEmit with
      | false => simp [Nat.add_assoc, Nat.add_comm 1]
      | true => simp [Nat.add_assoc, Nat.add_comm 1]
    · rw [adjustedOf_cons_of_not emit] at few ⊢
      rw [if_neg (by simpa [and_comm] using emit), ih later few]

theorem forEachReloc_of_not_known (unknown : ¬ ∀ rela ∈ relocs, Known pelf ignored rela) :
    ∃ stop, forEachReloc pelf ignored false relocs emitted nrelocs = .error stop ∧
      stop ≠ .adjusted := by
  induction relocs generalizing emitted nrelocs with
  | nil => exact absurd (List.forall_mem_nil _) unknown
  | cons rela rest ih =>
    rw [forEachReloc]
    by_cases valid : Rmodule.ops386.validType (relaType rela) = true
    · rw [if_neg (not_not.mpr valid)]
      by_cases here : Known pelf ignored rela
      · have later : ¬ ∀ rela ∈ rest, Known pelf ignored rela := by
          intro known
          exact unknown (List.forall_mem_cons.mpr ⟨here, known⟩)
        rw [rmodFilter_of_known here]
        dsimp only
        split_ifs with emit last
        · cases last.1
        · exact ih later
        · exact ih later
        · exact ih later
      · obtain ⟨stop, stopped, harmless⟩ := rmodFilter_of_not_known valid here
        rw [stopped]
        exact ⟨stop, rfl, harmless⟩
    · rw [if_pos valid]
      exact ⟨.error, rfl, by simp⟩

theorem forEachReloc_of_many (known : ∀ rela ∈ relocs, Known pelf ignored rela)
    (below : nrelocs ≤ 2147483648)
    (many : 2147483648 < nrelocs + (adjustedOf pelf ignored relocs).length) :
    forEachReloc pelf ignored true relocs emitted nrelocs = .error .outside := by
  induction relocs generalizing emitted nrelocs with
  | nil =>
    rw [adjustedOf, List.filter_nil, List.map_nil, List.length_nil] at many
    omega
  | cons rela rest ih =>
    rw [List.forall_mem_cons] at known
    obtain ⟨here, later⟩ := known
    rw [forEachReloc, if_neg (not_not.mpr here.1), rmodFilter_of_known here]
    dsimp only
    rw [shouldEmit_eq]
    by_cases emit : relaType rela = r38632 ∧ inIgnored pelf ignored rela = false
    · rw [adjustedOf_cons_of_emit emit, List.length_cons] at many
      rw [if_pos (by simp [emit])]
      split_ifs with last
      · rfl
      · have room : nrelocs < 2147483648 := by
          by_contra full
          exact last ⟨rfl, Nat.le_of_not_lt full⟩
        exact ih later (by omega) (by omega)
      · exact absurd rfl ‹_›
    · rw [adjustedOf_cons_of_not emit] at many
      rw [if_neg (by simpa [and_comm] using emit)]
      exact ih later below many

theorem collect_of_collects (collects : Collects pelf ignored) :
    ∃ emitted, rmoduleCollectRelocations pelf ignored = .ok emitted ∧
      emitted.Perm (adjusted pelf ignored) := by
  obtain ⟨known, few⟩ := collects
  unfold adjusted at *
  unfold rmoduleCollectRelocations
  rw [forEachReloc_of_known known (by simp), ok_bind,
    forEachReloc_of_known known (by simpa using few)]
  dsimp only
  rw [Nat.zero_add]
  by_cases empty : (adjustedOf pelf ignored pelf.relocs.flatten).length = 0
  · rw [if_pos empty]
    refine ⟨[], rfl, ?_⟩
    rw [List.length_eq_zero_iff.mp empty]
  · rw [if_neg empty, ok_bind]
    rw [if_neg (not_not.mpr rfl)]
    exact ⟨_, rfl, List.perm_insertionSort _ _⟩

theorem collect_of_not_collects (bad : ¬ Collects pelf ignored) :
    ∃ stop, rmoduleCollectRelocations pelf ignored = .error stop ∧ stop ≠ .adjusted := by
  unfold rmoduleCollectRelocations
  by_cases known : ∀ rela ∈ pelf.relocs.flatten, Known pelf ignored rela
  · have many : 2147483648 < (adjustedOf pelf ignored pelf.relocs.flatten).length := by
      by_contra few
      exact bad ⟨known, Nat.le_of_not_lt few⟩
    rw [forEachReloc_of_known known (by simp), ok_bind]
    dsimp only
    rw [if_neg (by omega), forEachReloc_of_many known (by omega) (by omega)]
    exact ⟨.outside, rfl, by simp⟩
  · obtain ⟨stop, stopped, harmless⟩ :=
      @forEachReloc_of_not_known pelf ignored pelf.relocs.flatten [] 0 known
    rw [stopped]
    exact ⟨stop, rfl, harmless⟩

end Collect

section Adjust

variable {input : Buffer} {pelf : ParsedElf} {phdr first : Phdr} {relocs : List Nat}
  {location adjustment : Nat} {memory : Memory} {second other : Nat} {offsets : List Nat}

theorem adjustRelocations_of_inside
    (inside : ∀ offset ∈ offsetsIn phdr relocs, offset + 4 ≤ phdr.filesz) :
    adjustRelocations phdr adjustment relocs memory =
      .ok (addWords 4 adjustment (offsetsIn phdr relocs) memory) := by
  induction relocs generalizing memory with
  | nil => rfl
  | cons reloc rest ih =>
    unfold offsetsIn at inside ih ⊢
    rw [List.map_cons, List.forall_mem_cons] at inside
    obtain ⟨here, later⟩ := inside
    rw [adjustRelocations, if_pos here, ih later]
    rfl

theorem adjustRelocations_of_not_inside
    (outside : ¬ ∀ offset ∈ offsetsIn phdr relocs, offset + 4 ≤ phdr.filesz) :
    adjustRelocations phdr adjustment relocs memory = .error .adjusted := by
  induction relocs generalizing memory with
  | nil => exact absurd (List.forall_mem_nil _) outside
  | cons reloc rest ih =>
    unfold offsetsIn at outside ih
    rw [adjustRelocations]
    split_ifs with here
    · apply ih
      intro later
      exact outside (List.forall_mem_cons.mpr ⟨here, later⟩)
    · rfl

def stageOf (input : Buffer) (pelf : ParsedElf) (phdr : Phdr) (relocs : List Nat)
    (location : Nat) : Output where
  stage := fillCbfsStage .none ((pelf.ehdr.entry + sub32 location phdr.vaddr) % 2 ^ 32)
    ((phdr.vaddr + sub32 location phdr.vaddr) % 2 ^ 32) phdr.filesz phdr.memsz
  data := ⟨addWords 4 (sub32 location phdr.vaddr) (offsetsIn phdr relocs)
    (fileImage input phdr), phdr.filesz⟩
  location := sub32 location sizeofStage

theorem makeXipStage_of_inside (room : sizeofStage + phdr.filesz < 2 ^ 63)
    (inside : ∀ offset ∈ offsetsIn phdr relocs, offset + 4 ≤ phdr.filesz) :
    makeXipStage input pelf phdr relocs location =
      .ok (stageOf input pelf phdr relocs location) := by
  unfold makeXipStage
  rw [if_neg (Nat.not_le.mpr room)]
  dsimp only
  rw [adjustRelocations_of_inside inside]
  rfl

theorem makeXipStage_of_not_inside (room : sizeofStage + phdr.filesz < 2 ^ 63)
    (outside : ¬ ∀ offset ∈ offsetsIn phdr relocs, offset + 4 ≤ phdr.filesz) :
    makeXipStage input pelf phdr relocs location = .error .adjusted := by
  unfold makeXipStage
  rw [if_neg (Nat.not_le.mpr room)]
  dsimp only
  rw [adjustRelocations_of_not_inside outside]
  rfl

theorem sub32_lt (first second : Nat) : sub32 first second < 4294967296 := Nat.mod_lt _ (by decide)

theorem sub32_add {amount vaddr : Nat} (small : amount < 4294967296) :
    sub32 ((amount + vaddr) % 4294967296) vaddr = amount := by
  unfold sub32
  omega

theorem sub32_congr (same : second % 4294967296 = other % 4294967296) :
    sub32 location second = sub32 location other := by
  unfold sub32
  omega

theorem sub32_inj (small : location < 4294967296)
    (same : sub32 location second = sub32 location other) :
    second % 4294967296 = other % 4294967296 := by
  unfold sub32 at same
  omega

theorem add_sub32 {vaddr : Nat} (small : location < 4294967296) :
    (vaddr + sub32 location vaddr) % 4294967296 = location := by
  unfold sub32
  omega

theorem relocOffset_eq_of_inside {reloc : Nat} (short : phdr.filesz < 4294967296)
    (size : first.filesz = phdr.filesz) (same : first.vaddr % 4294967296 = phdr.vaddr % 4294967296)
    (insideFirst : relocOffset first reloc + 4 ≤ first.filesz)
    (inside : relocOffset phdr reloc + 4 ≤ phdr.filesz) :
    relocOffset first reloc = relocOffset phdr reloc := by
  unfold relocOffset sub64 at *
  omega

theorem eq_of_increased_zero {after : Memory}
    (increased : Increased 4 0 offsets memory after) : after = memory := by
  funext address
  by_cases outside : ∀ offset ∈ offsets, address < offset ∨ offset + 4 ≤ address
  · exact increased.others address outside
  · push Not at outside
    obtain ⟨offset, member, above, below⟩ := outside
    obtain ⟨index, rfl⟩ := Nat.exists_eq_add_of_le above
    have word := increased.words offset member
    rw [Nat.add_zero, Nat.mod_eq_of_lt (readLE_lt 4 memory offset)] at word
    have after' := @readLE_div_mod 4 offset after index (by omega)
    have before' := @readLE_div_mod 4 offset memory index (by omega)
    rw [word, before'] at after'
    exact (BitVec.eq_of_toNat_eq after').symm

theorem addWords_zero : addWords 4 0 offsets memory = memory := by
  induction offsets generalizing memory with
  | nil => rfl
  | cons offset rest ih =>
    rw [addWords, List.foldl_cons, ← addWords, ih]
    apply @eq_of_increased_zero memory [offset]
    exact increased_of_apart (by decide) (List.pairwise_singleton _ _)

end Adjust

section Condition

variable {input : Buffer} {ignoreSection : Option (List Byte)} {pelf : ParsedElf}
  {ctx : Context} {ignored : Option Nat} {first phdr : Phdr} {emitted : List Nat}
  {location : Nat} {outcome : Except Stop Output}

variable {stop : Stop}

theorem nameTable_harmless (stopped : nameTable pelf = .error stop) : stop ≠ .adjusted := by
  unfold nameTable at stopped
  split at stopped
  · cases stopped
  · cases stopped
    simp

theorem findIgnored_harmless {shstrtab i : Nat} {name : List Byte} {shdrs : List Shdr}
    (stopped : findIgnored input shstrtab name shdrs i = .error stop) : stop ≠ .adjusted := by
  induction shdrs generalizing i with
  | nil => cases stopped
  | cons shdr rest ih =>
    rw [findIgnored] at stopped
    split_ifs at stopped
    · cases stopped
      simp
    · exact ih stopped

theorem findIgnoredSection_harmless
    (stopped : findIgnoredSection input pelf ignoreSection = .error stop) : stop ≠ .adjusted := by
  cases ignoreSection with
  | none => cases stopped
  | some name =>
    unfold findIgnoredSection at stopped
    cases table : nameTable pelf with
    | error other =>
      rw [table] at stopped
      cases stopped
      exact nameTable_harmless table
    | ok shstrtab =>
      rw [table] at stopped
      exact findIgnored_harmless stopped

theorem offsetsIn_perm {relocs : List Nat} (perm : emitted.Perm relocs) :
    (offsetsIn phdr emitted).Perm (offsetsIn phdr relocs) :=
  perm.map (relocOffset phdr)

theorem agrees_of_located (perm : emitted.Perm (adjusted ctx.pelf ignored))
    (few : (adjusted ctx.pelf ignored).length ≤ 2147483648)
    (insideFirst : ∀ offset ∈ offsetsIn first emitted, offset + 4 ≤ first.filesz)
    (located : ∀ location < 4294967296, Located input ctx ignored location
      (stageOf input ctx.pelf first emitted location)) :
    Agrees input first ctx.phdr (adjusted ctx.pelf ignored) := by
  have some := located 0 (by decide)
  have size : first.filesz = ctx.phdr.filesz := some.size
  have short : ctx.phdr.filesz < 4294967296 := by
    have len : first.filesz % 4294967296 = ctx.phdr.filesz := some.len
    rw [← len]
    exact Nat.mod_lt _ (by decide)
  have vaddr : first.vaddr % 4294967296 = ctx.phdr.vaddr % 4294967296 := by
    have entry : (ctx.pelf.ehdr.entry + sub32 0 first.vaddr) % 4294967296 =
        (ctx.pelf.ehdr.entry + sub32 0 ctx.phdr.vaddr) % 4294967296 := some.entry
    have small := sub32_lt 0 first.vaddr
    have small' := sub32_lt 0 ctx.phdr.vaddr
    exact @sub32_inj 0 _ _ (by decide) (by omega)
  have words : ∀ amount < 4294967296,
      Increased 4 amount (offsetsIn ctx.phdr (adjusted ctx.pelf ignored))
        (fileImage input ctx.phdr)
        (addWords 4 amount (offsetsIn first emitted) (fileImage input first)) := by
    intro amount small
    have image := (located ((amount + ctx.phdr.vaddr) % 4294967296)
      (Nat.mod_lt _ (by decide))).image
    unfold stageOf at image
    rwa [sub32_congr vaddr, sub32_add small] at image
  have image : fileImage input first = fileImage input ctx.phdr := by
    have still := words 0 (by decide)
    rw [addWords_zero] at still
    exact eq_of_increased_zero still
  have offsets : offsetsIn first (adjusted ctx.pelf ignored) =
      offsetsIn ctx.phdr (adjusted ctx.pelf ignored) := by
    apply List.map_congr_left
    intro reloc member
    apply relocOffset_eq_of_inside short size vaddr
    · exact insideFirst _ (List.mem_map_of_mem (perm.mem_iff.mpr member))
    · exact some.inside _ (List.mem_map_of_mem member)
  have apart : Apart 4 (offsetsIn first emitted) := by
    have length : (offsetsIn first emitted).length < 256 ^ 4 := by
      rw [offsetsIn, List.length_map, perm.length_eq]
      omega
    rw [← forall_increased_iff (by decide) length]
    intro amount small
    have patched := words amount small
    rw [← offsets, ← image] at patched
    exact patched.perm (offsetsIn_perm perm).symm
  exact {
    filesz := size
    short
    memsz := some.memlen
    vaddr
    image
    offsets
    inside := some.inside
    apart := by
      rw [← offsets]
      exact (Apart.perm (offsetsIn_perm perm)).mp apart }

theorem Agrees.located (agrees : Agrees input first ctx.phdr (adjusted ctx.pelf ignored))
    (perm : emitted.Perm (adjusted ctx.pelf ignored)) (small : location < 4294967296) :
    Located input ctx ignored location (stageOf input ctx.pelf first emitted location) where
  load := add_sub32 small
  entry := by
    change (ctx.pelf.ehdr.entry + sub32 location first.vaddr) % 2 ^ 32 = _
    rw [sub32_congr agrees.vaddr]
  len := by
    change first.filesz % 4294967296 = ctx.phdr.filesz
    rw [agrees.filesz]
    exact Nat.mod_eq_of_lt agrees.short
  memlen := agrees.memsz
  size := agrees.filesz
  inside := agrees.inside
  image := by
    change Increased 4 _ _ _ (addWords 4 (sub32 location first.vaddr)
      (offsetsIn first emitted) (fileImage input first))
    rw [sub32_congr agrees.vaddr, agrees.image, ← agrees.offsets]
    apply Increased.perm (offsetsIn_perm perm)
    apply increased_of_apart (by decide)
    rw [Apart.perm (offsetsIn_perm perm), agrees.offsets]
    exact agrees.apart

theorem ehdr_of_rmoduleInit (init : rmoduleInit input pelf = .ok ctx) :
    ctx.pelf.ehdr = pelf.ehdr := by
  unfold rmoduleInit at init
  split_ifs at init
  cases segment : findProgramSegment pelf with
  | error stop =>
    rw [segment] at init
    cases init
  | ok phdr =>
    rw [segment, ok_bind] at init
    cases kept : filterRelocationSections input pelf phdr with
    | error stop =>
      rw [kept] at init
      cases init
    | ok relocs =>
      rw [kept] at init
      cases init
      rfl

theorem placesWell_iff_behindInit (parsed : ElfParsing.ParseElf input parseAll (.ok pelf))
    (init : rmoduleInit input pelf = .ok ctx) :
    PlacesWell input ignoreSection location ↔
      match behindInit input ignoreSection location ctx with
      | .error stop => stop ≠ .adjusted
      | .ok output => ∃ ignored,
          findIgnoredSection input ctx.pelf ignoreSection = .ok ignored ∧
          Located input ctx ignored location output := by
  have comes (outcome : Except Stop Output) :
      ParseElfToXipStage input ignoreSection location outcome ↔
        outcome = behindInit input ignoreSection location ctx := by
    constructor
    · rintro ⟨other, parsed', rfl⟩
      rw [← parsed.unique parsed']
      dsimp only
      rw [init, ok_bind]
    · rintro rfl
      refine ⟨.ok pelf, parsed, ?_⟩
      dsimp only
      rw [init, ok_bind]
  unfold PlacesWell
  simp only [comes, forall_eq]
  cases behindInit input ignoreSection location ctx with
  | error stop => rfl
  | ok output =>
    constructor
    · rintro ⟨pelf', ctx', ignored, parsed', init', found, located⟩
      cases parsed.unique parsed'
      cases init.symm.trans init'
      exact ⟨ignored, found, located⟩
    · rintro ⟨ignored, found, located⟩
      exact ⟨pelf, ctx, ignored, parsed, init, found, located⟩

theorem behindInit_of_collected (x86 : ctx.pelf.ehdr.machine = em386)
    (found : findIgnoredSection input ctx.pelf ignoreSection = .ok ignored)
    (collected : rmoduleCollectRelocations ctx.pelf ignored = .ok emitted) :
    behindInit input ignoreSection location ctx = makeXipStage input ctx.pelf
      (ctx.pelf.phdr.headD ctx.phdr) emitted location := by
  unfold behindInit
  rw [if_neg (not_not.mpr x86), found, ok_bind, collected, ok_bind]

end Condition

/-- An executable with two program headers of some types, of 4 and of 8 bytes, and with
three sections. -/
def smallExecutable (first second : Byte) : Buffer where
  memory address := (elfmag ++ [1, 1, 1] ++ List.replicate 9 0 ++
    [2, 0, 3, 0, 1, 0, 0, 0] ++ [0, 0, 0, 0] ++ [52, 0, 0, 0] ++ [116, 0, 0, 0] ++
    [0, 0, 0, 0] ++ [52, 0, 32, 0, 2, 0, 40, 0, 3, 0, 1, 0] ++
    [first, 0, 0, 0] ++ List.replicate 12 0 ++ [4, 0, 0, 0, 4, 0, 0, 0] ++
    List.replicate 8 0 ++
    [second, 0, 0, 0] ++ List.replicate 12 0 ++ [8, 0, 0, 0, 8, 0, 0, 0] ++
    List.replicate 8 0 ++
    List.replicate 40 0 ++
    [0, 0, 0, 0] ++ [3, 0, 0, 0] ++ List.replicate 8 0 ++ [236, 0, 0, 0] ++
    [1, 0, 0, 0] ++ List.replicate 16 0 ++
    [0, 0, 0, 0] ++ [2, 0, 0, 0] ++ List.replicate 8 0 ++ [236, 0, 0, 0] ++
    List.replicate 16 0 ++ [16, 0, 0, 0]).getD address 0
  size := 237

def smallElf (first second : Nat) : ParsedElf where
  ehdr := ⟨elfmag ++ [1, 1, 1] ++ List.replicate 9 0, etExec, em386, 1, 0, 52, 116, 0, 52,
    32, 2, 40, 3, 1⟩
  phdr := [⟨first, 0, 0, 0, 0, 4, 4, 0⟩, ⟨second, 0, 0, 0, 0, 8, 8, 0⟩]
  shdr := [emptyShdr, ⟨0, shtStrtab, 0, 0, 236, 1, 0, 0, 0, 0⟩,
    ⟨0, shtSymtab, 0, 0, 236, 0, 0, 0, 0, 16⟩]
  relocs := [[], [], []]
  strtabs := [none, some [0], none]
  syms := []

theorem endsWith_noSyms (b : Buffer) :
    SteppedRun.EndsWith (ElfParsing.symStep b .le false 0) ⟨0, 236, ElfParsing.noSyms⟩
      (.ok []) := by
  have ended : ElfParsing.symStep b .le false 0 ⟨0, 236, ElfParsing.noSyms⟩ = .inr (.ok []) := rfl
  exact (SteppedRun.endsWith_iff_of_ended ended).mpr rfl

theorem parsed_noteFirst :
    ElfParsing.ParseElf (smallExecutable 4 1) parseAll (.ok (smallElf 4 ptLoad)) := by
  have tables : ElfParsing.parseTables (smallExecutable 4 1) parseAll =
      .ok (smallElf 4 ptLoad) := rfl
  unfold ElfParsing.ParseElf
  rw [tables]
  exact ⟨.ok [], endsWith_noSyms _, rfl⟩

theorem init_noteFirst : rmoduleInit (smallExecutable 4 1) (smallElf 4 ptLoad) =
    .ok ⟨smallElf 4 ptLoad, ⟨ptLoad, 0, 0, 0, 0, 8, 8, 0⟩⟩ :=
  rfl

theorem parsed_noteLast :
    ElfParsing.ParseElf (smallExecutable 1 4) parseAll (.ok (smallElf ptLoad 4)) := by
  have tables : ElfParsing.parseTables (smallExecutable 1 4) parseAll =
      .ok (smallElf ptLoad 4) := rfl
  unfold ElfParsing.ParseElf
  rw [tables]
  exact ⟨.ok [], endsWith_noSyms _, rfl⟩

theorem init_noteLast : rmoduleInit (smallExecutable 1 4) (smallElf ptLoad 4) =
    .ok ⟨smallElf ptLoad 4, ⟨ptLoad, 0, 0, 0, 0, 4, 4, 0⟩⟩ :=
  rfl

end Coreboot.XipStage
