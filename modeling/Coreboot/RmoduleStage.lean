import Coreboot.RmoduleLoad

/-!
# Relocatable stages

The host tool makes a stage of the file of a relocatable module.
-/

namespace Coreboot.Rmodule

open ByteMemory

/-- A section that `write_elf` adds: its address, its bytes in the file, and its size,
an `Elf64_Word`. -/
structure WrittenSection where
  addr : Nat
  bytes : Nat
  size : Nat

structure LoadHeader where
  paddr : Nat
  filesz : Nat
  memsz : Nat
deriving DecidableEq

namespace Context

/-- The sections of `write_elf`. -/
def sections (ctx : Context) : List WrittenSection :=
  let program := sizeofHeader
  let relocs := program + ctx.filesz
  let empty := relocs + ctx.relocsSize
  [⟨0, sizeofHeader, sizeofHeader⟩, ⟨program, ctx.filesz, ctx.filesz % 4294967296⟩] ++
  (if ctx.relocs.length ≠ 0 then
    [⟨relocs, ctx.relocsSize, ctx.relocsSize % 4294967296⟩]
  else []) ++
  if ctx.totalSize ≠ empty then
    [⟨empty, 0, (ctx.totalSize - empty) % 4294967296⟩]
  else []

end Context

/-- `write_phdrs`, behind a section that ends at an address: sections that are
consecutive share a program header. -/
def mergeSections (stop : Nat) (header : LoadHeader) : List WrittenSection → List LoadHeader
  | [] => [header]
  | next :: rest =>
    if stop = next.addr then
      mergeSections (next.addr + next.size)
        ⟨header.paddr, header.filesz + next.bytes, header.memsz + next.size⟩ rest
    else
      header :: mergeSections (next.addr + next.size) ⟨next.addr, next.bytes, next.size⟩ rest

def writePhdrs : List WrittenSection → List LoadHeader
  | [] => []
  | first :: rest =>
    mergeSections (first.addr + first.size) ⟨first.addr, first.bytes, first.size⟩ rest

/-- The first address of `parse_elf_to_stage`, and the last one. -/
def dataStart (headers : List LoadHeader) : Nat :=
  (headers.filter fun header => header.memsz ≠ 0).foldl
    (fun start header => min start header.paddr) 18446744073709551615

def memEnd (headers : List LoadHeader) : Nat :=
  (headers.filter fun header => header.memsz ≠ 0).foldl
    (fun stop header => max stop (header.paddr + header.memsz)) 0

/-- The field `memlen` of a stage that `parse_elf_to_stage` makes without a
location. -/
def Context.memlen (ctx : Context) : Nat :=
  let headers := writePhdrs ctx.sections
  (memEnd headers - dataStart headers) % 4294967296

def dynCbmemAlignSize : Nat := 4096

def alignPage (width value : Nat) : Nat := (value + 4095) % 256 ^ width / 4096 * 4096

/-- What `rmodule_calc_region` returns: the size of the region, and the offsets of the
program and of the header. -/
structure StageLayout where
  regionSize : Nat
  loadOffset : Nat
  rmoduleOffset : Nat
deriving DecidableEq

def rmoduleCalcRegion (width regionAlignment rmoduleSize : Nat) : Option StageLayout :=
  if regionAlignment &&& (regionAlignment - 1) ≠ 0 then none
  else
    let alignment := if regionAlignment < 4096 then 4096 else regionAlignment
    if alignment < sizeofHeader then none
    else
      some ⟨alignPage width ((rmoduleSize + alignment) % 256 ^ width),
        alignment, alignment - sizeofHeader⟩

/-- A decompressor for a stage: it writes in its buffer, and leaves the image
there. -/
structure Decompressor (ctx : Context) where
  run : Memory → Nat → Memory
  writes : ∀ memory buffer, SameOutside memory (run memory buffer) buffer (buffer + ctx.memlen)
  image : ∀ memory buffer, load (run memory buffer) buffer ctx.image.length = ctx.image

/-- `rmodule_stage_load`, with a region of CBMEM. -/
def rmoduleStageLoad (ctx : Context) (decompressor : Decompressor ctx)
    (memory : Memory) (region : Nat) : Option Memory :=
  (rmoduleCalcRegion ctx.width dynCbmemAlignSize ctx.memlen).bind fun layout =>
    let rmodLoc := region + layout.rmoduleOffset
    let decompressed := decompressor.run memory rmodLoc
    (rmoduleParse ctx.order decompressed rmodLoc).map fun rmod =>
      rmoduleLoad ctx.order ctx.width decompressed rmod (region + layout.loadOffset)

/-- Everything is kept in the region, and the relocations are those of the image. -/
structure StageKept (ctx : Context) (decompressor : Decompressor ctx)
    (memory : Memory) (region : Nat) (layout : StageLayout) : Prop where
  image : layout.rmoduleOffset + ctx.image.length ≤ layout.regionSize
  program : layout.loadOffset + ctx.memsz % 4294967296 ≤ layout.regionSize
  aligned : 4096 ∣ region → 4096 ∣ region + layout.loadOffset
  behind : layout.loadOffset = layout.rmoduleOffset + sizeofHeader
  writes : ∃ final, rmoduleStageLoad ctx decompressor memory region = some final ∧
    SameOutside memory final region (region + layout.regionSize)
  relocs : ∃ rmod, rmoduleParse ctx.order
      (decompressor.run memory (region + layout.rmoduleOffset))
      (region + layout.rmoduleOffset) = some rmod ∧
    load (rmoduleCopyPayload ctx.width
      (decompressor.run memory (region + layout.rmoduleOffset)) rmod
      (region + layout.loadOffset)) rmod.relocations ctx.relocsSize = ctx.relocBytes

def StageSafe (ctx : Context) (decompressor : Decompressor ctx)
    (memory : Memory) (region : Nat) : Prop :=
  ∃ layout,
    rmoduleCalcRegion ctx.width dynCbmemAlignSize ctx.memlen = some layout ∧
      StageKept ctx decompressor memory region layout

section Sizes

variable {ctx : Context}

theorem writePhdrs_sections (small : ctx.totalSize < 4294967296) :
    writePhdrs ctx.sections = [⟨0, ctx.image.length, ctx.totalSize⟩] := by
  have length := length_image ctx
  have above : sizeofHeader + ctx.filesz + ctx.relocsSize ≤ ctx.totalSize := by
    rw [Context.totalSize]
    split_ifs <;> omega
  have filesz : ctx.filesz % 4294967296 = ctx.filesz := Nat.mod_eq_of_lt (by omega)
  have relocs : ctx.relocsSize % 4294967296 = ctx.relocsSize := Nat.mod_eq_of_lt (by omega)
  have empty : (ctx.totalSize - (sizeofHeader + ctx.filesz +
      ctx.relocsSize)) % 4294967296 =
        ctx.totalSize - (sizeofHeader + ctx.filesz + ctx.relocsSize) :=
    Nat.mod_eq_of_lt (by omega)
  rw [Context.sections, filesz, relocs, empty, length]
  by_cases none' : ctx.relocs.length = 0
  · have size : ctx.relocsSize = 0 := by
      rw [Context.relocsSize, none', Nat.zero_mul]
    rw [size] at above ⊢
    by_cases whole : ctx.totalSize = sizeofHeader + ctx.filesz
    · simp [none', whole, writePhdrs, mergeSections]
    · simp [none', whole, writePhdrs, mergeSections]
      omega
  · by_cases whole : ctx.totalSize = sizeofHeader + ctx.filesz + ctx.relocsSize
    · simp [none', whole, writePhdrs, mergeSections]
    · simp [none', whole, writePhdrs, mergeSections]
      omega

theorem memlen_eq (small : ctx.totalSize < 4294967296) : ctx.memlen = ctx.totalSize := by
  have positive : ctx.totalSize ≠ 0 := by
    rw [Context.totalSize, sizeofHeader]
    omega
  rw [Context.memlen, writePhdrs_sections small]
  simp [memEnd, dataStart, positive, Nat.mod_eq_of_lt small]

theorem image_le_totalSize (ctx : Context) :
    ctx.image.length ≤ ctx.totalSize ∧ sizeofHeader + ctx.memsz ≤ ctx.totalSize := by
  rw [length_image, Context.totalSize]
  split_ifs <;> omega

end Sizes

section Placement

variable {ctx : Context} {decompressor : Decompressor ctx}
variable {memory : Memory} {region : Nat}

def layoutOf (width size : Nat) : StageLayout :=
  ⟨alignPage width ((size + 4096) % 256 ^ width), 4096, 4032⟩

theorem rmoduleCalcRegion_eq (width size : Nat) :
    rmoduleCalcRegion width dynCbmemAlignSize size = some (layoutOf width size) := by
  rw [rmoduleCalcRegion, if_neg (by decide)]
  rfl

theorem le_regionSize {width size : Nat} (small : size + 8191 < 256 ^ width) :
    size + 4096 ≤ (layoutOf width size).regionSize := by
  have sum : (size + 4096) % 256 ^ width = size + 4096 := Nat.mod_eq_of_lt (by omega)
  have rounded : (size + 4096 + 4095) % 256 ^ width = size + 4096 + 4095 :=
    Nat.mod_eq_of_lt (by omega)
  rw [layoutOf, alignPage, sum, rounded]
  dsimp only
  omega

theorem placed_of_region (small : ctx.totalSize < 4294967296)
    (room : ctx.totalSize + 8191 < 256 ^ ctx.width)
    (space : region + (layoutOf ctx.width ctx.memlen).regionSize ≤ 256 ^ ctx.width) :
    Placed ctx (decompressor.run memory (region + 4032)) (region + 4032) (region + 4096) := by
  have memlen := memlen_eq small
  have size := @le_regionSize ctx.width ctx.memlen (by omega)
  obtain ⟨-, program⟩ := image_le_totalSize ctx
  exact ⟨decompressor.image memory _, by omega, by omega, .inl rfl⟩

/-- A stage that the header can describe is kept in its region. -/
theorem stageSafe_of_bounded (ctx : Context) (decompressor : Decompressor ctx) (memory : Memory)
    (region : Nat) (bounded : ctx.Bounded) (describable : ctx.Describable)
    (small : ctx.totalSize < 4294967296) (room : ctx.totalSize + 8191 < 256 ^ ctx.width)
    (space : region + (layoutOf ctx.width ctx.memlen).regionSize ≤ 256 ^ ctx.width) :
    StageSafe ctx decompressor memory region := by
  have memlen := memlen_eq small
  have size := @le_regionSize ctx.width ctx.memlen (by omega)
  have placed := @placed_of_region ctx decompressor memory region small room space
  obtain ⟨image, program⟩ := image_le_totalSize ctx
  obtain ⟨header, -, table⟩ := parts_of_image placed.image
  have offsets := describable.offsets
  have parsed := rmoduleParse_eq header placed.nonnull (by omega)
  have programSize := Nat.mod_le ctx.memsz 4294967296
  have headerSize : sizeofHeader = 64 := rfl
  have behind : region + 4096 = region + 4032 + sizeofHeader := by omega
  have imageFits : 4032 + ctx.image.length ≤ (layoutOf ctx.width ctx.memlen).regionSize := by omega
  have programFits : 4096 + ctx.memsz % 4294967296 ≤
      (layoutOf ctx.width ctx.memlen).regionSize := by omega
  have unpacked := (decompressor.writes memory (region + 4032)).mono
    (show region ≤ region + 4032 by omega)
    (show region + 4032 + ctx.memlen ≤ region + (layoutOf ctx.width ctx.memlen).regionSize by omega)
  have loaded := (sameOutside_rmoduleLoad bounded describable
    (fun apart => absurd behind apart) placed).mono
    (show region ≤ region + 4096 by omega)
    (show region + 4096 + ctx.memsz ≤ region + (layoutOf ctx.width ctx.memlen).regionSize by omega)
  have stage : rmoduleStageLoad ctx decompressor memory region =
      some (rmoduleLoad ctx.order ctx.width
        (decompressor.run memory (region + 4032))
        (parsedModule ctx (region + 4032)) (region + 4096)) := by
    rw [rmoduleStageLoad, rmoduleCalcRegion_eq, Option.bind_some]
    dsimp only [layoutOf]
    rw [parsed, Option.map_some]
  have inPlace : rmoduleCopyPayload ctx.width
      (decompressor.run memory (region + 4032))
      (parsedModule ctx (region + 4032)) (region + 4096) =
        decompressor.run memory (region + 4032) :=
    if_pos behind
  have relocs : load (rmoduleCopyPayload ctx.width
      (decompressor.run memory (region + 4032))
      (parsedModule ctx (region + 4032)) (region + 4096))
      (parsedModule ctx (region + 4032)).relocations ctx.relocsSize = ctx.relocBytes := by
    rw [inPlace, parsedModule, ← Nat.add_assoc]
    exact table
  exact ⟨layoutOf ctx.width ctx.memlen, rmoduleCalcRegion_eq _ _, imageFits,
    programFits, fun page => (Nat.dvd_add_right page).mpr (Nat.dvd_refl 4096),
    rfl, ⟨_, stage, unpacked.trans loaded⟩, ⟨_, parsed, relocs⟩⟩

def plainDecompressor (ctx : Context)
    (inside : ctx.image.length ≤ ctx.memlen) : Decompressor ctx where
  run := fun memory buffer => store memory buffer ctx.image
  writes := fun _ _ _ outside => store_of_outside (by omega)
  image := fun memory buffer => load_store_self memory buffer ctx.image

theorem stageSafe_smallContext :
    StageSafe smallContext (plainDecompressor smallContext (by decide)) (fun _ => 0) 0x10000 :=
  stageSafe_of_bounded smallContext _ _ 0x10000
    ⟨.inl rfl, by decide, by decide, by decide⟩
    ⟨by decide, by decide, by decide, by decide⟩ (by decide) (by decide)
    (by decide)

/-- A module with a relocation far behind its program. -/
def wildContext : Context := { smallContext with relocs := [0x10100] }

def wildExecutable : Executable :=
  { smallExecutable with
    sections := [⟨false, true, 0x100, 8, [⟨0x10100, 1⟩]⟩] }

/-- A module with a bss of almost 4 GiB. -/
def hugeContext : Context := { smallContext with memsz := 0xfffff000, bssEnd := 0xfffff100 }

def hugeExecutable : Executable :=
  { smallExecutable with
    phdrs := [⟨ptLoad, 0x100, 0xfffff000, [4, 1, 0, 0, 0, 1, 0, 0]⟩]
    symbols := [("_bss", 0x108), ("_ebss", 0xfffff100)] }

/-- Relocations are not checked, and the size of the region may overflow. -/
theorem not_stageSafe_wildContext :
    (rmoduleCreate wildExecutable = some wildContext ∧
      ∃ inside, ¬ StageSafe wildContext (plainDecompressor wildContext inside)
        (fun _ => 0) 0x10000) ∧
    rmoduleCreate hugeExecutable = some hugeContext ∧
      ∃ inside, ¬ StageSafe hugeContext (plainDecompressor hugeContext inside)
        (fun _ => 0) 0x10000 := by
  refine ⟨⟨rfl, by decide, ?_⟩, rfl, by decide, ?_⟩
  · rintro ⟨layout, calculated, kept⟩
    obtain rfl : layoutOf 4 76 = layout := Option.some.inj calculated
    obtain ⟨final, loaded, same⟩ := kept.writes
    have parts := parts_of_image (load_store_self (fun _ => 0) 0x10fc0 wildContext.image)
    have parsed := rmoduleParse_eq parts.1 (by decide) (by decide)
    have stage : rmoduleStageLoad wildContext
        (plainDecompressor wildContext (by decide)) (fun _ => 0) 0x10000 =
          some (rmoduleLoad littleEndian 4
            (store (fun _ => 0) 0x10fc0 wildContext.image)
            (parsedModule wildContext 0x10fc0) 0x11000) := by
      rw [rmoduleStageLoad, rmoduleCalcRegion_eq, Option.bind_some]
      exact congrArg (Option.map _) parsed
    obtain rfl := Option.some.inj (stage.symm.trans loaded)
    have byte := same 0x21001 (.inr (by decide))
    exact absurd byte (by decide +kernel)
  · rintro ⟨layout, calculated, kept⟩
    obtain rfl : layoutOf 4 0xfffff040 = layout := Option.some.inj calculated
    exact absurd kept.image (by decide)

end Placement

end Coreboot.Rmodule
