import Mathlib.Data.List.Forall2
import Coreboot.ElfRoundTrip

/-!
# Writer and loader agree

A file that has been written is read back with its sections, and its program headers load the
memory image of the allocated ones, exactly when the contents that share a header fill the file
and memory alike.
-/

namespace Coreboot.ElfHeaders

open ByteMemory

/-- Headers, sections and names are read, and more if it is asked for. -/
def readingFlags (reloc symtab : Bool) : ParseFlags :=
  { phdr := true, shdr := true, reloc := reloc, strtab := true
    symtab := symtab }

section Parsing

variable {ehdr : Ehdr} {extras : List WriterSection} {b : Buffer}

theorem Output.strtabs_inside (output : Output ehdr extras b) (initialised : ehdr.Initialised)
    (storable : Storable ehdr extras) (full : ∀ sec ∈ extras, sec.Full) :
    ∀ shdr ∈ (writerOf ehdr extras).layout.sections.map WriterSection.shdr,
      shdr.type = shtStrtab → shdr.offset + shdr.size ≤ b.size := by
  obtain ⟨-, -, names, -⟩ := storable.offsets initialised
  have size := output.size_eq
  rw [List.forall_mem_map, layout_sections]
  intro sec member type
  rcases List.mem_append.mp member with head | final
  · have first : ∀ (size : Nat) (bit64 : Bool) (layout : Layout),
        ∀ sec ∈ headSections size bit64 layout,
          sec.shdr.type = shtStrtab →
            sec.shdr.offset + sec.shdr.size = layout.shstroffset + layout.shstrlen ∨
              sec.shdr.offset + sec.shdr.size = layout.metadataSize + size := by
      intro size bit64 layout sec member type
      rw [headSections] at member
      simp only [List.mem_cons, List.not_mem_nil, or_false] at member
      rcases member with rfl | rfl | rfl | rfl
      · cases type
      · exact .inl rfl
      · exact .inr rfl
      · cases type
    rcases first _ _ _ sec head type with equal | equal
    · omega
    · omega
  · rcases full_final full _ sec final with ⟨other, -⟩ | ⟨other, -⟩
    · rw [other] at type
      cases type
    · rw [other] at type
      cases type

def strtabBytes (b : Buffer) (shdr : Shdr) : Option (List Byte) :=
  if shdr.type ≠ shtStrtab then none
  else some (load b.memory shdr.offset shdr.size)

theorem Output.strtabRead_eq (output : Output ehdr extras b) (initialised : ehdr.Initialised)
    (storable : Storable ehdr extras) (full : ∀ sec ∈ extras, sec.Full) :
    strtabRead b ((writerOf ehdr extras).layout.ehdr.truncated
      (isBit64 ehdr.ident))
      ((writerOf ehdr extras).layout.sections.map WriterSection.shdr) =
      some (((writerOf ehdr extras).layout.sections.map
        WriterSection.shdr).map (strtabBytes b)) := by
  have inside := output.strtabs_inside initialised storable full
  obtain ⟨-, -, -, file⟩ := storable.offsets initialised
  have word := word_le (isBit64 ehdr.ident)
  have size := output.size_eq
  have count := @length_sections ehdr extras
  rw [storable.truncated initialised, strtabRead]
  dsimp only
  rw [if_neg (by
    rw [shstrtabIndex]
    omega)]
  refine mapM_eq_map fun shdr member => ?_
  rw [strtabSectionRead, strtabBytes]
  by_cases type : shdr.type = shtStrtab
  · rw [if_neg (not_not_intro type), if_neg (not_not_intro type),
      if_pos (checkSize_eq_true (by omega) (inside shdr member type))]
  · rw [if_pos type, if_pos type]

theorem relocRead_eq (full : ∀ sec ∈ extras, sec.Full) (found : Ehdr) (xdr : Xdr) (bit64 : Bool) :
    relocRead b found xdr bit64
      ((writerOf ehdr extras).layout.sections.map WriterSection.shdr) =
      some (((writerOf ehdr extras).layout.sections.map WriterSection.shdr).map fun _ => []) :=
  mapM_eq_map fun shdr member => by
    obtain ⟨-, rel, rela⟩ := type_sections full shdr member
    rw [relocSection, if_pos ⟨rel, rela⟩]

theorem symtabRead_eq (full : ∀ sec ∈ extras, sec.Full) (xdr : Xdr) (bit64 : Bool) :
    symtabRead b xdr bit64
      ((writerOf ehdr extras).layout.sections.map WriterSection.shdr) =
      none := by
  have none : ((writerOf ehdr extras).layout.sections.map
      WriterSection.shdr).filter (fun shdr => shdr.type = shtSymtab) = [] := by
    rw [List.filter_eq_nil_iff]
    intro shdr member
    rw [decide_eq_true_eq]
    exact (type_sections full shdr member).1
  rw [symtabRead, none]

theorem optional_true {α : Type} (read : Option (List α)) : optional true read = read := if_pos rfl

def parsedElf (ehdr : Ehdr) (extras : List WriterSection) (b : Buffer) (reloc : Bool) : ParsedElf :=
  let shdrs := (writerOf ehdr extras).layout.sections.map WriterSection.shdr
  { ehdr := (writerOf ehdr extras).layout.ehdr.truncated (isBit64 ehdr.ident)
    phdr := writePhdrs [] (writerOf ehdr extras).layout.sections none
    shdr := shdrs
    relocs := if reloc then shdrs.map fun _ => [] else []
    strtabs := shdrs.map (strtabBytes b)
    syms := [] }

theorem Output.parseElf_eq (output : Output ehdr extras b) (initialised : ehdr.Initialised)
    (storable : Storable ehdr extras) (full : ∀ sec ∈ extras, sec.Full) (reloc symtab : Bool) :
    parseElf b (readingFlags reloc symtab) =
      if symtab then none else some (parsedElf ehdr extras b reloc) := by
  obtain ⟨ident, magic, header⟩ := output.header initialised
  rw [parseElf, magic, if_neg (not_not_intro rfl)]
  dsimp only
  rw [ident, header, readingFlags]
  simp only [Bool.true_or, optional_true, output.phdrRead_eq initialised storable full,
    Option.bind_some, output.shdrRead_eq initialised storable, relocRead_eq full,
    symtabRead_eq full, output.strtabRead_eq initialised storable full, parsedElf]
  cases reloc with
  | false =>
    cases symtab with
    | false => rfl
    | true => rfl
  | true =>
    cases symtab with
    | false => rfl
    | true => rfl

end Parsing

structure Matches (b : Buffer) (pelf : ParsedElf) (sec : WriterSection)
    (shdr : Shdr) : Prop where
  type : shdr.type = sec.shdr.type
  flags : shdr.flags = sec.shdr.flags
  addr : shdr.addr = sec.shdr.addr
  size : shdr.size = sec.shdr.size
  content : sectionContent b shdr = sec.content
  name : ∀ name, sec.name = some name → pelf.sectionName shdr = some name

variable {sections others extras : List WriterSection} {ehdr : Ehdr}

theorem forall₂_of_alike {change : WriterSection → WriterSection}
    {R : WriterSection → WriterSection → Prop} (alike : Alike change others sections)
    (related : ∀ sec, ∀ other ∈ others, change other = change sec → R sec other) :
    List.Forall₂ R sections others := by
  induction sections generalizing others with
  | nil =>
    rw [Alike, List.map_nil, List.map_eq_nil_iff] at alike
    rw [alike]
    exact .nil
  | cons sec rest ih =>
    cases others with
    | nil => cases alike
    | cons other others =>
      obtain ⟨same, later⟩ := List.cons.inj alike
      exact .cons (related sec other (.head _) same)
        (ih later fun sec other member =>
          related sec other (.tail _ member))

theorem Output.sectionName_eq {b : Buffer} (output : Output ehdr extras b)
    (initialised : ehdr.Initialised) (storable : Storable ehdr extras)
    (reloc : Bool) (shdr : Shdr) :
    (parsedElf ehdr extras b reloc).sectionName shdr =
      some (stringAt (0 :: (writerOf ehdr extras).layout.sections.flatMap
        nameBytes) shdr.name) := by
  have second : (parsedElf ehdr extras b reloc).strtabs[shstrtabIndex]? =
      some (some (load b.memory (writerOf ehdr extras).layout.shstroffset
        (writerOf ehdr extras).layout.shstrlen)) := by
    have first : (parsedElf ehdr extras b reloc).strtabs =
        ((headSections 4096 (isBit64 ehdr.ident)
          (writerOf ehdr extras).layout ++
            finalSections (writerOf ehdr extras).layout extras).map
              WriterSection.shdr).map (strtabBytes b) := by
      rw [← layout_sections]
      rfl
    rw [first]
    rfl
  have index : (parsedElf ehdr extras b reloc).ehdr.shstrndx = shstrtabIndex := by
    rw [parsedElf]
    rw [storable.truncated initialised]
  rw [ParsedElf.sectionName, index, second, output.names]
  rfl

theorem Output.forall₂_matches {b : Buffer} (output : Output ehdr extras b)
    (initialised : ehdr.Initialised) (storable : Storable ehdr extras)
    (full : ∀ sec ∈ extras, sec.Full) (named : Named extras) (reloc : Bool) :
    List.Forall₂ (Matches b (parsedElf ehdr extras b reloc)) extras
      ((parsedElf ehdr extras b reloc).shdr.drop 4) := by
  have shdrs : (parsedElf ehdr extras b reloc).shdr.drop 4 =
      (finalSections (writerOf ehdr extras).layout extras).map WriterSection.shdr := by
    rw [parsedElf]
    rw [layout_sections, List.map_append]
    rfl
  rw [shdrs, List.forall₂_map_right_iff]
  refine forall₂_of_alike (alike_finalSections extras _) fun sec final member same => ?_
  have stored := placed_mem output.placed final member
  have kept {α : Type} (field : WriterSection → α) : field final.bare = field sec.bare :=
    congrArg field same
  have bareContent : final.content = sec.content := kept WriterSection.content
  have bareName : final.name = sec.name := kept WriterSection.name
  have fullFinal := full_final full _ final member
  refine
    { type := kept fun sec => sec.shdr.type
      flags := kept fun sec => sec.shdr.flags
      addr := kept fun sec => sec.shdr.addr
      size := kept fun sec => sec.shdr.size
      content := ?_
      name := fun name isName => ?_ }
  · rw [sectionContent, ← bareContent]
    rcases fullFinal with ⟨type, size⟩ | ⟨type, empty⟩
    · have other : ¬final.shdr.type = shtNobits := by
        rw [type]
        decide
      rw [if_neg other, ← size, stored]
    · rw [if_pos type, empty]
  · obtain ⟨old, isOld, offset, -, rfl⟩ := placeContents_mem (show 2 ≤ 4 by decide) final member
    have namedAdded : Named (extras.map WriterSection.added) := by
      rw [Named, List.forall_mem_map]
      exact named
    have head : (0 :: (namedHead 4096 (isBit64 ehdr.ident)).flatMap nameBytes :
        List Byte).length = 27 :=
      rfl
    have found := stringAt_placeNames namedAdded
      (0 :: (namedHead 4096 (isBit64 ehdr.ident)).flatMap nameBytes) [] old
      (by rw [head]; exact isOld) name (bareName.trans isName)
    have names : (finalSections (writerOf ehdr extras).layout extras).flatMap
        nameBytes = (extras.map WriterSection.added).flatMap nameBytes := by
      rw [(alike_finalSections extras _).flatMap fun _ => rfl]
      exact ((alike_added extras).flatMap fun _ => rfl).symm
    rw [output.sectionName_eq initialised storable, layout_sections,
      List.flatMap_append, nameBytes_headSections, names]
    rw [List.append_nil, List.cons_append] at found
    exact congrArg some found.2

theorem alike_outline_contents (alike : Alike WriterSection.outline extras others) :
    (extras.flatMap WriterSection.content).length =
      (others.flatMap WriterSection.content).length := by
  have same := congrArg List.length
    (alike.flatMap (f := fun sec => sec.outline.content) fun sec => by
      rw [WriterSection.outline, WriterSection.outline, List.length_replicate])
  simp only [WriterSection.outline, List.length_flatMap, List.length_replicate] at same
  rw [List.length_flatMap, List.length_flatMap]
  exact same

theorem layout_metadataSize (ehdr : Ehdr) (extras : List WriterSection) :
    (writerOf ehdr extras).layout.metadataSize =
      alignPage (ehdr.ehsize + (4 + extras.length) * ehdr.shentsize +
        countPhdrs [] extras * ehdr.phentsize +
        (27 + (extras.flatMap nameBytes).length)) := by
  have total : (writerOf ehdr extras).layout.metadataSize =
      alignPage (ehdr.ehsize +
        (writerOf ehdr extras).layout.ehdr.shnum * ehdr.shentsize +
        (writerOf ehdr extras).layout.ehdr.phnum * ehdr.phentsize +
        (writerOf ehdr extras).layout.shstrlen) :=
    rfl
  rw [total, ← length_layout_sections, length_sections, layout_phnum, layout_shstrlen_eq]

theorem Storable.alike (storable : Storable ehdr extras)
    (alike : Alike WriterSection.outline extras others) : Storable ehdr others := by
  have nameLength := congrArg List.length (alike.flatMap (f := nameBytes) fun _ => rfl)
  have length := alike.length
  exact
    { room := by
        rw [← length]
        exact storable.room
      fields := alike.forall_mem (fun _ => Iff.rfl) storable.fields
      addressable := alike.forall_mem (fun _ => Iff.rfl) storable.addressable
      inMemory := by
        rw [← alike.allocatedSize preserves_outline]
        exact storable.inMemory
      names := by
        rw [layout_shstrlen_eq, ← nameLength, ← @layout_shstrlen_eq ehdr]
        exact storable.names
      file := by
        rw [layout_metadataSize, layout_programSize_eq, ← length, ← nameLength,
          ← alike.countPhdrs preserves_outline, ← alike_outline_contents alike,
          ← layout_metadataSize, ← @layout_programSize_eq ehdr]
        exact storable.file }

theorem full_outline (sec : WriterSection) : sec.outline.Full ↔ sec.Full := by
  rw [WriterSection.Full, WriterSection.Full, preserves_outline.length]
  have empty : sec.outline.content = [] ↔ sec.content = [] := by
    rw [WriterSection.outline, List.replicate_eq_nil_iff, List.length_eq_zero_iff]
  rw [empty]
  rfl

def WriterSection.paint (sec : WriterSection) : WriterSection :=
  { sec with
    content := List.replicate sec.content.length (if sec.alloc then 1 else 2) }

theorem alike_paint (extras : List WriterSection) :
    Alike WriterSection.outline extras (extras.map WriterSection.paint) := by
  have same : WriterSection.outline ∘ WriterSection.paint = WriterSection.outline := by
    funext sec
    simp only [Function.comp_apply, WriterSection.outline, WriterSection.paint,
      List.length_replicate]
  rw [Alike, List.map_map, same]

theorem painted_map (extras : List WriterSection) : Painted (extras.map WriterSection.paint) := by
  rw [Painted, List.forall_mem_map]
  exact fun sec _ byte member => List.eq_of_mem_replicate member

theorem store_mem (m : Memory) (base : Nat) (bytes : List Byte) (address : Nat) :
    store m base bytes address = m address ∨ store m base bytes address ∈ bytes := by
  induction bytes generalizing base with
  | nil => exact .inl rfl
  | cons byte rest ih =>
    rw [store_cons_apply]
    split
    · exact .inr (.head _)
    · exact (ih (base + 1)).imp_right (List.mem_cons_of_mem byte)

theorem WriterSection.Full.length_memoryBytes {sec : WriterSection}
    (full : sec.Full) : sec.memoryBytes.length = sec.shdr.size := by
  rw [WriterSection.memoryBytes]
  rcases full with ⟨type, size⟩ | ⟨type, -⟩
  · have other : ¬sec.shdr.type = shtNobits := by
      rw [type]
      decide
    rw [if_neg other, size]
  · rw [if_pos type, List.length_replicate]

theorem allocatedImage_outside (full : ∀ sec ∈ sections, sec.Full)
    {address : Nat} (uncovered : ∀ sec ∈ sections, ¬sec.Covers address)
    (m : Memory) : allocatedImage sections m address = m address := by
  induction sections generalizing m with
  | nil => rfl
  | cons sec rest ih =>
    rw [allocatedImage, ih (List.forall_mem_cons.mp full).2 (List.forall_mem_cons.mp uncovered).2]
    split
    · rename_i alloc
      rw [store_of_outside]
      rw [(full sec (.head _)).length_memoryBytes]
      have notHere := uncovered sec (.head _)
      rw [WriterSection.Covers] at notHere
      by_contra inside
      exact notHere ⟨alloc, by omega⟩
    · rfl

theorem allocatedImage_zero (full : ∀ sec ∈ sections, sec.Full)
    (disjoint : Disjoint sections) (m : Memory) :
    ∀ sec ∈ sections, sec.content = [] → ∀ address, sec.Covers address →
      allocatedImage sections m address = 0 := by
  induction sections generalizing m with
  | nil => exact nofun
  | cons first rest ih =>
    have fullRest := (List.forall_mem_cons.mp full).2
    obtain ⟨fromFirst, disjointRest⟩ := List.pairwise_cons.mp disjoint
    intro sec member empty address covers
    rcases List.mem_cons.mp member with rfl | later
    · rw [allocatedImage, allocatedImage_outside fullRest
        fun other isLater inside =>
          fromFirst other isLater address ⟨covers, inside⟩,
        if_pos covers.1]
      have zeros : sec.memoryBytes = List.replicate sec.shdr.size 0 := by
        rw [WriterSection.memoryBytes]
        split
        · rfl
        · rename_i other
          rcases full sec (.head _) with ⟨-, size⟩ | ⟨type, -⟩
          · rw [← size, empty]
            rfl
          · exact absurd type other
      rw [zeros, store_replicate, fill, if_pos covers.2]
    · rw [allocatedImage]
      exact ih fullRest disjointRest _ sec later empty address covers

theorem allocatedImage_painted (painted : Painted sections) {m : Memory}
    (small : ∀ address, m address ≠ 2) (address : Nat) : allocatedImage sections m address ≠ 2 := by
  induction sections generalizing m with
  | nil => exact small address
  | cons sec rest ih =>
    rw [allocatedImage]
    refine ih (List.forall_mem_cons.mp painted).2 fun address => ?_
    split
    · rename_i alloc
      rcases store_mem m sec.shdr.addr sec.memoryBytes address with
        kept | stored
      · rw [kept]
        exact small address
      · have bytes : ∀ byte ∈ sec.memoryBytes, byte ≠ 2 := by
          intro byte member
          rw [WriterSection.memoryBytes] at member
          split at member
          · rw [List.eq_of_mem_replicate member]
            decide
          · rw [painted sec (.head _) byte member, if_pos alloc]
            decide
        exact bytes _ stored
    · exact small address

/-- The file is read, with the sections that have been added, and its program
headers load the image of the allocated ones. -/
def Agrees (reloc symtab : Bool) (ehdr : Ehdr) (extras : List WriterSection) : Prop :=
  ∀ allocated : Memory, ∃ b pelf, writeElf allocated ehdr extras = some b ∧
    parseElf b (readingFlags reloc symtab) = some pelf ∧
    List.Forall₂ (Matches b pelf) extras (pelf.shdr.drop 4) ∧
    ∀ m, loadHeaders b pelf.phdr m = allocatedImage extras m

theorem agrees_of_inStep (initialised : ehdr.Initialised) (storable : Storable ehdr extras)
    (full : ∀ sec ∈ extras, sec.Full) (named : Named extras) (ok : inStep [] true extras = true)
    (reloc : Bool) : Agrees reloc false ehdr extras := by
  intro allocated
  obtain ⟨b, written, output⟩ := writeElf_output initialised storable.room allocated
  have alike := alike_finalSections extras (writerOf ehdr extras).layout
  refine ⟨b, parsedElf ehdr extras b reloc, written,
    output.parseElf_eq initialised storable full reloc false,
    output.forall₂_matches initialised storable full named reloc, fun m => ?_⟩
  have loaded := @loadHeaders_writePhdrs _ b [] _ none true output.placed
    (fun sec member _ => full_final full _ sec member)
    (storable.addressable_final _) (show Pending [] none from rfl)
    (fun _ => nofun)
    (by rw [alike.inStep preserves_bare]; exact ok) m
  rw [← writePhdrs_layout] at loaded
  rw [← alike.allocatedImage]
  exact loaded

theorem inStep_of_agrees (initialised : ehdr.Initialised) (storable : Storable ehdr extras)
    (full : ∀ sec ∈ extras, sec.Full) (disjoint : Disjoint extras) (painted : Painted extras)
    {reloc symtab : Bool} (agrees : Agrees reloc symtab ehdr extras) :
    inStep [] true extras = true ∧ symtab = false := by
  obtain ⟨b, pelf, written, parsed, -, loads⟩ := agrees fun _ => 0
  obtain ⟨same, alsoWritten, output⟩ := writeElf_output initialised storable.room fun _ => 0
  obtain rfl : b = same := Option.some.inj (written.symm.trans alsoWritten)
  rw [output.parseElf_eq initialised storable full] at parsed
  cases symtab with
  | true => cases parsed
  | false =>
    refine ⟨?_, rfl⟩
    rw [if_neg Bool.false_ne_true] at parsed
    cases parsed
    by_contra fails
    rw [Bool.not_eq_true] at fails
    have alike := alike_finalSections extras (writerOf ehdr extras).layout
    have fullFinal := full_final full (writerOf ehdr extras).layout
    have disjointFinal := Alike.disjoint alike.symm preserves_bare disjoint
    have paintedFinal : Painted (finalSections (writerOf ehdr extras).layout extras) :=
      Alike.forall_mem alike.symm (fun _ => Iff.rfl) painted
    obtain ⟨address, wrong⟩ := @exists_ne b
      (allocatedImage (finalSections (writerOf ehdr extras).layout extras)
        fun _ => 0) _ [] _ none true output.placed
      (fun sec member _ => fullFinal sec member)
      (storable.addressable_final _) disjointFinal paintedFinal
      (show Pending [] none from rfl) nofun
      (allocatedImage_painted paintedFinal fun _ => by decide)
      (allocatedImage_zero fullFinal disjointFinal _) (fun _ => nofun) nofun
      (by rw [alike.inStep preserves_bare]; exact fails) fun _ => 0
    rw [← writePhdrs_layout, alike.allocatedImage] at wrong
    exact wrong (congrFun (loads fun _ => 0) address)

/-- Writer and loader agree on all contents of the sections exactly when no
content joins a header that is not in step, and no symbols are asked for. -/
theorem agrees_iff {ehdr : Ehdr} {extras : List WriterSection} (initialised : ehdr.Initialised)
    (storable : Storable ehdr extras) (full : ∀ sec ∈ extras, sec.Full) (disjoint : Disjoint extras)
    (named : Named extras) (reloc symtab : Bool) :
    (∀ others, Alike WriterSection.outline extras others → Agrees reloc symtab ehdr others) ↔
      inStep [] true extras = true ∧ symtab = false := by
  constructor
  · intro agrees
    have alike := alike_paint extras
    have ok := inStep_of_agrees initialised (storable.alike alike)
      (alike.forall_mem full_outline full)
      (alike.disjoint preserves_outline disjoint) (painted_map extras)
      (agrees _ alike)
    rwa [← alike.inStep preserves_outline] at ok
  · rintro ⟨ok, rfl⟩ others alike
    refine agrees_of_inStep initialised (storable.alike alike)
      (alike.forall_mem full_outline full)
      (alike.forall_mem (fun _ => Iff.rfl) named) ?_ reloc
    rwa [← alike.inStep preserves_outline]

def headerI386 : Ehdr := elfInitEheader 3 1 1

def codeSection (addr size : Nat) : WriterSection :=
  { shdr := { emptyShdr with
      type := shtProgbits, flags := shfAlloc, addr := addr, size := size }
    content := List.replicate size 1
    name := some [0x63] }

def zeroSection (addr size : Nat) : WriterSection :=
  { shdr := { emptyShdr with
      type := shtNobits, flags := shfAlloc, addr := addr, size := size }
    content := []
    name := some [0x7a] }

def threeSections (zerosLast : Bool) : List WriterSection :=
  if zerosLast then
    [codeSection 4096 4, codeSection 4100 4, zeroSection 4104 8]
  else
    [codeSection 4096 4, zeroSection 4100 8, codeSection 4108 4]

theorem storable_threeSections (zerosLast : Bool) :
    Storable headerI386 (threeSections zerosLast) := by
  have small : alignPage (52 + (4 + 3) * 40 + 1 * 32 + (27 + 6)) + (4096 + 8) < 256 ^ 4 := by
    decide
  cases zerosLast with
  | true =>
    exact
      { room := by decide
        fields := by decide
        addressable := by decide
        inMemory := by decide
        names := by
          rw [layout_shstrlen_eq]
          decide
        file := by
          rw [layout_metadataSize, layout_programSize_eq]
          exact small }
  | false =>
    exact
      { room := by decide
        fields := by decide
        addressable := by decide
        inMemory := by decide
        names := by
          rw [layout_shstrlen_eq]
          decide
        file := by
          rw [layout_metadataSize, layout_programSize_eq]
          exact small }

theorem full_threeSections (zerosLast : Bool) : ∀ sec ∈ threeSections zerosLast, sec.Full := by
  have code (addr size : Nat) : (codeSection addr size).Full := .inl ⟨rfl, List.length_replicate⟩
  have zeros (addr size : Nat) : (zeroSection addr size).Full := .inr ⟨rfl, rfl⟩
  cases zerosLast with
  | true =>
    exact List.forall_mem_cons.mpr ⟨code _ _, List.forall_mem_cons.mpr
      ⟨code _ _, List.forall_mem_singleton.mpr (zeros _ _)⟩⟩
  | false =>
    exact List.forall_mem_cons.mpr ⟨code _ _, List.forall_mem_cons.mpr
      ⟨zeros _ _, List.forall_mem_singleton.mpr (code _ _)⟩⟩

theorem disjoint_of_sorted (sorted : sections.Pairwise fun sec other =>
      sec.shdr.addr + sec.shdr.size ≤ other.shdr.addr) : Disjoint sections :=
  sorted.imp fun apart address => by
    rintro ⟨⟨-, -, below⟩, ⟨-, above, -⟩⟩
    omega

theorem disjoint_threeSections (zerosLast : Bool) : Disjoint (threeSections zerosLast) :=
  disjoint_of_sorted (by cases zerosLast <;> decide)

theorem agrees_zerosLast : Agrees false false headerI386 (threeSections true) :=
  (agrees_iff (initialised_elfInitEheader 3 1 1) (storable_threeSections true)
    (full_threeSections true) (disjoint_threeSections true)
    (by
      intro sec member name isName
      simp only [threeSections, if_true, List.mem_cons, List.not_mem_nil, or_false] at member
      rcases member with rfl | rfl | rfl
      all_goals
        cases isName
        decide)
    false false).mpr ⟨by decide, rfl⟩ _ rfl

/-- With the zeros in between, the second content is loaded into their place. -/
theorem not_agrees_zerosBetween :
    ((∀ sec ∈ threeSections false, sec.Full) ∧ Disjoint (threeSections false)) ∧
      ¬Agrees false false headerI386 (threeSections false) := by
  have painted : Painted (threeSections false) := by
    intro sec member
    simp only [threeSections, Bool.false_eq_true, if_false, List.mem_cons,
      List.not_mem_nil, or_false] at member
    rcases member with rfl | rfl | rfl
    · decide
    · decide
    · decide
  refine ⟨⟨full_threeSections false, disjoint_threeSections false⟩, fun agrees => ?_⟩
  have ok := inStep_of_agrees (initialised_elfInitEheader 3 1 1)
    (storable_threeSections false) (full_threeSections false)
    (disjoint_threeSections false) painted agrees
  exact absurd ok.1 (by decide)

end Coreboot.ElfHeaders
