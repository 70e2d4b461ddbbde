import Coreboot.ElfSections

/-!
# The layout of the file

The first four sections are the writer's own.  The sections that are added come
behind them, and do not depend on them but for their offsets.
-/

namespace Coreboot.ElfHeaders

open ByteMemory

def addSections : List WriterSection → Writer → Option Writer
  | [], ew => some ew
  | sec :: rest, ew =>
    (elfWriterAddSection ew sec.shdr sec.content sec.name).bind (addSections rest)

/-- A header, the calls of `elf_writer_add_section`, and the file. -/
def writeElf (allocated : Memory) (ehdr : Ehdr) (extras : List WriterSection) : Option Buffer :=
  (elfWriterInit ehdr).bind fun ew =>
    (addSections extras ew).bind (elfWriterSerialize allocated)

/-- A header of `elf_init_eheader`, whose other fields may have been set. -/
structure Ehdr.Initialised (ehdr : Ehdr) : Prop where
  length : ehdr.ident.length = eiNident
  magic : ehdr.ident.take 4 = elfmag
  ehsize : ehdr.ehsize = sizeofEhdr (isBit64 ehdr.ident)
  phentsize : ehdr.phentsize = sizeofPhdr (isBit64 ehdr.ident)
  shentsize : ehdr.shentsize = sizeofShdr (isBit64 ehdr.ident)

theorem initialised_elfInitEheader (machine : Nat) (nbits endian : Byte) :
    (elfInitEheader machine nbits endian).Initialised :=
  { length := rfl
    magic := rfl
    ehsize := rfl
    phentsize := rfl
    shentsize := rfl }

def WriterSection.added (sec : WriterSection) : WriterSection :=
  { sec with shdr := { sec.shdr with offset := 0 } }

def firstSections (bit64 : Bool) : List WriterSection :=
  [nullSection, shstrtabSection, strtabSection 4096, symtabSection bit64 100]

def writerOf (ehdr : Ehdr) (extras : List WriterSection) : Writer :=
  { ehdr := { ehdr with
      phoff := 0, shoff := 0, shnum := 0, phnum := 0
      shstrndx := shstrtabIndex }
    sections := firstSections (isBit64 ehdr.ident) ++
      extras.map WriterSection.added }

theorem addSections_eq {ew : Writer} {extras : List WriterSection}
    (room : ew.sections.length + extras.length ≤ maxSections) :
    addSections extras ew = some { ew with
      sections := ew.sections ++ extras.map WriterSection.added } := by
  induction extras generalizing ew with
  | nil => rw [addSections, List.map_nil, List.append_nil]
  | cons sec rest ih =>
    rw [List.length_cons] at room
    rw [addSections, elfWriterAddSection, if_neg (by omega),
      Option.bind_some, ih (by
        rw [List.length_append, List.length_singleton]
        omega)]
    exact congrArg (fun sections => some { ew with sections := sections }) (List.append_assoc _ _ _)

variable {ehdr : Ehdr}

theorem writeElf_eq (initialised : ehdr.Initialised) {extras : List WriterSection}
    (room : extras.length ≤ 12) (allocated : Memory) :
    writeElf allocated ehdr extras = elfWriterSerialize allocated (writerOf ehdr extras) := by
  rw [writeElf, elfWriterInit, if_pos initialised.magic, Option.bind_some]
  exact congrArg (fun ew => Option.bind ew (elfWriterSerialize allocated))
    (@addSections_eq (writerOf ehdr []) extras (show 4 + extras.length ≤ 16 by omega))

def namedHead (size : Nat) (bit64 : Bool) : List WriterSection :=
  [nullSection,
    { shstrtabSection with shdr := { shstrtabSection.shdr with name := 1 } },
    { strtabSection size with
      shdr := { (strtabSection size).shdr with name := 11 } },
    { symtabSection bit64 100 with
      shdr := { (symtabSection bit64 100).shdr with
        type := shtNull, name := 19, size := 0 }
      content := [] }]

def headSections (size : Nat) (bit64 : Bool) (layout : Layout) : List WriterSection :=
  [nullSection,
    { shstrtabSection with
      shdr := { shstrtabSection.shdr with
        name := 1, offset := layout.shstroffset, size := layout.shstrlen } },
    { strtabSection size with
      shdr := { (strtabSection size).shdr with
        name := 11, offset := layout.metadataSize } },
    { symtabSection bit64 100 with
      shdr := { (symtabSection bit64 100).shdr with
        type := shtNull, name := 19, offset := layout.metadataSize + size
        size := 0 }
      content := [] }]

theorem alloc_of_flags {sec : WriterSection} (none : sec.shdr.flags = 0) : sec.alloc = false := by
  rw [WriterSection.alloc, none]
  rfl

theorem alloc_namedHead (size : Nat) (bit64 : Bool) :
    ∀ sec ∈ namedHead size bit64, sec.alloc = false := by
  simp only [namedHead, List.forall_mem_cons, List.not_mem_nil,
    false_implies, implies_true, and_true]
  exact ⟨alloc_of_flags rfl, alloc_of_flags rfl, alloc_of_flags rfl, alloc_of_flags rfl⟩

theorem alloc_headSections (size : Nat) (bit64 : Bool) (layout : Layout) :
    ∀ sec ∈ headSections size bit64 layout, sec.alloc = false := by
  simp only [headSections, List.forall_mem_cons, List.not_mem_nil,
    false_implies, implies_true, and_true]
  exact ⟨alloc_of_flags rfl, alloc_of_flags rfl, alloc_of_flags rfl, alloc_of_flags rfl⟩

theorem content_namedHead (size : Nat) (bit64 : Bool) :
    (namedHead size bit64).flatMap WriterSection.content = List.replicate size 0 := by
  simp only [namedHead, List.flatMap_cons, List.flatMap_nil, nullSection,
    shstrtabSection, strtabSection, List.nil_append, List.append_nil]

theorem nameBytes_headSections (size : Nat) (bit64 : Bool) (layout : Layout) :
    (headSections size bit64 layout).flatMap nameBytes = (namedHead size bit64).flatMap nameBytes :=
  rfl

def finalSections (layout : Layout) (extras : List WriterSection) : List WriterSection :=
  placeContents layout.shstroffset 4 (layout.metadataSize + 4096)
    (placeNames 27 (extras.map WriterSection.added))

section Layout

variable (ehdr : Ehdr) (extras : List WriterSection)

theorem placeNames_fixup :
    placeNames 1 (fixupSymbolTable (writerOf ehdr extras).sections) =
      namedHead 4096 (isBit64 ehdr.ident) ++ placeNames 27 (extras.map WriterSection.added) :=
  rfl

theorem layout_sections :
    (writerOf ehdr extras).layout.sections =
      headSections 4096 (isBit64 ehdr.ident) (writerOf ehdr extras).layout ++
        finalSections (writerOf ehdr extras).layout extras := by
  obtain ⟨layout, isLayout⟩ : ∃ layout, layout = (writerOf ehdr extras).layout := ⟨_, rfl⟩
  have unfolded : layout.sections =
      placeContents layout.shstroffset 0 layout.metadataSize
        ((placeNames 1 (fixupSymbolTable (writerOf ehdr extras).sections)).modify
          shstrtabIndex fun sec =>
            { sec with shdr := { sec.shdr with size := layout.shstrlen } }) := by
    rw [isLayout]
    rfl
  rw [← isLayout, unfolded, placeNames_fixup]
  change placeContents layout.shstroffset 0 layout.metadataSize
    (nullSection :: _ :: _ :: _ :: placeNames 27 _) = _
  rw [placeContents, placeContents, placeContents_cons (Nat.le_refl 2),
    placeContents_cons (show 2 ≤ 3 by decide), if_neg (by decide),
    if_neg (by decide), if_pos (by decide)]
  have length : (strtabSection 4096).content.length = 4096 := List.length_replicate
  rw [length]
  rfl

theorem alike_added : Alike WriterSection.bare (extras.map WriterSection.added) extras := by
  rw [Alike, List.map_map]
  rfl

theorem alike_placed :
    Alike WriterSection.bare (placeNames 27 (extras.map WriterSection.added)) extras := by
  exact Eq.trans (alike_placeNames 27 (extras.map WriterSection.added)) (alike_added extras)

theorem alike_finalSections (layout : Layout) :
    Alike WriterSection.bare (finalSections layout extras) extras := by
  have placed := @alike_placeContents layout.shstroffset 4
    (layout.metadataSize + 4096)
    (placeNames 27 (extras.map WriterSection.added))
    (show 2 ≤ 4 by decide)
  exact Eq.trans placed (alike_placed extras)

theorem layout_phnum : (writerOf ehdr extras).layout.ehdr.phnum = countPhdrs [] extras := by
  have counted : (writerOf ehdr extras).layout.ehdr.phnum =
      countPhdrs [] (placeNames 1 (fixupSymbolTable (writerOf ehdr extras).sections)) :=
    rfl
  have first := alloc_namedHead 4096 (isBit64 ehdr.ident)
  rw [counted, placeNames_fixup, countPhdrs_append first,
    (alike_placed extras).countPhdrs preserves_bare, List.nil_append]
  exact countPhdrs_congr (prevAlloc_eq_none first) extras

theorem writePhdrs_layout :
    writePhdrs [] (writerOf ehdr extras).layout.sections none =
      writePhdrs [] (finalSections (writerOf ehdr extras).layout extras) none := by
  have first := alloc_headSections 4096 (isBit64 ehdr.ident) (writerOf ehdr extras).layout
  rw [layout_sections, writePhdrs_append first, List.nil_append]
  exact writePhdrs_congr (prevAlloc_eq_none first) _ _

theorem length_writePhdrs_layout :
    (writePhdrs [] (writerOf ehdr extras).layout.sections none).length =
      (writerOf ehdr extras).layout.ehdr.phnum := by
  rw [writePhdrs_layout, length_writePhdrs, layout_phnum,
    (alike_finalSections extras _).countPhdrs preserves_bare]
  exact Nat.zero_add _

theorem length_layout_sections :
    (writerOf ehdr extras).layout.sections.length = (writerOf ehdr extras).layout.ehdr.shnum := by
  have alike := congrArg List.length (alike_finalSections extras (writerOf ehdr extras).layout)
  rw [List.length_map, List.length_map] at alike
  have named := congrArg List.length (alike_placeNames 27 (extras.map WriterSection.added))
  rw [List.length_map, List.length_map, List.length_map] at named
  have count : (writerOf ehdr extras).layout.ehdr.shnum =
      (placeNames 1 (fixupSymbolTable (writerOf ehdr extras).sections)).length :=
    rfl
  rw [layout_sections, count, placeNames_fixup, List.length_append,
    List.length_append, alike, named]
  rfl

theorem allData_layout :
    allData 0 (writerOf ehdr extras).layout.sections =
      List.replicate 4096 0 ++ extras.flatMap WriterSection.content := by
  rw [layout_sections, ← (alike_finalSections extras _).flatMap content_bare]
  change [] ++ ([] ++ allData 2 (_ :: _ :: finalSections _ extras)) = _
  rw [allData_eq _ (Nat.le_refl 2), List.flatMap_cons, List.flatMap_cons]
  rfl

theorem layout_programSize :
    (writerOf ehdr extras).layout.programSize =
      (allData 0 (writerOf ehdr extras).layout.sections).length := by
  have total : (writerOf ehdr extras).layout.programSize =
      ((placeNames 1 (fixupSymbolTable (writerOf ehdr extras).sections)).map
        fun sec => sec.content.length).sum :=
    rfl
  rw [total, placeNames_fixup, ← List.length_flatMap, List.flatMap_append, content_namedHead,
    allData_layout, (alike_placed extras).flatMap content_bare]

theorem layout_shstrlen :
    (writerOf ehdr extras).layout.shstrlen =
      1 + ((writerOf ehdr extras).layout.sections.flatMap nameBytes).length := by
  have total : (writerOf ehdr extras).layout.shstrlen =
      1 + ((placeNames 1
        (fixupSymbolTable (writerOf ehdr extras).sections)).flatMap nameBytes).length :=
    rfl
  rw [total, placeNames_fixup, layout_sections, List.flatMap_append, List.flatMap_append,
    nameBytes_headSections, (alike_placed extras).flatMap fun _ => rfl,
    (alike_finalSections extras _).flatMap fun _ => rfl]

end Layout

theorem le_alignPage (value : Nat) : value ≤ alignPage value := by
  rw [alignPage]
  omega

structure Output (ehdr : Ehdr) (extras : List WriterSection) (b : Buffer) :
    Prop where
  size : b.size = (writerOf ehdr extras).layout.metadataSize +
    (writerOf ehdr extras).layout.programSize
  headers : load b.memory 0
    ((writerOf ehdr extras).layout.ehdr.shoff +
      sizeofShdr (isBit64 ehdr.ident) * (writerOf ehdr extras).layout.sections.length) =
    ehdrWrite (xdrOf ehdr.ident) (isBit64 ehdr.ident) (writerOf ehdr extras).layout.ehdr ++
      ((writerOf ehdr extras).layout.sections.map WriterSection.shdr).flatMap
        (shdrWrite (xdrOf ehdr.ident) (isBit64 ehdr.ident))
  phdrs : load b.memory (writerOf ehdr extras).layout.ehdr.phoff
    (sizeofPhdr (isBit64 ehdr.ident) *
      (writePhdrs [] (writerOf ehdr extras).layout.sections none).length) =
    (writePhdrs [] (writerOf ehdr extras).layout.sections none).flatMap
      (phdrWrite (xdrOf ehdr.ident) (isBit64 ehdr.ident))
  names : load b.memory (writerOf ehdr extras).layout.shstroffset
    (writerOf ehdr extras).layout.shstrlen =
    0 :: (writerOf ehdr extras).layout.sections.flatMap nameBytes
  contents : load b.memory
    ((writerOf ehdr extras).layout.metadataSize + 4096)
    (extras.flatMap WriterSection.content).length =
    extras.flatMap WriterSection.content

theorem length_flatMap_write {α : Type} {write : α → List Byte} {size : Nat}
    (length : ∀ record, (write record).length = size) (records : List α) :
    (records.flatMap write).length = size * records.length := by
  induction records with
  | nil => rfl
  | cons record rest ih =>
    rw [List.flatMap_cons, List.length_append, ih, length, List.length_cons,
      Nat.mul_succ, Nat.add_comm]

theorem layout_offsets (initialised : ehdr.Initialised) (extras : List WriterSection) :
    (writerOf ehdr extras).layout.ehdr.shoff = sizeofEhdr (isBit64 ehdr.ident) ∧
      (writerOf ehdr extras).layout.ehdr.phoff =
        (writerOf ehdr extras).layout.ehdr.shoff +
          sizeofShdr (isBit64 ehdr.ident) * (writerOf ehdr extras).layout.sections.length ∧
      (writerOf ehdr extras).layout.shstroffset =
        (writerOf ehdr extras).layout.ehdr.phoff +
          sizeofPhdr (isBit64 ehdr.ident) * (writerOf ehdr extras).layout.ehdr.phnum ∧
      (writerOf ehdr extras).layout.shstroffset + (writerOf ehdr extras).layout.shstrlen ≤
        (writerOf ehdr extras).layout.metadataSize := by
  have shoff : (writerOf ehdr extras).layout.ehdr.shoff = ehdr.ehsize := rfl
  have phoff : (writerOf ehdr extras).layout.ehdr.phoff =
      ehdr.ehsize + (writerOf ehdr extras).layout.ehdr.shnum * ehdr.shentsize :=
    rfl
  have names : (writerOf ehdr extras).layout.shstroffset =
      (writerOf ehdr extras).layout.ehdr.phoff +
        (writerOf ehdr extras).layout.ehdr.phnum * ehdr.phentsize :=
    rfl
  refine ⟨?_, ?_, ?_, le_alignPage _⟩
  · rw [shoff, initialised.ehsize]
  · rw [phoff, shoff, length_layout_sections, initialised.shentsize, Nat.mul_comm]
  · rw [names, initialised.phentsize, Nat.mul_comm (sizeofPhdr _)]

/-- The buffer after everything has been written. -/
def fileMemory (allocated : Memory) (ehdr : Ehdr) (extras : List WriterSection) : Memory :=
  let layout := (writerOf ehdr extras).layout
  let xdr := xdrOf ehdr.ident
  let bit64 := isBit64 ehdr.ident
  store (store (store (store allocated 0
    (ehdrWrite xdr bit64 layout.ehdr ++
      layout.sections.flatMap fun sec => shdrWrite xdr bit64 sec.shdr))
    layout.shstroffset (0 :: layout.sections.flatMap nameBytes))
    layout.metadataSize (allData 0 layout.sections))
    layout.ehdr.phoff
    ((writePhdrs [] layout.sections none).flatMap (phdrWrite xdr bit64))

theorem elfWriterSerialize_eq (allocated : Memory) (ehdr : Ehdr) (extras : List WriterSection) :
    elfWriterSerialize allocated (writerOf ehdr extras) =
      some
        { memory := fileMemory allocated ehdr extras
          size := (writerOf ehdr extras).layout.metadataSize +
            (writerOf ehdr extras).layout.programSize } :=
  if_pos (length_writePhdrs_layout ehdr extras)

theorem writeElf_output (initialised : ehdr.Initialised) {extras : List WriterSection}
    (room : extras.length ≤ 12) (allocated : Memory) :
    ∃ b, writeElf allocated ehdr extras = some b ∧ Output ehdr extras b := by
  obtain ⟨shoff, phoff, shstroffset, metadataSize⟩ := layout_offsets initialised extras
  rw [writeElf_eq initialised room, elfWriterSerialize_eq]
  refine ⟨_, rfl, ?_⟩
  have headers : (ehdrWrite (xdrOf ehdr.ident) (isBit64 ehdr.ident)
      (writerOf ehdr extras).layout.ehdr ++
        (writerOf ehdr extras).layout.sections.flatMap fun sec =>
          shdrWrite (xdrOf ehdr.ident) (isBit64 ehdr.ident) sec.shdr).length =
      (writerOf ehdr extras).layout.ehdr.phoff := by
    rw [List.length_append, length_ehdrWrite
        (show (writerOf ehdr extras).layout.ehdr.ident.length = eiNident from initialised.length),
      length_flatMap_write fun sec => length_shdrWrite _ _ _, phoff, shoff]
  have phdrs : ((writePhdrs [] (writerOf ehdr extras).layout.sections
      none).flatMap (phdrWrite (xdrOf ehdr.ident) (isBit64 ehdr.ident))).length =
      sizeofPhdr (isBit64 ehdr.ident) * (writerOf ehdr extras).layout.ehdr.phnum := by
    rw [length_flatMap_write (length_phdrWrite _ _), length_writePhdrs_layout]
  have names : (0 :: (writerOf ehdr extras).layout.sections.flatMap nameBytes :
      List Byte).length = (writerOf ehdr extras).layout.shstrlen := by
    rw [layout_shstrlen, List.length_cons, Nat.add_comm]
  have contents : (allData 0 (writerOf ehdr extras).layout.sections).length =
      4096 + (extras.flatMap WriterSection.content).length := by
    rw [allData_layout, List.length_append, List.length_replicate]
  exact
    { size := rfl
      headers := by
        rw [List.flatMap_map, ← phoff, ← headers, fileMemory]
        rw [load_store_of_disjoint (.inl (by omega)),
          load_store_of_disjoint (.inl (by omega)),
          load_store_of_disjoint (.inl (by omega)), load_store_self]
      phdrs := by
        rw [← length_flatMap_write (length_phdrWrite (xdrOf ehdr.ident)
          (isBit64 ehdr.ident)), fileMemory, load_store_self]
      names := by
        rw [← names, fileMemory, load_store_of_disjoint (.inr (by omega)),
          load_store_of_disjoint (.inl (by omega)), load_store_self]
      contents := by
        have all : load (fileMemory allocated ehdr extras)
            (writerOf ehdr extras).layout.metadataSize
            (4096 + (extras.flatMap WriterSection.content).length) =
            List.replicate 4096 0 ++ extras.flatMap WriterSection.content := by
          rw [fileMemory, load_store_of_disjoint (.inr (by omega)), ← contents,
            load_store_self, allData_layout]
        rw [load_append] at all
        exact (List.append_inj all (by
          rw [length_load, List.length_replicate])).2 }

end Coreboot.ElfHeaders
