import Coreboot.ElfLayout

/-!
# Reading a written file

The parser finds the tables of headers and the names, and reads the headers that
have been written.
-/

namespace Coreboot.ElfHeaders

open ByteMemory

/-- The sections can be added, and their numbers have places in the file. -/
structure Storable (ehdr : Ehdr) (extras : List WriterSection) : Prop where
  room : extras.length ≤ 12
  fields : ∀ sec ∈ extras, sec.added.shdr.Fits (isBit64 ehdr.ident)
  addressable : Addressable extras
  inMemory : allocatedSize extras < 256 ^ wordSize (isBit64 ehdr.ident)
  names : (writerOf ehdr extras).layout.shstrlen < 256 ^ 4
  file : (writerOf ehdr extras).layout.metadataSize +
    (writerOf ehdr extras).layout.programSize < 256 ^ wordSize (isBit64 ehdr.ident)

theorem load_part {m : Memory} {base : Nat} {bytes : List Byte}
    (stored : load m base bytes.length = bytes) {skip count : Nat}
    (inside : skip + count ≤ bytes.length) :
    load m (base + skip) count = (bytes.drop skip).take count := by
  obtain ⟨rest, total⟩ := Nat.exists_eq_add_of_le inside
  rw [← take_drop_load m base skip count rest, ← total, stored]

theorem word_le (bit64 : Bool) : 256 ^ wordSize bit64 ≤ 2 ^ 64 := by
  cases bit64 with
  | false => decide
  | true => decide

theorem checkSize_eq_true {b : Buffer} (small : b.size < 2 ^ 64) {offset size : Nat}
    (inside : offset + size ≤ b.size) : checkSize b offset size = true := by
  rw [checkSize]
  split
  · rfl
  · rw [decide_eq_true_eq, Nat.mod_eq_of_lt (by omega)]
    omega

theorem mapM_eq_map {α β : Type} {f : α → Option β} {g : α → β} {list : List α}
    (succeeds : ∀ x ∈ list, f x = some (g x)) : list.mapM f = some (list.map g) := by
  induction list with
  | nil => rfl
  | cons x rest ih =>
    rw [List.mapM_cons, succeeds x (.head _), ih (List.forall_mem_cons.mp succeeds).2]
    rfl

section Sections

variable {ehdr : Ehdr} {extras : List WriterSection}

variable {sections : List WriterSection}

theorem placeNames_lt {bound : Nat} (small : ∀ sec ∈ sections, sec.shdr.name < bound)
    {shstrlen : Nat} (inside : shstrlen + (sections.flatMap nameBytes).length ≤ bound) :
    ∀ sec ∈ placeNames shstrlen sections, sec.shdr.name < bound := by
  induction sections generalizing shstrlen with
  | nil => exact nofun
  | cons sec rest ih =>
    obtain ⟨shdr, content, name⟩ := sec
    have smallRest := (List.forall_mem_cons.mp small).2
    rw [List.flatMap_cons, List.length_append] at inside
    cases name with
    | none =>
      have noBytes : nameBytes ⟨shdr, content, none⟩ = [] := rfl
      rw [noBytes, List.length_nil, Nat.zero_add] at inside
      exact List.forall_mem_cons.mpr ⟨small _ (.head _), ih smallRest inside⟩
    | some name =>
      have bytes : (nameBytes ⟨shdr, content, some name⟩).length = name.length + 1 := by
        rw [nameBytes, List.length_append, List.length_singleton]
      rw [bytes, ← Nat.add_assoc] at inside
      refine List.forall_mem_cons.mpr ⟨?_, ih smallRest inside⟩
      change shstrlen < bound
      omega

theorem placeContents_mem {shstroffset index position : Nat} (high : 2 ≤ index) :
    ∀ sec ∈ placeContents shstroffset index position sections,
      ∃ old ∈ sections, ∃ offset,
        offset ≤ position + (sections.flatMap WriterSection.content).length ∧
          sec = { old with shdr := { old.shdr with offset := offset } } := by
  induction sections generalizing index position with
  | nil => exact nofun
  | cons first rest ih =>
    rw [placeContents_cons high, List.flatMap_cons, List.length_append]
    intro sec member
    rcases List.mem_cons.mp member with rfl | later
    · exact ⟨first, (.head _), position, Nat.le_add_right _ _, rfl⟩
    · obtain ⟨old, inRest, offset, small, equal⟩ := ih (by omega) sec later
      exact ⟨old, List.mem_cons_of_mem _ inRest, offset, by omega, equal⟩

theorem placed_mem {b : Buffer} {position : Nat} (placed : Placed b position sections) :
    ∀ sec ∈ sections, load b.memory sec.shdr.offset sec.content.length = sec.content := by
  induction sections generalizing position with
  | nil => exact nofun
  | cons sec rest ih =>
    obtain ⟨offset, stored, later⟩ := placed
    refine List.forall_mem_cons.mpr ⟨?_, ih later⟩
    rw [offset, stored]

theorem layout_shstrlen_eq :
    (writerOf ehdr extras).layout.shstrlen = 27 + (extras.flatMap nameBytes).length := by
  have total : (writerOf ehdr extras).layout.shstrlen =
      1 + ((placeNames 1
        (fixupSymbolTable (writerOf ehdr extras).sections)).flatMap nameBytes).length :=
    rfl
  have head : ((namedHead 4096 (isBit64 ehdr.ident)).flatMap nameBytes).length = 26 := rfl
  rw [total, placeNames_fixup, List.flatMap_append, List.length_append, head,
    (alike_placed extras).flatMap fun _ => rfl, ← Nat.add_assoc]

theorem layout_programSize_eq :
    (writerOf ehdr extras).layout.programSize =
      4096 + (extras.flatMap WriterSection.content).length := by
  rw [layout_programSize, allData_layout, List.length_append, List.length_replicate]

end Sections

section Reading

variable {ehdr : Ehdr} {extras : List WriterSection} {b : Buffer}

theorem length_sections : (writerOf ehdr extras).layout.sections.length = 4 + extras.length := by
  have alike := congrArg List.length (alike_finalSections extras (writerOf ehdr extras).layout)
  rw [List.length_map, List.length_map] at alike
  rw [layout_sections, List.length_append, alike]
  rfl

theorem countPhdrs_le (before rest : List WriterSection) :
    countPhdrs before rest ≤ rest.length := by
  induction rest generalizing before with
  | nil => exact Nat.le_refl 0
  | cons sec rest ih =>
    have later := ih (before ++ [sec])
    rw [countPhdrs, List.length_cons]
    split
    · omega
    · omega

theorem word_ge (bit64 : Bool) : 4294967296 ≤ 256 ^ wordSize bit64 := by
  cases bit64 with
  | false => decide
  | true => decide

theorem Output.header (output : Output ehdr extras b) (initialised : ehdr.Initialised) :
    load b.memory 0 eiNident = ehdr.ident ∧
      load b.memory 0 4 = elfmag ∧
      elfEhdr (xdrOf ehdr.ident) (isBit64 ehdr.ident) ehdr.ident
        (load b.memory eiNident (sizeofEhdr (isBit64 ehdr.ident) - eiNident)) =
        (writerOf ehdr extras).layout.ehdr.truncated (isBit64 ehdr.ident) := by
  obtain ⟨shoff, -, -, -⟩ := layout_offsets initialised extras
  have whole : (writerOf ehdr extras).layout.ehdr.ident.length = eiNident := initialised.length
  have length := @length_ehdrWrite (xdrOf ehdr.ident) (isBit64 ehdr.ident)
    (writerOf ehdr extras).layout.ehdr whole
  have read := elfEhdr_ehdrWrite (xdrOf ehdr.ident) (isBit64 ehdr.ident)
    (writerOf ehdr extras).layout.ehdr whole
  have begins : (ehdrWrite (xdrOf ehdr.ident) (isBit64 ehdr.ident)
      (writerOf ehdr extras).layout.ehdr).take eiNident = ehdr.ident := by
    rw [ehdrWrite, List.take_left' whole]
    rfl
  have stored := output.headers
  rw [shoff, ← length, load_append] at stored
  have first := (List.append_inj stored (length_load _ _ _)).1
  obtain ⟨bytes, isBytes⟩ : ∃ bytes, bytes = ehdrWrite (xdrOf ehdr.ident)
      (isBit64 ehdr.ident) (writerOf ehdr extras).layout.ehdr := ⟨_, rfl⟩
  rw [← isBytes] at length read begins first
  have large : eiNident ≤ bytes.length := by
    rw [length]
    cases isBit64 ehdr.ident with
    | false => decide
    | true => decide
  have ident := @load_part _ _ _ first 0 eiNident (by omega)
  rw [List.drop_zero, begins] at ident
  refine ⟨ident, ?_, ?_⟩
  · have four : load b.memory 0 (4 + 12) = load b.memory 0 4 ++ load b.memory (0 + 4) 12 :=
      load_append _ _ _ _
    rw [show 4 + 12 = eiNident from rfl, ident] at four
    rw [← initialised.magic, four, List.take_left' (length_load _ _ _)]
  · have rest := @load_part _ _ _ first eiNident (bytes.length - eiNident) (by omega)
    rw [List.take_of_length_le (Nat.le_of_eq (List.length_drop ..)), Nat.zero_add] at rest
    rw [← length, rest]
    exact read

theorem Output.shdrs (output : Output ehdr extras b) (initialised : ehdr.Initialised) :
    load b.memory (writerOf ehdr extras).layout.ehdr.shoff
      (sizeofShdr (isBit64 ehdr.ident) *
        ((writerOf ehdr extras).layout.sections.map WriterSection.shdr).length) =
      ((writerOf ehdr extras).layout.sections.map WriterSection.shdr).flatMap
        (shdrWrite (xdrOf ehdr.ident) (isBit64 ehdr.ident)) := by
  obtain ⟨shoff, -, -, -⟩ := layout_offsets initialised extras
  have stored := output.headers
  rw [load_append, Nat.zero_add] at stored
  rw [List.length_map]
  refine (List.append_inj stored ?_).2
  rw [length_load, shoff]
  exact (length_ehdrWrite (show (writerOf ehdr extras).layout.ehdr.ident.length
    = eiNident from initialised.length)).symm

theorem Storable.offsets (storable : Storable ehdr extras) (initialised : ehdr.Initialised) :
    (writerOf ehdr extras).layout.ehdr.shoff ≤ (writerOf ehdr extras).layout.ehdr.phoff ∧
      (writerOf ehdr extras).layout.ehdr.phoff ≤ (writerOf ehdr extras).layout.shstroffset ∧
      (writerOf ehdr extras).layout.shstroffset + (writerOf ehdr extras).layout.shstrlen ≤
        (writerOf ehdr extras).layout.metadataSize ∧
      (writerOf ehdr extras).layout.metadataSize + 4096 +
          (extras.flatMap WriterSection.content).length <
        256 ^ wordSize (isBit64 ehdr.ident) := by
  obtain ⟨-, phoff, shstroffset, metadataSize⟩ := layout_offsets initialised extras
  have file := storable.file
  rw [layout_programSize_eq] at file
  omega

theorem Storable.truncated (storable : Storable ehdr extras) (initialised : ehdr.Initialised) :
    (writerOf ehdr extras).layout.ehdr.truncated (isBit64 ehdr.ident) =
      { (writerOf ehdr extras).layout.ehdr.truncated (isBit64 ehdr.ident) with
        phoff := (writerOf ehdr extras).layout.ehdr.phoff
        shoff := (writerOf ehdr extras).layout.ehdr.shoff
        phentsize := sizeofPhdr (isBit64 ehdr.ident)
        phnum := (writerOf ehdr extras).layout.ehdr.phnum
        shentsize := sizeofShdr (isBit64 ehdr.ident)
        shnum := (writerOf ehdr extras).layout.sections.length
        shstrndx := shstrtabIndex } := by
  obtain ⟨shoff, phoff, names, file⟩ := storable.offsets initialised
  have room := storable.room
  have phnum : (writerOf ehdr extras).layout.ehdr.phnum < 256 ^ 2 := by
    have count := countPhdrs_le [] extras
    rw [layout_phnum]
    omega
  have shnum : (writerOf ehdr extras).layout.sections.length < 256 ^ 2 := by
    rw [length_sections]
    omega
  have phentsize : (writerOf ehdr extras).layout.ehdr.phentsize % 256 ^ 2 =
      sizeofPhdr (isBit64 ehdr.ident) := by
    change ehdr.phentsize % 256 ^ 2 = _
    rw [initialised.phentsize]
    cases isBit64 ehdr.ident with
    | false => rfl
    | true => rfl
  have shentsize : (writerOf ehdr extras).layout.ehdr.shentsize % 256 ^ 2 =
      sizeofShdr (isBit64 ehdr.ident) := by
    change ehdr.shentsize % 256 ^ 2 = _
    rw [initialised.shentsize]
    cases isBit64 ehdr.ident with
    | false => rfl
    | true => rfl
  rw [Ehdr.truncated, phentsize, shentsize, ← length_layout_sections,
    Nat.mod_eq_of_lt shnum, Nat.mod_eq_of_lt phnum,
    Nat.mod_eq_of_lt (show (writerOf ehdr extras).layout.ehdr.phoff < _ by omega),
    Nat.mod_eq_of_lt (show (writerOf ehdr extras).layout.ehdr.shoff < _ by omega)]
  rfl

theorem fits_headSections {size : Nat} {bit64 : Bool} {layout : Layout}
    (shstroffset : layout.shstroffset < 256 ^ wordSize bit64)
    (shstrlen : layout.shstrlen < 256 ^ wordSize bit64)
    (metadataSize : layout.metadataSize + size < 256 ^ wordSize bit64)
    (notEmpty : 1 < 256 ^ wordSize bit64) :
    ∀ sec ∈ headSections size bit64 layout, sec.shdr.Fits bit64 := by
  have zero : 0 < 256 ^ wordSize bit64 := by omega
  have zeroWord : 0 < 256 ^ 4 := by decide
  have strtab : shtStrtab < 256 ^ 4 := by decide
  have entsize : sizeofSym bit64 < 256 ^ wordSize bit64 := by
    cases bit64 with
    | false => decide
    | true => decide
  have align : wordSize bit64 < 256 ^ wordSize bit64 := Nat.lt_pow_self (by decide)
  rw [headSections]
  simp only [List.forall_mem_cons, List.not_mem_nil, false_implies, implies_true, and_true]
  exact
    ⟨⟨zeroWord, zeroWord, zero, zero, zero, zero, zeroWord, zeroWord, zero, zero⟩,
      ⟨(by decide : 1 < 256 ^ 4), strtab, zero, zero, shstroffset, shstrlen,
        zeroWord, zeroWord, zero, zero⟩,
      ⟨(by decide : 11 < 256 ^ 4), strtab, zero, zero,
        Nat.lt_of_le_of_lt (Nat.le_add_right _ _) metadataSize,
        Nat.lt_of_le_of_lt (Nat.le_add_left _ _) metadataSize, zeroWord,
        zeroWord, notEmpty, zero⟩,
      ⟨(by decide : 19 < 256 ^ 4), zeroWord, zero, zero, metadataSize, zero,
        zeroWord, zeroWord, align, entsize⟩⟩

theorem Storable.fits (storable : Storable ehdr extras) (initialised : ehdr.Initialised) :
    ∀ shdr ∈ (writerOf ehdr extras).layout.sections.map WriterSection.shdr,
      shdr.Fits (isBit64 ehdr.ident) := by
  obtain ⟨-, -, names, file⟩ := storable.offsets initialised
  have word := word_ge (isBit64 ehdr.ident)
  have short := storable.names
  rw [List.forall_mem_map, layout_sections]
  intro sec member
  rcases List.mem_append.mp member with head | final
  · exact fits_headSections (by omega) (by omega) (by omega) (by omega) sec head
  · obtain ⟨old, isOld, offset, inside, rfl⟩ := placeContents_mem (show 2 ≤ 4 by decide) sec final
    rw [(alike_placed extras).flatMap content_bare] at inside
    have fields : ∀ sec ∈ placeNames 27 (extras.map WriterSection.added),
        sec.bare.shdr.Fits (isBit64 ehdr.ident) := by
      have bare : Alike WriterSection.bare (extras.map WriterSection.added)
          (placeNames 27 (extras.map WriterSection.added)) :=
        (alike_placeNames 27 _).symm
      refine bare.forall_mem (fun sec => Iff.rfl) ?_
      rw [List.forall_mem_map]
      intro sec isExtra
      have given := storable.fields sec isExtra
      exact { given with name := (by decide : 0 < 256 ^ 4) }
    have given : ∀ sec ∈ extras.map WriterSection.added, sec.shdr.name < 256 ^ 4 := by
      rw [List.forall_mem_map]
      exact fun sec isExtra => (storable.fields sec isExtra).name
    have total : 27 + ((extras.map WriterSection.added).flatMap nameBytes).length ≤ 256 ^ 4 := by
      rw [layout_shstrlen_eq] at short
      rw [(alike_added extras).flatMap fun _ => rfl]
      exact Nat.le_of_lt short
    have name := placeNames_lt given total old isOld
    exact { fields old isOld with
      name := name
      offset := Nat.lt_of_le_of_lt inside file }

section

variable (output : Output ehdr extras b)
include output

theorem Output.placed :
    Placed b ((writerOf ehdr extras).layout.metadataSize + 4096)
      (finalSections (writerOf ehdr extras).layout extras) := by
  refine placed_placeContents (show 2 ≤ 4 by decide) ?_
  rw [(alike_placed extras).flatMap content_bare]
  exact output.contents

omit output in
theorem Storable.addressable_final (storable : Storable ehdr extras)
    (layout : Layout) : Addressable (finalSections layout extras) :=
  Alike.forall_mem (alike_finalSections extras layout).symm (fun _ => Iff.rfl) storable.addressable

omit output in
theorem full_final (full : ∀ sec ∈ extras, sec.Full) (layout : Layout) :
    ∀ sec ∈ finalSections layout extras, sec.Full :=
  Alike.forall_mem (alike_finalSections extras layout).symm (fun _ => Iff.rfl) full

theorem Output.size_eq :
    b.size = (writerOf ehdr extras).layout.metadataSize + 4096 +
      (extras.flatMap WriterSection.content).length := by
  rw [output.size, layout_programSize_eq, Nat.add_assoc]

theorem Output.fits_phdrs (initialised : ehdr.Initialised) (storable : Storable ehdr extras)
    (full : ∀ sec ∈ extras, sec.Full) :
    ∀ p ∈ writePhdrs [] (writerOf ehdr extras).layout.sections none,
      p.Fits (isBit64 ehdr.ident) ∧ p.offset + p.filesz ≤ b.size := by
  obtain ⟨-, -, -, file⟩ := storable.offsets initialised
  have alike := alike_finalSections extras (writerOf ehdr extras).layout
  have contents := alike.flatMap content_bare
  rw [writePhdrs_layout, output.size_eq]
  refine fits_writePhdrs output.placed
    (fun sec member _ => full_final full _ sec member)
    (storable.addressable_final _)
    (show Pending [] none from rfl) nofun ?_ (by rw [contents]) file ?_
  · refine Alike.forall_mem alike.symm (fun _ => Iff.rfl) fun sec member => ?_
    have fields := storable.fields sec member
    exact ⟨fields.addr, fields.addralign⟩
  · rw [alike.allocatedSize preserves_bare]
    exact storable.inMemory

theorem Output.phdrRead_eq (initialised : ehdr.Initialised) (storable : Storable ehdr extras)
    (full : ∀ sec ∈ extras, sec.Full) :
    phdrRead b ((writerOf ehdr extras).layout.ehdr.truncated
      (isBit64 ehdr.ident)) (xdrOf ehdr.ident) (isBit64 ehdr.ident) =
      some (writePhdrs [] (writerOf ehdr extras).layout.sections none) := by
  have fits := output.fits_phdrs initialised storable full
  obtain ⟨-, -, shstroffset, -⟩ := layout_offsets initialised extras
  obtain ⟨-, -, names, file⟩ := storable.offsets initialised
  have word := word_le (isBit64 ehdr.ident)
  have size := output.size_eq
  have small : b.size < 2 ^ 64 := by omega
  have table := readTable_eq
    (length_phdrWrite (xdrOf ehdr.ident) (isBit64 ehdr.ident))
    (fun p member => elfPhdr_phdrWrite (xdrOf ehdr.ident) (fits p member).1)
    output.phdrs
  rw [length_writePhdrs_layout] at table
  have inside : (writePhdrs [] (writerOf ehdr extras).layout.sections none).all
      (fun phdr => checkSize b phdr.offset phdr.filesz) = true := by
    rw [List.all_eq_true]
    exact fun p member => checkSize_eq_true small (fits p member).2
  rw [storable.truncated initialised, phdrRead]
  dsimp only
  rw [table, if_pos ⟨checkSize_eq_true small (by omega), inside⟩]

theorem Output.shdrRead_eq (initialised : ehdr.Initialised) (storable : Storable ehdr extras) :
    shdrRead b ((writerOf ehdr extras).layout.ehdr.truncated
      (isBit64 ehdr.ident)) (xdrOf ehdr.ident) (isBit64 ehdr.ident) =
      some ((writerOf ehdr extras).layout.sections.map WriterSection.shdr) := by
  have fits := storable.fits initialised
  obtain ⟨-, phoff, -, -⟩ := layout_offsets initialised extras
  obtain ⟨-, high, names, file⟩ := storable.offsets initialised
  have word := word_le (isBit64 ehdr.ident)
  have size := output.size_eq
  have table := readTable_eq
    (length_shdrWrite (xdrOf ehdr.ident) (isBit64 ehdr.ident))
    (fun shdr member => elfShdr_shdrWrite (xdrOf ehdr.ident) (fits shdr member))
    (output.shdrs initialised)
  rw [List.length_map] at table
  rw [storable.truncated initialised, shdrRead]
  dsimp only
  rw [table, if_pos (checkSize_eq_true (by omega) (by omega))]

end

theorem type_sections (full : ∀ sec ∈ extras, sec.Full) :
    ∀ shdr ∈ (writerOf ehdr extras).layout.sections.map WriterSection.shdr,
      shdr.type ≠ shtSymtab ∧ shdr.type ≠ shtRel ∧ shdr.type ≠ shtRela := by
  rw [List.forall_mem_map, layout_sections]
  intro sec member
  rcases List.mem_append.mp member with head | final
  · have first : ∀ (size : Nat) (bit64 : Bool) (layout : Layout),
        ∀ sec ∈ headSections size bit64 layout,
          sec.shdr.type = shtNull ∨ sec.shdr.type = shtStrtab := by
      intro size bit64 layout sec member
      rw [headSections] at member
      simp only [List.mem_cons, List.not_mem_nil, or_false] at member
      rcases member with rfl | rfl | rfl | rfl
      · exact .inl rfl
      · exact .inr rfl
      · exact .inr rfl
      · exact .inl rfl
    rcases first _ _ _ sec head with type | type
    · rw [type]
      decide
    · rw [type]
      decide
  · rcases full_final full _ sec final with ⟨type, -⟩ | ⟨type, -⟩
    · rw [type]
      decide
    · rw [type]
      decide

end Reading

end Coreboot.ElfHeaders
