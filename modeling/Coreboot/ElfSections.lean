import Coreboot.ElfMixing

/-!
# Sections in the file

Names and offsets are filled in when the file is written.  Everything else of a
section stays as it has been given.
-/

namespace Coreboot.ElfHeaders

open ByteMemory

structure Preserves (change : WriterSection → WriterSection) : Prop where
  alloc : ∀ sec, (change sec).alloc = sec.alloc
  addr : ∀ sec, (change sec).shdr.addr = sec.shdr.addr
  size : ∀ sec, (change sec).shdr.size = sec.shdr.size
  length : ∀ sec, (change sec).content.length = sec.content.length

def WriterSection.bare (sec : WriterSection) : WriterSection :=
  { sec with shdr := { sec.shdr with name := 0, offset := 0 } }

def WriterSection.outline (sec : WriterSection) : WriterSection :=
  { sec with content := List.replicate sec.content.length 0 }

theorem preserves_bare : Preserves WriterSection.bare :=
  { alloc := fun _ => rfl
    addr := fun _ => rfl
    size := fun _ => rfl
    length := fun _ => rfl }

theorem preserves_outline : Preserves WriterSection.outline :=
  { alloc := fun _ => rfl
    addr := fun _ => rfl
    size := fun _ => rfl
    length := fun _ => List.length_replicate }

@[simp]
theorem content_bare (sec : WriterSection) : sec.bare.content = sec.content := rfl

section Preserves

variable {change : WriterSection → WriterSection} (preserves : Preserves change)

include preserves

theorem Preserves.prevAlloc (before : List WriterSection) :
    prevAlloc (before.map change) = (prevAlloc before).map change := by
  induction before with
  | nil => rfl
  | cons sec rest ih =>
    rw [List.map_cons, ElfHeaders.prevAlloc, ElfHeaders.prevAlloc, ih, preserves.alloc]
    cases ElfHeaders.prevAlloc rest with
    | some prev => rfl
    | none =>
      cases sec.alloc with
      | false => rfl
      | true => rfl

theorem Preserves.sectionConsecutive (before : List WriterSection) (sec : WriterSection) :
    sectionConsecutive (before.map change) (change sec) =
      sectionConsecutive before sec := by
  rw [ElfHeaders.sectionConsecutive, ElfHeaders.sectionConsecutive, preserves.prevAlloc]
  cases ElfHeaders.prevAlloc before with
  | none => rfl
  | some prev =>
    dsimp only [Option.map_some]
    rw [preserves.addr, preserves.addr, preserves.size]

theorem Preserves.countPhdrs (before rest : List WriterSection) :
    countPhdrs (before.map change) (rest.map change) = countPhdrs before rest := by
  induction rest generalizing before with
  | nil => rfl
  | cons sec rest ih =>
    have later := ih (before ++ [sec])
    rw [List.map_append] at later
    rw [List.map_cons, ElfHeaders.countPhdrs, ElfHeaders.countPhdrs,
      preserves.sectionConsecutive, preserves.alloc]
    exact congrArg _ later

theorem Preserves.isEmpty (sec : WriterSection) :
    (change sec).content.isEmpty = sec.content.isEmpty := by
  rw [Bool.eq_iff_iff, List.isEmpty_iff_length_eq_zero,
    List.isEmpty_iff_length_eq_zero, preserves.length]

theorem Preserves.inStep (before : List WriterSection) (even : Bool) (rest : List WriterSection) :
    inStep (before.map change) even (rest.map change) = inStep before even rest := by
  induction rest generalizing before even with
  | nil => rfl
  | cons sec rest ih =>
    have later (even : Bool) := ih (before ++ [sec]) even
    simp only [List.map_append] at later
    rw [List.map_cons, ElfHeaders.inStep, ElfHeaders.inStep, preserves.sectionConsecutive,
      preserves.alloc, preserves.isEmpty, preserves.length, preserves.size]
    exact if_congr Iff.rfl (later _) (if_congr Iff.rfl (later _) (congrArg _ (later _)))

theorem Preserves.covers (sec : WriterSection) (address : Nat) :
    (change sec).Covers address ↔ sec.Covers address := by
  rw [WriterSection.Covers, WriterSection.Covers, preserves.alloc, preserves.addr, preserves.size]

end Preserves

theorem allocatedImage_bare (sections : List WriterSection) (m : Memory) :
    allocatedImage (sections.map WriterSection.bare) m = allocatedImage sections m := by
  induction sections generalizing m with
  | nil => rfl
  | cons sec rest ih => exact ih _

def allocatedSize : List WriterSection → Nat
  | [] => 0
  | sec :: rest => (if sec.alloc then sec.shdr.size else 0) + allocatedSize rest

theorem Preserves.allocatedSize {change : WriterSection → WriterSection}
    (preserves : Preserves change) (sections : List WriterSection) :
    allocatedSize (sections.map change) = allocatedSize sections := by
  induction sections with
  | nil => rfl
  | cons sec rest ih =>
    rw [List.map_cons, ElfHeaders.allocatedSize, ElfHeaders.allocatedSize, ih,
      preserves.alloc, preserves.size]

def Alike (change : WriterSection → WriterSection) (sections others : List WriterSection) : Prop :=
  sections.map change = others.map change

section Alike

variable {change : WriterSection → WriterSection}
  {sections others : List WriterSection} (alike : Alike change sections others)

include alike

theorem Alike.length : sections.length = others.length := by
  have same := congrArg List.length alike
  rwa [List.length_map, List.length_map] at same

theorem Alike.countPhdrs (preserves : Preserves change) (before : List WriterSection) :
    countPhdrs before sections = countPhdrs before others := by
  rw [← preserves.countPhdrs, alike, preserves.countPhdrs]

theorem Alike.inStep (preserves : Preserves change) (before : List WriterSection) (even : Bool) :
    inStep before even sections = inStep before even others := by
  rw [← preserves.inStep, alike, preserves.inStep]

theorem Alike.allocatedSize (preserves : Preserves change) :
    allocatedSize sections = allocatedSize others := by
  rw [← preserves.allocatedSize, alike, preserves.allocatedSize]

theorem Alike.forall_mem {P : WriterSection → Prop} (changed : ∀ sec, P (change sec) ↔ P sec)
    (holds : ∀ sec ∈ sections, P sec) : ∀ sec ∈ others, P sec := by
  intro sec member
  have inBoth := List.mem_map_of_mem (f := change) member
  rw [← alike] at inBoth
  obtain ⟨same, inSections, equal⟩ := List.mem_map.mp inBoth
  rw [← changed, ← equal, changed]
  exact holds same inSections

theorem Alike.flatMap {f : WriterSection → List Byte} (changed : ∀ sec, f (change sec) = f sec) :
    sections.flatMap f = others.flatMap f := by
  have same := congrArg (List.map f) alike
  have drop : f ∘ change = f := funext changed
  rw [List.map_map, List.map_map, drop] at same
  rw [List.flatMap_def, List.flatMap_def, same]

theorem Alike.disjoint (preserves : Preserves change)
    (apart : Disjoint sections) : Disjoint others := by
  have changed (sections : List WriterSection) :
      Disjoint (sections.map change) ↔ Disjoint sections := by
    rw [Disjoint, Disjoint, List.pairwise_map]
    simp only [preserves.covers]
  rw [← changed, ← alike, changed]
  exact apart

end Alike

variable {sections : List WriterSection} {index : Nat} {first : List WriterSection}
  {shstroffset position : Nat}

theorem Alike.allocatedImage {others : List WriterSection}
    (alike : Alike WriterSection.bare sections others) (m : Memory) :
    allocatedImage sections m = allocatedImage others m := by
  rw [← allocatedImage_bare, alike, allocatedImage_bare]

section Congr

variable {before others : List WriterSection} (same : prevAlloc before = prevAlloc others)

include same

theorem sectionConsecutive_congr (sec : WriterSection) :
    sectionConsecutive before sec = sectionConsecutive others sec := by
  rw [sectionConsecutive, sectionConsecutive, same]

theorem prevAlloc_append_congr (sec : WriterSection) :
    prevAlloc (before ++ [sec]) = prevAlloc (others ++ [sec]) := by
  rw [prevAlloc_append, prevAlloc_append, same]

theorem countPhdrs_congr (rest : List WriterSection) :
    countPhdrs before rest = countPhdrs others rest := by
  induction rest generalizing before others with
  | nil => rfl
  | cons sec rest ih =>
    rw [countPhdrs, countPhdrs, sectionConsecutive_congr same, ih (prevAlloc_append_congr same sec)]

theorem writePhdrs_congr (rest : List WriterSection) (phdr : Option Phdr) :
    writePhdrs before rest phdr = writePhdrs others rest phdr := by
  induction rest generalizing before others phdr with
  | nil => rfl
  | cons sec rest ih =>
    have later := ih (prevAlloc_append_congr same sec)
    rw [writePhdrs, writePhdrs, sectionConsecutive_congr same, later, later, later]

end Congr

theorem prevAlloc_eq_none (others : ∀ sec ∈ sections, sec.alloc = false) :
    prevAlloc sections = none := by
  induction sections with
  | nil => rfl
  | cons sec rest ih =>
    rw [prevAlloc, ih (List.forall_mem_cons.mp others).2,
      others sec (.head _)]
    rfl

theorem countPhdrs_append (others : ∀ sec ∈ first, sec.alloc = false)
    (before rest : List WriterSection) :
    countPhdrs before (first ++ rest) = countPhdrs (before ++ first) rest := by
  induction first generalizing before with
  | nil => rw [List.nil_append, List.append_nil]
  | cons sec first ih =>
    rw [List.cons_append, countPhdrs, others sec (.head _),
      if_neg (fun both => Bool.false_ne_true both.1), Nat.zero_add,
      ih (List.forall_mem_cons.mp others).2,
      List.append_assoc, List.singleton_append]

theorem writePhdrs_append (others : ∀ sec ∈ first, sec.alloc = false)
    (before rest : List WriterSection) (phdr : Option Phdr) :
    writePhdrs before (first ++ rest) phdr = writePhdrs (before ++ first) rest phdr := by
  induction first generalizing before with
  | nil => rw [List.nil_append, List.append_nil]
  | cons sec first ih =>
    rw [List.cons_append, writePhdrs, others sec (.head _),
      if_pos Bool.false_ne_true,
      ih (List.forall_mem_cons.mp others).2,
      List.append_assoc, List.singleton_append]

theorem length_writePhdrs (before rest : List WriterSection) (phdr : Option Phdr) :
    (writePhdrs before rest phdr).length = phdr.toList.length + countPhdrs before rest := by
  induction rest generalizing before phdr with
  | nil => rfl
  | cons sec rest ih =>
    rw [writePhdrs, countPhdrs]
    by_cases alloc : sec.alloc = true
    · rw [if_neg (not_not_intro alloc)]
      by_cases consecutive : sectionConsecutive before sec = true
      · rw [if_neg (not_not_intro consecutive), ih,
          if_neg (fun both => both.2 consecutive), Nat.zero_add]
        cases phdr with
        | none => rfl
        | some phdr => rfl
      · rw [if_pos consecutive, List.length_append, ih, if_pos ⟨alloc, consecutive⟩]
        rfl
    · rw [if_pos alloc, ih, if_neg (fun both => alloc both.1), Nat.zero_add]

theorem alike_placeNames (shstrlen : Nat) (sections : List WriterSection) :
    Alike WriterSection.bare (placeNames shstrlen sections) sections := by
  induction sections generalizing shstrlen with
  | nil => rfl
  | cons sec rest ih =>
    obtain ⟨shdr, content, name⟩ := sec
    cases name with
    | none => exact congrArg (List.cons _) (ih shstrlen)
    | some name => exact congrArg (List.cons _) (ih _)

/-- The names are strings without a terminator inside. -/
def Named (sections : List WriterSection) : Prop :=
  ∀ sec ∈ sections, ∀ name, sec.name = some name → ∀ c ∈ name, c ≠ 0

theorem stringAt_append {table name rest : List Byte} (noNul : ∀ c ∈ name, c ≠ 0) :
    stringAt (table ++ (name ++ [0] ++ rest)) table.length = name := by
  rw [stringAt, List.drop_left, List.append_assoc, List.takeWhile_append_of_pos]
  · exact List.append_nil name
  · intro c member
    exact decide_eq_true (noNul c member)

theorem stringAt_placeNames (named : Named sections) (table rest : List Byte) :
    ∀ sec ∈ placeNames table.length sections, ∀ name, sec.name = some name →
      sec.shdr.name < (table ++ sections.flatMap nameBytes).length ∧
        stringAt (table ++ (sections.flatMap nameBytes ++ rest)) sec.shdr.name = name := by
  induction sections generalizing table with
  | nil => exact nofun
  | cons first sections ih =>
    have namedRest : Named sections := (List.forall_mem_cons.mp named).2
    rw [placeNames]
    cases hasName : first.name with
    | none =>
      have noBytes : nameBytes first = [] := by rw [nameBytes, hasName]
      intro sec member name isName
      rw [List.flatMap_cons, noBytes, List.nil_append]
      rcases List.mem_cons.mp member with rfl | later
      · rw [hasName] at isName
        cases isName
      · exact ih namedRest table sec later name isName
    | some own =>
      have bytes : nameBytes first = own ++ [0] := by
        rw [nameBytes, hasName]
      intro sec member name isName
      rw [List.flatMap_cons, bytes]
      rcases List.mem_cons.mp member with rfl | later
      · obtain rfl : own = name := Option.some.inj isName
        refine ⟨?_, ?_⟩
        · simp only [List.length_append, List.length_cons]
          omega
        · rw [List.append_assoc (own ++ [0])]
          exact stringAt_append (named first (.head _) own hasName)
      · have found := ih namedRest (table ++ (own ++ [0])) sec (by
          rw [List.length_append, List.length_append]
          exact later) name isName
        refine ⟨?_, ?_⟩
        · rw [← List.append_assoc]
          exact found.1
        · rw [List.append_assoc (own ++ [0]), ← List.append_assoc table (own ++ [0])]
          exact found.2

theorem placeContents_cons {sec : WriterSection} {rest : List WriterSection} (high : 2 ≤ index) :
    placeContents shstroffset index position (sec :: rest) =
      { sec with shdr := { sec.shdr with offset := position } } ::
        placeContents shstroffset (index + 1) (position + sec.content.length) rest := by
  have notFirst : ¬index = 0 := by omega
  have notSecond : ¬index = shstrtabIndex := by
    rw [shstrtabIndex]
    omega
  rw [placeContents, if_neg notSecond, if_pos notFirst, dataBytes,
    if_neg (fun either => either.elim notFirst notSecond)]

theorem allData_eq (sections : List WriterSection) (high : 2 ≤ index) :
    allData index sections = sections.flatMap WriterSection.content := by
  induction sections generalizing index with
  | nil => rfl
  | cons sec rest ih =>
    rw [allData, ih (by omega), dataBytes, shstrtabIndex, if_neg (by omega), List.flatMap_cons]

theorem alike_placeContents {shstroffset index position : Nat}
    (sections : List WriterSection) (high : 2 ≤ index) :
    Alike WriterSection.bare (placeContents shstroffset index position sections) sections := by
  induction sections generalizing index position with
  | nil => rfl
  | cons sec rest ih =>
    rw [Alike, placeContents_cons high, List.map_cons, List.map_cons]
    exact congrArg _ (ih (by omega))

theorem placed_placeContents {b : Buffer} (high : 2 ≤ index) (stored : load b.memory position
      (sections.flatMap WriterSection.content).length = sections.flatMap WriterSection.content) :
    Placed b position (placeContents shstroffset index position sections) := by
  induction sections generalizing index position with
  | nil => exact trivial
  | cons sec rest ih =>
    rw [placeContents_cons high]
    rw [List.flatMap_cons, List.length_append, load_append] at stored
    obtain ⟨here, later⟩ := List.append_inj stored (length_load _ _ _)
    exact ⟨rfl, here, ih (by omega) later⟩

theorem addFlags_lt {flags : Nat} (small : flags < 2 ^ 3)
    (sec : WriterSection) : addFlags flags sec < 2 ^ 3 := by
  rw [addFlags]
  have execute : (if sec.shdr.flags &&& shfExecinstr ≠ 0 then
      flags ||| (pfX ||| pfR) else flags) < 2 ^ 3 := by
    split
    · exact Nat.or_lt_two_pow small (by decide)
    · exact small
  split
  · exact Nat.or_lt_two_pow execute (by decide)
  · exact execute

/-- The pending header and the sections that may join it have places in the
file. -/
structure Phdr.Room (bit64 : Bool) (rest : List WriterSection)
    (position : Nat) (phdr : Phdr) : Prop where
  flags : phdr.flags < 2 ^ 3
  vaddr : phdr.vaddr < 256 ^ wordSize bit64
  paddr : phdr.paddr < 256 ^ wordSize bit64
  align : phdr.align < 256 ^ wordSize bit64
  inFile : phdr.offset + phdr.filesz ≤ position
  inMemory : phdr.memsz + allocatedSize rest < 256 ^ wordSize bit64

/-- The headers that are written have places in the file, and their bytes are
inside of it. -/
theorem fits_writePhdrs {b : Buffer} {bit64 : Bool} {total : Nat} {rest before : List WriterSection}
    {position : Nat} {phdr : Option Phdr} (placed : Placed b position rest)
    (full : ∀ sec ∈ rest, sec.alloc = true → sec.Full) (addressable : Addressable rest)
    (pending : Pending before phdr) (room : ∀ p ∈ phdr, p.Room bit64 rest position)
    (fields : ∀ sec ∈ rest, sec.shdr.addr < 256 ^ wordSize bit64 ∧
      sec.shdr.addralign < 256 ^ wordSize bit64)
    (inFile : position + (rest.flatMap WriterSection.content).length ≤ total)
    (file : total < 256 ^ wordSize bit64) (inMemory : allocatedSize rest < 256 ^ wordSize bit64) :
    ∀ p ∈ writePhdrs before rest phdr, p.Fits bit64 ∧ p.offset + p.filesz ≤ total := by
  have written {position : Nat} {rest before : List WriterSection} {p : Phdr}
      (room : p.Room bit64 rest position) (follows : Follows before p)
      (inFile : position ≤ total) :
      p.Fits bit64 ∧ p.offset + p.filesz ≤ total := by
    obtain ⟨flags, vaddr, paddr, align, stored, loaded⟩ := room
    have whole := follows.file
    refine ⟨?_, by omega⟩
    exact
      { type := by rw [follows.type]; decide
        flags := Nat.lt_trans flags (by decide)
        offset := by omega
        vaddr := vaddr
        paddr := paddr
        filesz := by omega
        memsz := by omega
        align := align }
  induction rest generalizing before position phdr with
  | nil =>
    intro p member
    cases phdr with
    | none => cases member
    | some phdr =>
      obtain rfl := List.mem_singleton.mp member
      exact written (room p rfl) pending (by omega)
  | cons sec rest ih =>
    obtain ⟨offset, stored, later⟩ := placed
    rw [List.flatMap_cons, List.length_append, ← Nat.add_assoc] at inFile
    have fullRest := (List.forall_mem_cons.mp full).2
    have addressableRest : Addressable rest := (List.forall_mem_cons.mp addressable).2
    have next := fun {before} {phdr} =>
      @ih before (position + sec.content.length) phdr later fullRest addressableRest
    have fieldsRest := (List.forall_mem_cons.mp fields).2
    have inMemoryRest : allocatedSize rest < 256 ^ wordSize bit64 := by
      rw [allocatedSize] at inMemory
      omega
    rw [writePhdrs]
    rw [allocatedSize] at inMemory
    cases pending.turn full addressable with
    | skip alloc pending =>
      rw [if_pos alloc]
      refine next pending ?_ fieldsRest inFile inMemoryRest
      intro p member
      obtain ⟨flags, vaddr, paddr, align, stored, loaded⟩ := room p member
      rw [allocatedSize, if_neg alloc, Nat.zero_add] at loaded
      exact
        { flags := flags
          vaddr := vaddr
          paddr := paddr
          align := align
          inFile := Nat.le_add_right_of_le stored
          inMemory := loaded }
    | fresh alloc full consecutive fresh =>
      rw [if_neg (not_not_intro alloc), if_pos consecutive]
      rw [if_pos alloc] at inMemory
      intro p member
      rcases List.mem_append.mp member with old | new
      · cases phdr with
        | none => cases old
        | some phdr =>
          obtain rfl := List.mem_singleton.mp old
          exact written (room p rfl) pending (by omega)
      · obtain ⟨addr, align⟩ := fields sec (.head _)
        refine next fresh ?_ fieldsRest inFile inMemoryRest p new
        intro p member
        cases member
        exact
          { flags := addFlags_lt (by decide) sec
            vaddr := addr
            paddr := addr
            align := align
            inFile := Nat.le_of_eq (congrArg (· + sec.content.length) offset)
            inMemory := inMemory }
    | @joined phdr alloc full consecutive follows atEnd bound longer =>
      rw [if_neg (not_not_intro alloc), if_neg (not_not_intro consecutive)]
      have equal := follows.accumulate_eq full atEnd bound
      obtain ⟨flags, vaddr, paddr, align, stored, loaded⟩ := room phdr rfl
      rw [allocatedSize, if_pos alloc] at loaded
      refine next longer ?_ fieldsRest inFile inMemoryRest
      intro p member
      cases member
      change (phdr.accumulate sec).Room _ _ _
      rw [equal]
      exact
        { flags := addFlags_lt flags sec
          vaddr := vaddr
          paddr := paddr
          align := align
          inFile := by
            dsimp only
            omega
          inMemory := by
            dsimp only
            omega }

end Coreboot.ElfHeaders
