import Coreboot.ElfParser

/-!
# Loading what has been written

Sections whose addresses follow each other share a program header.  Its bytes are
those of the file from its first section on, whatever they belong to.
-/

namespace Coreboot.ElfHeaders

open ByteMemory

/-- "Each section is either NOBITS or full." -/
def WriterSection.Full (sec : WriterSection) : Prop :=
  sec.shdr.type = shtProgbits ∧ sec.content.length = sec.shdr.size ∨
    sec.shdr.type = shtNobits ∧ sec.content = []

def WriterSection.memoryBytes (sec : WriterSection) : List Byte :=
  if sec.shdr.type = shtNobits then List.replicate sec.shdr.size 0
  else sec.content

def allocatedImage : List WriterSection → Memory → Memory
  | [], m => m
  | sec :: rest, m =>
    allocatedImage rest (if sec.alloc then store m sec.shdr.addr sec.memoryBytes else m)

def WriterSection.Covers (sec : WriterSection) (address : Nat) : Prop :=
  sec.alloc = true ∧ sec.shdr.addr ≤ address ∧ address < sec.shdr.addr + sec.shdr.size

def Disjoint (sections : List WriterSection) : Prop :=
  sections.Pairwise fun sec other =>
    ∀ address, ¬(sec.Covers address ∧ other.Covers address)

def Addressable (sections : List WriterSection) : Prop :=
  ∀ sec ∈ sections, sec.alloc = true → sec.shdr.addr + sec.shdr.size < 2 ^ 64

instance (sections : List WriterSection) : Decidable (Addressable sections) :=
  inferInstanceAs (Decidable (∀ sec ∈ sections, _))

/-- Contents join a program header only when all that has been added since its
first section, allocated or not, has as many bytes in the file as in memory. -/
def inStep : List WriterSection → Bool → List WriterSection → Bool
  | _, _, [] => true
  | before, even, sec :: rest =>
    if ¬sec.alloc then
      inStep (before ++ [sec]) (even && sec.content.isEmpty) rest
    else if ¬sectionConsecutive before sec then
      inStep (before ++ [sec]) (sec.content.length = sec.shdr.size) rest
    else
      (sec.content.isEmpty || even) &&
        inStep (before ++ [sec]) (even && decide (sec.content.length = sec.shdr.size)) rest

theorem store_load_if (m memory : Memory) (base other count address : Nat) :
    store m base (load memory other count) address =
      if base ≤ address ∧ address < base + count then
        memory (other + (address - base))
      else m address := by
  by_cases inside : base ≤ address ∧ address < base + count
  · obtain ⟨i, rfl⟩ := Nat.exists_eq_add_of_le inside.1
    rw [if_pos inside, store_load_apply_add (by omega), Nat.add_sub_cancel_left]
  · rw [if_neg inside, store_of_outside]
    rw [length_load]
    omega

theorem store_replicate (m : Memory) (base count : Nat) (byte : Byte) :
    store m base (List.replicate count byte) = fill m base count byte := by
  funext address
  have constant : List.replicate count byte = load (fun _ => byte) 0 count :=
    (load_eq_replicate fun _ _ _ => rfl).symm
  rw [constant, store_load_if, fill]

variable {phdr : Phdr} {sec : WriterSection} {b : Buffer} {before : List WriterSection}
  {rest : List WriterSection}

theorem loadHeader_apply (file : phdr.filesz ≤ phdr.memsz) (b : Buffer)
    (m : Memory) (address : Nat) :
    loadHeader b phdr m address =
      if phdr.paddr ≤ address ∧ address < phdr.paddr + phdr.filesz then
        b.memory (phdr.offset + (address - phdr.paddr))
      else if phdr.paddr ≤ address ∧ address < phdr.paddr + phdr.memsz then 0
      else m address := by
  rw [loadHeader, fill, store_load_if]
  by_cases copied : phdr.paddr ≤ address ∧ address < phdr.paddr + phdr.filesz
  · rw [if_neg (by omega)]
    rw [if_pos copied, if_pos copied]
  · rw [if_neg copied, if_neg copied]
    by_cases cleared : phdr.paddr ≤ address ∧ address < phdr.paddr + phdr.memsz
    · rw [if_pos (by omega), if_pos cleared]
    · rw [if_neg (by omega), if_neg cleared]

def Placed (b : Buffer) : Nat → List WriterSection → Prop
  | _, [] => True
  | position, sec :: rest =>
    sec.shdr.offset = position ∧
      load b.memory position sec.content.length = sec.content ∧
      Placed b (position + sec.content.length) rest

theorem WriterSection.Full.store_apply (full : sec.Full) {position : Nat}
    (stored : load b.memory position sec.content.length = sec.content)
    (m : Memory) (address : Nat) :
    store m sec.shdr.addr sec.memoryBytes address =
      if sec.shdr.addr ≤ address ∧ address < sec.shdr.addr + sec.shdr.size then
        if sec.content = [] then 0
        else b.memory (position + (address - sec.shdr.addr))
      else m address := by
  rw [WriterSection.memoryBytes]
  rcases full with ⟨progbits, size⟩ | ⟨nobits, empty⟩
  · have other : ¬sec.shdr.type = shtNobits := by
      rw [progbits]
      decide
    rw [if_neg other, ← stored, store_load_if, stored, size]
    by_cases inside : sec.shdr.addr ≤ address ∧ address < sec.shdr.addr + sec.shdr.size
    · have some : sec.content ≠ [] := by
        intro empty
        rw [empty, List.length_nil] at size
        omega
      rw [if_pos inside, if_pos inside, if_neg some]
    · rw [if_neg inside, if_neg inside]
  · rw [if_pos nobits, store_replicate, fill, if_pos empty]

theorem WriterSection.Full.length_le (full : sec.Full) : sec.content.length ≤ sec.shdr.size := by
  rcases full with ⟨-, size⟩ | ⟨-, empty⟩
  · exact Nat.le_of_eq size
  · rw [empty]
    exact Nat.zero_le _

@[simp]
theorem prevAlloc_append (before : List WriterSection) (sec : WriterSection) :
    prevAlloc (before ++ [sec]) = if sec.alloc then some sec else prevAlloc before := by
  induction before with
  | nil =>
    change (none : Option WriterSection).or _ = _
    rw [Option.none_or]
    rfl
  | cons first rest ih =>
    rw [List.cons_append, prevAlloc, ih, prevAlloc]
    cases sec.alloc with
    | false => rfl
    | true => rfl

structure Follows (before : List WriterSection) (phdr : Phdr) : Prop where
  type : phdr.type = ptLoad
  file : phdr.filesz ≤ phdr.memsz
  last : ∃ prev, prevAlloc before = some prev ∧
    prev.shdr.addr + prev.shdr.size = phdr.paddr + phdr.memsz
  bound : phdr.paddr + phdr.memsz < 2 ^ 64

/-- A header is pending as soon as there has been an allocated section. -/
def Pending (before : List WriterSection) : Option Phdr → Prop
  | none => prevAlloc before = none
  | some phdr => Follows before phdr

theorem Pending.skip {phdr : Option Phdr} (pending : Pending before phdr)
    (other : ¬sec.alloc = true) : Pending (before ++ [sec]) phdr := by
  have same : prevAlloc (before ++ [sec]) = prevAlloc before := by
    rw [prevAlloc_append, if_neg other]
  cases phdr with
  | none => exact same.trans pending
  | some phdr =>
    exact
      { type := pending.type
        file := pending.file
        last := by rw [same]; exact pending.last
        bound := pending.bound }

theorem follows_newPhdr (before : List WriterSection) (alloc : sec.alloc = true) (full : sec.Full)
    (bound : sec.shdr.addr + sec.shdr.size < 2 ^ 64) : Follows (before ++ [sec]) (newPhdr sec) :=
  { type := rfl
    file := full.length_le
    last := ⟨sec, by rw [prevAlloc_append, if_pos alloc], rfl⟩
    bound := bound }

theorem Follows.consecutive (follows : Follows before phdr) (sec : WriterSection) :
    sectionConsecutive before sec = true ↔
      phdr.paddr + phdr.memsz = sec.shdr.addr := by
  obtain ⟨prev, last, same⟩ := follows.last
  have bound := follows.bound
  rw [sectionConsecutive, last]
  rw [decide_eq_true_eq, same, Nat.mod_eq_of_lt bound]

theorem Follows.accumulate_eq (follows : Follows before phdr) (full : sec.Full)
    (next : phdr.paddr + phdr.memsz = sec.shdr.addr)
    (bound : sec.shdr.addr + sec.shdr.size < 2 ^ 64) :
    phdr.accumulate sec =
      { phdr with
        flags := addFlags phdr.flags sec
        filesz := phdr.filesz + sec.content.length
        memsz := phdr.memsz + sec.shdr.size } := by
  have file := follows.file
  have short := full.length_le
  rw [Phdr.accumulate, Nat.mod_eq_of_lt (by omega), Nat.mod_eq_of_lt (by omega)]

theorem Follows.accumulate (follows : Follows before phdr) (alloc : sec.alloc = true)
    (full : sec.Full) (next : phdr.paddr + phdr.memsz = sec.shdr.addr)
    (bound : sec.shdr.addr + sec.shdr.size < 2 ^ 64) :
    Follows (before ++ [sec]) (phdr.accumulate sec) := by
  have file := follows.file
  have short := full.length_le
  rw [follows.accumulate_eq full next bound]
  exact
    { type := follows.type
      file := Nat.add_le_add file short
      last := ⟨sec, by rw [prevAlloc_append, if_pos alloc], by
        dsimp only
        omega⟩
      bound := by
        dsimp only
        omega }

theorem loadHeaders_toList_append (b : Buffer) (phdr : Option Phdr)
    (rest : List Phdr) (m : Memory) :
    loadHeaders b (phdr.toList ++ rest) m = loadHeaders b rest (loadHeaders b phdr.toList m) := by
  cases phdr with
  | none => rfl
  | some phdr => rfl

theorem loadHeaders_single (type : phdr.type = ptLoad) (b : Buffer) (m : Memory) :
    loadHeaders b [phdr] m = loadHeader b phdr m := by
  rw [loadHeaders, loadHeaders, if_pos type]

/-- The header has loaded all its sections when the next content belongs to the
next address. -/
def Even (position : Nat) (phdr : Phdr) : Prop :=
  phdr.filesz = phdr.memsz ∧ phdr.offset + phdr.filesz = position

theorem loadHeader_newPhdr (full : sec.Full)
    (stored : load b.memory sec.shdr.offset sec.content.length = sec.content) (m : Memory) :
    loadHeader b (newPhdr sec) m = store m sec.shdr.addr sec.memoryBytes := by
  funext address
  have applied : loadHeader b (newPhdr sec) m address =
      if sec.shdr.addr ≤ address ∧ address < sec.shdr.addr + sec.content.length then
        b.memory (sec.shdr.offset + (address - sec.shdr.addr))
      else if sec.shdr.addr ≤ address ∧ address < sec.shdr.addr + sec.shdr.size then 0
      else m address :=
    loadHeader_apply full.length_le b m address
  rw [full.store_apply stored, applied]
  rcases full with ⟨-, size⟩ | ⟨-, empty⟩
  · rw [size]
    by_cases inside : sec.shdr.addr ≤ address ∧ address < sec.shdr.addr + sec.shdr.size
    · have some : sec.content ≠ [] := by
        intro empty
        rw [empty, List.length_nil] at size
        omega
      rw [if_pos inside, if_pos inside, if_neg some]
    · rw [if_neg inside, if_neg inside, if_neg inside]
  · rw [if_pos empty, empty, List.length_nil, if_neg (by omega)]

theorem loadHeader_accumulate (follows : Follows before phdr) (full : sec.Full)
    (next : phdr.paddr + phdr.memsz = sec.shdr.addr)
    (bound : sec.shdr.addr + sec.shdr.size < 2 ^ 64) {position : Nat}
    (stored : load b.memory position sec.content.length = sec.content)
    (even : sec.content = [] ∨ Even position phdr) (m : Memory) :
    loadHeader b (phdr.accumulate sec) m =
      store (loadHeader b phdr m) sec.shdr.addr sec.memoryBytes := by
  have file := follows.file
  have short := full.length_le
  funext address
  rw [full.store_apply stored, follows.accumulate_eq full next bound,
    loadHeader_apply (by dsimp only; omega), loadHeader_apply file]
  dsimp only
  by_cases empty : sec.content = []
  · rw [if_pos empty, empty, List.length_nil, Nat.add_zero]
    by_cases copied : phdr.paddr ≤ address ∧ address < phdr.paddr + phdr.filesz
    · rw [if_pos copied, if_neg (by omega), if_pos copied]
    · rw [if_neg copied, if_neg copied]
      by_cases inside : sec.shdr.addr ≤ address ∧ address < sec.shdr.addr + sec.shdr.size
      · rw [if_pos (by omega), if_pos inside]
      · rw [if_neg inside]
        by_cases old : phdr.paddr ≤ address ∧ address < phdr.paddr + phdr.memsz
        · rw [if_pos (by omega), if_pos old]
        · rw [if_neg (by omega), if_neg old]
  · obtain ⟨whole, behind⟩ := even.resolve_left empty
    have size : sec.content.length = sec.shdr.size :=
      (full.resolve_right fun nobits => empty nobits.2).2
    rw [if_neg empty, size]
    by_cases inside : sec.shdr.addr ≤ address ∧ address < sec.shdr.addr + sec.shdr.size
    · rw [if_pos inside, if_pos (by omega)]
      exact congrArg b.memory (by omega)
    · rw [if_neg inside]
      by_cases old : phdr.paddr ≤ address ∧ address < phdr.paddr + phdr.filesz
      · rw [if_pos (by omega), if_pos old]
      · rw [if_neg (by omega), if_neg (by omega), if_neg old, if_neg (by omega)]

/-- What the writer does with a section. -/
inductive Turn (before : List WriterSection) (sec : WriterSection) : Option Phdr → Prop
  | skip {phdr : Option Phdr} (alloc : ¬sec.alloc = true)
      (pending : Pending (before ++ [sec]) phdr) : Turn before sec phdr
  | fresh {phdr : Option Phdr} (alloc : sec.alloc = true) (full : sec.Full)
      (consecutive : ¬sectionConsecutive before sec = true)
      (pending : Pending (before ++ [sec]) (some (newPhdr sec))) : Turn before sec phdr
  | joined {phdr : Phdr} (alloc : sec.alloc = true) (full : sec.Full)
      (consecutive : sectionConsecutive before sec = true) (follows : Follows before phdr)
      (next : phdr.paddr + phdr.memsz = sec.shdr.addr)
      (bound : sec.shdr.addr + sec.shdr.size < 2 ^ 64)
      (pending : Pending (before ++ [sec]) (some (phdr.accumulate sec))) :
      Turn before sec (some phdr)

theorem Pending.turn {phdr : Option Phdr}
    (pending : Pending before phdr) (full : ∀ other ∈ sec :: rest, other.alloc = true → other.Full)
    (addressable : Addressable (sec :: rest)) : Turn before sec phdr := by
  by_cases alloc : sec.alloc = true
  · have fullSec := full sec (.head _) alloc
    have bound := addressable sec (.head _) alloc
    by_cases consecutive : sectionConsecutive before sec = true
    · cases phdr with
      | none =>
        rw [sectionConsecutive, show prevAlloc before = none from pending] at consecutive
        cases consecutive
      | some phdr =>
        have follows : Follows before phdr := pending
        have next := (follows.consecutive sec).mp consecutive
        exact .joined alloc fullSec consecutive follows next bound
          (follows.accumulate alloc fullSec next bound)
    · exact .fresh alloc fullSec consecutive (follows_newPhdr before alloc fullSec bound)
  · exact .skip alloc (pending.skip alloc)

theorem loadHeaders_writePhdrs {b : Buffer}
    {before : List WriterSection} {position : Nat} {phdr : Option Phdr} {even : Bool}
    (placed : Placed b position rest) (full : ∀ sec ∈ rest, sec.alloc = true → sec.Full)
    (addressable : Addressable rest) (pending : Pending before phdr)
    (state : even = true → ∀ p ∈ phdr, Even position p) (ok : inStep before even rest = true)
    (m : Memory) :
    loadHeaders b (writePhdrs before rest phdr) m =
      allocatedImage rest (loadHeaders b phdr.toList m) := by
  induction rest generalizing before position phdr even m with
  | nil => rfl
  | cons sec rest ih =>
    obtain ⟨offset, stored, later⟩ := placed
    replace ih := fun {before phdr even} => @ih before _ phdr even later
      (List.forall_mem_cons.mp full).2 (List.forall_mem_cons.mp addressable).2
    rw [writePhdrs, allocatedImage]
    rw [inStep] at ok
    cases pending.turn full addressable with
    | skip alloc pending =>
      rw [if_pos alloc] at ok ⊢
      rw [if_neg alloc]
      refine ih pending ?_ ok m
      intro still p member
      rw [Bool.and_eq_true, List.isEmpty_iff] at still
      rw [still.2, List.length_nil, Nat.add_zero]
      exact state still.1 p member
    | fresh alloc full consecutive pending =>
      rw [if_neg (not_not_intro alloc), if_pos consecutive] at ok ⊢
      rw [if_pos alloc, loadHeaders_toList_append, ih pending ?_ ok]
      · rw [Option.toList_some, loadHeaders_single rfl,
          loadHeader_newPhdr full (by rw [offset]; exact stored)]
      · intro still p member
        cases member
        rw [decide_eq_true_eq] at still
        exact ⟨still, congrArg (· + sec.content.length) offset⟩
    | @joined phdr alloc full consecutive follows next bound longer =>
      rw [if_neg (not_not_intro alloc), if_neg (not_not_intro consecutive)] at ok ⊢
      rw [Bool.and_eq_true, Bool.or_eq_true, List.isEmpty_iff] at ok
      rw [if_pos alloc, Option.map_some, ih longer ?_ ok.2]
      · rw [Option.toList_some, Option.toList_some, loadHeaders_single follows.type,
          loadHeaders_single (show (phdr.accumulate sec).type = ptLoad from follows.type),
          loadHeader_accumulate follows full next bound stored
            (ok.1.imp_right fun isEven => state isEven phdr rfl)]
      · intro still p member
        cases member
        rw [Bool.and_eq_true, decide_eq_true_eq] at still
        obtain ⟨whole, behind⟩ := state still.1 phdr rfl
        rw [follows.accumulate_eq full next bound, Even]
        dsimp only
        omega

end Coreboot.ElfHeaders
