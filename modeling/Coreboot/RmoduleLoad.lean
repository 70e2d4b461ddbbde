import Coreboot.RmoduleCreate
import Mathlib.Tactic.Ring

/-!
# Loading of relocatable modules

The firmware copies the program of a module, adjusts the words that the relocations
name, and clears the memory without bytes.  The relocations may lie in that memory.
-/

namespace Coreboot.Rmodule

open ByteMemory

/-- `struct rmodule`, with all pointers as addresses and the size as the bits of an
`int`. -/
structure Module where
  header : Nat
  payload : Nat
  payloadSize : Nat
  relocations : Nat

def rmoduleParse (order : ByteOrder) (memory : Memory) (ptr : Nat) : Option Module :=
  if ptr = 0 then none
  else if order.read 2 memory ptr ≠ rmoduleMagic.toNat then none
  else if order.read 1 memory (ptr + 2) ≠ rmoduleVersion1.toNat then none
  else
    some ⟨ptr, ptr + order.read 4 memory (ptr + 4),
      (order.read 4 memory (ptr + 8) + 4294967296 - order.read 4 memory (ptr + 4)) % 4294967296,
      ptr + order.read 4 memory (ptr + 12)⟩

/-- An `int` with the given bits as a `size_t`. -/
def sizeOfInt (width bits : Nat) : Nat :=
  if bits < 2147483648 then bits else 256 ^ width - 4294967296 + bits

def rmoduleLoadAddr (order : ByteOrder) (width : Nat) (memory : Memory)
    (rmod : Module) (location blobAddr : Nat) : Nat :=
  (location + blobAddr + (256 ^ width - order.read 4 memory (rmod.header + 20))) % 256 ^ width

def rmoduleCopyPayload (width : Nat) (memory : Memory) (rmod : Module) (location : Nat) : Memory :=
  if location = rmod.payload then memory
  else store memory location (load memory rmod.payload (sizeOfInt width rmod.payloadSize))

def rmoduleNumberRelocations (order : ByteOrder) (width : Nat)
    (memory : Memory) (rmod : Module) : Nat :=
  (order.read 4 memory (rmod.header + 16) + 256 ^ width -
    order.read 4 memory (rmod.header + 12)) % 256 ^ width / width

def adjustWord (order : ByteOrder) (width adjustment : Nat) (memory : Memory)
    (address : Nat) : Memory :=
  store memory address (order.encode width (order.read width memory address + adjustment))

/-- The loop of `rmodule_relocate`. -/
def relocateLoop (order : ByteOrder) (width : Nat) (rmod : Module)
    (location adjustment : Nat) : Nat → Nat → Memory → Memory
  | 0, _, memory => memory
  | count + 1, reloc, memory =>
    relocateLoop order width rmod location adjustment count
      (reloc + width)
      (adjustWord order width adjustment memory
        (rmoduleLoadAddr order width memory rmod location (order.read width memory reloc)))

def rmoduleRelocate (order : ByteOrder) (width : Nat) (memory : Memory)
    (rmod : Module) (location : Nat) : Memory :=
  relocateLoop order width rmod location
    (rmoduleLoadAddr order width memory rmod location 0)
    (rmoduleNumberRelocations order width memory rmod)
    rmod.relocations memory

def rmoduleClearBss (order : ByteOrder) (width : Nat) (memory : Memory)
    (rmod : Module) (location : Nat) : Memory :=
  fill memory
    (rmoduleLoadAddr order width memory rmod location (order.read 4 memory (rmod.header + 40)))
    (sizeOfInt width
      ((order.read 4 memory (rmod.header + 44) + 4294967296 -
        order.read 4 memory (rmod.header + 40)) % 4294967296)) 0

def rmoduleLoad (order : ByteOrder) (width : Nat) (memory : Memory)
    (rmod : Module) (base : Nat) : Memory :=
  let copied := rmoduleCopyPayload width memory rmod base
  let relocated := rmoduleRelocate order width copied rmod base
  rmoduleClearBss order width relocated rmod base

namespace Context

def adjustment (ctx : Context) (base : Nat) : Nat :=
  (base + (256 ^ ctx.width - ctx.vaddr)) % 256 ^ ctx.width

/-- The program at an address: its bytes, the words of the relocations increased
once for each occurrence, and zeros. -/
def relocated (ctx : Context) (base : Nat) : Memory :=
  ctx.relocs.foldl
    (fun memory offset =>
      adjustWord ctx.order ctx.width (ctx.adjustment base) memory (offset - ctx.vaddr))
    (store (fun _ => 0) 0 ctx.program)

/-- The segment has words of four or eight bytes, the relocations name whole words
of its bytes, and the bss lies in it. -/
structure Bounded (ctx : Context) : Prop where
  width : ctx.width = 4 ∨ ctx.width = 8
  filesz : ctx.filesz ≤ ctx.memsz
  relocs : ∀ offset ∈ ctx.relocs, ctx.vaddr ≤ offset ∧
    offset + ctx.width ≤ ctx.vaddr + ctx.filesz ∧ offset < 256 ^ ctx.width
  bss : ctx.vaddr ≤ ctx.bssBegin ∧ ctx.bssBegin ≤ ctx.bssEnd ∧ ctx.bssEnd ≤ ctx.vaddr + ctx.memsz

/-- The bss also covers the memory that has no bytes. -/
structure Valid (ctx : Context) : Prop extends Bounded ctx where
  covers : ctx.filesz < ctx.memsz → ctx.bssBegin ≤ ctx.vaddr + ctx.filesz ∧
    ctx.bssEnd = ctx.vaddr + ctx.memsz

/-- Addresses and offsets are numbers of 32 bits, and the size of the bss is no
negative `int` in 64 bits. -/
structure Describable (ctx : Context) : Prop where
  addresses : ctx.vaddr < 4294967296 ∧ ctx.bssBegin < 4294967296
  offsets : sizeofHeader + ctx.filesz + ctx.relocsSize < 4294967296
  size : ctx.bssEnd - ctx.bssBegin < 4294967296
  int : ctx.width = 8 → ctx.bssEnd - ctx.bssBegin < 2147483648

/-- If the program is copied, its size is no negative `int`; and the bytes in the bss
are zeros that are not relocated. -/
structure Fits (ctx : Context) (ptr base : Nat) : Prop extends
    Describable ctx where
  copied : base ≠ ptr + sizeofHeader → ctx.width = 8 → ctx.filesz < 2147483648
  zeros : ∀ i < ctx.filesz, ctx.bssBegin ≤ ctx.vaddr + i →
    ctx.vaddr + i < ctx.bssEnd → ctx.program[i]? = some 0 ∧
      ∀ offset ∈ ctx.relocs, ¬ (offset ≤ ctx.vaddr + i ∧ ctx.vaddr + i < offset + ctx.width)

end Context

/-- The image lies in memory, and the base is directly behind its header, or the
image is elsewhere. -/
structure Placed (ctx : Context) (memory : Memory) (ptr base : Nat) :
    Prop where
  image : load memory ptr ctx.image.length = ctx.image
  nonnull : ptr ≠ 0
  space : base + ctx.memsz ≤ 256 ^ ctx.width
  place : base = ptr + sizeofHeader ∨ ptr + ctx.image.length ≤ base ∨ base + ctx.memsz ≤ ptr

/-- The program has been loaded: its memory is as it should be, and nothing else is
written. -/
def Loaded (ctx : Context) (memory : Memory) (ptr base : Nat) : Prop :=
  ∃ rmod, rmoduleParse ctx.order memory ptr = some rmod ∧
    (∀ i < ctx.memsz,
      rmoduleLoad ctx.order ctx.width memory rmod base (base + i) = ctx.relocated base i) ∧
    SameOutside memory
      (rmoduleLoad ctx.order ctx.width memory rmod base) base
      (base + ctx.memsz)

section Header

variable {ctx : Context} {memory : Memory} {ptr : Nat}

theorem load_inside {before middle after : List Byte} {address : Nat}
    (bytes : load memory address (before ++ (middle ++ after)).length =
      before ++ (middle ++ after)) :
    load memory (address + before.length) middle.length = middle := by
  rw [List.length_append, List.length_append, load_append,
    load_append memory (address + before.length)] at bytes
  have later := (List.append_inj bytes (length_load _ _ _)).2
  exact (List.append_inj later (length_load _ _ _)).1

theorem length_fields (order : ByteOrder) (fields : List (Nat × Nat)) :
    (fields.flatMap fun field => order.encode field.1 field.2).length =
      (fields.map Prod.fst).sum := by
  induction fields with
  | nil => rfl
  | cons field rest ih =>
    rw [List.flatMap_cons, List.length_append, order.length_encode, ih,
      List.map_cons, List.sum_cons]

theorem map_fst_headerFields (ctx : Context) :
    ctx.headerFields.map Prod.fst = [2, 1, 1, 4, 4, 4, 4, 4, 4, 4, 4, 4, 4, 4, 4, 4, 4, 4] := by
  simp only [Context.headerFields, List.map_cons, List.map_nil]

theorem length_headerBytes (ctx : Context) : ctx.headerBytes.length = 64 := by
  rw [Context.headerBytes, length_fields, map_fst_headerFields]
  rfl

def HasHeader (ctx : Context) (memory : Memory) (ptr : Nat) : Prop :=
  load memory ptr ctx.headerBytes.length = ctx.headerBytes

theorem HasHeader.congr {other : Memory} (header : HasHeader ctx memory ptr)
    (same : ∀ address, ptr ≤ address → address < ptr + 64 → other address = memory address) :
    HasHeader ctx other ptr := by
  rw [HasHeader, length_headerBytes] at *
  exact (load_congr same).trans header

theorem HasHeader.read {before after : List (Nat × Nat)} {width number : Nat}
    (header : HasHeader ctx memory ptr)
    (fields : ctx.headerFields = before ++ (width, number) :: after) :
    ctx.order.read width memory (ptr + (before.map Prod.fst).sum) = number % 256 ^ width := by
  rw [HasHeader, Context.headerBytes, fields, List.flatMap_append, List.flatMap_cons] at header
  have inside := load_inside header
  rw [length_fields, ctx.order.length_encode] at inside
  rw [ByteOrder.read, inside, ctx.order.decode_encode]

theorem length_relocBytes (ctx : Context) : ctx.relocBytes.length = ctx.relocsSize := by
  rw [Context.relocBytes, Context.relocsSize]
  induction ctx.relocs with
  | nil => rw [List.length_nil, Nat.zero_mul]; rfl
  | cons offset rest ih =>
    rw [List.flatMap_cons, List.length_append, ctx.order.length_encode, ih,
      List.length_cons, Nat.succ_mul]
    exact Nat.add_comm _ _

theorem length_image (ctx : Context) :
    ctx.image.length = sizeofHeader + ctx.filesz + ctx.relocsSize := by
  rw [Context.image, List.length_append, List.length_append,
    length_headerBytes, length_relocBytes, ← Nat.add_assoc]
  rfl

theorem parts_of_image (image : load memory ptr ctx.image.length = ctx.image) :
    HasHeader ctx memory ptr ∧
      load memory (ptr + sizeofHeader) ctx.filesz = ctx.program ∧
      load memory (ptr + sizeofHeader + ctx.filesz) ctx.relocsSize = ctx.relocBytes := by
  have length : ctx.image.length = ctx.headerBytes.length + (ctx.filesz + ctx.relocsSize) := by
    rw [length_image, length_headerBytes, Nat.add_assoc]
    rfl
  rw [length, load_append, load_append, length_headerBytes] at image
  have first := List.append_inj image ((length_load _ _ _).trans (length_headerBytes ctx).symm)
  have second := List.append_inj first.2 (length_load _ _ _)
  exact ⟨by rw [HasHeader, length_headerBytes]; exact first.1, second.1, second.2⟩

def parsedModule (ctx : Context) (ptr : Nat) : Module :=
  ⟨ptr, ptr + sizeofHeader, ctx.filesz, ptr + (sizeofHeader + ctx.filesz)⟩

theorem rmoduleParse_eq (header : HasHeader ctx memory ptr) (nonnull : ptr ≠ 0)
    (small : sizeofHeader + ctx.filesz < 4294967296) :
    rmoduleParse ctx.order memory ptr = some (parsedModule ctx ptr) := by
  have magic : ctx.order.read 2 memory ptr = rmoduleMagic.toNat :=
    @HasHeader.read ctx memory ptr [] _ 2 _ header rfl
  have version : ctx.order.read 1 memory (ptr + 2) = rmoduleVersion1.toNat :=
    @HasHeader.read ctx memory ptr [_] _ 1 _ header rfl
  have first : ctx.order.read 4 memory (ptr + 4) = sizeofHeader :=
    @HasHeader.read ctx memory ptr [_, _, _] _ 4 _ header rfl
  have last : ctx.order.read 4 memory (ptr + 8) = sizeofHeader + ctx.filesz :=
    (@HasHeader.read ctx memory ptr [_, _, _, _] _ 4 _ header rfl).trans (Nat.mod_eq_of_lt small)
  have relocs : ctx.order.read 4 memory (ptr + 12) = sizeofHeader + ctx.filesz :=
    (@HasHeader.read ctx memory ptr [_, _, _, _, _] _ 4 _ header rfl).trans (Nat.mod_eq_of_lt small)
  have size : (sizeofHeader + ctx.filesz + 4294967296 - sizeofHeader) %
      4294967296 = ctx.filesz := by
    rw [sizeofHeader] at *
    omega
  rw [rmoduleParse, if_neg nonnull, magic, version, first, last, relocs, size,
    if_neg (not_not.mpr rfl), if_neg (not_not.mpr rfl)]
  rfl

end Header

section Relocation

variable {ctx : Context} {memory : Memory} {ptr base : Nat} {relocs : List Nat} {adjustment : Nat}

theorem four_le (valid : ctx.Bounded) : 4294967296 ≤ 256 ^ ctx.width := by
  rcases valid.width with width | width <;> rw [width] <;> decide

theorem width_pos (valid : ctx.Bounded) : 0 < ctx.width := by
  rcases valid.width with width | width <;> rw [width] <;> decide

theorem HasHeader.link (header : HasHeader ctx memory ptr) (small : ctx.vaddr < 4294967296) :
    ctx.order.read 4 memory (ptr + 20) = ctx.vaddr :=
  (@HasHeader.read ctx memory ptr [_, _, _, _, _, _, _] _ 4 _ header rfl).trans
    (Nat.mod_eq_of_lt small)

theorem rmoduleLoadAddr_eq (valid : ctx.Bounded) (header : HasHeader ctx memory ptr)
    (small : ctx.vaddr < 4294967296) {blobAddr : Nat} (above : ctx.vaddr ≤ blobAddr)
    (below : base + (blobAddr - ctx.vaddr) < 256 ^ ctx.width) :
    rmoduleLoadAddr ctx.order ctx.width memory (parsedModule ctx ptr) base
      blobAddr = base + (blobAddr - ctx.vaddr) := by
  have four := four_le valid
  have sum : base + blobAddr + (256 ^ ctx.width - ctx.vaddr) =
      base + (blobAddr - ctx.vaddr) + 256 ^ ctx.width := by omega
  rw [rmoduleLoadAddr, parsedModule, header.link small, sum,
    Nat.add_mod_right, Nat.mod_eq_of_lt below]

theorem rmoduleLoadAddr_zero (header : HasHeader ctx memory ptr) (small : ctx.vaddr < 4294967296) :
    rmoduleLoadAddr ctx.order ctx.width memory (parsedModule ctx ptr) base 0 =
      ctx.adjustment base := by
  rw [rmoduleLoadAddr, parsedModule, header.link small, Nat.add_zero, Context.adjustment]

theorem rmoduleNumberRelocations_eq (valid : ctx.Bounded) (fits : ctx.Describable)
    (header : HasHeader ctx memory ptr) :
    rmoduleNumberRelocations ctx.order ctx.width memory
      (parsedModule ctx ptr) = ctx.relocs.length := by
  have four := four_le valid
  have offsets := fits.offsets
  have first : ctx.order.read 4 memory (ptr + 12) = sizeofHeader + ctx.filesz :=
    (@HasHeader.read ctx memory ptr [_, _, _, _, _] _ 4 _ header rfl).trans
      (Nat.mod_eq_of_lt (by omega))
  have last : ctx.order.read 4 memory (ptr + 16) = sizeofHeader + ctx.filesz + ctx.relocsSize :=
    (@HasHeader.read ctx memory ptr [_, _, _, _, _, _] _ 4 _ header rfl).trans
      (Nat.mod_eq_of_lt offsets)
  have size : sizeofHeader + ctx.filesz + ctx.relocsSize + 256 ^ ctx.width -
      (sizeofHeader + ctx.filesz) = ctx.relocsSize + 256 ^ ctx.width := by
    omega
  have positive := width_pos valid
  rw [rmoduleNumberRelocations, parsedModule, first, last, size,
    Nat.add_mod_right, Nat.mod_eq_of_lt (by omega), Context.relocsSize,
    Nat.mul_div_cancel _ positive]

theorem adjustWord_of_outside {order : ByteOrder} {width adjustment : Nat}
    {place address : Nat} (outside : address < place ∨ place + width ≤ address) :
    adjustWord order width adjustment memory place address = memory address := by
  apply store_of_outside
  rw [order.length_encode]
  exact outside

def adjustAll (ctx : Context) (adjustment base : Nat) (relocs : List Nat)
    (memory : Memory) : Memory :=
  relocs.foldl
    (fun memory offset =>
      adjustWord ctx.order ctx.width adjustment memory (base + (offset - ctx.vaddr))) memory

/-- The relocations name whole words of the bytes of the program. -/
def Inside (ctx : Context) (relocs : List Nat) : Prop :=
  ∀ offset ∈ relocs, ctx.vaddr ≤ offset ∧
    offset + ctx.width ≤ ctx.vaddr + ctx.filesz ∧ offset < 256 ^ ctx.width

theorem adjustAll_of_outside (inside : Inside ctx relocs) :
    SameOutside memory (adjustAll ctx adjustment base relocs memory) base (base + ctx.filesz) := by
  induction relocs generalizing memory with
  | nil => exact SameOutside.refl memory base (base + ctx.filesz)
  | cons offset rest ih =>
    obtain ⟨own, others⟩ := List.forall_mem_cons.mp inside
    intro address outside
    rw [adjustAll, List.foldl_cons]
    exact (ih others address outside).trans (adjustWord_of_outside (by omega))

/-- The loop adjusts the words of all relocations, if the header and the relocations
lie outside of the program. -/
theorem relocateLoop_eq (valid : ctx.Bounded) (small : ctx.vaddr < 4294967296)
    (space : base + ctx.memsz ≤ 256 ^ ctx.width) {reloc adjustment : Nat}
    (inside : Inside ctx relocs) (header : HasHeader ctx memory ptr)
    (table : load memory reloc (relocs.length * ctx.width) =
      relocs.flatMap (ctx.order.encode ctx.width))
    (apart : base + ctx.filesz ≤ ptr ∨ ptr + 64 ≤ base)
    (apart' : base + ctx.filesz ≤ reloc ∨ reloc + relocs.length * ctx.width ≤ base) :
    relocateLoop ctx.order ctx.width (parsedModule ctx ptr) base adjustment
        relocs.length reloc memory =
      adjustAll ctx adjustment base relocs memory := by
  induction relocs generalizing memory reloc with
  | nil => rfl
  | cons offset rest ih =>
    obtain ⟨own, others⟩ := List.forall_mem_cons.mp inside
    have filesz := valid.filesz
    have positive := width_pos valid
    rw [List.length_cons, Nat.succ_mul] at table apart'
    rw [Nat.add_comm, load_append, List.flatMap_cons] at table
    obtain ⟨word, later⟩ := List.append_inj table
      ((length_load _ _ _).trans (ctx.order.length_encode _ _).symm)
    have read : ctx.order.read ctx.width memory reloc = offset := by
      rw [ByteOrder.read, word, ctx.order.decode_encode]
      exact Nat.mod_eq_of_lt own.2.2
    have place : rmoduleLoadAddr ctx.order ctx.width memory
        (parsedModule ctx ptr) base offset = base + (offset - ctx.vaddr) :=
      rmoduleLoadAddr_eq valid header small own.1 (by omega)
    rw [List.length_cons, relocateLoop, read, place, adjustAll, List.foldl_cons]
    refine ih others ?_ ?_ ?_
    · exact header.congr fun address above below =>
        adjustWord_of_outside (by omega)
    · exact (load_congr fun address above below =>
        adjustWord_of_outside (by omega)).trans later
    · omega

theorem adjustAll_translate {other : Memory} {place : Nat}
    (inside : Inside ctx relocs) (same : ∀ i < ctx.filesz, memory (base + i) = other (place + i)) :
    ∀ i < ctx.filesz,
      adjustAll ctx adjustment base relocs memory (base + i) =
        adjustAll ctx adjustment place relocs other (place + i) := by
  induction relocs generalizing memory other with
  | nil => exact same
  | cons offset rest ih =>
    obtain ⟨own, others⟩ := List.forall_mem_cons.mp inside
    have read : ctx.order.read ctx.width memory
        (base + (offset - ctx.vaddr)) = ctx.order.read ctx.width other
          (place + (offset - ctx.vaddr)) := by
      rw [ByteOrder.read, ByteOrder.read]
      congr 1
      refine load_translate fun i below => ?_
      rw [Nat.add_assoc, Nat.add_assoc]
      exact same _ (by omega)
    rw [adjustAll, adjustAll, List.foldl_cons, List.foldl_cons]
    refine ih others ?_
    rw [adjustWord, adjustWord, read]
    exact store_translate same _ _

theorem adjustAll_of_untouched {adjustment address : Nat}
    (untouched : ∀ offset ∈ relocs, address < base + (offset - ctx.vaddr) ∨
      base + (offset - ctx.vaddr) + ctx.width ≤ address) :
    adjustAll ctx adjustment base relocs memory address = memory address := by
  induction relocs generalizing memory with
  | nil => rfl
  | cons offset rest ih =>
    obtain ⟨own, others⟩ := List.forall_mem_cons.mp untouched
    rw [adjustAll, List.foldl_cons]
    exact (ih others).trans (adjustWord_of_outside own)

end Relocation

section Loading

variable {ctx : Context} {memory : Memory} {ptr base : Nat} {elf : Executable}

theorem sizeOfInt_eq (valid : ctx.Bounded) {size : Nat} (int : ctx.width = 8 → size < 2147483648) :
    sizeOfInt ctx.width size = size := by
  rw [sizeOfInt]
  rcases valid.width with width | width
  · rw [width]
    split_ifs
    · rfl
    · have four : 256 ^ 4 = 4294967296 := by decide
      rw [four, Nat.sub_self, Nat.zero_add]
  · rw [if_pos (int width)]

theorem HasHeader.bss (header : HasHeader ctx memory ptr) :
    ctx.order.read 4 memory (ptr + 40) = ctx.bssBegin % 256 ^ 4 ∧
      ctx.order.read 4 memory (ptr + 44) = ctx.bssEnd % 256 ^ 4 := by
  have first := @HasHeader.read ctx memory ptr (ctx.headerFields.take 12)
    (ctx.headerFields.drop 13) 4 ctx.bssBegin header rfl
  have last := @HasHeader.read ctx memory ptr (ctx.headerFields.take 13)
    (ctx.headerFields.drop 14) 4 ctx.bssEnd header rfl
  rw [List.map_take, map_fst_headerFields] at first last
  exact ⟨first, last⟩

theorem bssSize_eq {first last : Nat} (order : first ≤ last)
    (small : first < 4294967296) (size : last - first < 4294967296) :
    (last % 4294967296 + 4294967296 - first) % 4294967296 = last - first := by
  omega

theorem rmoduleClearBss_eq (valid : ctx.Bounded) (fits : ctx.Describable)
    (space : base + ctx.memsz ≤ 256 ^ ctx.width)
    (header : HasHeader ctx memory ptr) (address : Nat) :
    rmoduleClearBss ctx.order ctx.width memory (parsedModule ctx ptr) base address =
      if base + (ctx.bssBegin - ctx.vaddr) ≤ address ∧
          address < base + (ctx.bssEnd - ctx.vaddr) then 0
      else memory address := by
  obtain ⟨above, order, below⟩ := valid.bss
  obtain ⟨link, begin'⟩ := fits.addresses
  obtain ⟨first, last⟩ := header.bss
  have four : 256 ^ 4 = 4294967296 := by decide
  rw [four] at first last
  rw [Nat.mod_eq_of_lt begin'] at first
  have count := bssSize_eq order begin' fits.size
  have header' : (parsedModule ctx ptr).header = ptr := rfl
  rw [rmoduleClearBss, header', first, last, count, sizeOfInt_eq valid fits.int, fill]
  by_cases empty : ctx.bssBegin = ctx.bssEnd
  · rw [if_neg (by omega), if_neg (by omega)]
  · rw [rmoduleLoadAddr_eq valid header link above (by omega)]
    have stop : base + (ctx.bssBegin - ctx.vaddr) +
        (ctx.bssEnd - ctx.bssBegin) = base + (ctx.bssEnd - ctx.vaddr) := by
      omega
    rw [stop]

theorem store_getElem {bytes : List Byte} {place i : Nat} (inside : i < bytes.length) :
    store memory place bytes (place + i) = bytes[i] := by
  induction bytes generalizing place i with
  | nil => exact absurd inside (Nat.not_lt_zero i)
  | cons byte rest ih =>
    cases i with
    | zero => exact if_pos rfl
    | succ i =>
      have later := @ih (place + 1) i (Nat.lt_of_succ_lt_succ inside)
      rw [store_cons_apply, if_neg (by omega), List.getElem_cons_succ, ← later]
      congr 1
      omega

theorem rmoduleCopyPayload_spec (valid : ctx.Bounded)
    (copied : base ≠ ptr + sizeofHeader → ctx.width = 8 → ctx.filesz < 2147483648)
    (placed : Placed ctx memory ptr base) :
    (∀ i < ctx.filesz,
      rmoduleCopyPayload ctx.width memory (parsedModule ctx ptr) base
        (base + i) = store (fun _ => 0) 0 ctx.program i) ∧
    SameOutside memory
      (rmoduleCopyPayload ctx.width memory (parsedModule ctx ptr) base) base
      (base + ctx.filesz) := by
  obtain ⟨-, program, -⟩ := parts_of_image placed.image
  have expected : ∀ i < ctx.filesz, store (fun _ => 0) 0 ctx.program i =
      memory (ptr + sizeofHeader + i) := by
    intro i below
    have stored := @store_load_apply_add (fun _ => 0) memory 0
      (ptr + sizeofHeader) ctx.filesz i below
    rwa [program, Nat.zero_add] at stored
  rw [rmoduleCopyPayload, parsedModule]
  by_cases inPlace : base = ptr + sizeofHeader
  · rw [if_pos inPlace, inPlace]
    exact ⟨fun i below => (expected i below).symm, SameOutside.refl memory _ _⟩
  · rw [if_neg inPlace, sizeOfInt_eq valid (copied inPlace)]
    refine ⟨fun i below => ?_, fun address outside => store_of_outside ?_⟩
    · rw [store_load_apply_add below, expected i below]
    · rw [length_load]
      exact outside

theorem relocated_eq (ctx : Context) (base : Nat) :
    ctx.relocated base = adjustAll ctx (ctx.adjustment base) 0 ctx.relocs
      (store (fun _ => 0) 0 ctx.program) := by
  rw [Context.relocated, adjustAll]
  simp only [Nat.zero_add]

theorem relocated_eq_zero (valid : ctx.Bounded)
    (fits : ctx.Fits ptr base) {i : Nat} (bss : ctx.filesz ≤ i ∨
      i < ctx.filesz ∧ ctx.bssBegin ≤ ctx.vaddr + i ∧
        ctx.vaddr + i < ctx.bssEnd) : ctx.relocated base i = 0 := by
  rw [relocated_eq]
  rcases bss with beyond | ⟨inside, above, below⟩
  · rw [adjustAll_of_outside valid.relocs i (.inr (by omega))]
    exact store_of_outside (.inr (by
      rw [Nat.zero_add]
      exact beyond))
  · obtain ⟨zero, untouched⟩ := fits.zeros i inside above below
    rw [adjustAll_of_untouched]
    · obtain ⟨bound, byte⟩ := List.getElem?_eq_some_iff.mp zero
      have stored := @store_getElem (fun _ => 0) _ 0 i bound
      rw [Nat.zero_add] at stored
      exact stored.trans byte
    · intro offset member
      have apart := untouched offset member
      have link := (valid.relocs offset member).1
      omega

theorem rmoduleLoad_apply (valid : ctx.Bounded) (fits : ctx.Describable)
    (copied : base ≠ ptr + sizeofHeader → ctx.width = 8 → ctx.filesz < 2147483648)
    (placed : Placed ctx memory ptr base) (address : Nat) :
    rmoduleLoad ctx.order ctx.width memory (parsedModule ctx ptr) base address =
      if base + (ctx.bssBegin - ctx.vaddr) ≤ address ∧
          address < base + (ctx.bssEnd - ctx.vaddr) then 0
      else adjustAll ctx (ctx.adjustment base) base ctx.relocs
        (rmoduleCopyPayload ctx.width memory (parsedModule ctx ptr) base)
        address := by
  obtain ⟨header, program, table⟩ := parts_of_image placed.image
  obtain ⟨-, kept⟩ := rmoduleCopyPayload_spec valid copied placed
  have filesz := valid.filesz
  have place := placed.place
  rw [length_image, sizeofHeader] at place
  rw [rmoduleLoad]
  generalize rmoduleCopyPayload ctx.width memory (parsedModule ctx ptr) base = first at kept ⊢
  have header₁ : HasHeader ctx first ptr :=
    header.congr fun address above below => kept address (by omega)
  have table₁ : load first (ptr + (sizeofHeader + ctx.filesz)) ctx.relocsSize = ctx.relocBytes := by
    rw [← Nat.add_assoc]
    refine (load_congr fun address above below => ?_).trans table
    rw [sizeofHeader] at above below
    exact kept address (by omega)
  have relocated : rmoduleRelocate ctx.order ctx.width first
      (parsedModule ctx ptr) base = adjustAll ctx (ctx.adjustment base) base ctx.relocs first := by
    rw [rmoduleRelocate, rmoduleLoadAddr_zero header₁ fits.addresses.1,
      rmoduleNumberRelocations_eq valid fits header₁]
    refine relocateLoop_eq valid fits.addresses.1 placed.space valid.relocs
      header₁ table₁ (by omega) ?_
    rw [parsedModule, sizeofHeader]
    rw [Context.relocsSize] at place
    dsimp only
    omega
  have adjusted := @adjustAll_of_outside ctx first base ctx.relocs
    (ctx.adjustment base) valid.relocs
  rw [relocated]
  exact rmoduleClearBss_eq valid fits placed.space
    (header₁.congr fun address above below => adjusted address (by omega))
    address

theorem sameOutside_rmoduleLoad (valid : ctx.Bounded) (fits : ctx.Describable)
    (copied : base ≠ ptr + sizeofHeader → ctx.width = 8 → ctx.filesz < 2147483648)
    (placed : Placed ctx memory ptr base) :
    SameOutside memory
      (rmoduleLoad ctx.order ctx.width memory (parsedModule ctx ptr) base) base
      (base + ctx.memsz) := by
  intro address outside
  have filesz := valid.filesz
  obtain ⟨above, order, below⟩ := valid.bss
  obtain ⟨-, kept⟩ := rmoduleCopyPayload_spec valid copied placed
  rw [rmoduleLoad_apply valid fits copied placed, if_neg (by omega),
    adjustAll_of_outside valid.relocs address (by omega)]
  exact kept address (by omega)

theorem loaded_of_fits (valid : ctx.Valid) (fits : ctx.Fits ptr base)
    (placed : Placed ctx memory ptr base) : Loaded ctx memory ptr base := by
  have bounded := valid.toBounded
  have describable := fits.toDescribable
  have offsets := fits.offsets
  obtain ⟨header, -, -⟩ := parts_of_image placed.image
  obtain ⟨copied, -⟩ := rmoduleCopyPayload_spec bounded fits.copied placed
  obtain ⟨above, order, below⟩ := valid.bss
  refine ⟨parsedModule ctx ptr,
    rmoduleParse_eq header placed.nonnull (by omega), fun i inside => ?_,
    sameOutside_rmoduleLoad bounded describable fits.copied placed⟩
  rw [rmoduleLoad_apply bounded describable fits.copied placed]
  split_ifs with bss
  · refine (relocated_eq_zero bounded fits ?_).symm
    rcases Nat.lt_or_ge i ctx.filesz with bytes | beyond
    · exact .inr ⟨bytes, by omega, by omega⟩
    · exact .inl beyond
  · have bytes : i < ctx.filesz := by
      have covers := valid.covers
      omega
    have content := @adjustAll_translate ctx
      (rmoduleCopyPayload ctx.width memory (parsedModule ctx ptr) base) base
      ctx.relocs (ctx.adjustment base) (store (fun _ => 0) 0 ctx.program) 0
      valid.relocs
      (fun i below => by rw [Nat.zero_add]; exact copied i below) i bytes
    rw [content, Nat.zero_add, relocated_eq]

structure Describes (elf : Executable) (ctx : Context) : Prop where
  word : ctx.order = elf.order ∧ ctx.width = elf.width
  segment : ∃ phdr, elf.phdrs.filter (fun phdr => phdr.type = ptLoad) =
      [phdr] ∧ ctx.program = phdr.program ∧ ctx.vaddr = phdr.vaddr ∧ ctx.memsz = phdr.memsz
  bss : populateSym elf.symbols "_bss" = some ctx.bssBegin ∧
    populateSym elf.symbols "_ebss" = some ctx.bssEnd
  relocs : ctx.relocs.Perm (absoluteOffsets elf.ops (programRelocs elf))

theorem findProgramSegment_eq {phdr : Phdr} (found : findProgramSegment elf = some phdr) :
    elf.phdrs.filter (fun phdr => phdr.type = ptLoad) = [phdr] := by
  rw [findProgramSegment] at found
  split at found
  · rename_i only single
    cases found
    exact single
  · cases found

theorem describes_of_rmoduleCreate
    (created : rmoduleCreate elf = some ctx) : Describes elf ctx := by
  obtain ⟨phdr, found, created⟩ := Option.bind_eq_some_iff.mp created
  obtain ⟨kept, filtered, created⟩ := Option.bind_eq_some_iff.mp created
  obtain ⟨relocs, collected, created⟩ := Option.bind_eq_some_iff.mp created
  obtain ⟨bssBegin, first, created⟩ := Option.bind_eq_some_iff.mp created
  obtain ⟨bssEnd, last, rfl⟩ := Option.map_eq_some_iff.mp created
  refine ⟨⟨rfl, rfl⟩, ⟨phdr, findProgramSegment_eq found, rfl, rfl, rfl⟩, ⟨first, last⟩, ?_⟩
  rw [programRelocs, ← filterRelocationSections_eq filtered]
  exact perm_of_rmoduleCollectRelocations collected

/-- A packed executable is loaded with all its absolute relocations, in place or
from elsewhere, if its header can describe it. -/
theorem loaded_of_rmoduleCreate (elf : Executable) (ctx : Context) (memory : Memory)
    (ptr base : Nat) (created : rmoduleCreate elf = some ctx) (valid : ctx.Valid)
    (fits : ctx.Fits ptr base) (placed : Placed ctx memory ptr base) :
    Describes elf ctx ∧ Loaded ctx memory ptr base :=
  ⟨describes_of_rmoduleCreate created, loaded_of_fits valid fits placed⟩

def smallExecutable : Executable where
  ops := ops386
  order := littleEndian
  width := 4
  entry := 0
  phdrs := [⟨ptLoad, 0x100, 16, [4, 1, 0, 0, 0, 1, 0, 0]⟩]
  sections := [⟨false, true, 0x100, 8, [⟨0x104, 1⟩, ⟨0x100, 1⟩]⟩]
  symbols := [("_bss", 0x108), ("_ebss", 0x110)]

def smallContext : Context where
  order := littleEndian
  width := 4
  program := [4, 1, 0, 0, 0, 1, 0, 0]
  vaddr := 0x100
  memsz := 16
  entry := 0
  parametersBegin := 0
  parametersEnd := 0
  bssBegin := 0x108
  bssEnd := 0x110
  relocs := [0x100, 0x104]

theorem placed_of_store {ctx : Context} {ptr : Nat} (nonnull : ptr ≠ 0)
    (space : ptr + sizeofHeader + ctx.memsz ≤ 256 ^ ctx.width) :
    Placed ctx (store (fun _ => 0) ptr ctx.image) ptr (ptr + sizeofHeader) :=
  ⟨load_store_self _ ptr ctx.image, nonnull, space, .inl rfl⟩

theorem loaded_smallExecutable :
    Describes smallExecutable smallContext ∧
      Loaded smallContext (store (fun _ => 0) 0x1000 smallContext.image) 0x1000 0x1040 :=
  loaded_of_rmoduleCreate smallExecutable smallContext _ 0x1000 0x1040 rfl
    ⟨⟨.inl rfl, by decide, by decide, by decide⟩, fun _ => by decide⟩
    ⟨⟨by decide, by decide, by decide, by decide⟩, by decide, by decide⟩
    (placed_of_store (by decide) (by decide))

def highExecutable : Executable where
  ops := opsAarch64
  order := littleEndian
  width := 8
  entry := 4294967296
  phdrs := [⟨ptLoad, 4294967296, 8, List.replicate 8 0⟩]
  sections := [⟨false, true, 4294967296, 8, [⟨4294967296, 257⟩]⟩]
  symbols := [("_bss", 4294967304), ("_ebss", 4294967304)]

def highContext : Context where
  order := littleEndian
  width := 8
  program := List.replicate 8 0
  vaddr := 4294967296
  memsz := 8
  entry := 4294967296
  parametersBegin := 0
  parametersEnd := 0
  bssBegin := 4294967304
  bssEnd := 4294967304
  relocs := [4294967296]

/-- The header loses the high half of the link address, and the relocation is
made elsewhere. -/
theorem not_loaded_highExecutable :
    ∃ memory, rmoduleCreate highExecutable = some highContext ∧
      highContext.Valid ∧ Placed highContext memory 0x1000 0x1040 ∧
        ¬ Loaded highContext memory 0x1000 0x1040 := by
  have placed := @placed_of_store highContext 0x1000 (by decide) (by decide)
  refine ⟨_, rfl, ⟨⟨.inr rfl, by decide, by decide, by decide⟩, by decide⟩, placed, ?_⟩
  rintro ⟨rmod, parsed, content, -⟩
  have parsed' := rmoduleParse_eq (parts_of_image placed.image).1 placed.nonnull (by decide)
  obtain rfl : parsedModule highContext 0x1000 = rmod := Option.some.inj (parsed'.symm.trans parsed)
  have byte := content 0 (by decide)
  exact absurd byte (by decide +kernel)

end Loading

end Coreboot.Rmodule
