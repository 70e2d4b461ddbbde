import Coreboot.WordAlignment

/-!
# Memory pools

A pool hands out the bytes of a buffer one after the other.
-/

namespace Coreboot.MemPool

/-- `struct mem_pool` on a buffer that does not wrap around.  A null pointer is
zero. -/
structure Pool (width : Nat) where
  buf : BitVec width
  size : BitVec width
  lastAlloc : BitVec width
  freeOffset : BitVec width
  nonnull : 0 < buf.toNat
  inside : buf.toNat + size.toNat < 2 ^ width

variable {width : Nat}

def memPoolInit (buf sz : BitVec width) (nonnull : 0 < buf.toNat)
    (inside : buf.toNat + sz.toNat < 2 ^ width) : Pool width where
  buf := buf
  size := sz
  lastAlloc := 0
  freeOffset := 0
  nonnull := nonnull
  inside := inside

def memPoolAlloc (mp : Pool width) (sz : BitVec width) :
    Option (BitVec width × Pool width) :=
  -- All allocations are aligned to 8 bytes.
  let sz := WordAlignment.alignUp sz 3
  if mp.size - mp.freeOffset < sz then none
  else
    let p := mp.buf + mp.freeOffset
    some (p, { mp with freeOffset := mp.freeOffset + sz, lastAlloc := p })

def memPoolFree (mp : Pool width) (p : BitVec width) : Pool width :=
  if p = 0 ∨ mp.lastAlloc ≠ p then mp
  else { mp with freeOffset := mp.lastAlloc - mp.buf, lastAlloc := 0 }

/-- An allocation with the size that was asked for. -/
structure Allocation (width : Nat) where
  p : BitVec width
  sz : BitVec width
deriving DecidableEq, Repr

def Allocation.finish (a : Allocation width) : Nat := a.p.toNat + a.sz.toNat

/-- A request to a pool. -/
inductive Request (width : Nat) where
  | alloc (sz : BitVec width)
  | free (a : Allocation width)

/-- The pools reached by requests that meet a condition, with the live
allocations.  An allocation that is never freed stays live. -/
inductive Run (condition : Pool width → List (Allocation width) →
    Request width → Prop) : Pool width → List (Allocation width) → Prop
  | init {buf sz : BitVec width} (nonnull : 0 < buf.toNat)
      (inside : buf.toNat + sz.toNat < 2 ^ width) :
      Run condition (memPoolInit buf sz nonnull inside) []
  | refused {mp : Pool width} {live : List (Allocation width)}
      {sz : BitVec width} (before : Run condition mp live)
      (meets : condition mp live (.alloc sz))
      (refused : memPoolAlloc mp sz = none) :
      Run condition mp live
  | alloc {mp mp' : Pool width} {live : List (Allocation width)}
      {p sz : BitVec width} (before : Run condition mp live)
      (meets : condition mp live (.alloc sz))
      (taken : memPoolAlloc mp sz = some (p, mp')) :
      Run condition mp' (⟨p, sz⟩ :: live)
  | free {mp : Pool width} {front back : List (Allocation width)}
      {a : Allocation width} (before : Run condition mp (front ++ a :: back))
      (meets : condition mp (front ++ back) (.free a)) :
      Run condition (memPoolFree mp a.p) (front ++ back)

/-- The live allocations are disjoint, inside of the buffer and aligned from its
start, and the pool has released none of them. -/
structure Sound (mp : Pool width) (live : List (Allocation width)) : Prop where
  disjoint : live.Pairwise fun first second =>
    first.finish ≤ second.p.toNat ∨ second.finish ≤ first.p.toNat
  inside : ∀ a ∈ live, mp.buf.toNat ≤ a.p.toNat ∧ a.finish ≤ mp.buf.toNat + mp.size.toNat
  aligned : ∀ a ∈ live, 8 ∣ a.p.toNat - mp.buf.toNat
  held : ∀ a ∈ live, a.finish ≤ mp.buf.toNat + mp.freeOffset.toNat

/-- The size of an allocation can be rounded up, and the last allocation is not
freed through another one that starts with it. -/
def Careful (mp : Pool width) (live : List (Allocation width)) : Request width → Prop
  | .alloc sz => sz.toNat + 7 < 2 ^ width
  | .free a => mp.lastAlloc = a.p →
      ∀ other ∈ live, other.p = a.p → other.sz = 0

/-- In every run whose requests meet a condition, the pool is sound. -/
def SoundUnder (width : Nat) (condition : Pool width →
    List (Allocation width) → Request width → Prop) : Prop :=
  ∀ mp live, Run condition mp live → Sound mp live

/-- The space in use ends at the free offset, and the last allocation is behind
all that have bytes elsewhere. -/
structure Kept (mp : Pool width) (live : List (Allocation width)) : Prop where
  sound : Sound mp live
  offset : mp.freeOffset.toNat ≤ mp.size.toNat
  multiple : 8 ∣ mp.freeOffset.toNat
  last : mp.lastAlloc ≠ 0 → mp.buf.toNat ≤ mp.lastAlloc.toNat ∧
    mp.lastAlloc.toNat ≤ mp.buf.toNat + mp.freeOffset.toNat ∧
      8 ∣ mp.lastAlloc.toNat - mp.buf.toNat ∧
        ∀ a ∈ live, a.finish ≤ mp.lastAlloc.toNat ∨ a.p = mp.lastAlloc

section Steps

variable {mp mp' : Pool width} {live front back : List (Allocation width)}
  {p sz : BitVec width} {a : Allocation width}

theorem memPoolAlloc_spec (kept : Kept mp live) (rounds : sz.toNat + 7 < 2 ^ width)
    (taken : memPoolAlloc mp sz = some (p, mp')) :
    p.toNat = mp.buf.toNat + mp.freeOffset.toNat ∧ mp'.buf = mp.buf ∧
      mp'.size = mp.size ∧ mp'.lastAlloc = p ∧
        mp'.freeOffset.toNat = mp.freeOffset.toNat + WordAlignment.ceil sz.toNat 3 ∧
          mp.freeOffset.toNat + WordAlignment.ceil sz.toNat 3 ≤ mp.size.toNat := by
  have inside := mp.inside
  have offset := kept.offset
  have rounded : (WordAlignment.alignUp sz 3).toNat = WordAlignment.ceil sz.toNat 3 :=
    WordAlignment.toNat_alignUp_of_lt rounds
  have left : (mp.size - mp.freeOffset).toNat = mp.size.toNat - mp.freeOffset.toNat :=
    BitVec.toNat_sub_of_le (BitVec.le_def.mpr offset)
  rw [memPoolAlloc] at taken
  split_ifs at taken with full
  have room : WordAlignment.ceil sz.toNat 3 ≤ mp.size.toNat - mp.freeOffset.toNat := by
    rw [← rounded, ← left]
    exact Nat.not_lt.mp (mt BitVec.lt_def.mpr full)
  cases taken
  refine ⟨?_, rfl, rfl, rfl, ?_, by omega⟩
  · rw [BitVec.toNat_add, Nat.mod_eq_of_lt (by omega)]
  · rw [BitVec.toNat_add, rounded, Nat.mod_eq_of_lt (by omega)]

theorem Kept.alloc (kept : Kept mp live) (rounds : sz.toNat + 7 < 2 ^ width)
    (taken : memPoolAlloc mp sz = some (p, mp')) : Kept mp' (⟨p, sz⟩ :: live) := by
  obtain ⟨start, buf, size, last, offset, room⟩ := memPoolAlloc_spec kept rounds taken
  obtain ⟨⟨disjoint, inside, aligned, held⟩, -, multiple, -⟩ := kept
  have covers := WordAlignment.le_ceil sz.toNat 3
  have eight : 8 ∣ WordAlignment.ceil sz.toNat 3 := WordAlignment.dvd_ceil sz.toNat 3
  have finish : (Allocation.mk p sz).finish = mp.buf.toNat + mp.freeOffset.toNat + sz.toNat :=
    congrArg (· + sz.toNat) start
  refine ⟨⟨List.Pairwise.cons ?_ disjoint, ?_, ?_, ?_⟩, ?_, ?_, fun _ => ?_⟩
  · intro other member
    exact .inr ((held other member).trans_eq start.symm)
  · rw [List.forall_mem_cons, buf, size]
    refine ⟨⟨?_, ?_⟩, inside⟩
    · show _ ≤ p.toNat
      omega
    · omega
  · rw [List.forall_mem_cons, buf]
    refine ⟨?_, aligned⟩
    show 8 ∣ p.toNat - mp.buf.toNat
    rwa [start, Nat.add_sub_cancel_left]
  · rw [List.forall_mem_cons, buf, offset]
    refine ⟨by omega, fun other member => ?_⟩
    have below := held other member
    omega
  · rw [offset, size]
    exact room
  · rw [offset]
    exact Nat.dvd_add multiple eight
  · rw [last, buf, offset]
    refine ⟨by omega, by omega, ?_, List.forall_mem_cons.mpr
      ⟨.inr rfl, fun other member => .inl ?_⟩⟩
    · rwa [start, Nat.add_sub_cancel_left]
    · exact (held other member).trans_eq start.symm

theorem Kept.sublist {fewer : List (Allocation width)} (kept : Kept mp live)
    (part : List.Sublist fewer live) : Kept mp fewer := by
  obtain ⟨⟨disjoint, inside, aligned, held⟩, offset, multiple, last⟩ := kept
  refine ⟨⟨disjoint.sublist part, fun a member => inside a (part.subset member),
    fun a member => aligned a (part.subset member),
    fun a member => held a (part.subset member)⟩, offset, multiple,
    fun nonnull => ?_⟩
  obtain ⟨above, below, eight, others⟩ := last nonnull
  exact ⟨above, below, eight, fun a member => others a (part.subset member)⟩

theorem Kept.free (kept : Kept mp live)
    (careful : mp.lastAlloc = p → ∀ other ∈ live, other.p = p → other.sz = 0) :
    Kept (memPoolFree mp p) live := by
  rw [memPoolFree]
  split_ifs with other
  · exact kept
  obtain ⟨nonnull, same⟩ := not_or.mp other
  have lastEq := not_not.mp same
  obtain ⟨⟨disjoint, inside, aligned, held⟩, offset, multiple, last⟩ := kept
  obtain ⟨above, below, eight, others⟩ := last fun null => nonnull (lastEq.symm.trans null)
  have distance : (mp.lastAlloc - mp.buf).toNat = mp.lastAlloc.toNat - mp.buf.toNat :=
    BitVec.toNat_sub_of_le (BitVec.le_def.mpr above)
  refine ⟨⟨disjoint, inside, aligned, fun a member => ?_⟩, ?_, ?_, fun null => absurd rfl null⟩
  · show a.finish ≤ mp.buf.toNat + (mp.lastAlloc - mp.buf).toNat
    rw [distance, Nat.add_sub_cancel' above]
    rcases others a member with before | here
    · exact before
    · rw [Allocation.finish, here, careful lastEq a member (here.trans lastEq)]
      exact le_rfl
  · show (mp.lastAlloc - mp.buf).toNat ≤ mp.size.toNat
    omega
  · show 8 ∣ (mp.lastAlloc - mp.buf).toNat
    rwa [distance]

end Steps

/-- In every run of careful requests the pool is sound. -/
theorem poolSound_of_careful_run {mp : Pool width} {live : List (Allocation width)}
    (run : Run Careful mp live) : Sound mp live := by
  have kept : Kept mp live := by
    induction run with
    | init nonnull inside =>
      refine ⟨⟨List.Pairwise.nil, ?_, ?_, ?_⟩, Nat.zero_le _, ?_, fun null => absurd rfl null⟩
      · exact fun _ member => absurd member List.not_mem_nil
      · exact fun _ member => absurd member List.not_mem_nil
      · exact fun _ member => absurd member List.not_mem_nil
      · exact Nat.dvd_zero 8
    | refused _ _ _ ih => exact ih
    | alloc _ meets taken ih => exact ih.alloc meets taken
    | free _ meets ih =>
      exact (ih.sublist ((List.sublist_cons_self _ _).append_left _)).free meets
  exact kept.sound

def smallPool (lastAlloc freeOffset : BitVec 64) : Pool 64 where
  buf := 0x1000
  size := 64
  lastAlloc := lastAlloc
  freeOffset := freeOffset
  nonnull := by decide
  inside := by decide

/-- Five bytes, and eight bytes that are given back. -/
theorem sound_smallPool :
    Run Careful (smallPool 0 8) [⟨0x1000, 5⟩] ∧ Sound (smallPool 0 8) [⟨0x1000, 5⟩] := by
  have start : Run Careful (smallPool 0 0) [] :=
    .init (show 0 < (0x1000 : BitVec 64).toNat by decide)
      (show (0x1000 : BitVec 64).toNat + (64 : BitVec 64).toNat < 2 ^ 64 by
        decide)
  have five : Run Careful (smallPool 0x1000 8) [⟨0x1000, 5⟩] :=
    .alloc start (show (5 : BitVec 64).toNat + 7 < 2 ^ 64 by decide) rfl
  have eight : Run Careful (smallPool 0x1008 16) [⟨0x1008, 8⟩, ⟨0x1000, 5⟩] :=
    .alloc five (show (8 : BitVec 64).toNat + 7 < 2 ^ 64 by decide) rfl
  have freed : Run Careful (smallPool 0 8) [⟨0x1000, 5⟩] :=
    @Run.free _ _ (smallPool 0x1008 16) [] [⟨0x1000, 5⟩] ⟨0x1008, 8⟩ eight
      fun _ other member same => by
        rw [List.mem_singleton.mp member] at same
        exact absurd same (by decide)
  exact ⟨freed, poolSound_of_careful_run freed⟩

/-- Freeing an allocation without bytes releases the one behind it. -/
theorem not_sound_emptyFreed : ¬ ∀ width, SoundUnder width fun _ _ _ => True := by
  intro sound
  have start : Run (fun _ _ _ => True) (smallPool 0 0) [] :=
    .init (show 0 < (0x1000 : BitVec 64).toNat by decide)
      (show (0x1000 : BitVec 64).toNat + (64 : BitVec 64).toNat < 2 ^ 64 by
        decide)
  have empty : Run (fun _ _ _ => True) (smallPool 0x1000 0) [⟨0x1000, 0⟩] :=
    .alloc start trivial rfl
  have eight : Run (fun _ _ _ => True) (smallPool 0x1000 8) [⟨0x1000, 8⟩, ⟨0x1000, 0⟩] :=
    .alloc empty trivial rfl
  have freed : Run (fun _ _ _ => True) (smallPool 0 0) [⟨0x1000, 8⟩] :=
    @Run.free _ _ (smallPool 0x1000 8) [⟨0x1000, 8⟩] [] ⟨0x1000, 0⟩ eight trivial
  have held := (sound 64 _ _ freed).held _ (List.mem_singleton_self _)
  exact absurd held (by decide)

end Coreboot.MemPool
