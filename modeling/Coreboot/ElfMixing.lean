import Coreboot.ElfLoading

/-!
# Headers that load something else

When a content joins a program header whose sections have not filled the file and
memory alike, the header loads a byte that belongs elsewhere, for some contents.
-/

namespace Coreboot.ElfHeaders

open ByteMemory

def Phdr.Apart (phdr : Phdr) (sections : List WriterSection) : Prop :=
  ∀ sec ∈ sections, ∀ address, phdr.paddr ≤ address →
    address < phdr.paddr + phdr.memsz → ¬sec.Covers address

section Addresses

variable {b : Buffer} {rest before : List WriterSection}

variable {phdr : Phdr}

theorem loadHeader_outside (file : phdr.filesz ≤ phdr.memsz) {address : Nat}
    (outside : ¬(phdr.paddr ≤ address ∧ address < phdr.paddr + phdr.memsz))
    (m : Memory) : loadHeader b phdr m address = m address := by
  rw [loadHeader_apply file, if_neg (by omega), if_neg outside]

theorem loadHeader_inside (file : phdr.filesz ≤ phdr.memsz) {k : Nat} (inside : k < phdr.filesz)
    (m : Memory) : loadHeader b phdr m (phdr.paddr + k) = b.memory (phdr.offset + k) := by
  rw [loadHeader_apply file, if_pos (by omega), Nat.add_sub_cancel_left]

theorem loadHeaders_outside {phdr : Option Phdr} {address : Nat}
    (full : ∀ sec ∈ rest, sec.alloc = true → sec.Full)
    (addressable : Addressable rest) (pending : Pending before phdr)
    (outside : ∀ p ∈ phdr, ¬(p.paddr ≤ address ∧ address < p.paddr + p.memsz))
    (uncovered : ∀ sec ∈ rest, ¬sec.Covers address) (m : Memory) :
    loadHeaders b (writePhdrs before rest phdr) m address = m address := by
  have alone (m : Memory) : loadHeaders b phdr.toList m address = m address := by
    cases phdr with
    | none => rfl
    | some phdr =>
      have follows : Follows before phdr := pending
      rw [Option.toList_some, loadHeaders_single follows.type]
      exact loadHeader_outside follows.file (outside phdr rfl) m
  induction rest generalizing before phdr m with
  | nil => exact alone m
  | cons sec rest ih =>
    replace ih := fun {before phdr} => @ih before phdr (List.forall_mem_cons.mp full).2
      (List.forall_mem_cons.mp addressable).2
    have uncoveredRest := (List.forall_mem_cons.mp uncovered).2
    rw [writePhdrs]
    cases pending.turn full addressable with
    | skip alloc pending =>
      rw [if_pos alloc]
      exact ih pending outside uncoveredRest m alone
    | fresh alloc full consecutive pending =>
      rw [if_neg (not_not_intro alloc), if_pos consecutive, loadHeaders_toList_append]
      have stays : ∀ p ∈ some (newPhdr sec),
          ¬(p.paddr ≤ address ∧ address < p.paddr + p.memsz) := by
        intro p member
        cases member
        exact fun inside => uncovered sec (.head _) ⟨alloc, inside⟩
      rw [ih pending stays uncoveredRest _ fun m => by
        rw [Option.toList_some, loadHeaders_single rfl]
        exact loadHeader_outside full.length_le (stays _ rfl) m]
      exact alone m
    | @joined phdr alloc full consecutive follows next bound longer =>
      rw [if_neg (not_not_intro alloc), if_neg (not_not_intro consecutive)]
      have notBefore := outside phdr rfl
      have notHere : ¬(sec.shdr.addr ≤ address ∧
          address < sec.shdr.addr + sec.shdr.size) := fun inside =>
        uncovered sec (.head _) ⟨alloc, inside⟩
      have stays : ∀ p ∈ some (phdr.accumulate sec),
          ¬(p.paddr ≤ address ∧ address < p.paddr + p.memsz) := by
        intro p member
        cases member
        rw [follows.accumulate_eq full next bound]
        dsimp only
        omega
      refine ih longer stays uncoveredRest m fun m => ?_
      rw [Option.toList_some, loadHeaders_single longer.type]
      exact loadHeader_outside longer.file (stays _ rfl) m

theorem loadHeaders_pending {k : Nat} (full : ∀ sec ∈ rest, sec.alloc = true → sec.Full)
    (addressable : Addressable rest) (follows : Follows before phdr) (inside : k < phdr.filesz)
    (uncovered : ∀ sec ∈ rest, ¬sec.Covers (phdr.paddr + k)) (m : Memory) :
    loadHeaders b (writePhdrs before rest (some phdr)) m (phdr.paddr + k) =
      b.memory (phdr.offset + k) := by
  induction rest generalizing before phdr m with
  | nil =>
    rw [writePhdrs, Option.toList_some, loadHeaders_single follows.type]
    exact loadHeader_inside follows.file inside m
  | cons sec rest ih =>
    have fullRest := (List.forall_mem_cons.mp full).2
    have addressableRest : Addressable rest := (List.forall_mem_cons.mp addressable).2
    have uncoveredRest := (List.forall_mem_cons.mp uncovered).2
    rw [writePhdrs]
    cases Pending.turn (show Pending before (some phdr) from follows) full addressable with
    | skip alloc pending =>
      rw [if_pos alloc]
      exact ih fullRest addressableRest pending inside uncoveredRest m
    | fresh alloc full consecutive pending =>
      rw [if_neg (not_not_intro alloc), if_pos consecutive, loadHeaders_toList_append,
        loadHeaders_outside fullRest addressableRest pending
          (fun p member => by
            cases member
            exact fun covers => uncovered sec (.head _) ⟨alloc, covers⟩)
          uncoveredRest, Option.toList_some, loadHeaders_single follows.type]
      exact loadHeader_inside follows.file inside m
    | joined alloc full consecutive follows next bound pending =>
      have longer : Follows _ (phdr.accumulate sec) := pending
      rw [if_neg (not_not_intro alloc), if_neg (not_not_intro consecutive), Option.map_some]
      rw [follows.accumulate_eq full next bound] at longer ⊢
      exact ih fullRest addressableRest longer
        (Nat.lt_of_lt_of_le inside (Nat.le_add_right _ _)) uncoveredRest m

end Addresses

/-- The bytes of allocated contents are 1, and those of other contents are 2. -/
def Painted (sections : List WriterSection) : Prop :=
  ∀ sec ∈ sections, ∀ byte ∈ sec.content, byte = if sec.alloc then 1 else 2

theorem exists_content {before rest : List WriterSection} {even : Bool}
    (fails : inStep before even rest = false) : ∃ sec ∈ rest, sec.content ≠ [] := by
  induction rest generalizing before even with
  | nil => cases fails
  | cons sec rest ih =>
    by_cases empty : sec.content = []
    · have later : ∃ before even, inStep before even rest = false := by
        rw [inStep, empty, List.isEmpty_nil, Bool.true_or, Bool.true_and] at fails
        split_ifs at fails
        · exact ⟨_, _, fails⟩
        · exact ⟨_, _, fails⟩
        · exact ⟨_, _, fails⟩
      obtain ⟨before, even, fails⟩ := later
      obtain ⟨found, member, some⟩ := ih fails
      exact ⟨found, List.mem_cons_of_mem _ member, some⟩
    · exact ⟨sec, (.head _), empty⟩

theorem placed_first {b : Buffer} {position : Nat} {content : List Byte}
    (stored : load b.memory position content.length = content)
    (some : content ≠ []) : b.memory position ∈ content := by
  cases content with
  | nil => exact absurd rfl some
  | cons byte rest =>
    rw [List.length_cons, load] at stored
    rw [(List.cons.inj stored).1]
    exact .head _

theorem painted_ne_zero {b : Buffer} {rest : List WriterSection} {position : Nat}
    (placed : Placed b position rest) (painted : Painted rest)
    (some : ∃ sec ∈ rest, sec.content ≠ []) : b.memory position ≠ 0 := by
  induction rest generalizing position with
  | nil =>
    obtain ⟨sec, member, -⟩ := some
    cases member
  | cons sec rest ih =>
    obtain ⟨-, stored, later⟩ := placed
    by_cases empty : sec.content = []
    · rw [empty, List.length_nil, Nat.add_zero] at later
      refine ih later (List.forall_mem_cons.mp painted).2 ?_
      obtain ⟨found, member, has⟩ := some
      rcases List.mem_cons.mp member with rfl | inRest
      · exact absurd empty has
      · exact ⟨found, inRest, has⟩
    · rw [painted sec (.head _) _ (placed_first stored empty)]
      split
      · decide
      · decide

/-- The next byte that the header would load is not the one of the memory. -/
def Wrong (b : Buffer) (target : Memory) (phdr : Phdr) : Prop :=
  b.memory (phdr.offset + phdr.filesz) ≠ target (phdr.paddr + phdr.filesz)

theorem WriterSection.Full.nobits {sec : WriterSection} (full : sec.Full)
    (uneven : sec.content.length ≠ sec.shdr.size) : sec.content = [] ∧ 0 < sec.shdr.size := by
  rcases full with ⟨-, size⟩ | ⟨-, empty⟩
  · exact absurd size uneven
  · rw [empty, List.length_nil] at uneven
    exact ⟨empty, Nat.pos_of_ne_zero (Ne.symm uneven)⟩

/-- Without the condition a byte is wrong that an allocated section or a content
of another section has in its place. -/
theorem exists_ne {b : Buffer} {target : Memory} {rest : List WriterSection}
    {before : List WriterSection} {position : Nat} {phdr : Option Phdr} {even : Bool}
    (placed : Placed b position rest) (full : ∀ sec ∈ rest, sec.alloc = true → sec.Full)
    (addressable : Addressable rest) (disjoint : Disjoint rest) (painted : Painted rest)
    (pending : Pending before phdr) (apart : ∀ p ∈ phdr, p.Apart rest)
    (small : ∀ address, target address ≠ 2)
    (zero : ∀ sec ∈ rest, sec.content = [] → ∀ address, sec.Covers address → target address = 0)
    (isEven : even = true → ∀ p ∈ phdr, Even position p)
    (isWrong : even = false → ∀ p ∈ phdr, Wrong b target p)
    (fails : inStep before even rest = false) (m : Memory) :
    ∃ address, loadHeaders b (writePhdrs before rest phdr) m address ≠ target address := by
  induction rest generalizing before position phdr even m with
  | nil => cases fails
  | cons sec rest ih =>
    obtain ⟨offset, stored, later⟩ := placed
    have fullRest := (List.forall_mem_cons.mp full).2
    have addressableRest : Addressable rest := (List.forall_mem_cons.mp addressable).2
    have paintedRest : Painted rest := (List.forall_mem_cons.mp painted).2
    have zeroRest := (List.forall_mem_cons.mp zero).2
    have apartRest : ∀ p ∈ phdr, p.Apart rest := fun p isPhdr other member =>
      apart p isPhdr other (List.mem_cons_of_mem sec member)
    obtain ⟨fromSec, disjointRest⟩ := List.pairwise_cons.mp disjoint
    have next := fun {before} {phdr} {even} => @ih before
      (position + sec.content.length) phdr even later fullRest
      addressableRest disjointRest paintedRest
    -- The first address of a section of zeros, and the byte of the file
    -- that is next.
    have wrong (alloc : sec.alloc = true) (full : sec.Full)
        (uneven : sec.content.length ≠ sec.shdr.size)
        {before even} (fails : inStep before even rest = false) :
        b.memory position ≠ target sec.shdr.addr := by
      obtain ⟨empty, some⟩ := full.nobits uneven
      rw [empty, List.length_nil, Nat.add_zero] at later
      rw [zero sec (.head _) empty sec.shdr.addr
        ⟨alloc, le_rfl, Nat.lt_add_of_pos_right some⟩]
      exact painted_ne_zero later paintedRest (exists_content fails)
    rw [inStep] at fails
    rw [writePhdrs]
    cases pending.turn full addressable with
    | skip alloc pending =>
      rw [if_pos alloc] at fails ⊢
      refine next pending apartRest zeroRest ?_ ?_ fails m
      · intro still p member
        rw [Bool.and_eq_true, List.isEmpty_iff] at still
        rw [still.2, List.length_nil, Nat.add_zero]
        exact isEven still.1 p member
      · intro lost p member
        cases even with
        | false => exact isWrong rfl p member
        | true =>
          rw [Bool.true_and, List.isEmpty_eq_false_iff] at lost
          have byte := painted sec (.head _) _ (placed_first stored lost)
          rw [if_neg alloc] at byte
          rw [Wrong, (isEven rfl p member).2, byte]
          exact (small _).symm
    | fresh alloc full consecutive pending =>
      rw [if_neg (not_not_intro alloc), if_pos consecutive] at fails ⊢
      rw [loadHeaders_toList_append]
      refine next pending
        (fun p isNew other member address low high covers => by
          cases isNew
          exact fromSec other member address ⟨⟨alloc, low, high⟩, covers⟩)
        zeroRest ?_ ?_ fails _
      · intro still p member
        cases member
        rw [decide_eq_true_eq] at still
        exact ⟨still, congrArg (· + sec.content.length) offset⟩
      · intro lost p member
        cases member
        rw [decide_eq_false_iff_not] at lost
        rw [Wrong, newPhdr]
        rw [offset, (full.nobits lost).1, List.length_nil, Nat.add_zero, Nat.add_zero]
        exact wrong alloc full lost fails
    | @joined phdr alloc full consecutive follows atEnd bound longer =>
      rw [if_neg (not_not_intro alloc), if_neg (not_not_intro consecutive)] at fails ⊢
      have equal := follows.accumulate_eq full atEnd bound
      have apartLonger : (phdr.accumulate sec).Apart rest := by
        intro other member address low high
        rw [equal] at low high
        dsimp only at low high
        by_cases old : address < phdr.paddr + phdr.memsz
        · exact apartRest phdr rfl other member address low old
        · exact fun covers => fromSec other member address ⟨⟨alloc, by omega, by omega⟩, covers⟩
      have apartNext : ∀ p ∈ some (phdr.accumulate sec), p.Apart rest := by
        intro p member
        cases member
        exact apartLonger
      rw [Option.map_some]
      by_cases empty : sec.content = []
      · rw [empty, List.isEmpty_nil, Bool.true_or, Bool.true_and] at fails
        refine next longer apartNext zeroRest ?_ ?_ fails m
        · intro still p member
          cases member
          rw [Bool.and_eq_true, decide_eq_true_eq, List.length_nil] at still
          obtain ⟨whole, behind⟩ := isEven still.1 phdr rfl
          rw [equal, Even, empty, List.length_nil]
          dsimp only
          omega
        · intro lost p member
          cases member
          rw [equal, Wrong, empty, List.length_nil]
          rw [Nat.add_zero]
          cases even with
          | false => exact isWrong rfl phdr rfl
          | true =>
            rw [Bool.true_and, decide_eq_false_iff_not] at lost
            obtain ⟨whole, behind⟩ := isEven rfl phdr rfl
            rw [behind, whole, atEnd]
            exact wrong alloc full (by rw [empty]; exact lost) fails
      · have size : sec.content.length = sec.shdr.size :=
          (full.resolve_right fun nobits => empty nobits.2).2
        cases even with
        | true =>
          rw [Bool.or_true, Bool.true_and, Bool.true_and, decide_eq_true size] at fails
          refine next longer apartNext zeroRest ?_ ?_ fails m
          · intro _ p member
            cases member
            obtain ⟨whole, behind⟩ := isEven rfl phdr rfl
            rw [equal, Even]
            dsimp only
            omega
          · intro lost
            cases lost
        | false =>
          -- The content is loaded behind the byte that is wrong.
          have positive := List.length_pos_iff.mpr empty
          have inside : phdr.filesz < (phdr.accumulate sec).filesz := by
            rw [equal]
            exact Nat.lt_add_of_pos_right positive
          have ends : (phdr.accumulate sec).filesz ≤ (phdr.accumulate sec).memsz := longer.file
          have loaded := @loadHeaders_pending b _ _ _ _ fullRest addressableRest longer inside
            (fun other member => apartLonger other member _ (Nat.le_add_right _ _) (by omega)) m
          refine ⟨(phdr.accumulate sec).paddr + phdr.filesz, ?_⟩
          rw [loaded]
          exact isWrong rfl phdr rfl

end Coreboot.ElfHeaders
