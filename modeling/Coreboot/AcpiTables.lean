import Coreboot.ByteMemory
import Mathlib.Data.BitVec

/-!
# The root tables of ACPI

The RSDT, and the XSDT if there is one, list the addresses of all tables in the same order.
-/

namespace Coreboot.AcpiTables

open ByteMemory

/-- A root table; what its header has behind the checksum is one field. -/
structure RootTable where
  signature : Vector Byte 4
  length : Nat
  revision : Byte
  checksum : Byte
  oem : Vector Byte 26
  entry : List Nat

def maxAcpiTables : Nat := 32

/-- The bytes of a table whose entries have `size` bytes. -/
def RootTable.bytes (size : Nat) (t : RootTable) : List Byte :=
  t.signature.toList ++ encodeLE 4 t.length ++ [t.revision] ++
    t.checksum :: (t.oem.toList ++ t.entry.flatMap (encodeLE size))

def acpiChecksum (table : List Byte) : Byte := -table.sum

/-- What `acpi_add_table` does with each of the root tables. -/
def RootTable.add (size i table : Nat) (t : RootTable) : RootTable :=
  let t := { t with
    entry := t.entry.set i (table % 256 ^ size)
    length := 36 + size * (i + 1)
    checksum := 0 }
  { t with checksum := acpiChecksum ((t.bytes size).take t.length) }

/-- The XSDT is optional. -/
def acpiAddTable (root : RootTable × Option RootTable) (table : Nat) :
    RootTable × Option RootTable :=
  let i := root.1.entry.findIdx (· = 0)
  if i ≥ maxAcpiTables then root else (root.1.add 4 i table, root.2.map (RootTable.add 8 i table))

/-- These tables are entered, and the other entries are free. -/
def Entered (tables : List Nat) (t : RootTable) : Prop :=
  tables.length ≤ maxAcpiTables ∧
    t.entry = tables ++ List.replicate (maxAcpiTables - tables.length) 0

/-- What an operating system reads of a table whose entries have `size` bytes. -/
structure Lists (size : Nat) (tables : List Nat) (t : RootTable) : Prop where
  entered : Entered tables t
  length : t.length = 36 + size * tables.length
  sum : ((t.bytes size).take t.length).sum = 0

/-- A property of the RSDT, and of the XSDT if there is one. -/
def Both (good : Nat → RootTable → Prop) (root : RootTable × Option RootTable) : Prop :=
  good 4 root.1 ∧ ∀ xsdt ∈ root.2, good 8 xsdt

variable {size table : Nat} {tables : List Nat} {t : RootTable}
  {root : RootTable × Option RootTable}

theorem sum_acpiChecksum (first rest : List Byte) :
    (first ++ acpiChecksum (first ++ 0 :: rest) :: rest).sum = 0 := by
  rw [acpiChecksum]
  simp only [List.sum_append, List.sum_cons]
  ring

/-- The checksum is the tenth byte of a table. -/
theorem take_bytes (size more : Nat) (t : RootTable) :
    (t.bytes size).take (10 + more) =
      t.signature.toList ++ encodeLE 4 t.length ++ [t.revision] ++
        t.checksum :: (t.oem.toList ++ t.entry.flatMap (encodeLE size)).take more := by
  have front : (t.signature.toList ++ encodeLE 4 t.length ++ [t.revision]).length = 9 := by simp
  rw [RootTable.bytes, List.take_append, front, List.take_of_length_le (by omega),
    show 10 + more - 9 = more + 1 by omega, List.take_succ_cons]

theorem lists_add (entered : Entered tables t) (room : tables.length < maxAcpiTables)
    (fits : table < 256 ^ size) :
    Lists size (tables ++ [table]) (t.add size tables.length table) where
  entered := by
    obtain ⟨free, count⟩ := Nat.exists_eq_add_of_lt room
    refine ⟨by rwa [List.length_append], ?_⟩
    rw [RootTable.add, entered.2, count, Nat.mod_eq_of_lt fits]
    simp [Nat.add_assoc, List.replicate_succ]
    omega
  length := by
    rw [List.length_append]
    rfl
  sum := by
    rw [RootTable.add]
    dsimp only
    rw [show 36 + size * (tables.length + 1) = 10 + (26 + size * (tables.length + 1)) by omega,
      take_bytes, take_bytes]
    exact sum_acpiChecksum _ _

theorem findIdx_of_entered (entered : Entered tables t) (known : 0 ∉ tables) :
    t.entry.findIdx (· = 0) = tables.length := by
  have free (count : Nat) : (List.replicate count 0).findIdx (· = 0) = 0 := by
    cases count <;> rfl
  rw [entered.2, List.findIdx_append, if_neg (by simpa using known), free, Nat.zero_add]

theorem acpiAddTable_of_entered (entered : Both (fun _ => Entered tables) root)
    (known : 0 ∉ tables) (room : tables.length < maxAcpiTables) (fits : table < 2 ^ 32) :
    Both (fun size => Lists size (tables ++ [table])) (acpiAddTable root table) := by
  obtain ⟨rsdt, xsdt⟩ := entered
  rw [acpiAddTable, findIdx_of_entered rsdt known, if_neg (by omega)]
  refine ⟨lists_add rsdt room fits, fun added member => ?_⟩
  obtain ⟨before, same, rfl⟩ := Option.mem_map.mp member
  exact lists_add (xsdt before same) room (by omega)

/-- The first 32 tables are listed, in the order in which they were added. -/
theorem lists_of_run (empty : Both (fun _ => Entered []) root) (added : List Nat)
    (some : added ≠ []) (addresses : ∀ table ∈ added, table ≠ 0 ∧ table < 2 ^ 32) :
    Both (fun size => Lists size (added.take maxAcpiTables)) (added.foldl acpiAddTable root) := by
  induction added using List.reverseRecOn with
  | nil => exact absurd rfl some
  | append_singleton before table ih =>
    obtain ⟨earlier, last⟩ := List.forall_mem_append.mp addresses
    have entered : Both (fun _ => Entered (before.take maxAcpiTables))
        (before.foldl acpiAddTable root) := by
      by_cases first : before = []
      · subst first
        exact empty
      · have lists := ih first earlier
        exact ⟨lists.1.entered, fun xsdt member => (lists.2 xsdt member).entered⟩
    have known : 0 ∉ before.take maxAcpiTables := fun member =>
      (earlier 0 (List.mem_of_mem_take member)).1 rfl
    rw [List.foldl_append, List.foldl_cons, List.foldl_nil]
    rcases Nat.lt_or_ge before.length maxAcpiTables with room | full
    · rw [List.take_of_length_le (by simp; omega)]
      rw [List.take_of_length_le room.le] at entered known
      exact acpiAddTable_of_entered entered known room (last table (List.mem_singleton_self _)).2
    · have nonempty : before ≠ [] := by
        rintro rfl
        exact absurd full (by decide)
      rw [acpiAddTable, findIdx_of_entered entered.1 known, List.length_take_of_le full,
        if_pos le_rfl, List.take_append_of_le_length full]
      exact ih nonempty earlier

def emptyTable : RootTable where
  signature := Vector.replicate 4 0
  length := 0
  revision := 1
  checksum := 0
  oem := Vector.replicate 26 0
  entry := List.replicate maxAcpiTables 0

theorem lists_of_run_twoTables :
    Both (fun size => Lists size [0x2000, 0x1000])
      ([0x2000, 0x1000].foldl acpiAddTable (emptyTable, some emptyTable)) :=
  lists_of_run ⟨⟨by decide, rfl⟩, by rintro _ ⟨⟩; exact ⟨by decide, rfl⟩⟩ [0x2000, 0x1000]
    (by decide) (by decide)

end Coreboot.AcpiTables
