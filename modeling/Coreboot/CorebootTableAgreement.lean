import Coreboot.CorebootTableReaders

/-!
# The writer and the readers of the coreboot table agree

What is written between `lb_table_init` and `lb_table_fini` is what the header says and what both
readers visit.
-/

namespace Coreboot.CorebootTable

open ByteMemory

section Properties

def finished (memory : Memory) (addr : Nat) (records : List Writes) : Memory :=
  (writeTable memory addr records).1

def headerOf (addr : Nat) : Nat := (addr + 15) / 16 * 16

def written (memory : Memory) (addr : Nat) (records : List Writes) : List (List Byte) :=
  writtenRecords memory (lbFirstRecord (headerOf addr)) records

/-- What the header says of the records, which are behind it and one behind the
other, and that both readers find its checksums right. -/
structure Described (memory : Memory) (header : Nat) (sizes : List Nat)
    (records : List (List Byte)) : Prop where
  entries : tableEntries memory header = sizes.length
  bytes : tableBytes memory header = sizes.sum
  lengths : records.map List.length = sizes
  contiguous : load memory (lbFirstRecord header) sizes.sum = records.flatten
  headerSums : ipchksum memory header headerSize = 0 ∧ ipchcksum memory header headerSize = 0
  tableSums :
    (ipchksum memory (lbFirstRecord header) (tableBytes memory header)).toNat =
        tableChecksum memory header ∧
      (ipchcksum memory (lbFirstRecord header) (tableBytes memory header)).toNat =
        tableChecksum memory header

/-- No address of a page but one is that of a header that cbmem accepts. -/
def Alone (memory : Memory) (start steps : Nat) : Prop :=
  ∀ i < 256, i ≠ steps → ¬ Accepted memory (start + 16 * i)

/-- Both readers visit some records when they are started at a table, or some
steps of 16 bytes below it.  The cbmem utility visits them first whatever else the
page holds, and nothing else if it holds no other header. -/
structure ReadAlike (memory : Memory) (header : Nat) (visits : List (List Byte)) :
    Prop where
  libpayload : ∀ width start steps len calls, start + 16 * steps = header →
    16 * steps < len →
      (∀ i < steps, load memory (start + 16 * i) 4 ≠ signature) →
        cbParseHeader width memory len (calls + 1) start = some (0, visits)
  cbmem : ∀ (maps : Nat → Nat → Bool) (size : Nat) (abort : Bool) (start steps calls : Nat),
    maps start size → start + 16 * steps = header → steps < 256 →
      Alone memory start steps → visits.length < calls →
        parseCbtable maps memory (calls + 1) start size abort = some (.returned 1 visits)
  cbmem_first : ∀ (maps : Nat → Nat → Bool) (size : Nat) (abort : Bool)
      (start steps calls : Nat) (code : Int) (seen : List (List Byte)),
    maps start size → start + 16 * steps = header → steps < 256 →
      (∀ i < steps, ¬ Accepted memory (start + 16 * i)) → visits.length < calls →
        parseCbtable maps memory (calls + 1) start size abort =
          some (.returned code seen) → visits <+: seen

/-- Both readers visit the forwarding record and then the same records when they
are started at a forwarding table, or some steps of 16 bytes below it. -/
structure ForwardedAlike (memory : Memory) (entry target : Nat)
    (visits : List (List Byte)) : Prop where
  libpayload : ∀ width start steps len calls, target < 2 ^ width →
    start + 16 * steps = entry → 16 * steps < len →
      (∀ i < steps, load memory (start + 16 * i) 4 ≠ signature) →
        cbParseHeader width memory len (calls + 2) start = some (0, forwardRecord target :: visits)
  cbmem : ∀ (maps : Nat → Nat → Bool) (size : Nat) (abort : Bool) (start steps calls : Nat),
    maps start size → maps target size ∨ maps target (size / 2) →
      start + 16 * steps = entry → steps < 256 →
        (∀ i < steps, ¬ Accepted memory (start + 16 * i)) →
          Alone memory target 0 → visits.length < calls →
            parseCbtable maps memory (calls + 2) start size abort =
              some (.returned 1 (forwardRecord target :: visits))

/-- The writer and the readers agree on a table: in every memory in which it
stands, both readers visit its records if none of them forwards, also from a
forwarding table that stands there. -/
structure Agreed (memory : Memory) (addr : Nat) (records : List Writes) :
    Prop where
  header : (writeTable memory addr records).2.1 = headerOf addr
  described : Described (finished memory addr records) (headerOf addr)
    (records.map Writes.size) (written memory addr records)
  unchanged : SameOutside memory (finished memory addr records) (headerOf addr)
    (lbFirstRecord (headerOf addr) + totalSize records)
  read : Plain (written memory addr records) → ∀ later : Memory,
    load later (headerOf addr) (headerSize + totalSize records) =
        load (finished memory addr records) (headerOf addr) (headerSize + totalSize records) →
      ReadAlike later (headerOf addr) (written memory addr records) ∧
        ∀ (before : Memory) (entry : Nat), headerOf addr < 2 ^ 64 →
          load later (headerOf entry) (headerSize + 16) =
              load (writeCorebootForwardingTable before entry (headerOf addr)).1
                (headerOf entry) (headerSize + 16) →
            ForwardedAlike later (headerOf entry) (headerOf addr) (written memory addr records)

end Properties

section Agreement

variable {memory : Memory} {addr : Nat} {records : List Writes}

theorem readable_finished (memory : Memory) (addr : Nat) {records : List Writes}
    (proper : ∀ writes ∈ records, writes.Proper) (small : totalSize records < 65536) :
    Readable (finished memory addr records) (headerOf addr) (written memory addr records) := by
  obtain ⟨-, table, -⟩ := writeTable_spec memory addr proper small
  exact
    { table := table
      areRecords := fun _ member => isRecord_of_mem_writtenRecords proper member
      small := by rwa [written, length_flatten_writtenRecords] }

theorem map_length_writtenRecords (records : List Writes) (record : Nat) :
    (writtenRecords memory record records).map List.length = records.map Writes.size := by
  induction records generalizing record with
  | nil => rfl
  | cons writes rest ih =>
    rw [writtenRecords, List.map_cons, List.map_cons, ih, Writes.length_bytes]

theorem described_of_readable {header : Nat} {visits : List (List Byte)}
    (readable : Readable memory header visits) :
    Described memory header (visits.map List.length) visits := by
  have total : (visits.map List.length).sum = visits.flatten.length := List.length_flatten.symm
  have even := dvd_length_flatten readable.areRecords
  obtain ⟨headerSum, tableSum⟩ := readable.ipchksum
  obtain ⟨-, -, cbmemSum, cbmemTable⟩ := readable.accepted
  rw [readable.table.headerBytes] at cbmemTable
  exact
    { entries := by rw [readable.table.tableEntries, List.length_map]
      bytes := by rw [readable.table.tableBytes, total]
      lengths := rfl
      contiguous := by
        rw [total]
        exact readable.table.content
      headerSums := ⟨headerSum, cbmemSum⟩
      tableSums := ⟨tableSum, cbmemTable⟩ }

theorem agreed (memory : Memory) (addr : Nat) {records : List Writes}
    (proper : ∀ writes ∈ records, writes.Proper)
    (small : totalSize records < 65536) : Agreed memory addr records := by
  obtain ⟨header, -, unchanged, -⟩ := writeTable_spec memory addr proper small
  have readable := readable_finished memory addr proper small
  have length : (written memory addr records).flatten.length = totalSize records :=
    length_flatten_writtenRecords records _
  exact
    { header := header
      described := by
        have described := described_of_readable readable
        rwa [written, map_length_writtenRecords] at described
      unchanged := unchanged
      read := fun plain later stands => by
        have stillReadable : Readable later (headerOf addr) (written memory addr records) :=
          readable.of_load (by rwa [length])
        refine ⟨?_, fun before entry wide forwards => ?_⟩
        · exact
            { libpayload := fun width _ _ _ calls distance within first =>
                stillReadable.cbParseHeader plain distance within first width calls
              cbmem := fun _ _ abort _ _ _ mapped distance within alone enough =>
                stillReadable.parseCbtable plain mapped distance within alone enough abort
              cbmem_first := fun _ _ _ _ _ _ _ _ mapped distance within first enough parsed =>
                stillReadable.prefix_parseCbtable plain mapped distance within first enough parsed }
        · have single : totalSize [lbForward (headerOf addr)] = 16 := by
            rw [totalSize_singleton, size_lbForward]
          have record : written before entry [lbForward (headerOf addr)] =
              [forwardRecord (headerOf addr)] :=
            congrArg (fun bytes => [bytes]) (bytes_lbForward _ _ _)
          have forwarding := @readable_finished before entry [lbForward (headerOf addr)]
            (fun writes member => by
              rw [List.mem_singleton.mp member]
              exact proper_lbForward _)
            (by rw [single]; decide)
          rw [record] at forwarding
          have stillForwarding : Readable later (headerOf entry)
              [forwardRecord (headerOf addr)] := forwarding.of_load forwards
          exact
            { libpayload := fun width _ _ _ calls addressable distance within first =>
                cbParseHeader_forward stillForwarding stillReadable plain wide
                  addressable distance within first calls
              cbmem := fun _ _ abort _ _ _ mapped mappedTarget distance within first alone enough =>
                parseCbtable_forward stillForwarding stillReadable plain wide mapped
                  mappedTarget distance within first alone enough abort } }

theorem proper_nil : Writes.Proper [] where
  minimal := by decide
  aligned := by decide
  covers := nofun

theorem agreed_emptyRecords : Agreed (fun _ => 0) 0x1008 [[], []] :=
  agreed (fun _ => 0) 0x1008
    (fun writes member => by
      rcases List.mem_cons.mp member with rfl | last
      · exact proper_nil
      · rw [List.mem_singleton.mp last]
        exact proper_nil)
    (by decide)

end Agreement

def innerTable : List Byte :=
  signature ++ encodeLE 4 24 ++ encodeLE 4 28241 ++ encodeLE 4 8 ++
    encodeLE 4 65527 ++ encodeLE 4 1 ++ (encodeLE 4 lbTagUnused ++ encodeLE 4 8)

def outerRecord : Writes := [(4, encodeLE 4 40), (8, innerTable)]

theorem proper_outerRecord : outerRecord.Proper where
  minimal := by decide +kernel
  aligned := by decide +kernel
  covers := by decide +kernel

/-- The cbmem utility does not visit exactly the records that were written: it visits
the record of the table in a record, too. -/
theorem not_visits_exactly :
    ¬ ∀ (memory : Memory) (addr : Nat) (records : List Writes),
      (∀ writes ∈ records, writes.Proper) → totalSize records < 65536 →
        Plain (written memory addr records) →
          ∀ calls, records.length < calls →
            parseCbtable (fun _ _ => true) (finished memory addr records) (calls + 1)
                (headerOf addr) 0x100000 true =
              some (.returned 1 (written memory addr records)) := by
  intro claim
  have exactly := claim (fun _ => 0) 0x1000 [outerRecord]
    (fun writes member => by
      rw [List.mem_singleton.mp member]
      exact proper_outerRecord)
    (by decide +kernel) (by decide +kernel) 7 (by decide)
  revert exactly
  decide +kernel

end Coreboot.CorebootTable
