import Coreboot.CorebootTableWriter
import Mathlib.Data.List.Infix

/-!
# The readers of the coreboot table

Both readers accept a finished table and visit its records in order, the one by their number and
the other by their size.
-/

namespace Coreboot.CorebootTable

open ByteMemory OnesComplementSum

section Walks

variable {memory : Memory} {records : List (List Byte)} {base : Nat}

theorem first_of_content {bytes : List Byte} (isRecord : IsRecord bytes)
    (content : load memory base (bytes :: records).flatten.length = (bytes :: records).flatten) :
    load memory base bytes.length = bytes ∧
      recordSize memory base = bytes.length ∧ recordTag memory base = tagOf bytes ∧
        load memory (base + bytes.length) records.flatten.length = records.flatten := by
  rw [List.flatten_cons, List.length_append, load_append] at content
  obtain ⟨first, later⟩ := List.append_inj content (length_load _ _ _)
  obtain ⟨rest, parts⟩ := Nat.exists_eq_add_of_le isRecord.minimal
  refine ⟨first, ?_, ?_, later⟩
  · have size := isRecord.size
    rw [← first, length_load, parts, show 8 + rest = 4 + 4 + rest from rfl, take_drop_load] at size
    rw [parts]
    exact size
  · have start : bytes.take 4 = load memory base 4 := by
      have whole := take_drop_load memory base 0 4 (4 + rest)
      rw [show 0 + 4 + (4 + rest) = bytes.length by omega, first] at whole
      exact whole
    rw [tagOf, start]
    rfl

def Plain (records : List (List Byte)) : Prop := ∀ bytes ∈ records, tagOf bytes ≠ lbTagForward

instance (records : List (List Byte)) : Decidable (Plain records) :=
  inferInstanceAs (Decidable (∀ bytes ∈ records, _))

theorem walkEntries_eq (areRecords : ∀ bytes ∈ records, IsRecord bytes) (plain : Plain records)
    (content : load memory base records.flatten.length = records.flatten) :
    walkEntries memory records.length base = (records, none) := by
  induction records generalizing base with
  | nil => rfl
  | cons bytes rest ih =>
    obtain ⟨first, size, tag, later⟩ :=
      first_of_content (areRecords bytes (.head _)) content
    have walked := ih (List.forall_mem_cons.mp areRecords).2 (List.forall_mem_cons.mp plain).2 later
    rw [List.length_cons, walkEntries, size, tag, first,
      if_neg (plain bytes (.head _)), walked]

theorem walkBytes_eq {table total j turns : Nat}
    (areRecords : ∀ bytes ∈ records, IsRecord bytes) (plain : Plain records)
    (content : load memory (table + j) records.flatten.length = records.flatten)
    (remaining : j + records.flatten.length = total) (small : total < 65536)
    (enough : records.length < turns) :
    walkBytes memory table total turns j = some (records, none) := by
  induction records generalizing j turns with
  | nil =>
    obtain ⟨turns, rfl⟩ := Nat.exists_eq_add_of_lt enough
    have done : ¬ j < total := by
      rw [List.flatten_nil, List.length_nil] at remaining
      omega
    rw [walkBytes, if_neg done]
  | cons bytes rest ih =>
    obtain ⟨turns, rfl⟩ := Nat.exists_eq_add_of_lt enough
    have isRecord := areRecords bytes (.head _)
    have minimal := isRecord.minimal
    obtain ⟨first, size, tag, later⟩ := first_of_content isRecord content
    rw [List.flatten_cons, List.length_append] at remaining
    have walked := @ih (j + bytes.length) (rest.length + 1 + turns)
      (List.forall_mem_cons.mp areRecords).2 (List.forall_mem_cons.mp plain).2
      (by rwa [← Nat.add_assoc]) (by omega) (by omega)
    have wrapped : (j + bytes.length) % 2 ^ 32 = j + bytes.length := Nat.mod_eq_of_lt (by omega)
    rw [List.length_cons, walkBytes, if_pos (by omega), size, tag, first,
      if_neg (plain bytes (.head _)), wrapped, walked]
    rfl

end Walks

variable {maps : Nat → Nat → Bool} {calls : Nat}

section Tables

variable {memory : Memory} {header : Nat} {records : List (List Byte)}

structure Readable (memory : Memory) (header : Nat) (records : List (List Byte)) :
    Prop where
  table : TableAt memory header records
  areRecords : ∀ bytes ∈ records, IsRecord bytes
  small : records.flatten.length < 65536

theorem Readable.of_load {other : Memory} (readable : Readable memory header records)
    (same : load other header (headerSize + records.flatten.length) =
      load memory header (headerSize + records.flatten.length)) :
    Readable other header records := by
  have bytes := load_eq_load_iff.mp same
  have size : headerSize = 24 := rfl
  have part : ∀ {offset count : Nat},
      offset + count ≤ headerSize + records.flatten.length →
        load other (header + offset) count = load memory (header + offset) count :=
    fun inside => load_translate fun i below => by
      rw [Nat.add_assoc]
      exact bytes _ (by omega)
  have field : ∀ {offset : Nat}, offset + 4 ≤ 24 →
      readLE 4 other (header + offset) = readLE 4 memory (header + offset) :=
    fun inside => congrArg decodeLE (part (by omega))
  have table := readable.table
  have start : ∀ {count : Nat}, count ≤ 24 → load other header count = load memory header count :=
    fun inside => @part 0 _ (by omega)
  have content : load other (lbFirstRecord header) records.flatten.length =
      load memory (lbFirstRecord header) records.flatten.length :=
    part (by omega)
  exact
    { table :=
        { signed := (start (by omega)).trans table.signed
          headerBytes := (field (by omega)).trans table.headerBytes
          tableEntries := (field (by omega)).trans table.tableEntries
          tableBytes := (field (by omega)).trans table.tableBytes
          headerSum := by
            rw [size, start le_rfl]
            exact table.headerSum
          tableChecksum := by
            rw [computeIpChecksum_eq, content, ← computeIpChecksum_eq]
            exact (field (by omega)).trans table.tableChecksum
          content := content.trans table.content }
      areRecords := readable.areRecords
      small := readable.small }

theorem dvd_length_flatten (areRecords : ∀ bytes ∈ records, IsRecord bytes) :
    2 ∣ records.flatten.length := by
  induction records with
  | nil => exact Nat.dvd_zero 2
  | cons bytes rest ih =>
    have first := (areRecords bytes (.head _)).aligned
    have later := ih (List.forall_mem_cons.mp areRecords).2
    rw [List.flatten_cons, List.length_append]
    omega

section

variable (readable : Readable memory header records)
include readable

theorem Readable.ipchksum :
    ipchksum memory header headerSize = 0 ∧
      (ipchksum memory (header + headerSize) (tableBytes memory header)).toNat =
        tableChecksum memory header := by
  constructor
  · apply BitVec.eq_of_toNat_eq
    rw [ipchksum_eq (by decide), readable.table.headerSum]
    rfl
  · rw [readable.table.tableBytes, ipchksum_eq_computeIpChecksum readable.small,
      readable.table.tableChecksum]
    rfl

theorem Readable.accepted : Accepted memory header := by
  have table := readable.table
  refine ⟨table.signed, ?_, ?_, ?_⟩
  · rw [table.headerBytes]
    decide
  · apply BitVec.eq_of_toNat_eq
    rw [ipchcksum_eq (by decide) (by decide), table.headerSum]
    rfl
  · rw [table.headerBytes, table.tableBytes,
      ipchcksum_eq_computeIpChecksum readable.small (dvd_length_flatten readable.areRecords),
      table.tableChecksum]
    rfl

theorem Readable.walkEntries (plain : Plain records) :
    walkEntries memory (tableEntries memory header)
      (header + headerBytes memory header) = (records, none) := by
  rw [readable.table.tableEntries, readable.table.headerBytes]
  exact walkEntries_eq readable.areRecords plain readable.table.content

theorem Readable.walkBytes (plain : Plain records) {turns : Nat} (enough : records.length < turns) :
    walkBytes memory (header + headerBytes memory header) (tableBytes memory header)
      turns 0 = some (records, none) := by
  rw [readable.table.tableBytes, readable.table.headerBytes]
  exact walkBytes_eq readable.areRecords plain readable.table.content
    (Nat.zero_add _) readable.small enough

end

variable {start steps : Nat} {walk : Nat → Option (List (List Byte) × Option Nat)}

theorem findHeader_eq {len : Nat} (distance : start + 16 * steps = header)
    (within : 16 * steps < len) (signed : load memory header 4 = signature)
    (first : ∀ i < steps, load memory (start + 16 * i) 4 ≠ signature) :
    findHeader memory start len = some header := by
  have found : (List.range ((len + 15) / 16)).find?
      ((fun address => load memory address 4 == signature) ∘
        fun i => start + 16 * i) = some steps := by
    rw [List.find?_range_eq_some]
    refine ⟨?_, List.mem_range.mpr (by omega), fun i before => ?_⟩
    · rw [Function.comp_apply, distance, signed]
      rfl
    · rw [Function.comp_apply]
      simp [first i before]
  rw [findHeader, List.find?_map, found, Option.map_some, distance]

theorem Readable.cbParseHeader (readable : Readable memory header records) (plain : Plain records)
    {len : Nat} (distance : start + 16 * steps = header) (within : 16 * steps < len)
    (first : ∀ i < steps, load memory (start + 16 * i) 4 ≠ signature) (width calls : Nat) :
    cbParseHeader width memory len (calls + 1) start = some (0, records) := by
  have found := findHeader_eq distance within readable.table.signed first
  obtain ⟨headerSum, tableSum⟩ := readable.ipchksum
  rw [CorebootTable.cbParseHeader, found]
  dsimp only
  rw [if_neg (not_not.mpr headerSum)]
  by_cases empty : tableBytes memory header = 0
  · rw [if_pos empty]
    rw [readable.table.tableBytes] at empty
    cases records with
    | nil => rfl
    | cons bytes rest =>
      have minimal := (readable.areRecords bytes (.head _)).minimal
      rw [List.flatten_cons, List.length_append] at empty
      omega
  · rw [if_neg empty, if_neg (not_not.mpr tableSum), readable.walkEntries plain]

theorem parsePage_append {parse : Nat → Option Ending} {headers : List Nat}
    (refused : ∀ other ∈ headers, ¬ Accepted memory other) (rest : List Nat)
    (found : Int) (visits : List (List Byte)) :
    parsePage memory walk parse (headers ++ rest) found visits =
      parsePage memory walk parse rest found visits := by
  induction headers with
  | nil => rfl
  | cons other headers ih =>
    rw [List.cons_append, parsePage, if_neg (refused other (.head _))]
    exact ih (List.forall_mem_cons.mp refused).2

theorem page_eq (within : steps < 256) (start : Nat) :
    page start = (List.range steps).map (fun i => start + 16 * i) ++
      (start + 16 * steps) ::
        (List.range (255 - steps)).map (fun i => start + 16 * (steps + 1 + i)) := by
  have parts : 256 = steps + (255 - steps + 1) := by omega
  rw [page, parts, List.range_add, List.map_append, List.range_succ_eq_map]
  simp [Function.comp_def, Nat.add_assoc, Nat.add_comm 1]

theorem Readable.parseCbtable (readable : Readable memory header records) (plain : Plain records)
    {size : Nat} (mapped : maps start size)
    (distance : start + 16 * steps = header) (within : steps < 256)
    (alone : ∀ i < 256, i ≠ steps → ¬ Accepted memory (start + 16 * i))
    (enough : records.length < calls) (abort : Bool) :
    parseCbtable maps memory (calls + 1) start size abort = some (.returned 1 records) := by
  have refused : ∀ other ∈ (List.range (255 - steps)).map
      (fun i => start + 16 * (steps + 1 + i)), ¬ Accepted memory other := by
    intro other among
    obtain ⟨i, below, rfl⟩ := List.mem_map.mp among
    have bound := List.mem_range.mp below
    exact alone (steps + 1 + i) (by omega) (by omega)
  rw [CorebootTable.parseCbtable, if_pos mapped, page_eq within, parsePage_append,
    distance, parsePage, if_pos readable.accepted, readable.walkBytes plain enough]
  · dsimp only
    rw [← List.append_nil (List.map _ (List.range (255 - steps))),
      parsePage_append refused, parsePage, List.nil_append]
  · intro other among
    obtain ⟨i, below, rfl⟩ := List.mem_map.mp among
    have bound := List.mem_range.mp below
    exact alone i (by omega) (by omega)

theorem prefix_of_parsePage {parse : Nat → Option Ending} {headers : List Nat} {found code : Int}
    {visits seen : List (List Byte)}
    (parsed : parsePage memory walk parse headers found visits = some (.returned code seen)) :
    visits <+: seen := by
  induction headers generalizing found visits with
  | nil =>
    obtain ⟨-, rfl⟩ := Ending.returned.inj (Option.some.inj parsed)
    exact List.prefix_rfl
  | cons other headers ih =>
    rw [parsePage] at parsed
    by_cases accepted : Accepted memory other
    · rw [if_pos accepted] at parsed
      rcases walked : walk other with _ | ⟨records, _ | forward⟩
      · rw [walked] at parsed
        cases parsed
      · rw [walked] at parsed
        exact (List.prefix_append visits records).trans (ih parsed)
      · rw [walked] at parsed
        obtain ⟨ending, -, after⟩ := Option.map_eq_some_iff.mp parsed
        cases ending with
        | exited => cases after
        | returned code later =>
          obtain ⟨-, rfl⟩ := Ending.returned.inj after
          exact (List.prefix_append visits records).trans (List.prefix_append _ later)
    · rw [if_neg accepted] at parsed
      exact ih parsed

theorem Readable.prefix_parseCbtable (readable : Readable memory header records)
    (plain : Plain records) {size : Nat} (mapped : maps start size)
    (distance : start + 16 * steps = header) (within : steps < 256)
    (first : ∀ i < steps, ¬ Accepted memory (start + 16 * i))
    (enough : records.length < calls) {abort : Bool} {code : Int} {visits : List (List Byte)}
    (parsed : CorebootTable.parseCbtable maps memory (calls + 1) start size abort =
      some (.returned code visits)) : records <+: visits := by
  rw [CorebootTable.parseCbtable, if_pos mapped, page_eq within, parsePage_append,
    distance, parsePage, if_pos readable.accepted, readable.walkBytes plain enough]
    at parsed
  · exact prefix_of_parsePage parsed
  · intro other among
    obtain ⟨i, below, rfl⟩ := List.mem_map.mp among
    exact first i (List.mem_range.mp below)

end Tables

section Forwarding

variable {memory : Memory} {header target : Nat} {records : List (List Byte)}

def forwardRecord (target : Nat) : List Byte :=
  encodeLE 4 lbTagForward ++ (encodeLE 4 16 ++ encodeLE 8 target)

theorem load_lbForward (memory : Memory) (record target : Nat) :
    load ((fresh ++ lbForward target).apply memory record) record 16 = forwardRecord target := by
  have second := store_store_append (fresh.apply memory record) record
    (encodeLE 4 lbTagForward) (encodeLE 4 16)
  have third := store_store_append (fresh.apply memory record) record
    (encodeLE 4 lbTagForward ++ encodeLE 4 16) (encodeLE 8 target)
  rw [← second, List.append_assoc] at third
  have stored : (fresh ++ lbForward target).apply memory record =
      store (fresh.apply memory record) record (forwardRecord target) := by
    rw [Writes.apply_append]
    exact third
  rw [stored]
  exact load_store_self _ record (forwardRecord target)

theorem size_lbForward (target : Nat) : (lbForward target).size = 16 := by
  have part := take_drop_load ((fresh ++ lbForward target).apply (fun _ => 0) 0) 0 4 4 8
  rw [load_lbForward] at part
  exact (congrArg decodeLE part.symm).trans (by rfl)

theorem bytes_lbForward (memory : Memory) (record target : Nat) :
    (lbForward target).bytes memory record = forwardRecord target := by
  rw [Writes.bytes, size_lbForward, load_lbForward]

theorem proper_lbForward (target : Nat) : (lbForward target).Proper where
  minimal := by
    rw [size_lbForward]
    decide
  aligned := by
    rw [size_lbForward]
    decide
  covers := by
    rw [size_lbForward]
    simp [lbForward]

theorem forwards_of_readable (readable : Readable memory header [forwardRecord target])
    (wide : target < 2 ^ 64) :
    load memory (lbFirstRecord header) 16 = forwardRecord target ∧
      recordSize memory (lbFirstRecord header) = 16 ∧
        recordTag memory (lbFirstRecord header) = lbTagForward ∧
          forwardTo memory (lbFirstRecord header) = target := by
  obtain ⟨first, size, tag, -⟩ := first_of_content
    (readable.areRecords _ (.head _)) readable.table.content
  refine ⟨first, size, tag.trans (by rfl), ?_⟩
  have part := take_drop_load memory (lbFirstRecord header) 8 8 0
  have whole : load memory (lbFirstRecord header) (8 + 8 + 0) = forwardRecord target := first
  rw [whole] at part
  rw [forwardTo, readLE, ← part]
  exact (decodeLE_encodeLE 8 target).trans (Nat.mod_eq_of_lt wide)

theorem cbParseHeader_forward {entry : Nat}
    (forwarding : Readable memory entry [forwardRecord target])
    (readable : Readable memory target records) (plain : Plain records)
    {width start steps len : Nat} (wide : target < 2 ^ 64) (addressable : target < 2 ^ width)
    (distance : start + 16 * steps = entry) (within : 16 * steps < len)
    (first : ∀ i < steps, load memory (start + 16 * i) 4 ≠ signature) (calls : Nat) :
    cbParseHeader width memory len (calls + 2) start =
      some (0, forwardRecord target :: records) := by
  have found := findHeader_eq distance within forwarding.table.signed first
  obtain ⟨headerSum, tableSum⟩ := forwarding.ipchksum
  obtain ⟨bytes, size, tag, forward⟩ := forwards_of_readable forwarding wide
  have filled : tableBytes memory entry ≠ 0 := by
    rw [forwarding.table.tableBytes]
    exact Nat.succ_ne_zero 15
  have walked : walkEntries memory (tableEntries memory entry)
      (entry + headerBytes memory entry) = ([forwardRecord target], some target) := by
    rw [forwarding.table.tableEntries, forwarding.table.headerBytes, List.length_singleton]
    change walkEntries memory (0 + 1) (lbFirstRecord entry) = _
    rw [walkEntries, size, if_pos tag, bytes, forward]
  have later := readable.cbParseHeader plain (Nat.add_zero target)
    (Nat.lt_of_le_of_lt (Nat.zero_le _) within)
    (fun i below => absurd below (Nat.not_lt_zero i)) width calls
  rw [CorebootTable.cbParseHeader, found]
  dsimp only
  rw [if_neg (not_not.mpr headerSum), if_neg filled, if_neg (not_not.mpr tableSum), walked]
  dsimp only
  rw [Nat.mod_eq_of_lt addressable, later]
  rfl

theorem parseCbtable_forward {entry : Nat}
    (forwarding : Readable memory entry [forwardRecord target])
    (readable : Readable memory target records) (plain : Plain records)
    {start steps size : Nat} (wide : target < 2 ^ 64) (mapped : maps start size)
    (mappedTarget : maps target size ∨ maps target (size / 2))
    (distance : start + 16 * steps = entry) (within : steps < 256)
    (first : ∀ i < steps, ¬ Accepted memory (start + 16 * i))
    (alone : ∀ i < 256, i ≠ 0 → ¬ Accepted memory (target + 16 * i))
    (enough : records.length < calls) (abort : Bool) :
    parseCbtable maps memory (calls + 2) start size abort =
      some (.returned 1 (forwardRecord target :: records)) := by
  obtain ⟨bytes, length, tag, forward⟩ := forwards_of_readable forwarding wide
  have total : [forwardRecord target].flatten.length = 16 := rfl
  have base : entry + headerSize = lbFirstRecord entry := rfl
  have walked : walkBytes memory (entry + headerBytes memory entry)
      (tableBytes memory entry) (calls + 1) 0 = some ([forwardRecord target], some target) := by
    rw [forwarding.table.tableBytes, forwarding.table.headerBytes, total, walkBytes,
      if_pos (by decide), Nat.add_zero, base]
    rw [if_pos tag, length, bytes, forward]
  have parsed : ∀ {smaller : Nat} (again : Bool), maps target smaller →
      parseCbtable maps memory (calls + 1) target smaller again =
        some (.returned 1 records) := fun again mapped =>
    readable.parseCbtable plain mapped (Nat.add_zero target) (by decide) alone enough again
  rw [parseCbtable, if_pos mapped, page_eq within, parsePage_append, distance,
    parsePage, if_pos forwarding.accepted, walked]
  · dsimp only
    by_cases large : maps target size
    · rw [parsed false large]
      rfl
    · have failed : parseCbtable maps memory (calls + 1) target size false =
          some (.returned (-2) []) := by
        rw [parseCbtable, if_neg large, if_neg Bool.false_ne_true]
      rw [failed, parsed true (mappedTarget.resolve_left large)]
      rfl
  · intro other among
    obtain ⟨i, below, rfl⟩ := List.mem_map.mp among
    exact first i (List.mem_range.mp below)

end Forwarding

end Coreboot.CorebootTable
