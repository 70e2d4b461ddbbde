import Coreboot.CorebootTable
import Coreboot.OnesComplementSum

/-!
# A finished coreboot table

The three checksum routines agree on every byte string below 64 KiB, up to the odd byte that one
of them leaves out.
-/

namespace Coreboot.CorebootTable

open ByteMemory OnesComplementSum

section Checksums

variable {memory : Memory} {addr : Nat}

variable {sum : Nat}

theorem addByte_eq (small : sum ≤ 65535) (index : Nat) (byte : Byte) :
    addByte sum index byte =
      fold (sum + (if index % 2 = 1 then byte.toNat * 256 else byte.toNat)) := by
  have bound : (if index % 2 = 1 then byte.toNat * 256 else byte.toNat) ≤ 65280 := by
    have lt := byte.isLt
    split_ifs <;> omega
  rw [addByte]
  revert bound
  generalize (if index % 2 = 1 then byte.toNat * 256 else byte.toNat) = v
  intro bound
  by_cases carries : sum + v > 0xffff
  · have carry : (sum + v) / 65536 ≤ 1 := by omega
    rw [if_pos carries, fold_of_carry carries (by omega)]
    omega
  · rw [if_neg carries, fold_of_le (by omega)]

theorem sumBytes_eq (length : Nat) :
    sumBytes memory addr length = fold (wordSum (load memory addr length)) := by
  induction length with
  | zero => rfl
  | succ length ih =>
    rw [sumBytes, ih, addByte_eq (fold_le _), fold_fold_add, wordSum_load_succ]

theorem computeIpChecksum_eq (length : Nat) :
    computeIpChecksum memory addr length = 65535 - fold (wordSum (load memory addr length)) := by
  rw [computeIpChecksum, sumBytes_eq]

theorem sumWords_eq (count : Nat) :
    sumWords memory addr count = BitVec.ofNat 32 (wordSum (load memory addr (2 * count))) := by
  induction count with
  | zero => rfl
  | succ count ih =>
    have even : 2 ∣ (load memory addr (2 * count)).length := by
      rw [length_load]
      exact Nat.dvd_mul_right 2 count
    rw [sumWords, ih, Nat.mul_succ, load_append, wordSum_append even, BitVec.ofNat_add]
    rfl

theorem toNat_foldedOnce (small : sum < 2 ^ 31) :
    (BitVec.ofNat 32 sum >>> 16 + (BitVec.ofNat 32 sum &&& 0xffff#32)).toNat =
      sum / 65536 + sum % 65536 := by
  have low : (BitVec.ofNat 32 sum &&& 0xffff#32).toNat = sum % 65536 := by
    rw [BitVec.toNat_and, BitVec.toNat_ofNat, Nat.mod_eq_of_lt (by omega)]
    exact Nat.and_two_pow_sub_one_eq_mod sum 16
  have high : (BitVec.ofNat 32 sum >>> 16).toNat = sum / 65536 := by
    rw [BitVec.toNat_ushiftRight, BitVec.toNat_ofNat, Nat.mod_eq_of_lt (by omega),
      Nat.shiftRight_eq_div_pow]
  rw [BitVec.toNat_add, high, low, Nat.mod_eq_of_lt (by omega)]

theorem toNat_complement (small : sum < 2 ^ 31) {folded : BitVec 32}
    (once : folded.toNat = sum / 65536 + sum % 65536) :
    ((~~~ (folded + folded >>> 16)).setWidth 16).toNat = 65535 - fold sum := by
  rw [BitVec.toNat_setWidth, BitVec.toNat_not, ← fold_eq_twice small,
    BitVec.toNat_add, BitVec.toNat_ushiftRight, once, Nat.shiftRight_eq_div_pow]
  omega

theorem sshiftRight_eq {sum : BitVec 32} (small : sum.toNat < 2 ^ 31) :
    sum.sshiftRight 16 = sum >>> 16 := by
  apply BitVec.sshiftRight_eq_of_msb_false
  rw [BitVec.msb_eq_false_iff_two_mul_lt]
  omega

theorem wordSum_load_lt {length : Nat} (small : length < 65536) :
    wordSum (load memory addr length) < 2 ^ 31 := by
  have bound := wordSum_le (load memory addr length)
  rw [length_load] at bound
  omega

theorem ipchksum_eq {nbytes : Nat} (small : nbytes < 65536) :
    (ipchksum memory addr nbytes).toNat = 65535 - fold (wordSum (load memory addr nbytes)) := by
  have bound := @wordSum_load_lt memory addr nbytes small
  have sum : (if nbytes % 2 = 1 then
        sumWords memory addr (nbytes / 2) + BitVec.ofNat 32 (memory (addr + (nbytes - 1))).toNat
      else sumWords memory addr (nbytes / 2)) =
        BitVec.ofNat 32 (wordSum (load memory addr nbytes)) := by
    rw [sumWords_eq]
    by_cases odd : nbytes % 2 = 1
    · have parts : nbytes = 2 * (nbytes / 2) + 1 := by omega
      have last : nbytes - 1 = 2 * (nbytes / 2) := by omega
      rw [if_pos odd, last, ← BitVec.ofNat_add]
      conv_rhs => rw [parts, wordSum_load_succ, if_neg (by omega)]
    · have parts : 2 * (nbytes / 2) = nbytes := by omega
      rw [if_neg odd, parts]
  have once := toNat_foldedOnce bound
  have first := @sshiftRight_eq (BitVec.ofNat 32 (wordSum (load memory addr nbytes)))
    (by rwa [BitVec.toNat_ofNat, Nat.mod_eq_of_lt (by omega)])
  rw [ipchksum, sum, first, sshiftRight_eq (by rw [once]; omega)]
  exact toNat_complement bound once

theorem ipchcksum_eq {size : Nat} (small : size < 65536) (even : 2 ∣ size) :
    (ipchcksum memory addr size).toNat = 65535 - fold (wordSum (load memory addr size)) := by
  have bound := @wordSum_load_lt memory addr size small
  have mask : ∀ word : BitVec 32, (word &&& 0xffff#32).setWidth 16 = word.setWidth 16 := by
    intro word
    apply BitVec.eq_of_toNat_eq
    rw [BitVec.toNat_setWidth, BitVec.toNat_setWidth, BitVec.toNat_and]
    exact (congrArg (· % 2 ^ 16) (Nat.and_two_pow_sub_one_eq_mod word.toNat 16)).trans
      (Nat.mod_mod _ _)
  rw [ipchcksum, sumWords_eq, Nat.mul_div_cancel' even, mask]
  exact toNat_complement bound (toNat_foldedOnce bound)

theorem ipchksum_eq_computeIpChecksum {nbytes : Nat} (small : nbytes < 65536) :
    (ipchksum memory addr nbytes).toNat = computeIpChecksum memory addr nbytes := by
  rw [ipchksum_eq small, computeIpChecksum_eq]

theorem ipchcksum_eq_computeIpChecksum {size : Nat} (small : size < 65536) (even : 2 ∣ size) :
    (ipchcksum memory addr size).toNat = computeIpChecksum memory addr size := by
  rw [ipchcksum_eq small even, computeIpChecksum_eq]

theorem fold_wordSum_of_complement {before zeros field after : List Byte}
    (even : 2 ∣ before.length) (evenZeros : 2 ∣ zeros.length) (evenField : 2 ∣ field.length)
    (none : wordSum zeros = 0) (filled : wordSum (before ++ (zeros ++ after)) ≠ 0)
    (complement : wordSum field = 65535 - fold (wordSum (before ++ (zeros ++ after)))) :
    fold (wordSum (before ++ (field ++ after))) = 65535 := by
  have sum : wordSum (before ++ (zeros ++ after)) = wordSum before + wordSum after := by
    rw [wordSum_append even, wordSum_append evenZeros, none, Nat.zero_add]
  rw [sum] at filled complement
  rw [wordSum_append even, wordSum_append evenField, complement]
  rw [Nat.add_left_comm, Nat.add_comm _ (wordSum before + wordSum after)]
  exact fold_add_complement filled

end Checksums

section Records

variable {memory : Memory} {record : Nat} {writes : Writes} {first second : Memory}

def fresh : Writes := [(0, encodeLE 4 lbTagUnused), (4, encodeLE 4 8)]

def Writes.size (writes : Writes) : Nat := recordSize ((fresh ++ writes).apply (fun _ => 0) 0) 0

/-- The size of a record is right: it is that of a record, and covers everything
that is written. -/
structure Writes.Proper (writes : Writes) : Prop where
  minimal : 8 ≤ writes.size
  aligned : 4 ∣ writes.size
  covers : ∀ write ∈ writes, write.1 + write.2.length ≤ writes.size

/-- The bytes of a record at the end; where nothing is written they are what is in
the memory. -/
def Writes.bytes (writes : Writes) (memory : Memory) (record : Nat) : List Byte :=
  load ((fresh ++ writes).apply memory record) record writes.size

theorem Writes.apply_append (first second : Writes) (memory : Memory) (record : Nat) :
    Writes.apply (first ++ second) memory record =
      second.apply (first.apply memory record) record :=
  List.foldl_append

theorem Writes.apply_translate (writes : Writes) {base other count : Nat}
    (same : ∀ i < count, first (base + i) = second (other + i)) :
    ∀ i < count, writes.apply first base (base + i) = writes.apply second other (other + i) := by
  induction writes generalizing first second with
  | nil => exact same
  | cons write writes ih => exact ih (store_translate same write.1 write.2)

theorem Writes.sameOutside {size : Nat}
    (covers : ∀ write ∈ writes, write.1 + write.2.length ≤ size) :
    SameOutside memory (writes.apply memory record) record (record + size) := by
  induction writes generalizing memory with
  | nil => exact SameOutside.refl memory _ _
  | cons write writes ih =>
    have first := covers write (.head _)
    exact (sameOutside_store (by omega) (by omega)).trans
      (ih (List.forall_mem_cons.mp covers).2)

theorem load_fresh (memory : Memory) (record : Nat) :
    load (fresh.apply memory record) record 8 = encodeLE 4 lbTagUnused ++ encodeLE 4 8 := by
  have stored : fresh.apply memory record =
      store memory record (encodeLE 4 lbTagUnused ++ encodeLE 4 8) :=
    store_store_append memory record (encodeLE 4 lbTagUnused) (encodeLE 4 8)
  rw [stored]
  exact load_store_self memory record _

theorem recordSize_apply (memory : Memory) (record : Nat) (writes : Writes) :
    recordSize ((fresh ++ writes).apply memory record) record = writes.size := by
  have created : ∀ i < 8, fresh.apply memory record (record + i) =
      fresh.apply (fun _ => 0) 0 (0 + i) :=
    load_eq_load_iff.mp ((load_fresh memory record).trans (load_fresh (fun _ => 0) 0).symm)
  have written := writes.apply_translate created
  rw [Writes.size, Writes.apply_append, Writes.apply_append, recordSize, recordSize, readLE, readLE]
  refine congrArg decodeLE (load_translate fun i below => ?_)
  rw [Nat.add_assoc, Nat.add_assoc]
  exact written (4 + i) (by omega)

theorem Writes.Proper.sameOutside (proper : writes.Proper) :
    SameOutside memory ((fresh ++ writes).apply memory record) record (record + writes.size) := by
  have minimal := proper.minimal
  refine Writes.sameOutside fun write member => ?_
  rcases List.mem_append.mp member with created | written
  · simp only [fresh, List.mem_cons, List.not_mem_nil, or_false] at created
    rcases created with rfl | rfl <;>
      · simp only [length_encodeLE]
        omega
  · exact proper.covers write written

theorem Writes.bytes_congr (same : ∀ i < writes.size, first (record + i) = second (record + i)) :
    writes.bytes first record = writes.bytes second record :=
  load_translate ((fresh ++ writes).apply_translate same)

@[simp]
theorem Writes.length_bytes (writes : Writes) (memory : Memory) (record : Nat) :
    (writes.bytes memory record).length = writes.size :=
  length_load _ _ _

structure IsRecord (bytes : List Byte) : Prop where
  minimal : 8 ≤ bytes.length
  aligned : 4 ∣ bytes.length
  size : decodeLE ((bytes.drop 4).take 4) = bytes.length

def tagOf (bytes : List Byte) : Nat := decodeLE (bytes.take 4)

theorem Writes.Proper.isRecord (proper : writes.Proper) (memory : Memory)
    (record : Nat) : IsRecord (writes.bytes memory record) where
  minimal := by
    rw [Writes.length_bytes]
    exact proper.minimal
  aligned := by
    rw [Writes.length_bytes]
    exact proper.aligned
  size := by
    obtain ⟨rest, parts⟩ := Nat.exists_eq_add_of_le proper.minimal
    rw [Writes.length_bytes, Writes.bytes]
    conv_lhs => rw [parts]
    rw [show 8 + rest = 4 + 4 + rest from rfl, take_drop_load]
    exact recordSize_apply memory record writes

def writtenRecords (memory : Memory) : Nat → List Writes → List (List Byte)
  | _, [] => []
  | record, writes :: rest =>
    writes.bytes memory record :: writtenRecords memory (record + writes.size) rest

def totalSize (records : List Writes) : Nat := (records.map Writes.size).sum

theorem totalSize_append (first second : List Writes) :
    totalSize (first ++ second) = totalSize first + totalSize second := by
  rw [totalSize, List.map_append, List.sum_append, totalSize, totalSize]

theorem totalSize_singleton (writes : Writes) : totalSize [writes] = writes.size := by
  rw [totalSize, List.map_singleton, List.sum_singleton]

theorem writtenRecords_append (first second : List Writes) (record : Nat) :
    writtenRecords memory record (first ++ second) =
      writtenRecords memory record first ++
        writtenRecords memory (record + totalSize first) second := by
  induction first generalizing record with
  | nil => rfl
  | cons writes rest ih =>
    rw [List.cons_append, writtenRecords, writtenRecords, ih, List.cons_append, Nat.add_assoc]
    rfl

theorem length_writtenRecords (records : List Writes) (record : Nat) :
    (writtenRecords memory record records).length = records.length := by
  induction records generalizing record with
  | nil => rfl
  | cons writes rest ih => rw [writtenRecords, List.length_cons, ih, List.length_cons]

theorem length_flatten_writtenRecords (records : List Writes) (record : Nat) :
    (writtenRecords memory record records).flatten.length = totalSize records := by
  induction records generalizing record with
  | nil => rfl
  | cons writes rest ih =>
    rw [writtenRecords, List.flatten_cons, List.length_append, ih, Writes.length_bytes]
    rfl

theorem isRecord_of_mem_writtenRecords {records : List Writes}
    (proper : ∀ writes ∈ records, writes.Proper) {bytes : List Byte}
    (member : bytes ∈ writtenRecords memory record records) : IsRecord bytes := by
  induction records generalizing record with
  | nil => cases member
  | cons writes rest ih =>
    rcases List.mem_cons.mp member with rfl | later
    · exact (proper writes (.head _)).isRecord memory record
    · exact ih (List.forall_mem_cons.mp proper).2 later

end Records

section Writer

variable {before memory : Memory} {header : Nat} {done : List Writes}

/-- The table while it is written: the header accounts for all records but the
last. -/
structure Started (before memory : Memory) (header : Nat) (done : List Writes) :
    Prop where
  signed : load memory header 4 = signature
  headerBytes : headerBytes memory header = headerSize
  entries : tableEntries memory header = done.length
  accounted : tableBytes memory header +
      (if done = [] then 0 else recordSize memory (lbLastRecord memory header)) =
    totalSize done
  content : load memory (lbFirstRecord header) (totalSize done) =
    (writtenRecords before (lbFirstRecord header) done).flatten
  outside : SameOutside before memory header (lbFirstRecord header + totalSize done)

theorem Started.accountLast (started : Started before memory header done)
    (small : totalSize done < 65536) :
    tableBytes (accountLast memory header) header = totalSize done ∧
      SameOutside memory (accountLast memory header) (header + 12) (header + 16) := by
  have accounted := started.accounted
  have entries := started.entries
  rw [CorebootTable.accountLast]
  by_cases empty : done = []
  · rw [if_pos empty, Nat.add_zero] at accounted
    rw [empty, List.length_nil] at entries
    rw [if_neg (not_not.mpr entries)]
    exact ⟨accounted, SameOutside.refl _ _ _⟩
  · rw [if_neg empty] at accounted
    have some : tableEntries memory header ≠ 0 := by
      rw [entries]
      exact fun zero => empty (List.length_eq_zero_iff.mp zero)
    rw [if_pos some, accounted]
    exact ⟨readLE_writeLE_self memory _ (by omega), sameOutside_writeLE le_rfl le_rfl⟩

theorem Started.lbNewRecord (started : Started before memory header done)
    (small : totalSize done < 65536) (few : done.length < 65536) :
    ∃ counted, lbNewRecord memory header =
        (fresh.apply counted (lbFirstRecord header + totalSize done),
          lbFirstRecord header + totalSize done) ∧
      tableBytes counted header = totalSize done ∧
      tableEntries counted header = done.length + 1 ∧
      SameOutside memory counted (header + 12) (header + 24) := by
  obtain ⟨bytes, account⟩ := started.accountLast small
  have entries : tableEntries (CorebootTable.accountLast memory header) header = done.length := by
    rw [← started.entries]
    exact account.readLE (by omega)
  refine ⟨writeLE 4 (CorebootTable.accountLast memory header) (header + 20)
    (tableEntries (CorebootTable.accountLast memory header) header + 1), ?_, ?_, ?_, ?_⟩
  · rw [CorebootTable.lbNewRecord, lbLastRecord, bytes]
    rfl
  · rw [← bytes]
    exact readLE_store_of_disjoint (by omega)
  · rw [entries]
    exact readLE_writeLE_self _ _ (by omega)
  · exact (account.mono (by omega) (by omega)).trans (sameOutside_writeLE (by omega) (by omega))

variable {records : List Writes}

theorem length_le_totalSize (proper : ∀ writes ∈ records, writes.Proper) :
    records.length ≤ totalSize records := by
  induction records with
  | nil => exact le_rfl
  | cons writes rest ih =>
    have minimal := (proper writes (.head _)).minimal
    have later := ih (List.forall_mem_cons.mp proper).2
    rw [totalSize] at later ⊢
    rw [List.length_cons, List.map_cons, List.sum_cons]
    omega

theorem Started.addRecord (started : Started before memory header done) (few : done.length < 65536)
    {writes : Writes} (proper : writes.Proper) (small : totalSize done + writes.size < 65536) :
    Started before (addRecord header memory writes) header (done ++ [writes]) := by
  obtain ⟨counted, created, bytes, entries, count⟩ := started.lbNewRecord (by omega) few
  have minimal := proper.minimal
  have total : totalSize (done ++ [writes]) = totalSize done + writes.size := by
    rw [totalSize_append, totalSize_singleton]
  have added : CorebootTable.addRecord header memory writes =
      (fresh ++ writes).apply counted (lbFirstRecord header + totalSize done) := by
    rw [CorebootTable.addRecord, created, Writes.apply_append]
  have behind : SameOutside counted (CorebootTable.addRecord header memory writes)
      (lbFirstRecord header + totalSize done)
      (lbFirstRecord header + totalSize done + writes.size) := by
    rw [added]
    exact proper.sameOutside
  have first : lbFirstRecord header = header + 24 := rfl
  have whole : SameOutside memory (CorebootTable.addRecord header memory writes)
      header (lbFirstRecord header + totalSize (done ++ [writes])) :=
    (count.mono (by omega) (by omega)).trans (behind.mono (by omega) (by omega))
  have fields : ∀ {base : Nat}, header + 4 ≤ base + 4 → base + 4 ≤ header + 24 →
      readLE 4 (CorebootTable.addRecord header memory writes) base = readLE 4 counted base :=
    fun above below => behind.readLE (by omega)
  have newBytes : tableBytes (CorebootTable.addRecord header memory writes) header =
      totalSize done := (fields (by omega) (by omega)).trans bytes
  exact
    { signed := by
        rw [behind.load (by omega), count.load (by omega)]
        exact started.signed
      headerBytes := by
        rw [← started.headerBytes]
        exact (fields (by omega) (by omega)).trans (count.readLE (by omega))
      entries := by
        rw [List.length_append, List.length_singleton, ← entries]
        exact fields (by omega) (by omega)
      accounted := by
        rw [if_neg (by simp), lbLastRecord, newBytes, added, total]
        exact congrArg (totalSize done + ·) (recordSize_apply _ _ _)
      content := by
        have unwritten : ∀ i < writes.size,
            counted (lbFirstRecord header + totalSize done + i) =
              before (lbFirstRecord header + totalSize done + i) := fun i _ =>
          (count _ (by omega)).trans (started.outside _ (by omega))
        have last : load (CorebootTable.addRecord header memory writes)
            (lbFirstRecord header + totalSize done) writes.size =
              writes.bytes before (lbFirstRecord header + totalSize done) := by
          rw [added]
          exact Writes.bytes_congr unwritten
        rw [total, load_append, last, behind.load (by omega), count.load (by omega),
          started.content, writtenRecords_append, List.flatten_append]
        simp [writtenRecords]
      outside := (started.outside.mono le_rfl (by omega)).trans whole }

theorem Started.addRecords (started : Started before memory header done)
    (proper : ∀ writes ∈ records, writes.Proper) (properDone : ∀ writes ∈ done, writes.Proper)
    (small : totalSize (done ++ records) < 65536) :
    Started before (records.foldl (CorebootTable.addRecord header) memory) header
      (done ++ records) := by
  induction records generalizing memory done with
  | nil =>
    rw [List.append_nil]
    exact started
  | cons writes rest ih =>
    have first := proper writes (.head _)
    have few := length_le_totalSize properDone
    have parts : done ++ writes :: rest = (done ++ [writes]) ++ rest := by simp
    rw [parts] at small ⊢
    have total := totalSize_append (done ++ [writes]) rest
    have one : totalSize (done ++ [writes]) = totalSize done + writes.size := by
      rw [totalSize_append, totalSize_singleton]
    refine ih (started.addRecord (by omega) first (by omega))
      (List.forall_mem_cons.mp proper).2 ?_ small
    exact List.forall_mem_append.mpr ⟨properDone, List.forall_mem_singleton.mpr first⟩

theorem started_lbTableInit (memory : Memory) (addr : Nat) :
    Started memory (lbTableInit memory addr).1 (lbTableInit memory addr).2 [] := by
  rw [lbTableInit]
  generalize (addr + 15) / 16 * 16 = header
  have signedBytes : signature.length = 4 := rfl
  have fourBytes : ∀ number, (encodeLE 4 number).length = 4 := length_encodeLE 4
  have skip : ∀ {memory : Memory} {base number other count : Nat},
      other + count ≤ base ∨ base + 4 ≤ other →
        load (writeLE 4 memory base number) other count = load memory other count := fun disjoint =>
    load_store_of_disjoint (by rwa [fourBytes])
  have entriesField : ∀ {memory : Memory},
      tableEntries (writeLE 4 memory (header + 20) 0) header = 0 :=
    readLE_writeLE_self _ _ (by decide)
  have bytesField : ∀ {memory : Memory}, tableBytes (writeLE 4 memory (header + 12) 0) header = 0 :=
    readLE_writeLE_self _ _ (by decide)
  have sizeField : ∀ {memory : Memory},
      headerBytes (writeLE 4 memory (header + 4) headerSize) header = headerSize :=
    readLE_writeLE_self _ _ (by decide)
  exact
    { signed := by
        rw [skip (by omega), skip (by omega), skip (by omega), skip (by omega), skip (by omega)]
        exact load_store_self memory header signature
      headerBytes := by
        rw [headerBytes, readLE, skip (by omega), skip (by omega), skip (by omega), skip (by omega)]
        exact sizeField
      entries := entriesField
      accounted := by
        rw [if_pos rfl, Nat.add_zero, tableBytes, readLE, skip (by omega), skip (by omega)]
        exact bytesField
      content := rfl
      outside := by
        have first : lbFirstRecord header + totalSize [] = header + 24 := rfl
        rw [first]
        refine SameOutside.trans ?_ (sameOutside_writeLE (by omega) (by omega))
        refine SameOutside.trans ?_ (sameOutside_writeLE (by omega) (by omega))
        refine SameOutside.trans ?_ (sameOutside_writeLE (by omega) (by omega))
        refine SameOutside.trans ?_ (sameOutside_writeLE (by omega) (by omega))
        refine SameOutside.trans ?_ (sameOutside_writeLE (by omega) (by omega))
        exact sameOutside_store le_rfl (by rw [signedBytes]; omega) }

structure TableAt (memory : Memory) (header : Nat) (records : List (List Byte)) :
    Prop where
  signed : load memory header 4 = signature
  headerBytes : headerBytes memory header = headerSize
  tableEntries : tableEntries memory header = records.length
  tableBytes : tableBytes memory header = records.flatten.length
  headerSum : fold (wordSum (load memory header headerSize)) = 65535
  tableChecksum : tableChecksum memory header =
    computeIpChecksum memory (lbFirstRecord header) records.flatten.length
  content : load memory (lbFirstRecord header) records.flatten.length = records.flatten

theorem fold_wordSum_header (signed : load memory header 4 = signature) :
    fold (wordSum (load (writeLE 4 (writeLE 4 memory (header + 8) 0) (header + 8)
      (computeIpChecksum (writeLE 4 memory (header + 8) 0) header headerSize))
        header headerSize)) = 65535 := by
  have parts : ∀ (other : Memory) (number : Nat),
      load (writeLE 4 other (header + 8) number) header headerSize =
        load other header 8 ++ (encodeLE 4 number ++ load other (header + 12) 12) := by
    intro other number
    have stored := load_store_self other (header + 8) (encodeLE 4 number)
    have length := length_encodeLE 4 number
    rw [length] at stored
    rw [show headerSize = 8 + (4 + 12) from rfl, load_append, load_append, writeLE,
      stored, load_store_of_disjoint (.inl le_rfl),
      load_store_of_disjoint (.inr (by omega))]
  have first : load (writeLE 4 memory (header + 8) 0) header 8 =
      load memory header 8 := load_store_of_disjoint (.inl le_rfl)
  have last : load (writeLE 4 memory (header + 8) 0) (header + 12) 12 =
      load memory (header + 12) 12 :=
    load_store_of_disjoint (.inr (by rw [length_encodeLE]))
  rw [parts, first, last, computeIpChecksum_eq, parts]
  have evenSigned : 2 ∣ (load memory header 8).length := by
    rw [length_load]
    decide
  have filled : wordSum (load memory header 8) ≠ 0 :=
    wordSum_ne_zero (List.mem_of_mem_head? (congrArg some (List.cons.inj signed).1)) (by decide)
  have even (number : Nat) : 2 ∣ (encodeLE 4 number).length := by
    rw [length_encodeLE]
    decide
  refine fold_wordSum_of_complement evenSigned (even 0) (even _) rfl ?_
    (wordSum_encodeLE (by omega))
  rw [wordSum_append evenSigned]
  omega

theorem Started.lbTableFini (started : Started before memory header done)
    (small : totalSize done < 65536) :
    TableAt (lbTableFini memory header).1 header
        (writtenRecords before (lbFirstRecord header) done) ∧
      SameOutside before (lbTableFini memory header).1 header
        (lbFirstRecord header + totalSize done) ∧
      (done ≠ [] → (lbTableFini memory header).2 = lbFirstRecord header + totalSize done) := by
  obtain ⟨bytes, account⟩ := started.accountLast small
  have accounted := started.accounted
  have firstRecord : lbFirstRecord header = header + 24 := rfl
  have lastRecord : lbLastRecord memory header = header + 24 + tableBytes memory header := rfl
  rw [CorebootTable.lbTableFini, bytes]
  revert bytes account
  generalize CorebootTable.accountLast memory header = counted
  intro bytes account
  have length := @length_flatten_writtenRecords before done (lbFirstRecord header)
  have summed : SameOutside counted (writeLE 4 counted (header + 16)
      (computeIpChecksum counted (lbFirstRecord header) (totalSize done)))
      (header + 16) (header + 20) := sameOutside_writeLE le_rfl le_rfl
  have sum : tableChecksum (writeLE 4 counted (header + 16)
      (computeIpChecksum counted (lbFirstRecord header) (totalSize done))) header =
        computeIpChecksum counted (lbFirstRecord header) (totalSize done) :=
    readLE_writeLE_self _ _ (by rw [computeIpChecksum]; omega)
  revert summed sum
  generalize writeLE 4 counted (header + 16) (computeIpChecksum counted
    (lbFirstRecord header) (totalSize done)) = checked
  intro summed sum
  have signed : load checked header 4 = signature := by
    rw [summed.load (by omega), account.load (by omega)]
    exact started.signed
  have headerSum := fold_wordSum_header signed
  have complement : SameOutside checked (writeLE 4 (writeLE 4 checked (header + 8) 0)
      (header + 8) (computeIpChecksum (writeLE 4 checked (header + 8) 0) header
        headerSize)) (header + 8) (header + 12) :=
    (sameOutside_writeLE le_rfl le_rfl).trans (sameOutside_writeLE le_rfl le_rfl)
  revert headerSum complement
  generalize writeLE 4 (writeLE 4 checked (header + 8) 0) (header + 8)
    (computeIpChecksum (writeLE 4 checked (header + 8) 0) header headerSize) = final
  intro headerSum complement
  have fields : SameOutside memory final (header + 8) (header + 20) :=
    ((account.mono (by omega) (by omega)).trans
      (summed.mono (by omega) (by omega))).trans (complement.mono le_rfl (by omega))
  have behind : ∀ {base count : Nat}, lbFirstRecord header ≤ base →
      load final base count = load memory base count :=
    fun above => fields.load (by omega)
  refine ⟨?_, (started.outside.mono le_rfl le_rfl).trans
    (fields.mono (by omega) (by omega)), fun more => ?_⟩
  · exact
      { signed := by
          rw [fields.load (by omega)]
          exact started.signed
        headerBytes := by
          rw [← started.headerBytes]
          exact fields.readLE (by omega)
        tableEntries := by
          rw [length_writtenRecords, ← started.entries]
          exact fields.readLE (by omega)
        tableBytes := by
          rw [length, ← bytes]
          exact (complement.readLE (by omega)).trans (summed.readLE (by omega))
        headerSum := headerSum
        tableChecksum := by
          have kept : tableChecksum final header = tableChecksum checked header :=
            complement.readLE (by omega)
          rw [length, kept, sum, computeIpChecksum_eq, computeIpChecksum_eq,
            behind le_rfl, account.load (by omega)]
        content := by
          rw [length, behind le_rfl]
          exact started.content }
  · rw [if_neg more] at accounted
    have size : recordSize final (lbLastRecord memory header) =
        recordSize memory (lbLastRecord memory header) :=
      fields.readLE (by rw [lastRecord]; omega)
    rw [size]
    omega

theorem writeTable_spec (memory : Memory) (addr : Nat) (proper : ∀ writes ∈ records, writes.Proper)
    (small : totalSize records < 65536) :
    (writeTable memory addr records).2.1 = (addr + 15) / 16 * 16 ∧
      TableAt (writeTable memory addr records).1 (writeTable memory addr records).2.1
        (writtenRecords memory (lbFirstRecord (writeTable memory addr records).2.1) records) ∧
      SameOutside memory (writeTable memory addr records).1
        (writeTable memory addr records).2.1
        (lbFirstRecord (writeTable memory addr records).2.1 + totalSize records) ∧
      (records ≠ [] → (writeTable memory addr records).2.2 =
        lbFirstRecord (writeTable memory addr records).2.1 + totalSize records) := by
  have started := (started_lbTableInit memory addr).addRecords proper
    (List.forall_mem_nil _) small
  exact ⟨rfl, started.lbTableFini small⟩

end Writer

end Coreboot.CorebootTable
