import Coreboot.ByteMemory

/-!
# The coreboot table

The table hands over to the payload what coreboot knows: a header and the records behind it.
-/

namespace Coreboot.CorebootTable

open ByteMemory

def signature : List Byte := [0x4c, 0x42, 0x49, 0x4f]

def headerSize : Nat := 24

def lbTagUnused : Nat := 0
def lbTagForward : Nat := 0x11

/-! The fields of `struct lb_header`, `struct lb_record` and `struct lb_forward`. -/

def headerBytes (memory : Memory) (header : Nat) : Nat := readLE 4 memory (header + 4)

def headerChecksum (memory : Memory) (header : Nat) : Nat := readLE 4 memory (header + 8)

def tableBytes (memory : Memory) (header : Nat) : Nat := readLE 4 memory (header + 12)

def tableChecksum (memory : Memory) (header : Nat) : Nat := readLE 4 memory (header + 16)

def tableEntries (memory : Memory) (header : Nat) : Nat := readLE 4 memory (header + 20)

def recordTag (memory : Memory) (record : Nat) : Nat := readLE 4 memory record

def recordSize (memory : Memory) (record : Nat) : Nat := readLE 4 memory (record + 4)

def forwardTo (memory : Memory) (record : Nat) : Nat := readLE 8 memory (record + 8)

/-- One byte of `compute_ip_checksum`: the odd ones are the high ones, and the carry
is wrapped around. -/
def addByte (sum index : Nat) (byte : Byte) : Nat :=
  let v := if index % 2 = 1 then byte.toNat * 256 else byte.toNat
  let sum := sum + v
  if sum > 0xffff then (sum + sum / 65536) % 65536 else sum

def sumBytes (memory : Memory) (addr : Nat) : Nat → Nat
  | 0 => 0
  | length + 1 => addByte (sumBytes memory addr length) length
      (memory (addr + length))

def computeIpChecksum (memory : Memory) (addr length : Nat) : Nat :=
  0xffff - sumBytes memory addr length

/-- `lb_table_init`: the address is aligned to 16 bytes. -/
def lbTableInit (memory : Memory) (addr : Nat) : Memory × Nat :=
  let header := (addr + 15) / 16 * 16
  let memory := store memory header signature
  let memory := writeLE 4 memory (header + 4) headerSize
  let memory := writeLE 4 memory (header + 8) 0
  let memory := writeLE 4 memory (header + 12) 0
  let memory := writeLE 4 memory (header + 16) 0
  let memory := writeLE 4 memory (header + 20) 0
  (memory, header)

def lbFirstRecord (header : Nat) : Nat := header + headerSize

def lbLastRecord (memory : Memory) (header : Nat) : Nat :=
  header + headerSize + tableBytes memory header

def accountLast (memory : Memory) (header : Nat) : Memory :=
  if tableEntries memory header ≠ 0 then
    writeLE 4 memory (header + 12)
      (tableBytes memory header + recordSize memory (lbLastRecord memory header))
  else memory

def lbNewRecord (memory : Memory) (header : Nat) : Memory × Nat :=
  let memory := accountLast memory header
  let record := lbLastRecord memory header
  let memory := writeLE 4 memory (header + 20) (tableEntries memory header + 1)
  let memory := writeLE 4 memory record lbTagUnused
  let memory := writeLE 4 memory (record + 4) 8
  (memory, record)

def lbTableFini (memory : Memory) (header : Nat) : Memory × Nat :=
  let record := lbLastRecord memory header
  let memory := accountLast memory header
  let memory := writeLE 4 memory (header + 16)
    (computeIpChecksum memory (lbFirstRecord header) (tableBytes memory header))
  let memory := writeLE 4 memory (header + 8) 0
  let memory := writeLE 4 memory (header + 8) (computeIpChecksum memory header headerSize)
  (memory, record + recordSize memory record)

/-- What is written into a record after it was created: byte strings, each at an
offset. -/
abbrev Writes := List (Nat × List Byte)

/-- The record with what is written into it, its tag and its size included. -/
def Writes.apply (writes : Writes) (memory : Memory) (record : Nat) : Memory :=
  writes.foldl (fun memory write => store memory (record + write.1) write.2) memory

def addRecord (header : Nat) (memory : Memory) (writes : Writes) : Memory :=
  let (memory, record) := lbNewRecord memory header
  writes.apply memory record

def writeTable (memory : Memory) (addr : Nat) (records : List Writes) : Memory × Nat × Nat :=
  let (memory, header) := lbTableInit memory addr
  let (memory, fini) := lbTableFini (records.foldl (addRecord header) memory) header
  (memory, header, fini)

def lbForward (next : Nat) : Writes :=
  [(0, encodeLE 4 lbTagForward), (4, encodeLE 4 16), (8, encodeLE 8 next)]

/-- `write_coreboot_forwarding_table`: the memory and the size. -/
def writeCorebootForwardingTable (memory : Memory) (entry target : Nat) : Memory × Nat :=
  let (memory, _, fini) := writeTable memory entry [lbForward target]
  (memory, fini - entry)

/-- The sum of the words of an `int` or `u32`; signed sums are taken to wrap, too. -/
def sumWords (memory : Memory) (ptr : Nat) : Nat → BitVec 32
  | 0 => 0
  | count + 1 =>
    sumWords memory ptr count + BitVec.ofNat 32 (readLE 2 memory (ptr + 2 * count))

def ipchksum (memory : Memory) (ptr nbytes : Nat) : BitVec 16 :=
  let sum := sumWords memory ptr (nbytes / 2)
  let sum :=
    if nbytes % 2 = 1 then
      sum + BitVec.ofNat 32 (memory (ptr + (nbytes - 1))).toNat
    else sum
  let sum := sum.sshiftRight 16 + (sum &&& 0xffff#32)
  let sum := sum + sum.sshiftRight 16
  (~~~ sum).setWidth 16

/-- Where the header is: the first of the addresses in steps of 16 bytes that has
the signature. -/
def findHeader (memory : Memory) (addr len : Nat) : Option Nat :=
  ((List.range ((len + 15) / 16)).map fun i => addr + 16 * i).find? fun header =>
    load memory header 4 == signature

/-- The records of a table, up to one that forwards, and where that leads to. -/
def walkEntries (memory : Memory) : Nat → Nat → List (List Byte) × Option Nat
  | 0, _ => ([], none)
  | entries + 1, ptr =>
    let record := load memory ptr (recordSize memory ptr)
    if recordTag memory ptr = lbTagForward then
      ([record], some (forwardTo memory ptr))
    else
      let (later, forward) := walkEntries memory entries (ptr + recordSize memory ptr)
      (record :: later, forward)

/-- `cb_parse_header`: what it returns and the records it visits.  A payload's
pointers have a width; the calls are bounded. -/
def cbParseHeader (width : Nat) (memory : Memory) (len : Nat) :
    Nat → Nat → Option (Int × List (List Byte))
  | 0, _ => none
  | calls + 1, addr =>
    match findHeader memory addr len with
    | none => some (-1, [])
    | some header =>
      if ipchksum memory header headerSize ≠ 0 then some (-1, [])
      else if tableBytes memory header = 0 then some (0, [])
      else if (ipchksum memory (header + headerSize)
          (tableBytes memory header)).toNat ≠ tableChecksum memory header then
        some (-1, [])
      else
        match walkEntries memory (tableEntries memory header)
            (header + headerBytes memory header) with
        | (visits, none) => some (0, visits)
        | (visits, some forward) =>
          (cbParseHeader width memory len calls (forward % 2 ^ width)).map
            fun (code, later) => (code, visits ++ later)

/-- `ipchcksum`: an odd byte is left out. -/
def ipchcksum (memory : Memory) (addr size : Nat) : BitVec 16 :=
  let sum := sumWords memory addr (size / 2)
  let sum := (sum >>> 16) + (sum &&& 0xffff#32)
  let sum := sum + (sum >>> 16)
  (~~~ sum &&& 0xffff#32).setWidth 16

/-- A header that `parse_cbtable` takes for that of a table. -/
def Accepted (memory : Memory) (header : Nat) : Prop :=
  load memory header 4 = signature ∧ headerBytes memory header ≠ 0 ∧
    ipchcksum memory header headerSize = 0 ∧
      (ipchcksum memory (header + headerBytes memory header)
        (tableBytes memory header)).toNat = tableChecksum memory header

instance (memory : Memory) (header : Nat) : Decidable (Accepted memory header) :=
  inferInstanceAs (Decidable (_ ∧ _))

/-- The records of a table, up to one that forwards, and where that leads to; the
turns are bounded. -/
def walkBytes (memory : Memory) (table bytes : Nat) :
    Nat → Nat → Option (List (List Byte) × Option Nat)
  | 0, _ => none
  | turns + 1, j =>
    if j < bytes then
      let record := load memory (table + j) (recordSize memory (table + j))
      if recordTag memory (table + j) = lbTagForward then
        some ([record], some (forwardTo memory (table + j)))
      else
        (walkBytes memory table bytes turns
          ((j + recordSize memory (table + j)) % 2 ^ 32)).map
            fun (later, forward) => (record :: later, forward)
    else some ([], none)

/-- How `parse_cbtable` ends: the utility exits, or it returns, with the records it
visited. -/
inductive Ending where
  | exited
  | returned (code : Int) (visits : List (List Byte))
deriving DecidableEq

def Ending.after (visits : List (List Byte)) : Ending → Ending
  | .exited => .exited
  | .returned code later => .returned code (visits ++ later)

/-- The loop over the headers of a page, also behind one that was found. -/
def parsePage (memory : Memory)
    (walk : Nat → Option (List (List Byte) × Option Nat))
    (parse : Nat → Option Ending) :
    List Nat → Int → List (List Byte) → Option Ending
  | [], found, visits => some (.returned found visits)
  | header :: rest, found, visits =>
    if Accepted memory header then
      match walk header with
      | none => none
      | some (seen, none) => parsePage memory walk parse rest 1 (visits ++ seen)
      | some (seen, some forward) =>
        (parse forward).map (Ending.after (visits ++ seen))
    else parsePage memory walk parse rest found visits

def page (address : Nat) : List Nat := (List.range 256).map fun i => address + 16 * i

/-- `parse_cbtable`: `maps` are the areas that can be mapped; the calls, and the
turns of the walks, are bounded. -/
def parseCbtable (maps : Nat → Nat → Bool) (memory : Memory) :
    Nat → Nat → Nat → Bool → Option Ending
  | 0, _, _, _ => none
  | calls + 1, address, tableSize, abortOnFailure =>
    if maps address tableSize then
      parsePage memory
        (fun header => walkBytes memory (header + headerBytes memory header)
          (tableBytes memory header) calls 0)
        (fun forward =>
          match parseCbtable maps memory calls forward tableSize false with
          | some (.returned (-2) _) =>
            -- Once more, with a smaller mapping.
            match parseCbtable maps memory calls forward (tableSize / 2) true with
            | some (.returned (-2) _) => some .exited
            | ending => ending
          | ending => ending)
        (page address) 0 []
    else if abortOnFailure then some .exited
    else some (.returned (-2) [])

end Coreboot.CorebootTable
