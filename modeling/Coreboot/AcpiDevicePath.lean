import Coreboot.ByteMemory

/-!
# ACPI device paths

The path of a device is written into a small static buffer: room is checked on the way up to
the root, and the names are printed on the way down. A pointer is an offset from the buffer.
-/

namespace Coreboot.AcpiDevicePath

open ByteMemory

def DEVICE_PATH_MAX : Nat := 30

def dot : Byte := 46

/-- A device with what `acpi_device_name` finds for it. The root device hangs on a bus of its
own; a detached device is on no bus. -/
inductive Device
  | root (name : Option (List Byte))
  | detached (name : Option (List Byte))
  | child (name : Option (List Byte)) (parent : Device)

/-- The byte strings that are stored, in order, each at its offset. -/
abbrev Writes := List (Nat × List Byte)

def Writes.apply (memory : Memory) (writes : Writes) : Memory :=
  writes.foldl (fun memory write => store memory write.1 write.2) memory

/-- What `snprintf` stores; it returns the length of the whole text also when it cuts it. -/
def snprintf (offset size : Nat) (text : List Byte) : Writes :=
  if size = 0 then [] else [(offset, text.take (size - 1) ++ [0])]

variable (width : Nat)

/-- One activation, with what the walk up to the root returned and stored. -/
def fillSegment (bufLen cur : Nat) (name : Option (List Byte)) (separator : List Byte)
    (above : Nat × Writes) : Nat × Writes :=
  match name with
  | none => (cur, [])
  | some name =>
    if (cur + name.length + 2) % 2 ^ width > bufLen then (cur, [])
    else
      let room := (bufLen + 2 ^ width - above.1) % 2 ^ width
      ((above.1 + (separator ++ name).length) % 2 ^ width,
        above.2 ++ snprintf above.1 room (separator ++ name))

def acpiDevicePathFill (bufLen cur : Nat) : Device → Nat × Writes
  | .root name => fillSegment width bufLen cur name [] (0, [])
  | .detached name => fillSegment width bufLen cur name [dot] (0, [])
  | .child name parent =>
    fillSegment width bufLen cur name [dot] (acpiDevicePathFill bufLen cur parent)

/-- Whether the buffer is returned rather than a null pointer, and what was stored. -/
structure Outcome where
  returned : Bool
  writes : Writes

def acpiDevicePath (device : Device) : Outcome :=
  let filled := acpiDevicePathFill width DEVICE_PATH_MAX 0 device
  ⟨decide (0 < filled.1), filled.2⟩

def acpiDeviceScope : Device → Outcome
  | .root name => acpiDevicePath width (.root name)
  | .detached _ => ⟨false, []⟩
  | .child _ parent => acpiDevicePath width parent

def acpiDevicePathJoin (device : Device) (name : List Byte) : Outcome :=
  let filled := acpiDevicePathFill width DEVICE_PATH_MAX 0 device
  if filled.1 = 0 then ⟨false, filled.2⟩
  else if (filled.1 + name.length + 2) % 2 ^ width > DEVICE_PATH_MAX then ⟨false, filled.2⟩
  else
    let room := (DEVICE_PATH_MAX + 2 ^ width - filled.1) % 2 ^ width
    ⟨true, filled.2 ++ snprintf filled.1 room (dot :: name)⟩

def Named : Option (List Byte) → Prop
  | none => False
  | some name => 0 < name.length ∧ name.length ≤ 4 ∧ 0 ∉ name

def Device.Rooted : Device → Prop
  | .root name => Named name
  | .detached _ => False
  | .child name parent => Named name ∧ parent.Rooted

def Device.path : Device → List Byte
  | .root name => name.getD []
  | .detached name => name.getD []
  | .child name parent => parent.path ++ dot :: name.getD []

def Device.scope : Device → Device
  | .child _ parent => parent
  | device => device

/-- The length of the text in front of the last segment. -/
def Device.aboveLength : Device → Nat
  | .child _ parent => parent.path.length
  | _ => 0

def InBuffer (writes : Writes) : Prop :=
  ∀ write ∈ writes, write.1 + write.2.length ≤ DEVICE_PATH_MAX

/-- The stores stay in the buffer, a buffer that is returned holds the whole path, and no
buffer is returned only for a path that does not fit. -/
def Right (outcome : Outcome) (path : List Byte) : Prop :=
  InBuffer outcome.writes ∧
    (outcome.returned = true → ∀ memory,
      load (outcome.writes.apply memory) 0 (path.length + 1) = path ++ [0]) ∧
    (outcome.returned = false → DEVICE_PATH_MAX < path.length + 1)

variable {width : Nat} {device : Device} {path text : List Byte} {writes : Writes}
  {segment : List Byte} {above : Nat × Writes} {name : List Byte}

/-- The writes leave a text with its terminator at the start of the buffer. -/
def Leaves (writes : Writes) (text : List Byte) : Prop :=
  InBuffer writes ∧ ∀ memory, load (writes.apply memory) 0 (text.length + 1) = text ++ [0]

/-- What a call has done once the path of a device is complete. -/
inductive Filled (device : Device) : Nat × Writes → Prop
  | fits {writes : Writes} (short : device.path.length ≤ 29)
      (leaves : Leaves writes device.path) :
      Filled device (device.path.length, writes)
  | cut {writes : Writes} (long : 29 < device.path.length)
      (above : device.aboveLength ≤ 30) (near : device.path.length ≤ 35)
      (inside : InBuffer writes) (ends : ∀ memory, writes.apply memory 29 = 0) :
      Filled device (device.path.length, writes)
  | spills {next : Nat} {writes : Writes} (above : 30 < device.aboveLength)
      (outside : ¬ InBuffer writes) : Filled device (next, writes)

theorem apply_append (memory : Memory) (first second : Writes) :
    Writes.apply memory (first ++ second) = Writes.apply (first.apply memory) second :=
  List.foldl_append

theorem inBuffer_append {first second : Writes} :
    InBuffer (first ++ second) ↔ InBuffer first ∧ InBuffer second :=
  List.forall_mem_append

theorem Leaves.holds (leaves : Leaves writes text) (memory : Memory) :
    load (writes.apply memory) 0 text.length = text := by
  have all := congrArg (List.take text.length) (leaves.2 memory)
  rwa [load_append, List.take_left' (length_load ..), List.take_left] at all

/-- A segment that fits extends the text at its terminator. -/
theorem leaves_append {room : Nat} (inside : InBuffer writes)
    (holds : ∀ memory, load (writes.apply memory) 0 text.length = text)
    (fits : text.length + segment.length ≤ 29) (enough : segment.length < room) :
    Leaves (writes ++ snprintf text.length room segment) (text ++ segment) := by
  have stored : snprintf text.length room segment = [(text.length, segment ++ [0])] := by
    rw [snprintf, if_neg (by omega), List.take_of_length_le (by omega)]
  rw [stored]
  refine ⟨inBuffer_append.mpr ⟨inside, ?_⟩, fun memory => ?_⟩
  · intro write member
    rw [List.mem_singleton.mp member, List.length_append]
    change text.length + (segment.length + 1) ≤ 30
    omega
  · have after := load_store_self (writes.apply memory) text.length (segment ++ [0])
    rw [apply_append, List.length_append, Nat.add_assoc, load_append, Nat.zero_add]
    change load (store _ _ _) _ _ ++ load (store _ _ _) _ _ = _
    rw [load_store_of_disjoint (.inl (by omega)), holds memory, List.append_assoc]
    exact congrArg _ (by simpa using after)

/-- A segment that is cut ends at the end of the buffer. -/
theorem cut_append {offset room : Nat} (inside : InBuffer writes)
    (within : offset ≤ 29) (rest : room = 30 - offset) (long : 29 < offset + segment.length) :
    InBuffer (writes ++ snprintf offset room segment) ∧
      ∀ memory, (writes ++ snprintf offset room segment).apply memory 29 = 0 := by
  have stored : snprintf offset room segment = [(offset, segment.take (room - 1) ++ [0])] :=
    if_neg (by omega)
  have taken : (segment.take (room - 1)).length = 29 - offset := by
    rw [List.length_take]
    omega
  rw [stored]
  refine ⟨inBuffer_append.mpr ⟨inside, ?_⟩, fun memory => ?_⟩
  · intro write member
    rw [List.mem_singleton.mp member, List.length_append, taken]
    change offset + (29 - offset + 1) ≤ 30
    omega
  · rw [apply_append]
    change store _ offset (segment.take (room - 1) ++ [0]) 29 = 0
    rw [store_append, store_of_outside (.inr (by omega)), taken]
    exact if_pos (by omega)

theorem two_pow_wide (wide : 32 ≤ width) : 4294967296 ≤ 2 ^ width :=
  Nat.pow_le_pow_right Nat.two_pos wide

theorem fillSegment_of_named {name separator : List Byte}
    (wide : 32 ≤ width) (short : name.length ≤ 4) :
    fillSegment width DEVICE_PATH_MAX 0 (some name) separator above =
      ((above.1 + (separator ++ name).length) % 2 ^ width,
        above.2 ++ snprintf above.1 ((30 + 2 ^ width - above.1) % 2 ^ width)
          (separator ++ name)) := by
  have large := two_pow_wide wide
  have small : 0 + name.length + 2 < 2 ^ width := by omega
  rw [fillSegment, Nat.mod_eq_of_lt small]
  exact if_neg (by rw [DEVICE_PATH_MAX]; omega)

theorem room_of_le {offset : Nat} (within : offset ≤ 30) (wide : 32 ≤ width) :
    (30 + 2 ^ width - offset) % 2 ^ width = 30 - offset := by
  have large := two_pow_wide wide
  rw [show 30 + 2 ^ width - offset = 30 - offset + 2 ^ width by omega, Nat.add_mod_right,
    Nat.mod_eq_of_lt (by omega)]

/-- Past the end of the buffer the room wraps around, and the text is stored there. -/
theorem not_inBuffer_past {offset : Nat} (past : 30 < offset)
    (near : offset ≤ 35) (wide : 32 ≤ width) :
    ¬ InBuffer (snprintf offset ((30 + 2 ^ width - offset) % 2 ^ width) segment) := by
  have large := two_pow_wide wide
  rw [Nat.mod_eq_of_lt (by omega), snprintf, if_neg (by omega)]
  intro inside
  have ends : offset + _ ≤ 30 := inside _ (.head _)
  omega

/-- One segment below a text that is whole, cut or spilt. -/
theorem filled_child {parent : Device}
    (wide : 32 ≤ width) (some : 0 < name.length) (short : name.length ≤ 4)
    (filled : Filled parent above) (grows : parent.aboveLength ≤ parent.path.length) :
    Filled (.child name parent) (fillSegment width DEVICE_PATH_MAX 0 name [dot] above) := by
  have large := two_pow_wide wide
  have total : (Device.child name parent).path = parent.path ++ ([dot] ++ name) := rfl
  have size : ([dot] ++ name).length = name.length + 1 := rfl
  have length := congrArg List.length total
  rw [List.length_append, size] at length
  rw [fillSegment_of_named wide short, size]
  cases filled with
  | fits within leaves =>
    rw [Nat.mod_eq_of_lt (by omega), ← length, room_of_le (by omega) wide]
    by_cases whole : (Device.child name parent).path.length ≤ 29
    · exact .fits whole (total ▸ leaves_append leaves.1 leaves.holds (by omega) (by omega))
    · have long : 29 < parent.path.length + ([dot] ++ name).length := by omega
      have done := cut_append leaves.1 within rfl long
      exact .cut (by omega) (Nat.le_succ_of_le within) (by omega) done.1 done.2
  | cut long _ near inside ends =>
    by_cases full : parent.path.length = 30
    · rw [Nat.mod_eq_of_lt (by omega), ← length, room_of_le full.le wide, full]
      exact .cut (by omega) full.le (by omega) (by simpa [snprintf] using inside)
        (by simpa [snprintf] using ends)
    · exact .spills (show 30 < parent.path.length by omega) fun all =>
        not_inBuffer_past (by omega) near wide (inBuffer_append.mp all).2
  | spills far outside =>
    exact .spills (lt_of_lt_of_le far grows) fun all => outside (inBuffer_append.mp all).1

theorem aboveLength_le (device : Device) : device.aboveLength ≤ device.path.length := by
  cases device with
  | root | detached => exact Nat.zero_le _
  | child name parent => exact List.length_append ▸ Nat.le_add_right ..

theorem filled (wide : 32 ≤ width) (device : Device) (rooted : device.Rooted) :
    Filled device (acpiDevicePathFill width DEVICE_PATH_MAX 0 device) := by
  have large := two_pow_wide wide
  induction device with
  | detached => exact rooted.elim
  | root name =>
    cases name with
    | none => exact rooted.elim
    | some name =>
      obtain ⟨_, short, _⟩ := rooted
      rw [acpiDevicePathFill, fillSegment_of_named wide short, List.nil_append, Nat.zero_add,
        Nat.mod_eq_of_lt (by omega), room_of_le (Nat.zero_le _) wide]
      have empty : InBuffer [] := List.forall_mem_nil _
      have fits : ([] : List Byte).length + name.length ≤ 29 := by
        rw [List.length_nil]
        omega
      exact Filled.fits (show name.length ≤ 29 by omega)
        (leaves_append empty (fun _ => rfl) fits (by omega))
  | child name parent ih =>
    cases name with
    | none => exact rooted.1.elim
    | some name =>
      exact filled_child wide rooted.1.1 rooted.1.2.1 (ih rooted.2) (aboveLength_le parent)

theorem Named.chars {name : Option (List Byte)} (named : Named name) :
    0 < (name.getD []).length ∧ 0 ∉ name.getD [] := by
  cases name with
  | none => exact named.elim
  | some name => exact ⟨named.1, named.2.2⟩

theorem path_chars (rooted : device.Rooted) : 0 < device.path.length ∧ 0 ∉ device.path := by
  induction device with
  | detached => exact rooted.elim
  | root name => exact Named.chars rooted
  | child name parent ih =>
    refine ⟨List.length_append ▸ Nat.add_pos_left (ih rooted.2).1 _, fun member => ?_⟩
    rcases List.mem_append.mp member with inParent | inName
    · exact (ih rooted.2).2 inParent
    · exact (List.mem_cons.mp inName).elim (by decide) (Named.chars rooted.1).2

/-- A text without zero characters cannot be read from a buffer that ends in front of it. -/
theorem not_load_of_cut (chars : 0 ∉ path) (long : 29 < path.length)
    (ends : ∀ memory, writes.apply memory 29 = 0) :
    ¬ ∀ memory, load (writes.apply memory) 0 (path.length + 1) = path ++ [0] := by
  intro all
  have last := congrArg (fun bytes => bytes[29]?) (all fun _ => 0)
  rw [getElem?_load (by omega), Nat.zero_add, ends, List.getElem?_append_left long] at last
  exact chars (List.mem_of_getElem? last.symm)

theorem right_acpiDevicePath_iff (wide : 32 ≤ width) (rooted : device.Rooted) :
    Right (acpiDevicePath width device) device.path ↔ device.path.length ≤ 29 := by
  have chars := path_chars rooted
  have longer := aboveLength_le device
  unfold acpiDevicePath
  generalize acpiDevicePathFill width DEVICE_PATH_MAX 0 device = result, filled wide device rooted
    = done
  cases done with
  | fits short leaves =>
    refine iff_of_true ⟨leaves.1, fun _ => leaves.2, fun null => ?_⟩ short
    exact absurd chars.1 (of_decide_eq_false null)
  | cut long _ _ _ ends =>
    exact iff_of_false (fun right => not_load_of_cut chars.2 long ends
      (right.2.1 (decide_eq_true chars.1))) (by omega)
  | spills far outside => exact iff_of_false (fun right => outside right.1) (by omega)

theorem right_acpiDeviceScope_iff (wide : 32 ≤ width) (rooted : device.Rooted) :
    Right (acpiDeviceScope width device) device.scope.path ↔ device.scope.path.length ≤ 29 := by
  cases device with
  | detached => exact rooted.elim
  | root name => exact right_acpiDevicePath_iff wide rooted
  | child name parent => exact right_acpiDevicePath_iff wide rooted.2

theorem right_acpiDevicePathJoin_iff (wide : 32 ≤ width)
    (rooted : device.Rooted) (sized : name.length + 64 ≤ 2 ^ width) :
    Right (acpiDevicePathJoin width device name) (device.path ++ dot :: name) ↔
      device.aboveLength ≤ 30 := by
  have chars := path_chars rooted
  have longer := aboveLength_le device
  have total : (device.path ++ dot :: name).length = device.path.length + (name.length + 1) :=
    List.length_append
  unfold acpiDevicePathJoin
  generalize acpiDevicePathFill width DEVICE_PATH_MAX 0 device = result, filled wide device rooted
    = done
  cases done with
  | fits short leaves =>
    refine iff_of_true ?_ (by omega)
    rw [if_neg (by omega), Nat.mod_eq_of_lt (by omega)]
    split
    · rename_i full
      refine ⟨leaves.1, fun returned => absurd returned Bool.false_ne_true, fun _ => ?_⟩
      rw [total]
      omega
    · rename_i room
      rw [DEVICE_PATH_MAX] at room
      rw [show DEVICE_PATH_MAX = 30 from rfl, room_of_le (by omega) wide]
      have joined : Leaves _ (device.path ++ dot :: name) :=
        leaves_append leaves.1 leaves.holds (by rw [List.length_cons]; omega)
          (show name.length + 1 < 30 - device.path.length by omega)
      exact ⟨joined.1, fun _ => joined.2, fun null => absurd null.symm Bool.false_ne_true⟩
  | cut long above near inside =>
    refine iff_of_true ?_ above
    rw [if_neg (by omega), Nat.mod_eq_of_lt (by omega), if_pos (by rw [DEVICE_PATH_MAX]; omega)]
    refine ⟨inside, fun returned => absurd returned Bool.false_ne_true, fun _ => ?_⟩
    rw [total, DEVICE_PATH_MAX]
    omega
  | spills far outside =>
    refine iff_of_false (fun right => outside ?_) (by omega)
    dsimp only at right
    split at right
    · exact right.1
    · split at right
      · exact right.1
      · exact (inBuffer_append.mp right.1).1

/-- When the three calls are right. -/
theorem devicePaths_right_iff (wide : 32 ≤ width) (device : Device) (rooted : device.Rooted)
    (name : List Byte) (sized : name.length + 64 ≤ 2 ^ width) :
    (Right (acpiDevicePath width device) device.path ↔ device.path.length ≤ 29) ∧
    (Right (acpiDeviceScope width device) device.scope.path ↔ device.scope.path.length ≤ 29) ∧
    (Right (acpiDevicePathJoin width device name) (device.path ++ dot :: name) ↔
      device.aboveLength ≤ 30) :=
  ⟨right_acpiDevicePath_iff wide rooted, right_acpiDeviceScope_iff wide rooted,
    right_acpiDevicePathJoin_iff wide rooted sized⟩

/-- Bridges of one four-character name, one below the other. -/
def bridges : Nat → Device
  | 0 => .root (some [92, 95, 83, 66])
  | depth + 1 => .child (some [80, 67, 73, 48]) (bridges depth)

theorem bridges_rooted (depth : Nat) : (bridges depth).Rooted := by
  induction depth with
  | zero => exact ⟨by decide, by decide, by decide⟩
  | succ depth ih => exact ⟨⟨by decide, by decide, by decide⟩, ih⟩

theorem devicePaths_right_iff_bridges :
    Right (acpiDevicePath 32 (bridges 5)) (bridges 5).path :=
  (devicePaths_right_iff (by decide) (bridges 5) (bridges_rooted 5) [] (by decide)).1.mpr
    (by decide)

/-- Eight levels are printed past the end of the buffer. -/
theorem bridges_spill : (bridges 7).Rooted ∧
    ¬ Right (acpiDevicePath 32 (bridges 7)) (bridges 7).path := by
  refine ⟨bridges_rooted 7, fun right => ?_⟩
  have stored : (34, [46, 80, 67, 73, 48, 0]) ∈ (acpiDevicePath 32 (bridges 7)).writes := by
    decide
  exact absurd (right.1 _ stored) (by decide)

end Coreboot.AcpiDevicePath
