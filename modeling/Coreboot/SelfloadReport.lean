import Coreboot.Selfload

/-!
# What the loader of a payload reports

An entry point is to be returned only for a payload that was loaded as its table says, and zero
otherwise.
-/

namespace Coreboot.Selfload

open ByteMemory Memrange Payload SteppedRun

variable (platform : Platform) (decompressors : Decompressors) (input : Input)
  {relocation : Relocation}

def record (index : Nat) : PayloadSegment :=
  decodePayloadSegment (platform.visible input.memory)
    (input.mapped + Payload.sizeofSegment * index)

/-- The table goes on after a record: it has parameters, code, data or no data. -/
def Continues (segment : PayloadSegment) : Prop :=
  segment.type = payloadSegmentParams ∨ segment.IsLoad

instance (segment : PayloadSegment) : Decidable (Continues segment) :=
  inferInstanceAs (Decidable (_ ∨ _))

/-- The table has a number of records, and then one it does not go on after. -/
def TableEndsAt (count : Nat) : Prop :=
  (∀ index < count, Continues (record platform input index)) ∧
    ¬ Continues (record platform input count)

def listed (segment : PayloadSegment) : Option Payload.Segment :=
  if segment.type = payloadSegmentParams then none
  else some (describe platform.bits segment)

theorem not_continues_entry {segment : PayloadSegment}
    (entry : segment.type = payloadSegmentEntry) : ¬ Continues segment := by
  rw [Continues, PayloadSegment.IsLoad, entry]
  decide

def tableSegments (count : Nat) : List Payload.Segment :=
  (List.range count).filterMap fun index =>
    listed platform (record platform input index)

/-- The list of the segments is built, and there is a buffer for them. -/
def Prepared (count buffer heap : Nat) : Prop :=
  ∃ built, platform.mallocs platform.sizeofSegment
      (tableSegments platform input count).length input.heap = some built ∧
    prepare platform input.checkRegions input.bootmem
      (tableSegments platform input count) built = some (buffer, heap)

def startState (count heap : Nat) : State :=
  ⟨tableSegments platform input count, input.memory, heap⟩

def LoadReaches (count buffer heap : Nat) : State → Prop :=
  Reaches (loadStep platform decompressors input.mapped buffer)
    (startState platform input count heap)

def KnownCompression (segment : Payload.Segment) : Prop :=
  segment.compression = 0 ∨ segment.compression = 1 ∨ segment.compression = 2

instance (segment : Payload.Segment) : Decidable (KnownCompression segment) :=
  inferInstanceAs (Decidable (_ ∨ _ ∨ _))

/-- A segment would overwrite the ramstage. -/
def NeedsBuffer (count : Nat) : Prop :=
  ∃ segment ∈ tableSegments platform input count, overlapsCoreboot platform segment

/-- The payload is loaded as its table says, and an address is its entry point. -/
structure LoadedBy (entry count buffer heap : Nat) : Prop where
  mapped : input.mapped ≠ 0
  table : ∀ index < count, Continues (record platform input index)
  terminated : (record platform input count).type = payloadSegmentEntry
  entry_eq : (record platform input count).loadAddr = entry
  regions : input.checkRegions →
    ∀ segment ∈ tableSegments platform input count,
      segmentTargetsUsableRam platform input.bootmem segment
  prepared : Prepared platform input count buffer heap
  bounced : NeedsBuffer platform input count →
    platform.archSupportsBounceBuffer ∧ ¬ platform.relocatableRamstage ∧ buffer ≠ 0
  known : ∀ segment ∈ tableSegments platform input count, KnownCompression segment
  loaded : ∃ memory heapAfter,
    LoadReaches platform decompressors input count buffer heap ⟨[], memory, heapAfter⟩

def Loaded (entry : Nat) : Prop :=
  ∃ count buffer heap, LoadedBy platform decompressors input entry count buffer heap

/-- A call returns a value, whatever bounds its loops. -/
def Returns (entry : Nat) : Prop :=
  ∃ fuel, selfload platform decompressors input fuel = some (.done entry)

/-- An entry point is returned only for a payload that is loaded, and zero for
every other payload. -/
def ReportsFaithfully : Prop :=
  (∀ entry, Returns platform decompressors input entry → entry ≠ 0 →
    Loaded platform decompressors input entry) ∧
  ((¬ ∃ entry, Loaded platform decompressors input entry) → Returns platform decompressors input 0)

/-- The entry point the table gives, which is zero after an unknown record. -/
def tableEntry (count : Nat) : Nat :=
  if (record platform input count).type = payloadSegmentEntry then
    platform.word (record platform input count).loadAddr
  else 0

def Refused (count : Nat) : Prop :=
  input.checkRegions ∧
    ¬ payloadTargetsUsableRam platform input.bootmem (tableSegments platform input count)

/-- No segment that is reached stops the machine for want of a buffer or of heap.
If there is an entry point, none that is reached has an unknown compression; and
if all of them are loaded, the entry point is an address and no segment overwrites
a relocatable ramstage. -/
structure LoadsCarefully (count buffer heap : Nat) : Prop where
  relocated : ∀ segment rest memory heapNow,
    LoadReaches platform decompressors input count buffer heap ⟨segment :: rest, memory, heapNow⟩ →
    relocateSegment platform buffer segment heapNow ≠ .died
  known : tableEntry platform input count ≠ 0 →
    ∀ segment rest memory heapNow,
      LoadReaches platform decompressors input count buffer heap
        ⟨segment :: rest, memory, heapNow⟩ →
      KnownCompression segment
  addressed : tableEntry platform input count ≠ 0 →
    ∀ memory heapNow,
      LoadReaches platform decompressors input count buffer heap ⟨[], memory, heapNow⟩ →
      (record platform input count).loadAddr < 2 ^ platform.bits ∧
        (NeedsBuffer platform input count → ¬ platform.relocatableRamstage)

/-- The table ends, the list of its segments is built, and they are refused, or
there is room to get a buffer, and there is none or the loading is careful. -/
def Careful : Prop :=
  input.mapped = 0 ∨
    ∃ count built, TableEndsAt platform input count ∧
      platform.mallocs platform.sizeofSegment
        (tableSegments platform input count).length input.heap = some built ∧
      (Refused platform input count ∨
        ∃ buffer heap,
          prepare platform input.checkRegions input.bootmem
            (tableSegments platform input count) built = some (buffer, heap) ∧
          (buffer = 0 ∨ LoadsCarefully platform decompressors input count buffer heap))

section Table

variable {platform : Platform} {input : Input}

theorem mallocs_add (size first second heap : Nat) :
    platform.mallocs size (first + second) heap =
      (platform.mallocs size first heap).bind (platform.mallocs size second) := by
  induction second with
  | zero => exact (Option.bind_fun_some _).symm
  | succ second ih =>
    rw [← Nat.add_assoc, Platform.mallocs, ih, Option.bind_assoc]
    rfl

theorem tableSegments_succ (platform : Platform) (input : Input) (count : Nat) :
    tableSegments platform input (count + 1) =
      tableSegments platform input count ++
        (listed platform (record platform input count)).toList := by
  rw [tableSegments, List.range_succ, List.filterMap_append]
  cases found : listed platform (record platform input count) <;> simp [found, tableSegments]

/-- The state of the loop in front of a record. -/
def builtState (platform : Platform) (input : Input) (count heap : Nat) : Building :=
  ⟨input.mapped + Payload.sizeofSegment * count, tableSegments platform input count, heap⟩

theorem take_of_isLoad {segment : PayloadSegment} (isLoad : segment.IsLoad) (state : Building) :
    state.take platform segment = state.insert platform (describe platform.bits segment) := by
  rw [Building.take, describe]
  obtain ⟨type, compression, offset, loadAddr, len, memLen⟩ := segment
  rcases isLoad with code | data | bss
  · obtain rfl : type = payloadSegmentCode := code
    rfl
  · obtain rfl : type = payloadSegmentData := data
    rfl
  · obtain rfl : type = payloadSegmentBss := bss
    rfl

theorem buildStep_builtState (count heap : Nat) :
    buildStep platform input.memory (builtState platform input count heap) =
      (builtState platform input count heap).take platform (record platform input count) :=
  rfl

variable {count heap : Nat}

/-- A record the table goes on after: the heap may be full, or the loop goes on to
the next record. -/
theorem buildStep_of_continues (continues : Continues (record platform input count)) :
    buildStep platform input.memory (builtState platform input count heap) =
      match platform.mallocs platform.sizeofSegment
          (listed platform (record platform input count)).toList.length heap with
      | none => .inr .died
      | some heap => .inl (builtState platform input (count + 1) heap) := by
  have next : input.mapped + Payload.sizeofSegment * count +
      Payload.sizeofSegment = input.mapped + Payload.sizeofSegment * (count + 1) := by
    rw [Nat.mul_succ, Nat.add_assoc]
  rw [buildStep_builtState]
  by_cases params : (record platform input count).type = payloadSegmentParams
  · have skipped : listed platform (record platform input count) = none := if_pos params
    have same := tableSegments_succ platform input count
    rw [skipped, Option.toList_none, List.append_nil] at same
    rw [Building.take, if_pos params, skipped]
    change Sum.inl _ = Sum.inl _
    rw [builtState, builtState, same, next]
  · have present : listed platform (record platform input count) =
        some (describe platform.bits (record platform input count)) :=
      if_neg params
    have more := tableSegments_succ platform input count
    rw [present, Option.toList_some] at more
    rw [take_of_isLoad (continues.resolve_left params), present, Building.insert,
      Option.toList_some, List.length_singleton, Platform.mallocs,
      Platform.mallocs, Option.bind_some]
    change (match platform.malloc platform.sizeofSegment heap with
      | none => _ | some heap => _) = _
    cases platform.malloc platform.sizeofSegment heap with
    | none => rfl
    | some heapNow =>
      change Sum.inl _ = Sum.inl _
      rw [builtState, builtState, more, next]

/-- What the loop leaves after a number of records. -/
def builtAt (platform : Platform) (input : Input) (count heap : Nat) : Built :=
  ⟨tableSegments platform input count, tableEntry platform input count, heap,
    if (record platform input count).type = payloadSegmentEntry then 1 else -1⟩

theorem buildStep_of_ended (ended : ¬ Continues (record platform input count)) :
    buildStep platform input.memory (builtState platform input count heap) =
      .inr (.done (builtAt platform input count heap)) := by
  rw [Continues, PayloadSegment.IsLoad, ← or_assoc, ← or_assoc, not_or, not_or, not_or] at ended
  obtain ⟨⟨⟨params, code⟩, data⟩, bss⟩ := ended
  rw [buildStep_builtState, Building.take, if_neg params,
    if_neg (not_or.mpr ⟨code, data⟩), if_neg bss, builtAt, tableEntry]
  split_ifs <;> rfl

theorem reaches_builtState {built : Nat}
    (continues : ∀ index < count, Continues (record platform input index))
    (room : platform.mallocs platform.sizeofSegment
      (tableSegments platform input count).length heap = some built) :
    Reaches (buildStep platform input.memory)
      (builtState platform input 0 heap)
      (builtState platform input count built) := by
  induction count generalizing built with
  | zero =>
    cases room
    exact .refl
  | succ count ih =>
    rw [tableSegments_succ, List.length_append, mallocs_add] at room
    obtain ⟨between, before, after⟩ := Option.bind_eq_some_iff.mp room
    refine (ih (fun index below => continues index (by omega)) before).tail ?_
    rw [Moves, buildStep_of_continues (continues count (by omega)), after]

theorem endsWith_buildStep_iff {result : Built} :
    EndsWith (buildStep platform input.memory) (builtState platform input 0 heap) (.done result) ↔
      ∃ count built, TableEndsAt platform input count ∧
        platform.mallocs platform.sizeofSegment
          (tableSegments platform input count).length heap = some built ∧
        result = builtAt platform input count built := by
  constructor
  · rintro ⟨last, reaches, ended⟩
    obtain ⟨count, built, continues, room, rfl⟩ :
        ∃ count built,
          (∀ index < count, Continues (record platform input index)) ∧
          platform.mallocs platform.sizeofSegment
            (tableSegments platform input count).length heap = some built ∧
          last = builtState platform input count built := by
      refine reaches.invariant (fun state => ∃ count built,
          (∀ index < count, Continues (record platform input index)) ∧
          platform.mallocs platform.sizeofSegment
            (tableSegments platform input count).length heap = some built ∧
          state = builtState platform input count built)
        ⟨0, heap, fun _ below => absurd below (Nat.not_lt_zero _), rfl, rfl⟩ ?_
      rintro _ next ⟨count, built, continues, room, rfl⟩ moves
      by_cases more : Continues (record platform input count)
      · rw [buildStep_of_continues more] at moves
        split at moves
        next => cases moves
        next heapNow allocated =>
          cases moves
          refine ⟨count + 1, heapNow, fun index below => ?_, ?_, rfl⟩
          · rcases Nat.lt_succ_iff_lt_or_eq.mp below with earlier | rfl
            · exact continues index earlier
            · exact more
          · rw [tableSegments_succ, List.length_append, mallocs_add, room]
            exact allocated
      · rw [buildStep_of_ended more] at moves
        cases moves
    by_cases more : Continues (record platform input count)
    · rw [buildStep_of_continues more] at ended
      split at ended <;> cases ended
    · rw [buildStep_of_ended more] at ended
      cases ended
      exact ⟨count, built, ⟨continues, more⟩, room, rfl⟩
  · rintro ⟨count, built, ⟨continues, ended⟩, room, rfl⟩
    exact ⟨_, reaches_builtState continues room, buildStep_of_ended ended⟩

theorem TableEndsAt.unique {first second : Nat} (one : TableEndsAt platform input first)
    (other : TableEndsAt platform input second) : first = second := by
  rcases Nat.lt_trichotomy first second with below | same | above
  · exact absurd (other.1 first below) one.2
  · exact same
  · exact absurd (one.1 second above) other.2

end Table

section Ends

variable {platform : Platform} {decompressors : Decompressors}

theorem word_le (platform : Platform) (number : Nat) : platform.word number ≤ number :=
  Nat.mod_le _ _

variable {segment : Payload.Segment}

theorem overlapsCoreboot_iff :
    overlapsCoreboot platform segment = true ↔
      platform.lbStart < platform.word (segment.dstaddr + segment.memsz) ∧
        segment.dstaddr < platform.lbEnd := by
  rw [overlapsCoreboot, Bool.not_eq_true', Bool.or_eq_false_iff,
    decide_eq_false_iff_not, decide_eq_false_iff_not, Nat.not_le, Nat.not_le]

/-- How many steps a segment may still take: one that overlaps coreboot is cut at
most as often as it has bytes. -/
def weight (platform : Platform) (segment : Payload.Segment) : Nat :=
  if overlapsCoreboot platform segment then 3 * segment.memsz + 1 else 1

theorem weight_pos (segment : Payload.Segment) : 0 < weight platform segment := by
  rw [weight]
  split_ifs <;> omega

theorem weight_le (segment : Payload.Segment) :
    weight platform segment ≤ 3 * segment.memsz + 1 := by
  rw [weight]
  split_ifs <;> omega

theorem weight_below (ends : segment.dstaddr + segment.memsz = platform.lbStart) :
    weight platform segment = 1 := by
  refine if_neg fun overlaps => ?_
  have above := (overlapsCoreboot_iff.mp overlaps).1
  have inside : platform.word platform.lbStart = platform.lbStart :=
    Nat.mod_eq_of_lt (platform.start_lt.trans platform.end_lt)
  rw [ends, inside] at above
  exact absurd above (Nat.lt_irrefl _)

theorem weight_above (above : platform.lbEnd ≤ segment.dstaddr) : weight platform segment = 1 :=
  if_neg fun overlaps =>
    absurd (overlapsCoreboot_iff.mp overlaps).2 (Nat.not_lt.mpr above)

/-- The slices of a segment that overlaps coreboot, and the bytes that are left
of it: a slice takes at least one. -/
theorem slice_spec (overlaps : overlapsCoreboot platform segment) :
    (∀ early ∈ (slice platform segment).early, weight platform early = 1) ∧
      (∀ late ∈ (slice platform segment).late, weight platform late = 1) ∧
      (slice platform segment).segment.memsz + (slice platform segment).count ≤ segment.memsz := by
  obtain ⟨above, below⟩ := overlapsCoreboot_iff.mp overlaps
  have wrapped := word_le platform (segment.dstaddr + segment.memsz)
  have order := platform.start_lt
  rw [slice]
  by_cases plain : segment.compression = 0
  · rw [if_pos plain]
    by_cases early : segment.dstaddr < platform.lbStart
    · rw [sliceEarly, if_pos early, sliceLate]
      by_cases late : platform.word (segment.dstaddr + segment.memsz) > platform.lbEnd
      · rw [if_pos late]
        refine ⟨fun _ member => ?_, fun _ member => ?_, ?_⟩
        · cases member
          refine weight_below ?_
          simp only [firstPart]
          omega
        · cases member
          refine weight_above ?_
          simp only [lastPart]
          omega
        · simp only [firstPart, lastPart, Relocation.count, Option.toList_some,
            List.length_singleton]
          omega
      · rw [if_neg late]
        refine ⟨fun _ member => ?_, fun _ member => absurd member (by simp), ?_⟩
        · cases member
          refine weight_below ?_
          simp only [firstPart]
          omega
        · simp only [lastPart, Relocation.count, Option.toList_some,
            Option.toList_none, List.length_singleton, List.length_nil]
          omega
    · rw [sliceEarly, if_neg early, sliceLate]
      by_cases late : platform.word (segment.dstaddr + segment.memsz) > platform.lbEnd
      · rw [if_pos late]
        refine ⟨fun _ member => absurd member (by simp), fun _ member => ?_, ?_⟩
        · cases member
          refine weight_above ?_
          simp only [lastPart]
          omega
        · simp only [firstPart, Relocation.count, Option.toList_some,
            Option.toList_none, List.length_singleton, List.length_nil]
          omega
      · rw [if_neg late]
        exact ⟨fun _ member => absurd member (by simp),
          fun _ member => absurd member (by simp), le_rfl⟩
  · rw [if_neg plain]
    exact ⟨fun _ member => absurd member (by simp),
      fun _ member => absurd member (by simp), le_rfl⟩

/-- The steps a list of segments may still take. -/
def totalWeight (platform : Platform) (segments : List Payload.Segment) : Nat :=
  (segments.map (weight platform)).sum

theorem totalWeight_cons (segment : Payload.Segment) (rest : List Payload.Segment) :
    totalWeight platform (segment :: rest) =
      weight platform segment + totalWeight platform rest := by
  rw [totalWeight, List.map_cons, List.sum_cons]
  rfl

theorem totalWeight_late {late : Option Payload.Segment} (rest : List Payload.Segment)
    (light : ∀ segment ∈ late, weight platform segment = 1) :
    totalWeight platform (late.toList ++ rest) =
      late.toList.length + totalWeight platform rest := by
  cases late with
  | none => exact (Nat.zero_add _).symm
  | some segment =>
    rw [Option.toList_some, List.singleton_append, totalWeight_cons,
      light segment rfl, List.length_singleton]

theorem relocateSegment_weight {buffer heap heapNow : Nat}
    (relocated : relocateSegment platform buffer segment heap = .done (relocation, heapNow)) :
    (∀ early ∈ relocation.early, weight platform early = 1) ∧
      (∀ late ∈ relocation.late, weight platform late = 1) ∧
      relocation.late.toList.length < weight platform segment ∧
      (relocation.early.isSome →
        1 + weight platform relocation.segment +
          relocation.late.toList.length < weight platform segment) := by
  rw [relocateSegment] at relocated
  by_cases overlaps : overlapsCoreboot platform segment
  · rw [if_pos overlaps] at relocated
    by_cases supported : platform.archSupportsBounceBuffer
    · rw [if_neg (not_not.mpr supported)] at relocated
      obtain ⟨lightEarly, lightLate, shorter⟩ := slice_spec overlaps
      dsimp only at relocated
      split at relocated
      next => cases relocated
      next heapNow _ =>
        cases relocated
        have whole : weight platform segment = 3 * segment.memsz + 1 := if_pos overlaps
        rw [Relocation.count] at shorter
        refine ⟨lightEarly, lightLate, ?_, fun cut => ?_⟩
        · dsimp only
          omega
        · have one : (slice platform segment).early.toList.length = 1 := by
            obtain ⟨early, found⟩ := Option.isSome_iff_exists.mp cut
            rw [show (slice platform segment).early = some early from found]
            rfl
          refine lt_of_le_of_lt (Nat.add_le_add_right (Nat.add_le_add_left (weight_le _) 1) _) ?_
          dsimp only
          omega
    · rw [if_pos supported] at relocated
      cases relocated
  · rw [if_neg overlaps] at relocated
    cases relocated
    exact ⟨fun _ member => absurd member (by simp),
      fun _ member => absurd member (by simp), weight_pos segment,
      fun cut => absurd cut (by simp)⟩

theorem loadStep_smaller {data buffer : Nat} {state next : State}
    (moves : loadStep platform decompressors data buffer state = .inl next) :
    totalWeight platform next.segments < totalWeight platform state.segments := by
  rw [loadStep] at moves
  split at moves
  next => cases moves
  next segment rest listed =>
    rw [listed, totalWeight_cons]
    split at moves
    next => cases moves
    next early segmentNow late heap relocated =>
      obtain ⟨lightEarly, lightLate, -, shorter⟩ := relocateSegment_weight relocated
      have light := shorter rfl
      have behind : totalWeight platform (late.toList ++ rest) =
          late.toList.length + totalWeight platform rest :=
        totalWeight_late rest lightLate
      cases moves
      dsimp only at light ⊢
      rw [totalWeight_cons, totalWeight_cons, lightEarly early rfl, behind]
      omega
    next segmentNow late heap relocated =>
      obtain ⟨-, lightLate, shorter, -⟩ := relocateSegment_weight relocated
      have behind : totalWeight platform (late.toList ++ rest) =
          late.toList.length + totalWeight platform rest :=
        totalWeight_late rest lightLate
      split at moves
      next memory loaded =>
        cases moves
        dsimp only at shorter ⊢
        rw [behind]
        omega
      next => cases moves
      next => cases moves

theorem exists_endsWith_loadStep (data buffer : Nat) (state : State) :
    ∃ outcome, EndsWith (loadStep platform decompressors data buffer) state outcome :=
  exists_endsWith (fun state => totalWeight platform state.segments)
    (fun _ _ moves => loadStep_smaller moves) state

end Ends

section Loading

variable {platform : Platform} {decompressors : Decompressors}
variable {data buffer heap : Nat} {memory : Memory} {segment : Payload.Segment}
variable {rest : List Payload.Segment}

theorem copySegment_unknown :
    copySegment platform decompressors memory data buffer segment =
      .unknownCompression ↔ ¬ KnownCompression segment := by
  rw [copySegment, copyData, KnownCompression]
  obtain ⟨dstaddr, srcaddr, memsz, filesz, compression⟩ := segment
  match compression with
  | 0 => simp
  | 1 =>
    simp only [true_or, or_true, not_true_eq_false, iff_false]
    split_ifs <;> simp
  | 2 =>
    simp only [or_true, not_true_eq_false, iff_false]
    split_ifs <;> simp
  | _ + 3 => simp

theorem relocateSegment_unknown {heapNow : Nat} (unknown : ¬ KnownCompression segment)
    (relocated : relocateSegment platform buffer segment heap = .done (relocation, heapNow)) :
    relocation.early = none ∧ relocation.late = none := by
  have packed : segment.compression ≠ 0 := fun plain => unknown (.inl plain)
  rw [relocateSegment] at relocated
  split_ifs at relocated
  · dsimp only at relocated
    split at relocated
    · cases relocated
    · cases relocated
      rw [slice, if_neg packed]
      exact ⟨rfl, rfl⟩
  · cases relocated
    exact ⟨rfl, rfl⟩

theorem relocateSegment_compression {heapNow : Nat}
    (relocated : relocateSegment platform buffer segment heap = .done (relocation, heapNow)) :
    relocation.segment.compression = segment.compression := by
  rw [relocateSegment] at relocated
  split_ifs at relocated
  · dsimp only at relocated
    split at relocated
    · cases relocated
    · cases relocated
      rw [slice, sliceEarly, sliceLate]
      split_ifs <;> rfl
  · cases relocated
    rfl

theorem loadStep_unknown (unknown : ¬ KnownCompression segment)
    (relocates : relocateSegment platform buffer segment heap ≠ .died) :
    loadStep platform decompressors data buffer ⟨segment :: rest, memory, heap⟩ =
      .inr (.done (-1)) := by
  rw [loadStep]
  cases relocated : relocateSegment platform buffer segment heap with
  | died => exact absurd relocated relocates
  | done result =>
    obtain ⟨⟨early, segmentNow, late⟩, heapNow⟩ := result
    have same : segmentNow.compression = segment.compression :=
      relocateSegment_compression relocated
    obtain ⟨noEarly, noLate⟩ := relocateSegment_unknown unknown relocated
    subst noEarly noLate
    have still : ¬ KnownCompression segmentNow := by
      rw [KnownCompression, same]
      exact unknown
    simp only [relocated, copySegment_unknown.mpr still]

variable {state : State}

theorem loadStep_keeps {Stuck : Payload.Segment → Prop}
    (stuck : ∀ segment rest memory heap next, Stuck segment →
      loadStep platform decompressors data buffer
        ⟨segment :: rest, memory, heap⟩ ≠ .inl next) {next : State}
    (moves : loadStep platform decompressors data buffer state = .inl next)
    (listed : ∃ segment ∈ state.segments, Stuck segment) :
    ∃ segment ∈ next.segments, Stuck segment := by
  obtain ⟨segments, memory, heap⟩ := state
  obtain ⟨kept, member, stuckKept⟩ := listed
  cases segments with
  | nil => cases member
  | cons segment rest =>
    rcases List.mem_cons.mp member with rfl | later
    · exact absurd moves (stuck _ _ _ _ _ stuckKept)
    · refine ⟨kept, ?_, stuckKept⟩
      rw [loadStep] at moves
      dsimp only at moves
      split at moves
      next => cases moves
      next =>
        cases moves
        simp [later]
      next =>
        split at moves
        next =>
          cases moves
          simp [later]
        next => cases moves
        next => cases moves

theorem not_stuck_of_reaches (Stuck : Payload.Segment → Prop)
    (stuck : ∀ segment rest memory heap next, Stuck segment →
      loadStep platform decompressors data buffer
        ⟨segment :: rest, memory, heap⟩ ≠ .inl next) {heapAfter : Nat}
    (reaches : Reaches (loadStep platform decompressors data buffer) state
      ⟨[], memory, heapAfter⟩) :
    ∀ segment ∈ state.segments, ¬ Stuck segment := by
  intro segment member stuckSegment
  obtain ⟨left, inNil, -⟩ := reaches.invariant
    (fun state => ∃ segment ∈ state.segments, Stuck segment)
    ⟨segment, member, stuckSegment⟩
    fun _ _ listed moves => loadStep_keeps stuck moves listed
  cases inNil

theorem loadStep_unknown_stuck (next : State) (unknown : ¬ KnownCompression segment) :
    loadStep platform decompressors data buffer ⟨segment :: rest, memory, heap⟩ ≠ .inl next := by
  intro moves
  by_cases died : relocateSegment platform buffer segment heap = .died
  · simp only [loadStep, died] at moves
    cases moves
  · rw [loadStep_unknown unknown died] at moves
    cases moves

theorem relocateSegment_unsupported (overlaps : overlapsCoreboot platform segment)
    (unsupported : ¬ platform.archSupportsBounceBuffer) :
    relocateSegment platform buffer segment heap = .died := by
  rw [relocateSegment, if_pos overlaps, if_pos unsupported]

theorem loadStep_of_died (died : relocateSegment platform buffer segment heap = .died) :
    loadStep platform decompressors data buffer ⟨segment :: rest, memory, heap⟩ = .inr .died := by
  simp only [loadStep, died]

theorem loadStep_one (ended : loadStep platform decompressors data buffer state = .inr (.done 1)) :
    state.segments = [] := by
  rw [loadStep] at ended
  split at ended
  next listed => exact listed
  next =>
    split at ended
    next => cases ended
    next => cases ended
    next =>
      split at ended
      next => cases ended
      next => simp at ended
      next => simp at ended

theorem loadStep_died (ended : loadStep platform decompressors data buffer state = .inr .died) :
    ∃ segment rest, state.segments = segment :: rest ∧
      relocateSegment platform buffer segment state.heap = .died := by
  rw [loadStep] at ended
  split at ended
  next => cases ended
  next segment rest listed =>
    split at ended
    next died => exact ⟨segment, rest, listed, died⟩
    next => cases ended
    next =>
      split at ended
      next => cases ended
      next => cases ended
      next => cases ended

theorem loadStep_status {status : Int}
    (ended : loadStep platform decompressors data buffer state = .inr (.done status)) :
    status = 1 ∨ status = 0 ∨ status = -1 := by
  rw [loadStep] at ended
  split at ended
  next => exact .inl (by cases ended; rfl)
  next =>
    split at ended
    next => cases ended
    next => cases ended
    next =>
      split at ended
      next => cases ended
      next => exact .inr (.inl (by cases ended; rfl))
      next => exact .inr (.inr (by cases ended; rfl))

theorem loadStep_minus_one
    (ended : loadStep platform decompressors data buffer state = .inr (.done (-1))) :
    ∃ segment rest, state.segments = segment :: rest ∧ ¬ KnownCompression segment := by
  rw [loadStep] at ended
  split at ended
  next => simp at ended
  next segment rest listed =>
    refine ⟨segment, rest, listed, fun known => ?_⟩
    split at ended
    next => cases ended
    next => cases ended
    next segmentNow late heap relocated =>
      split at ended
      next => cases ended
      next => simp at ended
      next unknown =>
        have plain : segmentNow.compression = segment.compression :=
          relocateSegment_compression relocated
        exact copySegment_unknown.mp unknown (by rwa [KnownCompression, plain])

end Loading

section Call

variable {platform : Platform} {decompressors : Decompressors} {input : Input}
variable {count built buffer heap : Nat}

/-- The list of the segments is given to `load_self_segments`, which returns a
value. -/
def LoadReturns (platform : Platform) (decompressors : Decompressors)
    (input : Input) (count built : Nat) (status : Int) : Prop :=
  ∃ fuel, loadSelfSegments platform decompressors input built
    (tableSegments platform input count) fuel = some (.done status)

theorem loadSelfSegments_mono {segments : List Payload.Segment} {fuel more : Nat}
    {outcome : Outcome Int}
    (ran : loadSelfSegments platform decompressors input built segments fuel = some outcome)
    (le : fuel ≤ more) :
    loadSelfSegments platform decompressors input built segments more = some outcome := by
  rw [loadSelfSegments] at ran ⊢
  split_ifs at ran ⊢ with refused
  · exact ran
  · cases prepared : prepare platform input.checkRegions input.bootmem segments built with
    | none => rwa [prepared] at ran
    | some result =>
      rw [prepared] at ran
      dsimp only at ran ⊢
      split_ifs at ran ⊢
      · exact ran
      · exact run_mono ran le

theorem builtAt_status_ne_zero (count heap : Nat) :
    (builtAt platform input count heap).status ≠ 0 := by
  rw [builtAt]
  dsimp only
  split_ifs <;> decide

variable {entry : Nat} {status : Int}

theorem returns_iff (mapped : input.mapped ≠ 0) :
    Returns platform decompressors input entry ↔
      ∃ count built, TableEndsAt platform input count ∧
        platform.mallocs platform.sizeofSegment
          (tableSegments platform input count).length input.heap = some built ∧
        ∃ status, LoadReturns platform decompressors input count built status ∧
          entry = if status = 0 then 0 else tableEntry platform input count := by
  constructor
  · rintro ⟨fuel, returned⟩
    rw [selfload, if_neg mapped] at returned
    split at returned
    next => cases returned
    next => cases returned
    next result ran =>
      obtain ⟨count, built, ends, room, rfl⟩ :=
        endsWith_buildStep_iff.mp (exists_run_iff.mp ⟨fuel, ran⟩)
      rw [if_neg (builtAt_status_ne_zero count built)] at returned
      refine ⟨count, built, ends, room, ?_⟩
      split at returned
      next => cases returned
      next => cases returned
      next status loaded =>
        refine ⟨status, ⟨fuel, loaded⟩, ?_⟩
        split_ifs at returned ⊢ <;> cases returned <;> rfl
  · rintro ⟨count, built, ends, room, status, ⟨fuelLoad, loaded⟩, rfl⟩
    obtain ⟨fuelBuild, ran⟩ := exists_run_iff.mpr
      (endsWith_buildStep_iff.mpr ⟨count, built, ends, room, rfl⟩)
    refine ⟨max fuelBuild fuelLoad, ?_⟩
    have list : buildSelfSegmentList platform input.memory input.mapped
        input.heap (max fuelBuild fuelLoad) = some (.done (builtAt platform input count built)) :=
      run_mono ran (le_max_left _ _)
    have load : loadSelfSegments platform decompressors input
        (builtAt platform input count built).heap
        (builtAt platform input count built).segments (max fuelBuild fuelLoad) =
          some (.done status) :=
      loadSelfSegments_mono loaded (le_max_right _ _)
    rw [selfload, if_neg mapped, list]
    dsimp only
    rw [if_neg (builtAt_status_ne_zero count built), load]
    dsimp only
    split_ifs <;> rfl

theorem returns_iff_at (mapped : input.mapped ≠ 0) (ends : TableEndsAt platform input count)
    (room : platform.mallocs platform.sizeofSegment
      (tableSegments platform input count).length input.heap = some built) :
    Returns platform decompressors input entry ↔
      ∃ status, LoadReturns platform decompressors input count built status ∧
        entry = if status = 0 then 0 else tableEntry platform input count := by
  rw [returns_iff mapped]
  constructor
  · rintro ⟨other, otherBuilt, otherEnds, otherRoom, status, loaded, same⟩
    obtain rfl := otherEnds.unique ends
    cases otherRoom.symm.trans room
    exact ⟨status, loaded, same⟩
  · rintro ⟨status, loaded, same⟩
    exact ⟨count, built, ends, room, status, loaded, same⟩

theorem loadReturns_refused (refused : Refused platform input count) :
    LoadReturns platform decompressors input count built status ↔ status = 0 := by
  have returned : ∀ fuel, loadSelfSegments platform decompressors input built
      (tableSegments platform input count) fuel = some (.done 0) :=
    fun _ => if_pos refused
  constructor
  · rintro ⟨fuel, other⟩
    cases (returned fuel).symm.trans other
    rfl
  · rintro rfl
    exact ⟨0, returned 0⟩

section

variable (accepted : ¬ Refused platform input count)
include accepted

theorem loadSelfSegments_accepted (fuel : Nat) :
    loadSelfSegments platform decompressors input built (tableSegments platform input count) fuel =
      match prepare platform input.checkRegions input.bootmem
          (tableSegments platform input count) built with
      | none => some .died
      | some (buffer, heap) =>
        if buffer = 0 then some (.done 0)
        else
          run (loadStep platform decompressors input.mapped buffer) fuel
            (startState platform input count heap) :=
  if_neg accepted

theorem not_loadReturns_unprepared (unprepared : prepare platform input.checkRegions input.bootmem
      (tableSegments platform input count) built = none) (status : Int) :
    ¬ LoadReturns platform decompressors input count built status := by
  rintro ⟨fuel, returned⟩
  rw [loadSelfSegments_accepted accepted, unprepared] at returned
  cases returned

theorem loadReturns_noBuffer (prepared : prepare platform input.checkRegions input.bootmem
      (tableSegments platform input count) built = some (0, heap)) :
    LoadReturns platform decompressors input count built status ↔ status = 0 := by
  have returned : ∀ fuel, loadSelfSegments platform decompressors input built
      (tableSegments platform input count) fuel = some (.done 0) := by
    intro fuel
    rw [loadSelfSegments_accepted accepted, prepared]
    rfl
  constructor
  · rintro ⟨fuel, other⟩
    cases (returned fuel).symm.trans other
    rfl
  · rintro rfl
    exact ⟨0, returned 0⟩

theorem loadReturns_iff_endsWith (prepared : prepare platform input.checkRegions input.bootmem
      (tableSegments platform input count) built = some (buffer, heap)) (nonzero : buffer ≠ 0) :
    LoadReturns platform decompressors input count built status ↔
      EndsWith (loadStep platform decompressors input.mapped buffer)
        (startState platform input count heap) (.done status) := by
  rw [← exists_run_iff]
  refine exists_congr fun fuel => ?_
  rw [loadSelfSegments_accepted accepted, prepared]
  dsimp only
  rw [if_neg nonzero]

end

theorem LoadedBy.same {otherCount otherBuffer otherHeap : Nat}
    (loaded : LoadedBy platform decompressors input entry otherCount otherBuffer otherHeap)
    (ends : TableEndsAt platform input count) (room : platform.mallocs platform.sizeofSegment
      (tableSegments platform input count).length input.heap = some built) :
    otherCount = count ∧
      prepare platform input.checkRegions input.bootmem
        (tableSegments platform input count) built = some (otherBuffer, otherHeap) := by
  obtain rfl := TableEndsAt.unique ⟨loaded.table, not_continues_entry loaded.terminated⟩ ends
  obtain ⟨otherBuilt, otherRoom, prepared⟩ := loaded.prepared
  cases otherRoom.symm.trans room
  exact ⟨rfl, prepared⟩

end Call

section Exactness

variable {platform : Platform} {decompressors : Decompressors} {input : Input}
variable {count built buffer heap : Nat}

/-- The facts under which the loop over the segments decides what is returned. -/
structure Decisive (platform : Platform) (input : Input)
    (count built buffer heap : Nat) : Prop where
  mapped : input.mapped ≠ 0
  ends : TableEndsAt platform input count
  room : platform.mallocs platform.sizeofSegment
    (tableSegments platform input count).length input.heap = some built
  accepted : ¬ Refused platform input count
  prepared : prepare platform input.checkRegions input.bootmem
    (tableSegments platform input count) built = some (buffer, heap)
  nonzero : buffer ≠ 0

section

variable (decisive : Decisive platform input count built buffer heap)
include decisive

theorem Decisive.returns_iff {entry : Nat} :
    Returns platform decompressors input entry ↔
      ∃ status,
        EndsWith (loadStep platform decompressors input.mapped buffer)
          (startState platform input count heap) (.done status) ∧
        entry = if status = 0 then 0 else tableEntry platform input count := by
  rw [returns_iff_at decisive.mapped decisive.ends decisive.room]
  refine exists_congr fun status => and_congr_left fun _ => ?_
  exact loadReturns_iff_endsWith decisive.accepted decisive.prepared decisive.nonzero

theorem Decisive.endsWith_of_loaded {entry : Nat}
    (loaded : Loaded platform decompressors input entry) :
    EndsWith (loadStep platform decompressors input.mapped buffer)
      (startState platform input count heap) (.done 1) := by
  obtain ⟨otherCount, otherBuffer, otherHeap, loadedBy⟩ := loaded
  obtain ⟨rfl, prepared⟩ := loadedBy.same decisive.ends decisive.room
  cases Option.some.inj (prepared.symm.trans decisive.prepared)
  obtain ⟨memory, heapAfter, reaches⟩ := loadedBy.loaded
  exact ⟨_, reaches, rfl⟩

/-- The entry point that is returned after the loop returned 1 is that of a
payload that is loaded. -/
theorem Decisive.loaded_of_endsWith
    (ended : EndsWith (loadStep platform decompressors input.mapped buffer)
      (startState platform input count heap) (.done 1))
    (entry : tableEntry platform input count ≠ 0)
    (address : (record platform input count).loadAddr < 2 ^ platform.bits)
    (fixed : NeedsBuffer platform input count → ¬ platform.relocatableRamstage) :
    Loaded platform decompressors input (tableEntry platform input count) := by
  obtain ⟨⟨segments, memory, heapAfter⟩, reaches, last⟩ := ended
  obtain rfl : segments = [] := loadStep_one last
  have terminated : (record platform input count).type = payloadSegmentEntry := by
    by_contra other
    exact entry (if_neg other)
  have supported : NeedsBuffer platform input count → platform.archSupportsBounceBuffer := by
    rintro ⟨segment, member, overlaps⟩
    by_contra unsupported
    refine not_stuck_of_reaches (fun segment => overlapsCoreboot platform segment)
      (fun _ _ _ _ _ stuck => ?_) reaches segment member overlaps
    rw [loadStep_of_died (relocateSegment_unsupported stuck unsupported)]
    exact Sum.inr_ne_inl
  refine ⟨count, buffer, heap, ?_⟩
  exact
    { mapped := decisive.mapped
      table := decisive.ends.1
      terminated
      entry_eq := by
        rw [tableEntry, if_pos terminated, Platform.word, Nat.mod_eq_of_lt address]
      regions := fun check => by
        have passed : payloadTargetsUsableRam platform input.bootmem
            (tableSegments platform input count) := by
          by_contra failed
          exact decisive.accepted ⟨check, failed⟩
        exact List.all_eq_true.mp passed
      prepared := ⟨built, decisive.room, decisive.prepared⟩
      bounced := fun needed =>
        ⟨supported needed, fixed needed, decisive.nonzero⟩
      known := fun segment member => by
        by_contra unknown
        exact not_stuck_of_reaches (fun segment => ¬ KnownCompression segment)
          (fun _ _ _ _ next unknown => loadStep_unknown_stuck next unknown)
          reaches segment member unknown
      loaded := ⟨memory, heapAfter, reaches⟩ }

theorem Decisive.faithful (careful : LoadsCarefully platform decompressors input count buffer heap) :
    ReportsFaithfully platform decompressors input := by
  have sound : ∀ entry, Returns platform decompressors input entry → entry ≠ 0 →
      Loaded platform decompressors input entry := by
    intro entry returned nonzero
    obtain ⟨status, ended, rfl⟩ := decisive.returns_iff.mp returned
    have failed : status ≠ 0 := fun zero => nonzero (if_pos zero)
    rw [if_neg failed] at nonzero ⊢
    obtain ⟨⟨segments, memory, heapAfter⟩, reaches, last⟩ := ended
    rcases loadStep_status last with rfl | rfl | rfl
    · obtain rfl : segments = [] := loadStep_one last
      obtain ⟨address, fixed⟩ := careful.addressed nonzero memory heapAfter reaches
      exact decisive.loaded_of_endsWith ⟨_, reaches, last⟩ nonzero address fixed
    · exact absurd rfl failed
    · obtain ⟨segment, rest, rfl, unknown⟩ := loadStep_minus_one last
      exact absurd (careful.known nonzero segment rest memory heapAfter reaches) unknown
  refine ⟨sound, fun notLoaded => ?_⟩
  obtain ⟨outcome, ended⟩ : ∃ outcome,
      EndsWith (loadStep platform decompressors input.mapped buffer)
        (startState platform input count heap) outcome :=
    exists_endsWith_loadStep _ _ _
  cases outcome with
  | died =>
    obtain ⟨⟨segments, memory, heapAfter⟩, reaches, last⟩ := ended
    obtain ⟨segment, rest, rfl, died⟩ := loadStep_died last
    exact absurd died (careful.relocated segment rest memory heapAfter reaches)
  | done status =>
    have returned : Returns platform decompressors input
        (if status = 0 then 0 else tableEntry platform input count) :=
      decisive.returns_iff.mpr ⟨status, ended, rfl⟩
    by_cases zero : (if status = 0 then 0 else tableEntry platform input count) = 0
    · rwa [zero] at returned
    · exact absurd ⟨_, sound _ returned zero⟩ notLoaded

theorem Decisive.careful (faithful : ReportsFaithfully platform decompressors input) :
    LoadsCarefully platform decompressors input count buffer heap := by
  have notDied : ¬ EndsWith
      (loadStep platform decompressors input.mapped buffer)
      (startState platform input count heap) .died := by
    intro died
    have notLoaded : ¬ ∃ entry, Loaded platform decompressors input entry := by
      rintro ⟨entry, loaded⟩
      cases died.unique (decisive.endsWith_of_loaded loaded)
    obtain ⟨status, ended, -⟩ := decisive.returns_iff.mp (faithful.2 notLoaded)
    cases died.unique ended
  have relocated : ∀ segment rest memory heapNow,
      LoadReaches platform decompressors input count buffer heap
        ⟨segment :: rest, memory, heapNow⟩ →
      relocateSegment platform buffer segment heapNow ≠ .died :=
    fun segment rest memory heapNow reaches died =>
      notDied ⟨_, reaches, loadStep_of_died died⟩
  have loadedOf : ∀ status,
      EndsWith (loadStep platform decompressors input.mapped buffer)
        (startState platform input count heap) (.done status) → status ≠ 0 →
      tableEntry platform input count ≠ 0 →
      Loaded platform decompressors input (tableEntry platform input count) := by
    intro status ended failed nonzero
    refine faithful.1 _ (decisive.returns_iff.mpr ⟨status, ended, ?_⟩) nonzero
    rw [if_neg failed]
  refine ⟨relocated, ?_, ?_⟩
  · intro nonzero segment rest memory heapNow reaches
    by_contra unknown
    have ended : EndsWith (loadStep platform decompressors input.mapped buffer)
        (startState platform input count heap) (.done (-1)) :=
      ⟨_, reaches, loadStep_unknown unknown (relocated segment rest memory heapNow reaches)⟩
    have loaded := loadedOf (-1) ended (by decide) nonzero
    exact absurd (ended.unique (decisive.endsWith_of_loaded loaded)) (by decide)
  · intro nonzero memory heapNow reaches
    obtain ⟨otherCount, otherBuffer, otherHeap, loaded⟩ :=
      loadedOf 1 ⟨_, reaches, rfl⟩ (by decide) nonzero
    obtain ⟨rfl, -⟩ := loaded.same decisive.ends decisive.room
    refine ⟨?_, fun needed => (loaded.bounced needed).2.1⟩
    rw [loaded.entry_eq, tableEntry, if_pos loaded.terminated]
    exact Nat.mod_lt _ (Nat.two_pow_pos _)

end

/-- The loader reports faithfully exactly if the table ends and its segments are
refused, or cannot get a buffer, or are loaded carefully. -/
theorem reportsFaithfully_iff (platform : Platform)
    (decompressors : Decompressors) (input : Input) :
    ReportsFaithfully platform decompressors input ↔ Careful platform decompressors input := by
  by_cases mapped : input.mapped = 0
  · have returned : ∀ fuel, selfload platform decompressors input fuel =
        some (.done 0) := fun _ => if_pos mapped
    refine iff_of_true ⟨?_, fun _ => ⟨0, returned 0⟩⟩ (.inl mapped)
    rintro entry ⟨fuel, other⟩ nonzero
    cases (returned fuel).symm.trans other
    exact absurd rfl nonzero
  by_cases table : ∃ count built, TableEndsAt platform input count ∧
      platform.mallocs platform.sizeofSegment
        (tableSegments platform input count).length input.heap = some built
  · obtain ⟨count, built, ends, room⟩ := table
    have careful_iff : Careful platform decompressors input ↔
        Refused platform input count ∨ ∃ buffer heap,
          prepare platform input.checkRegions input.bootmem
            (tableSegments platform input count) built = some (buffer, heap) ∧
          (buffer = 0 ∨ LoadsCarefully platform decompressors input count buffer heap) := by
      refine ⟨fun careful => ?_, fun decided => .inr ⟨count, built, ends, room, decided⟩⟩
      obtain ⟨otherCount, otherBuilt, otherEnds, otherRoom, decided⟩ := careful.resolve_left mapped
      obtain rfl := otherEnds.unique ends
      obtain rfl := Option.some.inj (otherRoom.symm.trans room)
      exact decided
    rw [careful_iff]
    -- A call that can return zero only is faithful.
    have zeroOnly : (∀ status,
        LoadReturns platform decompressors input count built status ↔
          status = 0) → ReportsFaithfully platform decompressors input := by
      intro only
      refine ⟨fun entry returned nonzero => ?_, fun _ => ?_⟩
      · obtain ⟨status, loaded, rfl⟩ := (returns_iff_at mapped ends room).mp returned
        exact absurd (if_pos ((only status).mp loaded)) nonzero
      · exact (returns_iff_at mapped ends room).mpr ⟨0, (only 0).mpr rfl, (if_pos rfl).symm⟩
    by_cases refused : Refused platform input count
    · exact iff_of_true (zeroOnly fun _ => loadReturns_refused refused) (.inl refused)
    cases prepared : prepare platform input.checkRegions input.bootmem
        (tableSegments platform input count) built with
    | none =>
      refine iff_of_false (fun faithful => ?_) ?_
      · have notLoaded : ¬ ∃ entry, Loaded platform decompressors input entry := by
          rintro ⟨entry, otherCount, buffer, heap, loaded⟩
          obtain ⟨rfl, some⟩ := loaded.same ends room
          cases prepared.symm.trans some
        obtain ⟨status, loaded, -⟩ := (returns_iff_at mapped ends room).mp (faithful.2 notLoaded)
        exact not_loadReturns_unprepared refused prepared status loaded
      · rintro (refusedNow | ⟨buffer, heap, some, -⟩)
        · exact refused refusedNow
        · cases some
    | some result =>
      obtain ⟨buffer, heap⟩ := result
      by_cases zero : buffer = 0
      · subst zero
        exact iff_of_true
          (zeroOnly fun _ => loadReturns_noBuffer refused prepared)
          (.inr ⟨0, heap, rfl, .inl rfl⟩)
      · have decisive : Decisive platform input count built buffer heap :=
          ⟨mapped, ends, room, refused, prepared, zero⟩
        constructor
        · exact fun faithful =>
            .inr ⟨buffer, heap, rfl, .inr (decisive.careful faithful)⟩
        · rintro (refusedNow | ⟨_, _, same, decided⟩)
          · exact absurd refusedNow refused
          · cases same
            exact decisive.faithful (decided.resolve_left zero)
  · refine iff_of_false (fun faithful => table ?_) ?_
    · have notLoaded : ¬ ∃ entry, Loaded platform decompressors input entry := by
        rintro ⟨entry, count, buffer, heap, loaded⟩
        obtain ⟨built, room, -⟩ := loaded.prepared
        exact table ⟨count, built, ⟨loaded.table, not_continues_entry loaded.terminated⟩, room⟩
      obtain ⟨count, built, ends, room, -⟩ := (returns_iff mapped).mp (faithful.2 notLoaded)
      exact ⟨count, built, ends, room⟩
    · rintro (zero | ⟨count, built, ends, room, -⟩)
      · exact mapped zero
      · exact table ⟨count, built, ends, room⟩

end Exactness

def fixedRamstage : Platform where
  bits := 32
  lbStart := 0x100000
  lbEnd := 0x140000
  heapEnd := 0x140000
  archSupportsBounceBuffer := true
  relocatableRamstage := false
  bits_eq := .inl rfl
  start_lt := by decide
  end_lt := by decide

/-- Decompressors that find an error in everything. -/
def failing : Decompressors where
  ulzman memory _ _ _ _ := (memory, 0)
  ulz4fn memory _ _ _ _ := (memory, 0)

/-- A payload of 16 bytes of code, whose compression is 3. -/
def unknownPayload : Input where
  memory := store (fun _ => 0) 0xfff00000
    (encodeSegment ⟨payloadSegmentCode, 3, 56, 0x200000, 16, 16⟩ ++
      encodeSegment ⟨payloadSegmentEntry, 0, 0, 0x200000, 0, 0⟩)
  mapped := 0xfff00000
  bootmem := ⟨[⟨0x100000, 0x7ffffff, lbMemRam⟩], 0⟩
  heap := 0x138000
  checkRegions := true

/-- The entry point of a payload that was not loaded is returned. -/
theorem not_reportsFaithfully_unknownPayload :
    ¬ ReportsFaithfully fixedRamstage failing unknownPayload := by
  intro faithful
  have returned : Returns fixedRamstage failing unknownPayload 0x200000 := ⟨3, by decide +kernel⟩
  obtain ⟨count, buffer, heap, loaded⟩ := faithful.1 _ returned (by decide)
  rcases count with _ | _ | count
  · exact absurd loaded.terminated (by decide +kernel)
  · have first : (⟨0x200000, 56, 16, 16, 3⟩ : Payload.Segment) ∈
        tableSegments fixedRamstage unknownPayload 1 := by decide +kernel
    exact absurd (loaded.known _ first) (by decide)
  · exact absurd (loaded.table 1 (by omega)) (by decide +kernel)

end Coreboot.Selfload
