import Coreboot.FlashmapDescriptor

/-!
# Flash maps of descriptors

A flash map is a flat list of areas with absolute offsets, made of the tree of a completed
descriptor.
-/

namespace Coreboot.Flashmap

structure FmapArea where
  offset : BitVec 32
  size : BitVec 32
  name : String
  flags : BitVec 16
deriving DecidableEq, Repr

/-- `struct fmap`; the number of areas is that of the list. -/
structure Fmap where
  signature : String
  verMajor : BitVec 8
  verMinor : BitVec 8
  base : BitVec 64
  size : BitVec 32
  name : String
  areas : List FmapArea
deriving DecidableEq, Repr

def fmapStrlen : Nat := 32

def strlen (name : String) : Nat := name.utf8ByteSize

def fmapCreate (base : BitVec 64) (size : BitVec 32) (name : String) : Fmap :=
  ⟨"__FMAP__", 1, 1, base, size, name, []⟩

/-- `fmap_append_area`; there is no place for more than 65535 areas. -/
def fmapAppendArea (fmap : Fmap) (offset size : BitVec 32) (name : String)
    (flags : BitVec 16) : Option Fmap :=
  if fmap.areas.length ≥ 0xffff then none
  else some { fmap with areas := fmap.areas ++ [⟨offset, size, name, flags⟩] }

mutual

def fmapAppendFmdNode : Fmap → Descriptor → BitVec 32 → Option Fmap
  | flashmap, .node sect list, absoluteWatermark =>
    if strlen sect.name ≥ fmapStrlen then none
    else
      let absoluteWatermark := absoluteWatermark + sect.offset.getD 0
      (fmapAppendArea flashmap absoluteWatermark (sect.size.getD 0) sect.name
        0).bind fun flashmap =>
          fmapAppendFmdNodes flashmap list absoluteWatermark

def fmapAppendFmdNodes : Fmap → List Descriptor → BitVec 32 → Option Fmap
  | flashmap, [], _ => some flashmap
  | flashmap, subsection :: rest, absoluteWatermark =>
    (fmapAppendFmdNode flashmap subsection absoluteWatermark).bind
      fun flashmap => fmapAppendFmdNodes flashmap rest absoluteWatermark

end

def fmapFromFmd : Descriptor → Option Fmap
  | .node desc list =>
    if strlen desc.name ≥ fmapStrlen then none
    else
      fmapAppendFmdNodes
        (fmapCreate ((desc.offset.getD 0).setWidth 64) (desc.size.getD 0) desc.name) list 0

def fmdNotfound : BitVec 32 := 0xffffffff

mutual

def fmdFindNode : Descriptor → String → Option Descriptor
  | .node root list, name =>
    if root.name = name then some (.node root list)
    else fmdFindNodes list name

def fmdFindNodes : List Descriptor → String → Option Descriptor
  | [], _ => none
  | descendant :: rest, name =>
    match fmdFindNode descendant name with
    | some found => some found
    | none => fmdFindNodes rest name

end

mutual

def fmdCalcAbsoluteOffset : Descriptor → String → BitVec 32
  | .node root list, name =>
    if root.name = name then 0 else fmdCalcAbsoluteOffsets list name

def fmdCalcAbsoluteOffsets : List Descriptor → String → BitVec 32
  | [], _ => fmdNotfound
  | descendant :: rest, name =>
    let subtotal := fmdCalcAbsoluteOffset descendant name
    if subtotal ≠ fmdNotfound then
      descendant.region.offset.getD 0 + subtotal
    else fmdCalcAbsoluteOffsets rest name

end

structure PlacedSection where
  region : Region
  absolute : Nat
deriving DecidableEq, Repr

def Region.relative (region : Region) : Nat := (region.offset.getD 0).toNat

mutual

/-- The sections below a node, every section before those in it.  The offsets are
sums of the relative offsets on the path, from that of the node on. -/
def Descriptor.sections : Descriptor → Nat → List PlacedSection
  | .node _ list, base => sectionsOf list base

def sectionsOf : List Descriptor → Nat → List PlacedSection
  | [], _ => []
  | child :: rest, base =>
    ⟨child.region, base + child.region.relative⟩ ::
      (child.sections (base + child.region.relative) ++ sectionsOf rest base)

end

def Descriptor.names (root : Descriptor) : List String :=
  root.region.name :: (root.sections 0).map fun sect => sect.region.name

structure FmapArea.Describes (area : FmapArea) (sect : PlacedSection) :
    Prop where
  name : area.name = sect.region.name
  size : sect.region.size = some area.size
  offset : area.offset.toNat = sect.absolute

structure Fmap.Lists (fmap : Fmap) (root : Descriptor) : Prop where
  areas : List.Forall₂ FmapArea.Describes fmap.areas (root.sections 0)
  name : fmap.name = root.region.name
  size : root.region.size = some fmap.size
  base : fmap.base = (root.region.offset.getD 0).setWidth 64

/-- The format has room for the names and the number of sections. -/
structure Descriptor.Representable (root : Descriptor) : Prop where
  short : ∀ name ∈ root.names, strlen name < fmapStrlen
  few : (root.sections 0).length ≤ 0xffff

/-- An offset is found for every section, and only for names in the tree. -/
structure Locates (root : Descriptor) : Prop where
  same : ∀ sect ∈ root.sections 0,
    (fmdCalcAbsoluteOffset root sect.region.name).toNat = sect.absolute
  node : ∀ name, fmdFindNode root name = none ↔ name ∉ root.names
  offset : ∀ name, fmdCalcAbsoluteOffset root name = fmdNotfound ↔ name ∉ root.names

/-- The map is made exactly if the format has room for it, and lists all sections
with the offsets that are found in the tree. -/
structure Emits (root : Descriptor) : Prop where
  limits : (fmapFromFmd root).isSome ↔ root.Representable
  lists : ∀ fmap, fmapFromFmd root = some fmap → fmap.Lists root
  locates : Locates root

/-- All sections are listed and located. -/
structure EmitsAll (root : Descriptor) : Prop where
  lists : ∃ fmap, fmapFromFmd root = some fmap ∧ fmap.Lists root
  locates : Locates root

/-- No offset is as large as the value for sections that are not found, and a section
with the name of the chip starts where the chip does. -/
structure Unambiguous (root : Descriptor) : Prop where
  below : ∀ sect ∈ root.sections 0, sect.absolute < 0xffffffff
  root : ∀ sect ∈ root.sections 0, sect.region.name = root.region.name → sect.absolute = 0

section Known

def Region.Known (region : Region) : Prop :=
  ∃ offset size, region.offset = some offset ∧ region.size = some size

theorem completeMissingInfoBackward_known {pending complete result : List Region}
    {endWatermark : BitVec 32} (known : ∀ region ∈ complete, region.Known)
    (run : completeMissingInfoBackward pending endWatermark complete = some result) :
    ∀ region ∈ result, region.Known := by
  induction pending generalizing endWatermark complete with
  | nil =>
    cases run
    exact known
  | cons cur earlier ih =>
    obtain ⟨name, offset, size⟩ := cur
    unfold completeMissingInfoBackward at run
    cases offset with
    | none =>
      cases size with
      | none => cases run
      | some size =>
        dsimp only at run
        split_ifs at run
        exact ih (List.forall_mem_cons.mpr ⟨⟨_, _, rfl, rfl⟩, known⟩) run
    | some offset =>
      cases size with
      | none =>
        dsimp only at run
        split_ifs at run
        exact ih (List.forall_mem_cons.mpr ⟨⟨_, _, rfl, rfl⟩, known⟩) run
      | some size =>
        exact ih (List.forall_mem_cons.mpr ⟨⟨_, _, rfl, rfl⟩, known⟩) run

theorem LevelRun.known {parentSize watermark : BitVec 32} {regions result : List Region}
    {names final : List String} (run : LevelRun parentSize watermark regions names result final) :
    ∀ region ∈ result, region.Known := by
  induction run with
  | done inside => exact List.forall_mem_nil _
  | sized known above positive fresh run ih =>
    exact List.forall_mem_cons.mpr ⟨⟨_, _, rfl, known⟩, ih⟩
  | unsized unknown above fresh follow endpoint backward run ih =>
    intro region member
    rcases List.mem_append.mp member with first | later
    · exact completeMissingInfoBackward_known
        (List.forall_mem_nil _) backward region first
    · exact ih region later

mutual

theorem validateAndCompleteInfo_known : ∀ {descriptor complete : Descriptor}
    {region : Region} {names final : List String},
    validateAndCompleteInfo descriptor region names = some (complete, final) →
    complete.region = region ∧ (∃ size, region.size = some size) ∧
      ∀ base, ∀ sect ∈ complete.sections base, sect.region.Known
  | .node given list, complete, region, names, final, run => by
    rw [validateAndCompleteInfo] at run
    obtain ⟨size, known, run⟩ := Option.bind_eq_some_iff.mp run
    obtain ⟨⟨regions, names'⟩, level, run⟩ := Option.bind_eq_some_iff.mp run
    obtain ⟨⟨list', final'⟩, children, same⟩ := Option.map_eq_some_iff.mp run
    cases same
    have levelRun := levelRun_of_completeLevel (fun _ => BitVec.le_def.mpr (Nat.zero_le _)) level
    exact ⟨rfl, ⟨size, known⟩, validateAndCompleteList_known levelRun.known children⟩

theorem validateAndCompleteList_known : ∀ {list complete : List Descriptor}
    {regions : List Region} {names final : List String},
    (∀ region ∈ regions, region.Known) →
    validateAndCompleteList list regions names = some (complete, final) →
    ∀ base, ∀ sect ∈ sectionsOf complete base, sect.region.Known
  | [], complete, regions, names, final, known, run => by
    cases run
    exact fun _ _ => nofun
  | descriptor :: rest, complete, [], names, final, known, run => by
    cases run
  | descriptor :: rest, complete, region :: regions, names, final, known,
      run => by
    rw [validateAndCompleteList] at run
    obtain ⟨⟨child, names'⟩, own, run⟩ := Option.bind_eq_some_iff.mp run
    obtain ⟨⟨rest', final'⟩, behind, same⟩ := Option.map_eq_some_iff.mp run
    cases same
    obtain ⟨first, later⟩ := List.forall_mem_cons.mp known
    obtain ⟨field, -, below⟩ := validateAndCompleteInfo_known own
    have others := validateAndCompleteList_known later behind
    intro base sect member
    rw [sectionsOf] at member
    rcases List.mem_cons.mp member with rfl | member
    · rw [← field] at first
      exact first
    · rcases List.mem_append.mp member with inside | outside
      · exact below _ sect inside
      · exact others _ sect outside

end

mutual

theorem names_sections : ∀ (descriptor : Descriptor) (base : Nat),
    ((descriptor.sections base).map fun sect => sect.region.name).Perm descriptor.subnames
  | .node region list, base => by
    rw [Descriptor.sections, Descriptor.subnames]
    exact names_sectionsOf list base

theorem names_sectionsOf : ∀ (list : List Descriptor) (base : Nat),
    ((sectionsOf list base).map fun sect => sect.region.name).Perm
      (list.map (fun child => child.region.name) ++ subnamesList list)
  | [], base => List.Perm.refl _
  | child :: rest, base => by
    have inside := names_sections child (base + child.region.relative)
    have outside := names_sectionsOf rest base
    rw [sectionsOf, List.map_cons, List.map_append, List.map_cons, subnamesList, List.cons_append]
    apply List.Perm.cons
    exact (inside.append outside).trans (List.perm_append_comm_assoc _ _ _)

end

theorem nodup_of_created {root complete : Descriptor} (created : fmdCreate root = some complete) :
    ((complete.sections 0).map fun sect => sect.region.name).Nodup := by
  obtain ⟨⟨complete', final⟩, run, same⟩ := Option.map_eq_some_iff.mp created
  obtain rfl : complete' = complete := same
  obtain ⟨-, extends', table, distinct, -⟩ := validateAndCompleteInfo_spec run
  have kept : root.Extends complete' := extends' ⟨rfl, fun _ known => known, fun _ known => known⟩
  have all := distinct List.nodup_nil
  rw [table, List.append_nil, List.nodup_reverse, ← kept.subnames_eq.1] at all
  exact (names_sections complete' 0).nodup_iff.mpr all

end Known

variable {sect : PlacedSection}

section Emission

def PlacedSection.area (sect : PlacedSection) : FmapArea :=
  ⟨BitVec.ofNat 32 sect.absolute, sect.region.size.getD 0, sect.region.name, 0⟩

def appendSection (flashmap : Fmap) (sect : PlacedSection) : Option Fmap :=
  if strlen sect.region.name ≥ fmapStrlen then none
  else fmapAppendArea flashmap sect.area.offset sect.area.size sect.area.name 0

theorem appendSection_of_long (long : strlen sect.region.name ≥ fmapStrlen)
    (flashmap : Fmap) : appendSection flashmap sect = none :=
  if_pos long

theorem appendSection_of_short (short : ¬ strlen sect.region.name ≥ fmapStrlen) (flashmap : Fmap) :
    appendSection flashmap sect = fmapAppendArea flashmap sect.area.offset
      sect.area.size sect.area.name 0 :=
  if_neg short

theorem ofNat_add_relative (base : Nat) (region : Region) :
    BitVec.ofNat 32 base + region.offset.getD 0 = BitVec.ofNat 32 (base + region.relative) := by
  apply BitVec.eq_of_toNat_eq
  simp [Region.relative]

mutual

theorem fmapAppendFmdNode_eq : ∀ (descriptor : Descriptor) (flashmap : Fmap)
    (base : Nat),
    fmapAppendFmdNode flashmap descriptor (BitVec.ofNat 32 base) =
      (⟨descriptor.region, base + descriptor.region.relative⟩ ::
        descriptor.sections (base + descriptor.region.relative)).foldlM appendSection flashmap
  | .node sect list, flashmap, base => by
    rw [fmapAppendFmdNode, List.foldlM_cons]
    rw [ofNat_add_relative]
    by_cases long : strlen sect.name ≥ fmapStrlen
    · rw [if_pos long, appendSection_of_long long]
      rfl
    · rw [if_neg long, appendSection_of_short long]
      exact Option.bind_congr fun appended _ =>
        fmapAppendFmdNodes_eq list appended _

theorem fmapAppendFmdNodes_eq : ∀ (list : List Descriptor) (flashmap : Fmap)
    (base : Nat),
    fmapAppendFmdNodes flashmap list (BitVec.ofNat 32 base) =
      (sectionsOf list base).foldlM appendSection flashmap
  | [], flashmap, base => rfl
  | child :: rest, flashmap, base => by
    rw [fmapAppendFmdNodes, fmapAppendFmdNode_eq, sectionsOf,
      ← List.cons_append, List.foldlM_append]
    exact Option.bind_congr fun appended _ =>
      fmapAppendFmdNodes_eq rest appended base

end

theorem foldlM_appendSection (sects : List PlacedSection) (flashmap : Fmap)
    (room : flashmap.areas.length ≤ 0xffff) :
    sects.foldlM appendSection flashmap =
      if (∀ sect ∈ sects, strlen sect.region.name < fmapStrlen) ∧
          flashmap.areas.length + sects.length ≤ 0xffff then
        some { flashmap with
          areas := flashmap.areas ++ sects.map PlacedSection.area }
      else none := by
  induction sects generalizing flashmap with
  | nil => simp [room]
  | cons sect rest ih =>
    rw [List.foldlM_cons]
    by_cases long : strlen sect.region.name ≥ fmapStrlen
    · rw [appendSection_of_long long, if_neg fun short =>
        absurd (short.1 sect List.mem_cons_self) (Nat.not_lt.mpr long)]
      rfl
    · rw [appendSection_of_short long]
      unfold fmapAppendArea
      by_cases full : flashmap.areas.length ≥ 0xffff
      · rw [if_pos full, if_neg fun few => by
          have count := few.2
          rw [List.length_cons] at count
          omega]
        rfl
      · rw [if_neg full]
        refine (ih _ (by
          rw [List.length_append, List.length_singleton]
          omega)).trans ?_
        have same : ((∀ other ∈ rest, strlen other.region.name < fmapStrlen) ∧
            (flashmap.areas ++ [sect.area]).length + rest.length ≤ 0xffff) ↔
            (∀ other ∈ sect :: rest, strlen other.region.name < fmapStrlen) ∧
            flashmap.areas.length + (sect :: rest).length ≤ 0xffff := by
          rw [List.forall_mem_cons, List.length_append, List.length_singleton, List.length_cons]
          have short := Nat.lt_of_not_le long
          constructor
          · exact fun ⟨first, second⟩ => ⟨⟨short, first⟩, by omega⟩
          · exact fun ⟨first, second⟩ => ⟨first.2, by omega⟩
        by_cases fits : (∀ other ∈ sect :: rest,
            strlen other.region.name < fmapStrlen) ∧
            flashmap.areas.length + (sect :: rest).length ≤ 0xffff
        · rw [if_pos fits]
          refine (if_pos (same.mpr fits)).trans ?_
          simp [PlacedSection.area]
        · rw [if_neg fits]
          exact if_neg (mt same.mp fits)

variable {root : Descriptor}

theorem fmapFromFmd_eq (short : strlen root.region.name < fmapStrlen) :
    fmapFromFmd root = (root.sections 0).foldlM appendSection
      (fmapCreate ((root.region.offset.getD 0).setWidth 64)
        (root.region.size.getD 0) root.region.name) := by
  obtain ⟨desc, list⟩ := root
  have short' : ¬ strlen desc.name ≥ fmapStrlen := Nat.not_le.mpr short
  rw [fmapFromFmd, if_neg short']
  exact fmapAppendFmdNodes_eq list _ 0

theorem fmapFromFmd_of_long (long : strlen root.region.name ≥ fmapStrlen) :
    fmapFromFmd root = none := by
  obtain ⟨desc, list⟩ := root
  exact if_pos long

theorem representable_iff (root : Descriptor) :
    root.Representable ↔ strlen root.region.name < fmapStrlen ∧
      (∀ sect ∈ root.sections 0, strlen sect.region.name < fmapStrlen) ∧
        (root.sections 0).length ≤ 0xffff := by
  have names : (∀ name ∈ root.names, strlen name < fmapStrlen) ↔
      strlen root.region.name < fmapStrlen ∧
        ∀ sect ∈ root.sections 0, strlen sect.region.name < fmapStrlen := by
    simp [Descriptor.names]
  constructor
  · rintro ⟨short, few⟩
    exact ⟨(names.mp short).1, (names.mp short).2, few⟩
  · rintro ⟨own, short, few⟩
    exact ⟨names.mpr ⟨own, short⟩, few⟩

/-- The map of a tree that the format has room for. -/
def mapOf (root : Descriptor) : Fmap :=
  { fmapCreate ((root.region.offset.getD 0).setWidth 64)
      (root.region.size.getD 0) root.region.name with
    areas := (root.sections 0).map PlacedSection.area }

theorem fmapFromFmd_eq_some {fmap : Fmap} :
    fmapFromFmd root = some fmap ↔ root.Representable ∧ mapOf root = fmap := by
  rw [representable_iff]
  by_cases long : strlen root.region.name ≥ fmapStrlen
  · rw [fmapFromFmd_of_long long]
    exact ⟨nofun, fun good => absurd good.1.1 (Nat.not_lt.mpr long)⟩
  · have short : strlen root.region.name < fmapStrlen := Nat.lt_of_not_le long
    rw [fmapFromFmd_eq short, foldlM_appendSection _ _ (Nat.zero_le _)]
    have empty : (fmapCreate ((root.region.offset.getD 0).setWidth 64)
        (root.region.size.getD 0) root.region.name).areas.length = 0 := rfl
    rw [empty, Nat.zero_add]
    constructor
    · intro made
      split_ifs at made with fits
      exact ⟨⟨short, fits⟩, Option.some.inj made⟩
    · rintro ⟨⟨-, fits⟩, rfl⟩
      rw [if_pos fits]
      rfl

end Emission

section Lookup

def PlacedSection.shift (base : Nat) (sect : PlacedSection) : PlacedSection :=
  ⟨sect.region, base + sect.absolute⟩

mutual

theorem sections_eq_map : ∀ (descriptor : Descriptor) (base : Nat),
    descriptor.sections base = (descriptor.sections 0).map (PlacedSection.shift base)
  | .node region list, base => by
    rw [Descriptor.sections, Descriptor.sections]
    exact sectionsOf_eq_map list base

theorem sectionsOf_eq_map : ∀ (list : List Descriptor) (base : Nat),
    sectionsOf list base = (sectionsOf list 0).map (PlacedSection.shift base)
  | [], base => rfl
  | child :: rest, base => by
    rw [sectionsOf, sectionsOf, List.map_cons, List.map_append, sectionsOf_eq_map rest base,
      sections_eq_map child (base + _), sections_eq_map child (0 + _), List.map_map]
    simp [PlacedSection.shift, Function.comp_def, Nat.add_assoc]

end

def namesIn (sects : List PlacedSection) : List String := sects.map fun sect => sect.region.name

theorem namesIn_sections (descriptor : Descriptor) (base : Nat) :
    namesIn (descriptor.sections base) = namesIn (descriptor.sections 0) := by
  unfold namesIn
  rw [sections_eq_map descriptor base, List.map_map]
  rfl

theorem namesIn_cons (child : Descriptor) (rest : List Descriptor) (base : Nat) :
    namesIn (sectionsOf (child :: rest) base) =
      child.region.name :: (namesIn (child.sections 0) ++ namesIn (sectionsOf rest base)) := by
  rw [← namesIn_sections child (base + child.region.relative)]
  unfold namesIn
  rw [sectionsOf, List.map_cons, List.map_append]

theorem names_eq (root : Descriptor) : root.names = root.region.name :: namesIn (root.sections 0) :=
  rfl

mutual

theorem fmdFindNode_eq_none : ∀ (root : Descriptor) (name : String),
    fmdFindNode root name = none ↔ name ∉ root.names
  | .node region list, name => by
    have below := fmdFindNodes_eq_none list name
    rw [fmdFindNode, names_eq, Descriptor.sections, List.mem_cons, not_or, ← below]
    by_cases here : region.name = name
    · rw [if_pos here]
      exact ⟨nofun, fun missing => absurd here.symm missing.1⟩
    · rw [if_neg here]
      exact ⟨fun missing => ⟨Ne.symm here, missing⟩, And.right⟩

theorem fmdFindNodes_eq_none : ∀ (list : List Descriptor) (name : String),
    fmdFindNodes list name = none ↔ name ∉ namesIn (sectionsOf list 0)
  | [], name => by simp [fmdFindNodes, sectionsOf, namesIn]
  | descendant :: rest, name => by
    have first := fmdFindNode_eq_none descendant name
    have later := fmdFindNodes_eq_none rest name
    rw [namesIn_cons, ← List.cons_append, ← names_eq, List.mem_append, not_or,
      ← first, ← later, fmdFindNodes]
    cases fmdFindNode descendant name with
    | none => simp
    | some found => simp

end

mutual

theorem fmdCalcAbsoluteOffset_missing : ∀ (root : Descriptor) {name : String},
    name ∉ root.names → fmdCalcAbsoluteOffset root name = fmdNotfound
  | .node region list, name, missing => by
    rw [names_eq, List.mem_cons, not_or] at missing
    have other : region.name ≠ name := Ne.symm missing.1
    rw [fmdCalcAbsoluteOffset, if_neg other]
    exact fmdCalcAbsoluteOffsets_missing list missing.2

theorem fmdCalcAbsoluteOffsets_missing : ∀ (list : List Descriptor)
    {name : String}, name ∉ namesIn (sectionsOf list 0) →
    fmdCalcAbsoluteOffsets list name = fmdNotfound
  | [], name, missing => rfl
  | descendant :: rest, name, missing => by
    rw [namesIn_cons, ← List.cons_append, ← names_eq, List.mem_append, not_or] at missing
    rw [fmdCalcAbsoluteOffsets, fmdCalcAbsoluteOffset_missing descendant missing.1]
    simp [fmdCalcAbsoluteOffsets_missing rest missing.2]

end

mutual

/-- With distinct names, and sums below the value for sections that are not found,
the recursion adds up the relative offsets. -/
theorem fmdCalcAbsoluteOffset_found : ∀ (root : Descriptor)
    {sect : PlacedSection}, root.names.Nodup →
    (∀ sect ∈ root.sections 0, sect.absolute < 0xffffffff) →
    sect ∈ root.sections 0 →
    (fmdCalcAbsoluteOffset root sect.region.name).toNat = sect.absolute
  | .node region list, sect, distinct, below, member => by
    rw [names_eq, List.nodup_cons] at distinct
    have other : region.name ≠ sect.region.name := fun same =>
      distinct.1 (List.mem_map.mpr ⟨sect, member, same.symm⟩)
    rw [fmdCalcAbsoluteOffset, if_neg other]
    exact fmdCalcAbsoluteOffsets_found list distinct.2 below member

theorem fmdCalcAbsoluteOffsets_found : ∀ (list : List Descriptor)
    {sect : PlacedSection}, (namesIn (sectionsOf list 0)).Nodup →
    (∀ sect ∈ sectionsOf list 0, sect.absolute < 0xffffffff) →
    sect ∈ sectionsOf list 0 →
    (fmdCalcAbsoluteOffsets list sect.region.name).toNat = sect.absolute
  | [], sect, distinct, below, member => absurd member List.not_mem_nil
  | descendant :: rest, sect, distinct, below, member => by
    rw [namesIn_cons, ← List.cons_append, ← names_eq, List.nodup_append] at distinct
    obtain ⟨own, others, apart⟩ := distinct
    rw [sectionsOf, Nat.zero_add] at below member
    obtain ⟨start, below⟩ := List.forall_mem_cons.mp below
    rw [List.forall_mem_append] at below
    have found (sect' : PlacedSection)
        (subtotal : (fmdCalcAbsoluteOffset descendant sect'.region.name).toNat = sect'.absolute)
        (small : descendant.region.relative + sect'.absolute < 0xffffffff) :
        (fmdCalcAbsoluteOffsets (descendant :: rest)
          sect'.region.name).toNat = descendant.region.relative + sect'.absolute := by
      have some' : fmdCalcAbsoluteOffset descendant sect'.region.name ≠ fmdNotfound := by
        intro none'
        rw [none'] at subtotal
        have value : fmdNotfound.toNat = 0xffffffff := rfl
        omega
      rw [fmdCalcAbsoluteOffsets, if_pos some', BitVec.toNat_add, subtotal]
      exact Nat.mod_eq_of_lt (by
        show descendant.region.relative + _ < 4294967296
        omega)
    rcases List.mem_cons.mp member with rfl | member
    · have zero : (fmdCalcAbsoluteOffset descendant descendant.region.name).toNat = 0 := by
        obtain ⟨region, list⟩ := descendant
        unfold fmdCalcAbsoluteOffset
        simp [Descriptor.region]
      exact found ⟨descendant.region, 0⟩ zero start
    · rcases List.mem_append.mp member with inside | outside
      · have below' := below.1
        rw [sections_eq_map, List.forall_mem_map] at below'
        rw [sections_eq_map] at inside
        obtain ⟨sect', inside', rfl⟩ := List.mem_map.mp inside
        have subtotal := fmdCalcAbsoluteOffset_found descendant own
          (fun other member => by
            have bound := below' other member
            unfold PlacedSection.shift at bound
            dsimp only at bound
            omega) inside'
        exact found sect' subtotal (below' sect' inside')
      · have missing : sect.region.name ∉ descendant.names := fun named =>
          apart _ named _ (List.mem_map.mpr ⟨sect, outside, rfl⟩) rfl
        rw [fmdCalcAbsoluteOffsets, fmdCalcAbsoluteOffset_missing descendant missing,
          if_neg (not_not.mpr rfl)]
        exact fmdCalcAbsoluteOffsets_found rest others below.2 outside

end

end Lookup

section Completed

variable {root complete : Descriptor}

theorem describes_area (known : sect.region.Known)
    (below : sect.absolute < 4294967296) : sect.area.Describes sect := by
  obtain ⟨offset, size, -, known⟩ := known
  refine ⟨rfl, ?_, Nat.mod_eq_of_lt below⟩
  simp [PlacedSection.area, known]

theorem lists_mapOf (created : fmdCreate root = some complete)
    (below : ∀ sect ∈ complete.sections 0, sect.absolute < 4294967296) :
    (mapOf complete).Lists complete := by
  obtain ⟨⟨complete', final⟩, run, same⟩ := Option.map_eq_some_iff.mp created
  obtain rfl : complete' = complete := same
  obtain ⟨field, ⟨size, known⟩, all⟩ := validateAndCompleteInfo_known run
  refine ⟨?_, rfl, ?_, rfl⟩
  · show List.Forall₂ _ ((complete'.sections 0).map PlacedSection.area) _
    rw [List.forall₂_map_left_iff]
    exact List.forall₂_same.mpr fun sect member =>
      describes_area (all 0 sect member) (below sect member)
  · simp [mapOf, fmapCreate, field, known]

theorem locates_of_unambiguous (created : fmdCreate root = some complete)
    (unambiguous : Unambiguous complete) : Locates complete := by
  have distinct := nodup_of_created created
  have same : ∀ sect ∈ complete.sections 0,
      (fmdCalcAbsoluteOffset complete sect.region.name).toNat = sect.absolute := by
    intro sect member
    have chip := unambiguous.root sect member
    have below := unambiguous.below
    obtain ⟨region, list⟩ := complete
    rw [fmdCalcAbsoluteOffset]
    split_ifs with here
    · rw [chip here.symm]
      rfl
    · exact fmdCalcAbsoluteOffsets_found list distinct below member
  refine ⟨same, fmdFindNode_eq_none complete, fun name => ?_⟩
  refine ⟨fun none' member => ?_, fmdCalcAbsoluteOffset_missing complete⟩
  rw [names_eq] at member
  rcases List.mem_cons.mp member with rfl | member
  · obtain ⟨region, list⟩ := complete
    rw [fmdCalcAbsoluteOffset, if_pos (by simp [Descriptor.region])] at none'
    exact absurd none' (by decide)
  · obtain ⟨sect, inside, rfl⟩ := List.mem_map.mp member
    have offset := same sect inside
    have below := unambiguous.below sect inside
    have value : fmdNotfound.toNat = 0xffffffff := rfl
    rw [none'] at offset
    omega

/-- A completed tree without ambiguous offsets is emitted exactly if the format has
room for it, and its sections are located. -/
theorem emits_of_unambiguous (created : fmdCreate root = some complete)
    (unambiguous : Unambiguous complete) : Emits complete where
  limits := by
    constructor
    · intro made
      obtain ⟨fmap, made⟩ := Option.isSome_iff_exists.mp made
      exact (fmapFromFmd_eq_some.mp made).1
    · intro room
      exact Option.isSome_iff_exists.mpr ⟨_, fmapFromFmd_eq_some.mpr ⟨room, rfl⟩⟩
  lists := by
    intro fmap made
    obtain ⟨-, rfl⟩ := fmapFromFmd_eq_some.mp made
    exact lists_mapOf created fun sect member =>
      Nat.lt_succ_of_lt (unambiguous.below sect member)
  locates := locates_of_unambiguous created unambiguous

def wholeChipComplete : Descriptor :=
  .node ⟨"FLASH", none, some 256⟩ [.node ⟨"BIOS", some 0, some 256⟩ []]

theorem unambiguous_wholeChip : Unambiguous wholeChipComplete := by
  have sections : wholeChipComplete.sections 0 = [⟨⟨"BIOS", some 0, some 256⟩, 0⟩] := rfl
  constructor
  · rw [sections]
    decide
  · rw [sections]
    decide

theorem emits_wholeChip : Emits wholeChipComplete :=
  @emits_of_unambiguous wholeChip wholeChipComplete rfl unambiguous_wholeChip

/-- The name of the section has 32 bytes. -/
theorem not_emitsAll_longName : ¬ ∀ root complete,
    fmdCreate root = some complete → EmitsAll complete := by
  intro emits
  have created : fmdCreate (.node ⟨"FLASH", none, some 256⟩
      [.node ⟨"RW_SECTION_A_WITH_A_VERY_LONG_NA", none, none⟩ []]) =
      some (.node ⟨"FLASH", none, some 256⟩
        [.node ⟨"RW_SECTION_A_WITH_A_VERY_LONG_NA", some 0, some 256⟩ []]) := rfl
  have refused : fmapFromFmd (.node ⟨"FLASH", none, some 256⟩
      [.node ⟨"RW_SECTION_A_WITH_A_VERY_LONG_NA", some 0, some 256⟩ []]) =
      none := by
    decide
  obtain ⟨fmap, made, -⟩ := (emits _ _ created).lists
  rw [refused] at made
  cases made

end Completed

end Coreboot.Flashmap
