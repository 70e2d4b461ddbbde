import Coreboot.CbfsSpace
import Mathlib.Data.List.Pairwise
import Mathlib.Data.List.TakeWhile

/-!
# The files that were added

The tool adds no name that it finds in the image, and it finds names whatever the case of their
letters.
-/

namespace Coreboot.Cbfs

open ByteMemory

structure AddedFile where
  name : List Byte
  type : Nat
  content : List Byte
deriving DecidableEq, Repr

/-- Whether `strcasecmp` is zero for two names. -/
def sameLetters (first second : List Byte) : Bool := first.map toLower == second.map toLower

/-- The images reached by operations that succeed, with the files that were added
and not removed since.  `cbfs_add_component` looks for the name before it adds a
file. -/
inductive AddedRun (condition : Condition) (size : Nat) :
    Image → List AddedFile → Prop
  | create {data : Memory} {image : Image} (aligned : 64 ∣ size)
      (small : size < 2147483648)
      (created : cbfsImageCreate ⟨size, data⟩ size = some image) :
      AddedRun condition size image []
  | add {image image' : Image} {files : List AddedFile}
      {type contentOffset : Nat} {name content : List Byte} {header : Memory}
      (before : AddedRun condition size image files)
      (built : Built type content.length name header)
      (word : type < 4294967296) (live : LiveType type)
      (low : contentOffset < 2147483648)
      (new : cbfsGetEntry image name = some none)
      (met : condition image content contentOffset header)
      (added : cbfsAddEntry image content contentOffset header = some (true, image')) :
      AddedRun condition size image' (⟨name, type, content⟩ :: files)
  | remove {image image' : Image} {files : List AddedFile} {name : List Byte}
      (before : AddedRun condition size image files) (string : 0 ∉ name)
      (removed : cbfsRemoveEntry image name = some (true, image')) :
      AddedRun condition size image' (files.filter fun file => !sameLetters file.name name)

/-- The offset of the content is given, or every empty entry that passes the test
for the size has room for the header and the content. -/
def Fitting : Condition := fun image content contentOffset header =>
  contentOffset ≠ 0 ∨ HasRoom image header content.length content.length

theorem toLower_eq_zero {c : Byte} (zero : toLower c = 0) : c = 0 := by
  revert c
  decide

variable {address : Nat} {entries : List Entry} {e : Entry}

theorem strcasecmpEq_eq {data : Memory} {stored name : List Byte}
    (at' : load data address (stored.length + 1) = stored ++ [0]) (storedString : 0 ∉ stored)
    (string : 0 ∉ name) : strcasecmpEq data address name = sameLetters stored name := by
  induction stored generalizing address name with
  | nil =>
    have zero : data address = 0 := (List.cons.inj at').1
    cases name with
    | nil => exact beq_iff_eq.mpr zero
    | cons c rest =>
      have other : (toLower 0 == toLower c) = false := by
        refine beq_false_of_ne fun same => ?_
        exact string (toLower_eq_zero same.symm ▸ (.head _))
      rw [strcasecmpEq, zero, other]
      rfl
  | cons d stored ih =>
    obtain ⟨here, later⟩ := List.cons.inj at'
    cases name with
    | nil =>
      refine beq_false_of_ne fun zero => ?_
      exact storedString (here.symm.trans zero ▸ (.head _))
    | cons c rest =>
      rw [strcasecmpEq, here, ih later
        (fun member => storedString (List.mem_cons_of_mem d member))
        fun member => string (List.mem_cons_of_mem c member)]
      rfl

theorem sameLetters_comm (first second : List Byte) :
    sameLetters first second = sameLetters second first :=
  BEq.comm

theorem sameLetters_congr {first second : List Byte} (same : sameLetters first second = true)
    (other : List Byte) : sameLetters other first = sameLetters other second := by
  rw [sameLetters, beq_iff_eq.mp same]
  rfl

def Record.name (record : Record) : List Byte :=
  (record.metadata.drop sizeofFile).takeWhile (· != 0)

def Record.type (record : Record) : Nat := decodeBE ((record.metadata.drop 12).take 4)

def Record.toAdded (record : Record) : AddedFile := ⟨record.name, record.type, record.content⟩

def Record.Terminated (record : Record) : Prop :=
  (record.metadata.drop sizeofFile).take (record.name.length + 1) = record.name ++ [0]

theorem Record.string (record : Record) : 0 ∉ record.name := by
  intro member
  have nonzero : ((0 : Byte) != 0) = true := List.mem_takeWhile_imp (p := (· != 0))
    (l := record.metadata.drop sizeofFile) member
  cases nonzero

theorem Record.name_eq {record : Record} {name : List Byte}
    (behind : (record.metadata.drop sizeofFile).take (name.length + 1) = name ++ [0])
    (string : 0 ∉ name) : record.name = name ∧ record.Terminated := by
  have named : record.name = name := by
    rw [Record.name, ← List.take_append_drop (name.length + 1) (record.metadata.drop sizeofFile),
      behind, List.append_assoc, List.takeWhile_append_of_pos]
    · exact List.append_nil name
    · intro byte member
      exact bne_iff_ne.mpr fun zero => string (zero ▸ member)
  refine ⟨named, ?_⟩
  rw [Record.Terminated, named]
  exact behind

theorem take_drop_placedMetadata {header : Memory} {gap : List Byte} {skip count : Nat}
    (inside : skip + count ≤ entryOffset header 0) (apart : skip + count ≤ 20 ∨ 24 ≤ skip) :
    ((placedMetadata header gap).drop skip).take count = load header skip count := by
  obtain ⟨rest, total⟩ := Nat.exists_eq_add_of_le inside
  have moved (source : Memory) :
      ((load source 0 (entryOffset header 0) ++ gap).drop skip).take count =
        load source skip count := by
    rw [List.drop_append_of_le_length (by rw [length_load]; omega),
      List.take_append_of_le_length (by rw [List.length_drop, length_load]; omega), total,
      take_drop_load, Nat.zero_add]
  rw [placedMetadata]
  split_ifs
  · rw [moved]
    exact SameOutside.load
      (sameOutside_writeBE le_rfl le_rfl : SameOutside header
        (setOffset header 0 (entryOffset header 0 + gap.length)) 20 24)
      (by omega)
  · exact moved header

theorem toAdded_placed {type len : Nat} {name content gap : List Byte} {header : Memory}
    (built : BuiltHeader type len name header) (word : type < 4294967296) :
    (Record.mk (placedMetadata header gap) content).toAdded = ⟨name, type, content⟩ ∧
      (Record.mk (placedMetadata header gap) content).Terminated := by
  have named := built.named
  have behind : ((placedMetadata header gap).drop sizeofFile).take
      (name.length + 1) = name ++ [0] := by
    rw [take_drop_placedMetadata (show sizeofFile + (name.length + 1) ≤ _ by
      show 24 + _ ≤ _
      omega) (Or.inr le_rfl)]
    exact built.fields.name
  have typed : decodeBE (((placedMetadata header gap).drop 12).take 4) = type := by
    rw [take_drop_placedMetadata (by omega) (Or.inl (by decide))]
    exact built.fields.type.trans (Nat.mod_eq_of_lt word)
  obtain ⟨nameEq, terminated⟩ :=
    @Record.name_eq ⟨placedMetadata header gap, content⟩ name behind built.string
  refine ⟨?_, terminated⟩
  rw [Record.toAdded, nameEq, Record.type, typed]

theorem mem_filesOf_iff {stored : Nat × Record} :
    stored ∈ filesOf address entries ↔ ∃ before span after,
      entries = before ++ ⟨span, .file stored.2⟩ :: after ∧ stored.1 = address + spanOf before := by
  constructor
  · intro member
    induction entries generalizing address with
    | nil => cases member
    | cons e rest ih =>
      have later (inRest : stored ∈ filesOf (address + e.span) rest) :
          ∃ before span after,
            e :: rest = before ++ ⟨span, .file stored.2⟩ :: after ∧
              stored.1 = address + spanOf before := by
        obtain ⟨before, span, after, split, place⟩ := ih inRest
        refine ⟨e :: before, span, after, congrArg (e :: ·) split, ?_⟩
        rw [place, spanOf, Nat.add_assoc]
      obtain ⟨span, slot⟩ := e
      cases slot with
      | empty => exact later member
      | deleted => exact later member
      | file record =>
        rcases List.mem_cons.mp member with rfl | inRest
        · exact ⟨[], span, rest, rfl, rfl⟩
        · exact later inRest
  · rintro ⟨before, span, after, rfl, place⟩
    rw [filesOf_append]
    refine List.mem_append_right _ ?_
    rw [filesOf, ← place]
    exact .head _

theorem not_deleted_of_emptySpan (span : Nat) : ∀ e ∈ emptySpan span, e.slot ≠ .deleted := by
  rw [emptySpan]
  split_ifs
  · exact List.forall_mem_nil _
  · exact List.forall_mem_singleton.mpr Slot.noConfusion

theorem not_deleted_of_carve {span contentOffset headerSize : Nat} {record : Record} :
    ∀ e ∈ carve address span contentOffset headerSize record, e.slot ≠ .deleted := by
  rw [carve]
  exact List.forall_mem_append.mpr ⟨not_deleted_of_emptySpan _,
    List.forall_mem_cons.mpr ⟨Slot.noConfusion, not_deleted_of_emptySpan _⟩⟩

/-- An image whose layout has files with names and empty entries. -/
structure Clean (image : Image) (entries : List Entry) : Prop where
  held : Held image entries
  merged : ∀ e ∈ entries, e.slot ≠ .deleted
  terminated : ∀ stored ∈ storedFiles image, stored.2.Terminated

section Names

variable {image : Image} {entries before after : List Entry} {e : Entry} {name : List Byte}

theorem Held.strcasecmpEq_empty {span : Nat}
    (held : Held image (before ++ ⟨span, .empty⟩ :: after)) (string : 0 ∉ name) :
    strcasecmpEq image.data (filename (spanOf before)) name = sameLetters [] name := by
  have here := held.layout.entryAt
  rw [Nat.zero_add] at here
  refine strcasecmpEq_eq ?_ List.not_mem_nil string
  exact congrArg (· :: []) here.slot.2

variable {span : Nat} {record : Record}

section

variable (clean : Clean image (before ++ ⟨span, .file record⟩ :: after))
include clean

theorem Clean.terminated_file : record.Terminated := by
  refine clean.terminated (spanOf before, record) ?_
  rw [storedFiles_of_held clean.held]
  exact mem_filesOf_iff.mpr ⟨before, span, after, rfl, (Nat.zero_add _).symm⟩

omit clean in
theorem Record.Terminated.length_le (terminated : record.Terminated) :
    sizeofFile + (record.name.length + 1) ≤ record.metadata.length := by
  have length := congrArg List.length terminated
  rw [List.length_take, List.length_drop, List.length_append, List.length_singleton] at length
  omega

theorem Clean.load_name :
    load image.data (filename (spanOf before)) (record.name.length + 1) = record.name ++ [0] := by
  have here := clean.held.layout.entryAt
  rw [Nat.zero_add] at here
  obtain ⟨-, -, metadata, -⟩ := here.slot
  have terminated := clean.terminated_file
  obtain ⟨rest, total⟩ := Nat.exists_eq_add_of_le terminated.length_le
  rw [total] at metadata
  refine Eq.trans ?_ terminated
  rw [← metadata, take_drop_load, filename]

theorem Clean.strcasecmpEq_file (string : 0 ∉ name) :
    strcasecmpEq image.data (filename (spanOf before)) name = sameLetters record.name name :=
  strcasecmpEq_eq clean.load_name record.string string

end

theorem lookup_eq_none {data : Memory} {address : Nat}
    (missing : lookup data name address (before ++ e :: after) = none) :
    strcasecmpEq data (filename (address + spanOf before)) name = false := by
  induction before generalizing address with
  | nil =>
    rw [List.nil_append, lookup] at missing
    split_ifs at missing with equal
    exact Bool.eq_false_iff.mpr equal
  | cons head before ih =>
    rw [List.cons_append, lookup] at missing
    split_ifs at missing with equal
    rw [spanOf, ← Nat.add_assoc]
    exact ih (Option.map_eq_none_iff.mp missing)

end Names

def Apart (first second : AddedFile) : Prop := sameLetters first.name second.name = false

instance : Std.Symm Apart :=
  ⟨fun first second => (sameLetters_comm second.name first.name).trans⟩

structure Describes (image : Image) (entries : List Entry)
    (files : List AddedFile) : Prop where
  clean : Clean image entries
  same : ((storedFiles image).map fun stored => stored.2.toAdded).Perm files
  apart : files.Pairwise Apart
  named : ∀ file ∈ files, file.name ≠ []

section Steps

variable {image image' : Image} {entries : List Entry} {files : List AddedFile}
  {name content : List Byte}

theorem describes_of_create (aligned : 64 ∣ image.size) (small : image.size < 2147483648)
    (created : cbfsImageCreate image image.size = some image') :
    Describes image' [⟨image.size, .empty⟩] [] ∧ image'.size = image.size := by
  obtain ⟨held, size⟩ := held_of_create aligned small created
  have none : storedFiles image' = [] := storedFiles_of_held held
  refine ⟨⟨⟨held, List.forall_mem_singleton.mpr Slot.noConfusion, ?_⟩, ?_,
    List.Pairwise.nil, ?_⟩, size⟩
  · rw [none]
    exact List.forall_mem_nil _
  · rw [none]
    exact List.Perm.nil
  · exact List.forall_mem_nil _

variable {file : AddedFile} {contentOffset : Nat} {header : Memory} {type : Nat}

theorem Describes.mem_iff (describes : Describes image entries files) :
    file ∈ files ↔ ∃ stored ∈ storedFiles image, stored.2.toAdded = file :=
  describes.same.mem_iff.symm.trans List.mem_map

theorem Describes.new_name (describes : Describes image entries files)
    (string : 0 ∉ name) (new : cbfsGetEntry image name = some none)
    (member : file ∈ files) : sameLetters file.name name = false := by
  have held := describes.clean.held
  obtain ⟨stored, inImage, rfl⟩ := describes.mem_iff.mp member
  rw [storedFiles_of_held held] at inImage
  obtain ⟨before, span, after, rfl, -⟩ := mem_filesOf_iff.mp inImage
  rw [cbfsGetEntry_spec held, Option.some_inj, Option.map_eq_none_iff] at new
  have other := lookup_eq_none new
  rw [Nat.zero_add, describes.clean.strcasecmpEq_file string] at other
  exact other

theorem Clean.name_ne_nil (clean : Clean image entries)
    (new : cbfsGetEntry image name = some none) {site : Site}
    (split : coalesce none entries =
      site.before ++ ⟨site.span, .empty⟩ :: site.after) : name ≠ [] := by
  rintro rfl
  rw [cbfsGetEntry_spec clean.held, Option.some_inj, Option.map_eq_none_iff] at new
  have files : ∀ e ∈ entries, e.isFree = false := by
    intro e member
    obtain ⟨before, after, rfl⟩ := List.append_of_mem member
    have other := lookup_eq_none new
    obtain ⟨span, slot⟩ := e
    cases slot with
    | file record => rfl
    | deleted => exact absurd rfl (clean.merged _ member)
    | empty =>
      rw [Nat.zero_add, clean.held.strcasecmpEq_empty List.not_mem_nil] at other
      cases other
  have whole := coalesce_append_files files []
  rw [List.append_nil, coalesce, List.append_nil] at whole
  rw [whole] at split
  have free := files ⟨site.span, .empty⟩ (split ▸ List.mem_append_right _ (.head _))
  cases free

theorem length_of_fitting {site : Site} (held : Held image entries)
    (built : BuiltHeader type content.length name header)
    (met : Fitting image content contentOffset header)
    (chosen : choose (entryOffset header 0) content.length contentOffset 0
      (coalesce none entries) = some site) : content.length < 2147483648 := by
  obtain ⟨split, placed⟩ := choose_spec chosen
  have whole := spanOf_coalesce none entries
  have small := held.small
  rw [split, held.whole, spanOf_append, spanOf, Option.getD_none, Nat.zero_add] at whole
  change spanOf site.before + (site.span + spanOf site.after) = image.size at whole
  rw [Nat.zero_add] at placed
  rcases met with given | room
  · obtain ⟨-, inside⟩ := (site_bounds held built (Or.inl given) chosen).2.2.2 given
    omega
  · have passes : add32 (spanOf site.before)
        (add32 (entryOffset header 0) content.length) ≤ spanOf site.before + site.span := by
      by_contra full
      rw [verdict, if_pos (Nat.not_le.mp full)] at placed
      cases placed
    have inside := room_of_passes held room split passes
    omega

theorem Fitting.unwrapped (met : Fitting image content contentOffset header) :
    Unwrapped image content contentOffset header := by
  refine met.imp_right fun room merged entries stop entry walk visits member type passes => ?_
  have inside := room merged entries stop entry walk visits member type passes
  have less := Nat.mod_le content.length (2 ^ 32)
  omega

theorem Describes.add (describes : Describes image entries files)
    (built : BuiltHeader type content.length name header) (word : type < 4294967296)
    (live : LiveType type) (new : cbfsGetEntry image name = some none)
    (met : Fitting image content contentOffset header)
    (added : cbfsAddEntry image content contentOffset header = some (true, image')) :
    ∃ entries', Describes image' entries' (⟨name, type, content⟩ :: files) ∧
      image'.size = image.size := by
  have held := describes.clean.held
  cases chosen : choose (entryOffset header 0) content.length contentOffset 0
      (coalesce none entries) with
  | none =>
    obtain ⟨data, failed, -⟩ := cbfsAddEntry_none held chosen
    cases added.symm.trans failed
  | some site =>
    obtain ⟨front, back, -⟩ := site_bounds held built met.unwrapped chosen
    obtain ⟨split, -⟩ := choose_spec chosen
    obtain ⟨data, gap, added', -, placed, -⟩ := cbfsAddEntry_some held built live chosen front back
    have short := length_of_fitting held built met chosen
    have length : content.length % 2 ^ 32 = content.length :=
      Nat.mod_eq_of_lt (short.trans (by decide))
    rw [length, List.take_length] at placed
    rw [length] at back
    cases added.symm.trans added'
    obtain ⟨toAdded, terminated⟩ := toAdded_placed built word
    have spanAligned := span_dvd held split
    have stored := storedFiles_carve placed spanAligned front back
    have others := storedFiles_site held split
    have fresh : ∀ file ∈ files, sameLetters name file.name = false := by
      intro file member
      rw [sameLetters_comm]
      exact describes.new_name built.string new member
    refine ⟨_, ⟨⟨placed, ?_, ?_⟩, ?_, ?_, ?_⟩, rfl⟩
    · have unmerged : ∀ e ∈ site.before ++ ⟨site.span, .empty⟩ :: site.after, e.slot ≠ .deleted :=
        split ▸ (merged_coalesce none entries).recycled
      intro e member
      rcases List.mem_append.mp member with member | later
      · rcases List.mem_append.mp member with earlier | here
        · exact unmerged e (List.mem_append_left _ earlier)
        · exact not_deleted_of_carve e here
      · exact unmerged e (List.mem_append_right _ (.tail _ later))
    · intro file member
      rw [stored] at member
      rcases List.mem_append.mp member with earlier | member
      · exact describes.clean.terminated file (others ▸ List.mem_append_left _ earlier)
      · rcases List.mem_cons.mp member with rfl | later
        · exact terminated
        · exact describes.clean.terminated file (others ▸ List.mem_append_right _ later)
    · have same := describes.same
      rw [others, List.map_append] at same
      rw [stored, List.map_append, List.map_cons, toAdded]
      exact List.perm_middle.trans (same.cons _)
    · exact List.Pairwise.cons fresh describes.apart
    · exact List.forall_mem_cons.mpr ⟨describes.clean.name_ne_nil new split, describes.named⟩

theorem perm_filter {front back : List AddedFile} (same : (front ++ file :: back).Perm files)
    (apart : files.Pairwise Apart) (named : sameLetters file.name name = true) :
    (front ++ back).Perm (files.filter fun other => !sameLetters other.name name) := by
  have apart' : (file :: (front ++ back)).Pairwise Apart :=
    ((List.perm_middle.symm.trans same).pairwise_iff (Std.Symm.symm _ _)).mpr apart
  have others : ∀ other ∈ front ++ back, (!sameLetters other.name name) = true := by
    intro other member
    have different : sameLetters file.name other.name = false :=
      (List.pairwise_cons.mp apart').1 other member
    rw [← sameLetters_congr named, sameLetters_comm, different]
    rfl
  have filtered := (List.perm_middle.symm.trans same).filter
    fun other => !sameLetters other.name name
  rw [List.filter_cons_of_neg (by rw [named]; decide), List.filter_eq_self.mpr others] at filtered
  exact filtered

theorem Describes.remove (describes : Describes image entries files) (string : 0 ∉ name)
    (removed : cbfsRemoveEntry image name = some (true, image')) :
    ∃ entries', Describes image' entries' (files.filter fun file => !sameLetters file.name name) ∧
      image'.size = image.size := by
  have held := describes.clean.held
  cases found : lookup image.data name 0 entries with
  | none => cases removed.symm.trans (cbfsRemoveEntry_none held found)
  | some parts =>
    obtain ⟨before, e, after⟩ := parts
    obtain ⟨data, removed', merged, -⟩ := cbfsRemoveEntry_some held found
    cases removed.symm.trans removed'
    obtain ⟨rfl, equal⟩ := lookup_spec found
    rw [Nat.zero_add] at equal
    have stored : storedFiles { image with data } = filesOf 0 before ++
        filesOf (spanOf before + e.span) after := by
      rw [storedFiles_of_held merged, filesOf_coalesce, Option.getD_none,
        filesOf_append, filesOf_cons_free rfl, Nat.add_zero, Nat.zero_add]
    have here := storedFiles_of_held held
    rw [filesOf_append, Nat.zero_add] at here
    have kept : ∀ file ∈ storedFiles { image with data }, file ∈ storedFiles image := by
      intro file member
      rw [stored] at member
      rw [here]
      refine (List.mem_append.mp member).elim (List.mem_append_left _)
        fun later => List.mem_append_right _ ?_
      obtain ⟨span, slot⟩ := e
      cases slot with
      | empty => exact later
      | deleted => exact later
      | file record => exact List.mem_cons_of_mem _ later
    refine ⟨_, ⟨⟨merged, (merged_coalesce none _).recycled,
      fun file member => describes.clean.terminated file (kept file member)⟩,
      ?_, describes.apart.filter _, fun file member =>
        describes.named file (List.mem_of_mem_filter member)⟩, rfl⟩
    obtain ⟨span, slot⟩ := e
    have same := describes.same
    rw [here, List.map_append] at same
    rw [stored, List.map_append]
    cases slot with
    | deleted =>
      exact absurd rfl (describes.clean.merged _ (List.mem_append_right _ (.head _)))
    | empty =>
      rw [held.strcasecmpEq_empty string] at equal
      obtain rfl : name = [] := List.map_eq_nil_iff.mp (beq_iff_eq.mp equal).symm
      have all : ∀ file ∈ files, (!sameLetters file.name []) = true := by
        intro file member
        cases nonempty : file.name with
        | nil => exact absurd nonempty (describes.named file member)
        | cons c rest => rfl
      rw [List.filter_eq_self.mpr all]
      exact same
    | file record =>
      rw [describes.clean.strcasecmpEq_file string] at equal
      exact perm_filter same describes.apart equal

/-- The files of an image that is reached are those that were added and not removed
since. -/
theorem describes_of_addedRun {size : Nat} (run : AddedRun Fitting size image files) :
    ∃ entries, Describes image entries files ∧ image.size = size := by
  induction run with
  | create aligned small created =>
    exact ⟨_, describes_of_create aligned small created⟩
  | add before built word live low new met added ih =>
    obtain ⟨entries, describes, sameSize⟩ := ih
    obtain ⟨entries', describes', size'⟩ := describes.add built.spec word live new met added
    exact ⟨entries', describes', size'.trans sameSize⟩
  | remove before string removed ih =>
    obtain ⟨entries, describes, sameSize⟩ := ih
    obtain ⟨entries', describes', size'⟩ := describes.remove string removed
    exact ⟨entries', describes', size'.trans sameSize⟩

theorem Describes.eq_of_name (describes : Describes image entries files)
    {first second : AddedFile} (firstMember : first ∈ files)
    (secondMember : second ∈ files) (same : first.name = second.name) :
    first = second := by
  by_contra different
  have apart := describes.apart.forall firstMember secondMember different
  rw [Apart, sameLetters, same, beq_self_eq_true] at apart
  cases apart

theorem fitting_of_short (held : Held image entries)
    (built : BuiltHeader type content.length name header) (short : content.length < 2147482624) :
    Fitting image content contentOffset header := by
  refine .inr fun merged starts stop entry walk visits member _ passes => ?_
  obtain ⟨data, walk', mergedHeld, -⟩ := cbfsWalkMerge_spec held
  cases walk.symm.trans walk'
  cases visits.symm.trans (visited_of_held mergedHeld)
  obtain ⟨before, e, after, split, rfl⟩ := exists_of_mem_startsOf member
  have whole := mergedHeld.whole
  have small : image.size < 2147483648 := held.small
  rw [split, spanOf_append, spanOf] at whole
  change spanOf before + (e.span + spanOf after) = image.size at whole
  have fits : entryOffset header 0 ≤ 1024 := built.fits
  have need : add32 (entryOffset header 0) content.length = entryOffset header 0 + content.length :=
    add32_of_lt (by omega)
  rw [need, add32_of_lt (by omega)] at passes
  omega

end Steps

theorem exists_oneAdded {condition : Condition} {content : List Byte}
    (stored : content.length % 2 ^ 32 ≤ 24) (met : ∀ image entries header, Held image entries →
      BuiltHeader 0x50 content.length [0x62] header → condition image content 0 header) :
    ∃ image metadata,
      AddedRun condition 64 image [⟨[0x62], 0x50, content⟩] ∧
        image.size = 64 ∧ Clean image [⟨64, .file ⟨metadata,
          content.take (content.length % 2 ^ 32)⟩⟩] := by
  obtain ⟨image, created⟩ : ∃ image, cbfsImageCreate ⟨64, fun _ => 0⟩ 64 = some image := ⟨_, rfl⟩
  obtain ⟨held, size⟩ := held_of_create (by decide) (by decide) created
  obtain ⟨header, headerEq⟩ : ∃ header,
      cbfsCreateFileHeader 0x50 content.length [0x62] = header := ⟨_, rfl⟩
  have built : Built 0x50 content.length [0x62] header :=
    headerEq ▸ .create (by decide) (by decide) (by decide)
  have offset : entryOffset header 0 = 40 :=
    headerEq ▸ (header_createFileHeader 0x50 content.length (by decide)).1.offset
  have live : LiveType 0x50 := ⟨by decide, by decide⟩
  have new : cbfsGetEntry image [0x62] = some none := by
    rw [cbfsGetEntry_spec held, lookup]
    have other := @Held.strcasecmpEq_empty image [] [] [0x62] 64 held (by decide)
    rw [spanOf] at other
    rw [other]
    rfl
  have need : add32 40 content.length = 40 + content.length % 2 ^ 32 := by
    show (40 + content.length) % 4294967296 = 40 + content.length % 4294967296
    omega
  have chosen : choose (entryOffset header 0) content.length 0 0
      (coalesce none [⟨64, .empty⟩]) = some ⟨[], 64, [], 40⟩ := by
    have placed : Entry.verdict 0 ⟨64, .empty⟩ 40 content.length 0 = .place 40 := by
      show verdict 0 64 40 content.length 0 = _
      rw [verdict, need, add32_of_lt (by omega), if_neg (by omega), if_neg (lt_irrefl 0)]
      rfl
    rw [offset]
    show choose 40 content.length 0 0 [⟨64, .empty⟩] = _
    rw [choose, placed]
  obtain ⟨data, gap, added, -, kept, -⟩ := cbfsAddEntry_some held built.spec
    live chosen (by rw [offset]; decide) (by
      show 40 + _ ≤ 0 + 64
      omega)
  have length : (content.take (content.length % 2 ^ 32)).length = content.length % 2 ^ 32 := by
    rw [List.length_take, Nat.min_eq_left (Nat.mod_le _ _)]
  have shape (metadata : List Byte) : carve 0 64 40 40
      ⟨metadata, content.take (content.length % 2 ^ 32)⟩ = [⟨64, .file
        ⟨metadata, content.take (content.length % 2 ^ 32)⟩⟩] := by
    have finish : fileEnd 40 (content.length % 2 ^ 32) = 64 := by
      rw [fileEnd]
      omega
    rw [carve, length, finish]
    rfl
  rw [offset, spanOf, shape, List.nil_append, List.append_nil] at kept
  refine ⟨_, _, .add (.create (by decide) (by decide) created) built (by decide)
    live (by decide) new (met _ _ _ held built.spec) added, size, kept, ?_, ?_⟩
  · exact List.forall_mem_singleton.mpr Slot.noConfusion
  · rw [storedFiles_of_held kept]
    exact List.forall_mem_singleton.mpr (toAdded_placed built.spec (by decide)).2

end Coreboot.Cbfs
