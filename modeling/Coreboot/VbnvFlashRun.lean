import Coreboot.VbnvFlash

/-!
# The last saved blob

The blobs up to the current one are used and the ones above it are erased, so the binary search
finds the current blob after every restart.
-/

namespace Coreboot.VbnvFlash

open ByteMemory

theorem toInt_of_lt {value : Int} (lower : -2147483648 ≤ value)
    (upper : value < 2147483648) : toInt value = value := by
  apply Int.bmod_eq_of_le
  · omega
  · omega

theorem toSize_natCast {width : Nat} (wide : 32 ≤ width) {offset : Nat}
    (fits : offset < 2147483648) : toSize width offset = offset := by
  have large : 2 ^ 32 ≤ 2 ^ width := Nat.pow_le_pow_right (by decide) wide
  rw [toSize, ← Int.natCast_mod, Int.toNat_natCast, Nat.mod_eq_of_lt (by omega)]

/-- Programming over the first bytes gives the second ones. -/
def Clears (current new : List Byte) : Prop :=
  List.Forall₂ (fun current new => current &&& new = new) current new

theorem all_canOverwrite_iff {current new : List Byte} (length : current.length = new.length) :
    ((current.zip new).all fun (current, new) => canOverwrite current new) =
      true ↔ Clears current new := by
  induction current generalizing new with
  | nil =>
    obtain rfl := List.length_eq_zero_iff.mp length.symm
    exact iff_of_true rfl .nil
  | cons byte rest ih =>
    cases new with
    | nil => exact absurd length (by simp)
    | cons newByte newRest =>
      rw [List.length_cons, List.length_cons] at length
      have first : canOverwrite byte newByte = true ↔ byte &&& newByte = newByte := by
        rw [canOverwrite, beq_iff_eq]
      rw [List.zip_cons_cons, List.all_cons, Bool.and_eq_true, ih (by omega)]
      refine (and_congr_left' first).trans ?_
      rw [Clears, Clears, List.forall₂_cons]

theorem clears_replicate (new : List Byte) : Clears (List.replicate new.length eraseValue) new := by
  induction new with
  | nil => exact .nil
  | cons byte rest ih => exact .cons (BitVec.allOnes_and) ih

theorem clears_emptyBlob {new : List Byte} (length : new.length = blobSize) :
    Clears emptyBlob new := by
  rw [emptyBlob, ← length]
  exact clears_replicate new

/-- The blob with this index is the last one that was saved, and the first one
that is not followed by used ones. -/
structure Holds (size : Nat) (memory : Memory) (last : List Byte) (blob : Nat) :
    Prop where
  inside : (blob + 1) * blobSize ≤ size
  reach : blob = 0 ∨ size < 2147483664
  current : load memory (blob * blobSize) blobSize = last
  used : ∀ other, 1 ≤ other → other ≤ blob → load memory (other * blobSize) blobSize ≠ emptyBlob
  erased : ∀ a, (blob + 1) * blobSize ≤ a → a < size → memory a = eraseValue

/-- The context of an initialized driver. -/
def contextAt (size : Nat) (last : List Byte) (blob : Nat) : Context :=
  ⟨true, (blob * blobSize : Nat), toInt (size - blobSize), last⟩

section Invariant

variable {width size : Nat} {memory : Memory} {last copy : List Byte} {blob : Nat}

theorem Holds.offset_lt (holds : Holds size memory last blob) : blob * blobSize < 2147483648 := by
  have inside := holds.inside
  rcases holds.reach with first | small
  · subst first
    decide
  · change (blob + 1) * 16 ≤ size at inside
    show blob * 16 < 2147483648
    omega

theorem Holds.length (holds : Holds size memory last blob) : last.length = blobSize := by
  rw [← holds.current, length_load]

theorem readBlob_eq (wide : 32 ≤ width) (index : Nat) (inside : (index + 1) * blobSize ≤ size)
    (fits : index * blobSize < 2147483648) :
    readBlob width size memory (toInt ((index : Int) * blobSize)) =
      some (load memory (index * blobSize) blobSize) := by
  have offset : toInt ((index : Int) * blobSize) = (index * blobSize : Nat) := by
    rw [← Nat.cast_mul, toInt_of_lt (by omega) (by omega)]
  rw [Nat.add_mul, Nat.one_mul] at inside
  rw [readBlob, offset, toSize_natCast wide fits, if_pos inside]

theorem Holds.emptyBlob_above (holds : Holds size memory last blob) {other : Nat}
    (above : blob < other) (inside : (other + 1) * blobSize ≤ size) :
    load memory (other * blobSize) blobSize = emptyBlob := by
  apply load_eq_replicate
  intro a lower upper
  apply holds.erased
  · exact (Nat.mul_le_mul_right _ above).trans lower
  · rw [Nat.add_mul, Nat.one_mul] at inside
    omega

theorem middle_bounds {usedBelow emptyAbove total : Nat} (more : usedBelow + 1 < emptyAbove)
    (count : emptyAbove ≤ total) (blobs : total * 16 ≤ size) (small : size < 4294967296)
    (reach : usedBelow = 0 ∨ size < 2147483664) :
    ∃ guess, toInt ((usedBelow : Int) + emptyAbove) / 2 = (guess : Nat) ∧
      usedBelow < guess ∧ guess < emptyAbove ∧
        (guess + 1) * blobSize ≤ size ∧ guess * blobSize < 2147483648 := by
  refine ⟨(usedBelow + emptyAbove) / 2, ?_, by omega, by omega, ?_, ?_⟩
  · rw [toInt_of_lt (by omega) (by omega)]
    omega
  · show (_ + 1) * 16 ≤ size
    omega
  · show _ * 16 < 2147483648
    omega

theorem searchBorder_of_read {fuel : Nat} {usedBelow emptyAbove guess : Int} {buf : List Byte}
    (more : usedBelow + 1 < emptyAbove) (middle : toInt (usedBelow + emptyAbove) / 2 = guess)
    (read : readBlob width size memory (toInt (guess * blobSize)) = some buf) :
    searchBorder width size memory (fuel + 1) usedBelow emptyAbove =
      if buf = emptyBlob then
        searchBorder width size memory fuel usedBelow guess
      else searchBorder width size memory fuel guess emptyAbove := by
  subst middle
  rw [searchBorder, if_pos more]
  simp only [read]

theorem Holds.searchBorder (wide : 32 ≤ width) (small : size < 4294967296)
    (holds : Holds size memory last blob) {total : Nat} (blobs : total * 16 ≤ size)
    (fuel usedBelow emptyAbove : Nat) (below : usedBelow ≤ blob) (above : blob < emptyAbove)
    (count : emptyAbove ≤ total) (enough : emptyAbove - usedBelow ≤ fuel) :
    searchBorder width size memory fuel usedBelow emptyAbove = some (blob : Int) := by
  induction fuel generalizing usedBelow emptyAbove with
  | zero => omega
  | succ fuel ih =>
    by_cases more : usedBelow + 1 < emptyAbove
    · have reach : usedBelow = 0 ∨ size < 2147483664 := holds.reach.imp_left fun first => by omega
      obtain ⟨guess, middle, lower, upper, inside, fits⟩ :=
        middle_bounds more count blobs small reach
      rw [searchBorder_of_read (by omega) middle (readBlob_eq wide guess inside fits)]
      by_cases used : guess ≤ blob
      · rw [if_neg (holds.used guess (by omega) used)]
        exact ih guess emptyAbove used above count (by omega)
      · rw [if_pos (holds.emptyBlob_above (by omega) inside)]
        exact ih usedBelow guess below (by omega) (by omega) (by omega)
    · have same : usedBelow = blob := by omega
      rw [VbnvFlash.searchBorder, if_neg (by omega), same]

theorem initVbnv_of_search {total usedBelow : Int} {cache : List Byte} (large : ¬ size < blobSize)
    (count : toInt (size / blobSize : Nat) = total)
    (found : searchBorder width size memory (size + 1) 0 total = some usedBelow)
    (read : readBlob width size memory (toInt (usedBelow * blobSize)) = some cache) :
    initVbnv width size memory =
      some ⟨true, toInt (usedBelow * blobSize), toInt (size - blobSize), cache⟩ := by
  subst count
  rw [initVbnv, if_neg large]
  simp only [found, read, Option.map_some]

theorem Holds.initVbnv (wide : 32 ≤ width) (small : size < 4294967296)
    (holds : Holds size memory last blob) :
    initVbnv width size memory = some (contextAt size last blob) := by
  have fits := holds.offset_lt
  have large : ¬ size < blobSize := by
    have inside : (blob + 1) * 16 ≤ size := holds.inside
    show ¬ size < 16
    omega
  obtain ⟨total, same, blobs, above, bound⟩ : ∃ total,
      size / blobSize = total ∧ total * 16 ≤ size ∧ blob < total ∧ total ≤ size :=
    ⟨_, rfl, Nat.div_mul_le_self size 16,
      (Nat.le_div_iff_mul_le (by decide)).mpr holds.inside,
      Nat.div_le_self size 16⟩
  have count : toInt (total : Int) = total := toInt_of_lt (by omega) (by omega)
  have found := holds.searchBorder wide small blobs (size + 1) 0 total
    (Nat.zero_le _) above le_rfl (by omega)
  have offset : toInt ((blob : Int) * blobSize) = (blob * blobSize : Nat) := by
    rw [← Nat.cast_mul, toInt_of_lt (by omega) (by omega)]
  rw [Nat.cast_zero] at found
  rw [initVbnv_of_search large (by rw [same, count]) found
    (readBlob_eq wide blob holds.inside fits), offset, holds.current, contextAt]

/-- The driver is in the state of this blob, or not yet initialized. -/
def Knows (size : Nat) (last : List Byte) (blob : Nat) (ctx : Context) : Prop :=
  ctx.initialized = true → ctx = contextAt size last blob

variable {ctx : Context}

theorem Holds.initIfNeeded (wide : 32 ≤ width) (small : size < 4294967296)
    (holds : Holds size memory last blob) (knows : Knows size last blob ctx) :
    initIfNeeded width size ctx memory = some (contextAt size last blob) := by
  rw [VbnvFlash.initIfNeeded]
  by_cases ready : ctx.initialized = true
  · rw [if_pos ready, knows ready]
  · rw [if_neg ready, holds.initVbnv wide small]

/-- A blob becomes the current one when it is programmed over bits that allow
it, behind used blobs and before erased ones. -/
theorem holds_program (inside : (blob + 1) * blobSize ≤ size) (reach : blob = 0 ∨ size < 2147483664)
    (length : copy.length = blobSize) (filled : copy ≠ emptyBlob)
    (clears : Clears (load memory (blob * blobSize) blobSize) copy)
    (used : ∀ other, 1 ≤ other → other < blob → load memory (other * blobSize) blobSize ≠ emptyBlob)
    (erased : ∀ a, (blob + 1) * blobSize ≤ a → a < size → memory a = eraseValue) :
    Holds size (program memory (blob * blobSize) copy) copy blob := by
  have current : load (program memory (blob * blobSize) copy)
      (blob * blobSize) blobSize = copy := by
    rw [← length] at clears ⊢
    exact load_program_self clears
  refine ⟨inside, reach, current, ?_, ?_⟩
  · intro other first upTo
    rcases upTo.eq_or_lt with rfl | before
    · rwa [current]
    · have apart : other * blobSize + blobSize ≤ blob * blobSize := by
        show other * 16 + 16 ≤ blob * 16
        omega
      rw [load_program_of_disjoint (Or.inl apart)]
      exact used other first before
  · intro a above below
    rw [program_of_outside, erased a above below]
    rw [length]
    rw [Nat.add_mul, Nat.one_mul] at above
    exact Or.inr above

theorem Holds.overwrite (holds : Holds size memory last blob) (length : copy.length = blobSize)
    (filled : copy ≠ emptyBlob) (clears : Clears last copy) :
    Holds size (program memory (blob * blobSize) copy) copy blob := by
  apply holds_program holds.inside holds.reach length filled
  · rwa [holds.current]
  · exact fun other first before => holds.used other first before.le
  · exact holds.erased

theorem Holds.advance (holds : Holds size memory last blob)
    (length : copy.length = blobSize) (filled : copy ≠ emptyBlob)
    (inside : (blob + 2) * blobSize ≤ size) (small : size < 2147483664) :
    load memory ((blob + 1) * blobSize) blobSize = emptyBlob ∧
      Holds size (program memory ((blob + 1) * blobSize) copy) copy (blob + 1) := by
  have empty := holds.emptyBlob_above (Nat.lt_succ_self blob) inside
  have changed : 1 ≤ blob → last ≠ emptyBlob := by
    intro first
    rw [← holds.current]
    exact holds.used blob first le_rfl
  refine ⟨empty, holds_program inside (Or.inr small) length filled ?_ ?_ ?_⟩
  · rw [empty]
    exact clears_emptyBlob length
  · exact fun other first before =>
      holds.used other first (Nat.lt_succ_iff.mp before)
  · intro a above below
    apply holds.erased a _ below
    exact (Nat.mul_le_mul_right _ (Nat.le_succ _)).trans above

theorem holds_erase (large : blobSize ≤ size) (length : copy.length = blobSize)
    (filled : copy ≠ emptyBlob) :
    load (fill memory 0 size eraseValue) 0 blobSize = emptyBlob ∧
      Holds size (program (fill memory 0 size eraseValue) 0 copy) copy 0 := by
  have erased : ∀ a < size, fill memory 0 size eraseValue a = eraseValue :=
    fun a below => if_pos ⟨Nat.zero_le a, by omega⟩
  have empty : load (fill memory 0 size eraseValue) 0 blobSize = emptyBlob :=
    load_eq_replicate fun a _ below => erased a (by omega)
  refine ⟨empty, ?_⟩
  have start : 0 * blobSize = 0 := Nat.zero_mul _
  have stored := @holds_program size (fill memory 0 size eraseValue) copy 0
    (by rwa [Nat.zero_add, Nat.one_mul]) (Or.inl rfl) length filled
  rw [start] at stored
  apply stored
  · rw [empty]
    exact clears_emptyBlob length
  · exact fun other first before => absurd before (by omega)
  · exact fun a _ below => erased a below

theorem newOffset_of_clears (length : ctx.cache.length = copy.length)
    (clears : Clears ctx.cache copy) : newOffset size ctx copy = (ctx.blobOffset, []) :=
  if_pos ((all_canOverwrite_iff length).mpr clears)

theorem newOffset_next {ctx : Context} {next : Int} (length : ctx.cache.length = copy.length)
    (conflict : ¬ Clears ctx.cache copy) (sum : toInt (ctx.blobOffset + blobSize) = next)
    (fits : next ≤ ctx.topOffset) : newOffset size ctx copy = (next, []) := by
  subst sum
  exact (if_neg (mt (all_canOverwrite_iff length).mp conflict)).trans (if_neg (not_lt.mpr fits))

theorem newOffset_erase {ctx : Context} {next : Int} (length : ctx.cache.length = copy.length)
    (conflict : ¬ Clears ctx.cache copy) (sum : toInt (ctx.blobOffset + blobSize) = next)
    (full : ctx.topOffset < next) : newOffset size ctx copy = (0, [.eraseat 0 size]) := by
  subst sum
  exact (if_neg (mt (all_canOverwrite_iff length).mp conflict)).trans (if_pos full)

theorem saveVbnvFlash_eq {ready : Context} {offset : Int} {ops : List DeviceOp} {address : Nat}
    (init : initIfNeeded width size ctx memory = some ready) (changed : copy ≠ ready.cache)
    (chosen : newOffset size ready copy = (offset, ops)) (converted : toSize width offset = address)
    (inside : address + blobSize ≤ size) :
    saveVbnvFlash width size ctx memory copy =
      ({ ready with blobOffset := offset, cache := copy }, ops ++ [.writeat address copy]) := by
  subst converted
  rw [saveVbnvFlash]
  simp only [init, chosen, if_neg changed, if_pos inside]

def Saves (width size : Nat) (memory : Memory) (copy : List Byte) (blob : Nat)
    (ctx : Context) : Prop :=
  ∃ next ops, saveVbnvFlash width size ctx memory copy = (contextAt size copy next, ops) ∧
    Holds size (ops.foldl DeviceOp.apply memory) copy next ∧
      Justified (blob * blobSize : Nat) memory ops

section Save

variable {ctx : Context} (wide : 32 ≤ width) (small : size < 4294967296)
  (holds : Holds size memory last blob) (knows : Knows size last blob ctx)
  (length : copy.length = blobSize)

include wide small holds knows

theorem Holds.save_same :
    saveVbnvFlash width size ctx memory last = (contextAt size last blob, []) := by
  rw [saveVbnvFlash]
  simp only [holds.initIfNeeded wide small knows]
  exact if_pos rfl

include length

theorem Holds.save_overwrite (changed : copy ≠ last) (clears : Clears last copy) :
    saveVbnvFlash width size ctx memory copy = (contextAt size copy blob,
      [.writeat (blob * blobSize) copy]) := by
  have inside := holds.inside
  rw [Nat.add_mul, Nat.one_mul] at inside
  exact saveVbnvFlash_eq (holds.initIfNeeded wide small knows) changed
    (newOffset_of_clears (holds.length.trans length.symm) clears)
    (toSize_natCast wide holds.offset_lt) inside

/-- The next blob is used while its offset is an `int`. -/
theorem Holds.save_advance (changed : copy ≠ last) (conflict : ¬ Clears last copy)
    (room : (blob + 2) * blobSize ≤ size) (below : size < 2147483664)
    (fits : (blob + 1) * blobSize < 2147483648) :
    saveVbnvFlash width size ctx memory copy = (contextAt size copy (blob + 1),
      [.writeat ((blob + 1) * blobSize) copy]) := by
  have sum : ((blob * blobSize : Nat) : Int) + blobSize = ((blob + 1) * blobSize : Nat) := by
    rw [Nat.add_mul, Nat.one_mul, Nat.cast_add]
  have next : toInt ((blob * blobSize : Nat) + blobSize) = ((blob + 1) * blobSize : Nat) := by
    rw [sum, toInt_of_lt (by omega) (by omega)]
  have top : toInt ((size : Int) - blobSize) = size - blobSize :=
    toInt_of_lt (by show _ ≤ (size : Int) - 16; omega) (by show (size : Int) - 16 < _; omega)
  have upTo : (blob + 1) * blobSize + blobSize ≤ size := by
    rw [← Nat.succ_mul]
    exact room
  have chosen := @newOffset_next size copy (contextAt size last blob) _
    (holds.length.trans length.symm) conflict next (by
      refine le_of_le_of_eq ?_ top.symm
      omega)
  exact saveVbnvFlash_eq (holds.initIfNeeded wide small knows) changed chosen
    (toSize_natCast wide fits) upTo

theorem Holds.save_erase (changed : copy ≠ last) (conflict : ¬ Clears last copy) {next : Int}
    (sum : toInt ((blob * blobSize : Nat) + blobSize) = next)
    (full : toInt (size - blobSize) < next) :
    saveVbnvFlash width size ctx memory copy = (contextAt size copy 0,
      [.eraseat 0 size, .writeat 0 copy]) := by
  have inside := holds.inside
  have large : 0 + blobSize ≤ size := by
    rw [Nat.add_mul, Nat.one_mul] at inside
    omega
  have chosen := @newOffset_erase size copy (contextAt size last blob) _
    (holds.length.trans length.symm) conflict sum full
  exact saveVbnvFlash_eq (holds.initIfNeeded wide small knows) changed chosen
    (toSize_natCast wide (by decide) : toSize width (0 : Nat) = 0) large

theorem Holds.save (filled : copy ≠ emptyBlob) (bounded : size < 2147483648 ∨ 2147483664 ≤ size) :
    Saves width size memory copy blob ctx := by
  have inside : (blob + 1) * 16 ≤ size := holds.inside
  have step : ((blob * blobSize : Nat) : Int) + blobSize = (blob * 16 + 16 : Nat) := rfl
  by_cases changed : copy = last
  · subst changed
    exact ⟨blob, [], holds.save_same wide small knows, holds, trivial⟩
  by_cases clears : Clears last copy
  · refine ⟨blob, _, holds.save_overwrite wide small knows length changed clears,
      holds.overwrite length filled clears, length, Or.inl ⟨rfl, ?_⟩, trivial⟩
    rw [holds.current]
    exact clears
  by_cases room : (blob + 2) * 16 ≤ size ∧ size < 2147483648
  · obtain ⟨next, below⟩ := room
    obtain ⟨empty, advanced⟩ := holds.advance length filled next (below.trans (by decide))
    have fits : (blob + 1) * 16 < 2147483648 := by omega
    exact ⟨blob + 1, _, holds.save_advance wide small knows length changed clears
      next (below.trans (by decide)) fits, advanced, length, Or.inr empty,
      trivial⟩
  · obtain ⟨empty, restarted⟩ := holds_erase (show 16 ≤ size by omega) length filled
    have full : toInt ((size : Int) - blobSize) < toInt ((blob * blobSize : Nat) + blobSize) := by
      rw [step]
      show toInt ((size : Int) - 16) < _
      rcases bounded with below | above
      · rw [toInt_of_lt (by omega) (by omega), toInt_of_lt (by omega) (by omega)]
        omega
      · have first : blob = 0 := holds.reach.resolve_right (by omega)
        have wrapped : toInt ((size : Int) - 16) < 0 := by
          have turn : (size : Int) - 16 = size - 16 - 4294967296 + 4294967296 := by
            omega
          rw [turn]
          exact lt_of_eq_of_lt (Int.add_bmod_right _ _ |>.trans
            (toInt_of_lt (by omega) (by omega))) (by omega)
        have second : toInt ((0 * 16 + 16 : Nat) : Int) = 16 := by decide
        rw [first, second]
        omega
    exact ⟨0, _, holds.save_erase wide small knows length changed clears rfl full,
      restarted, length, Or.inr empty, trivial⟩

end Save

theorem Run.holds (wide : 32 ≤ width) (large : blobSize ≤ size) (small : size < 4294967296)
    (bounded : size < 2147483648 ∨ 2147483664 ≤ size) (run : Run width size ctx memory last) :
    ∃ blob, Holds size memory last blob ∧ Knows size last blob ctx := by
  induction run with
  | @start memory erased =>
    have empty : load memory (0 * blobSize) blobSize = emptyBlob := by
      rw [Nat.zero_mul]
      exact load_eq_replicate fun a _ below => erased a (by omega)
    refine ⟨0, ⟨by rwa [Nat.zero_add, Nat.one_mul], Or.inl rfl, empty, ?_, ?_⟩,
      fun ready => absurd ready (by decide)⟩
    · exact fun other first upTo => absurd upTo (by omega)
    · exact fun a _ below => erased a below
  | restart _ ih =>
    obtain ⟨blob, holds, -⟩ := ih
    exact ⟨blob, holds, fun ready => absurd ready (by decide)⟩
  | read _ read ih =>
    obtain ⟨blob, holds, knows⟩ := ih
    rw [readVbnvFlash, holds.initIfNeeded wide small knows, Option.map_some] at read
    obtain ⟨rfl, -⟩ := Prod.mk.inj (Option.some.inj read)
    exact ⟨blob, holds, fun _ => rfl⟩
  | save _ length filled save ih =>
    obtain ⟨blob, holds, knows⟩ := ih
    obtain ⟨next, ops, saved, holds', -⟩ := holds.save wide small knows length filled bounded
    obtain ⟨rfl, rfl⟩ := Prod.mk.inj (saved.symm.trans save)
    exact ⟨next, holds', fun _ => rfl⟩

theorem Holds.correct (wide : 32 ≤ width) (small : size < 4294967296)
    (bounded : size < 2147483648 ∨ 2147483664 ≤ size)
    (holds : Holds size memory last blob) (knows : Knows size last blob ctx) :
    Correct width size ctx memory last (contextAt size last blob) where
  read := by
    rw [readVbnvFlash, holds.initIfNeeded wide small knows]
    rfl
  erased := by
    intro other above inside
    have later : blob * 16 < other * 16 := Int.ofNat_lt.mp above
    exact holds.emptyBlob_above (by omega) inside
  justified := by
    intro copy length filled
    obtain ⟨next, ops, saved, -, justified⟩ := holds.save wide small knows length filled bounded
    rw [saved]
    exact justified

/-- Two blobs that cannot overwrite each other take turns. -/
def alternate (index : Nat) : List Byte := (if index % 2 = 0 then 1 else 2) :: List.replicate 15 0

theorem alternate_spec (index : Nat) :
    (alternate index).length = blobSize ∧ alternate index ≠ emptyBlob ∧
      alternate (index + 1) ≠ alternate index ∧
        ¬ Clears (alternate index) (alternate (index + 1)) := by
  have conflict : ∀ first second : Byte, first &&& second ≠ second →
      ¬ Clears (first :: List.replicate 15 0) (second :: List.replicate 15 0) :=
    fun _ _ differ clears => differ (List.forall₂_cons.mp clears).1
  rcases Nat.mod_two_eq_zero_or_one index with even | odd
  · have next : (index + 1) % 2 ≠ 0 := by omega
    rw [alternate, alternate, if_pos even, if_neg next]
    exact ⟨rfl, by decide, by decide, conflict 1 2 (by decide)⟩
  · have next : (index + 1) % 2 = 0 := by omega
    rw [alternate, alternate, if_neg (by omega), if_pos next]
    exact ⟨rfl, by decide, by decide, conflict 2 1 (by decide)⟩

theorem run_alternate (wide : 32 ≤ width) (small : size < 2147483664) (index : Nat)
    (inside : (index + 1) * blobSize ≤ size) (fits : index * blobSize < 2147483648) :
    ∃ ctx memory, Run width size ctx memory (alternate index) ∧
      Holds size memory (alternate index) index ∧ Knows size (alternate index) index ctx := by
  induction index with
  | zero =>
    obtain ⟨length, filled, -⟩ := alternate_spec 0
    have erased : ∀ a < size, (fun _ => eraseValue : Memory) a = eraseValue := fun _ _ => rfl
    have empty : load (fun _ => eraseValue) (0 * blobSize) blobSize = emptyBlob :=
      load_eq_replicate fun _ _ _ => rfl
    have start : Holds size (fun _ => eraseValue) emptyBlob 0 :=
      ⟨inside, Or.inl rfl, empty, fun _ first upTo => absurd upTo (by omega), fun _ _ _ => rfl⟩
    have clears := clears_emptyBlob length
    have saved := start.save_overwrite wide (small.trans (by decide))
      (fun ready => absurd ready (by decide) : Knows size emptyBlob 0 cleared)
      length filled clears
    exact ⟨_, _, (Run.start erased).save length filled saved,
      start.overwrite length filled clears, fun _ => rfl⟩
  | succ index ih =>
    obtain ⟨length, filled, -⟩ := alternate_spec (index + 1)
    obtain ⟨-, -, changed, conflict⟩ := alternate_spec index
    have before : index * 16 < (index + 1) * 16 := by omega
    obtain ⟨ctx, memory, run, holds, knows⟩ := ih
      ((Nat.mul_le_mul_right _ (Nat.le_succ _)).trans inside)
      (before.trans fits)
    have saved := holds.save_advance wide (small.trans (by decide)) knows length
      changed conflict inside small fits
    exact ⟨_, _, run.save length filled saved,
      (holds.advance length filled inside small).2, fun _ => rfl⟩

theorem Holds.save_refused (wide : 32 ≤ width) (lower : 2147483648 ≤ size)
    (upper : size < 2147483664) (holds : Holds size memory last 134217727)
    (knows : Knows size last 134217727 ctx) (length : copy.length = blobSize)
    (changed : copy ≠ last) (conflict : ¬ Clears last copy) :
    saveVbnvFlash width size ctx memory copy = (contextAt size last 134217727, []) := by
  have large : 4294967296 ≤ 2 ^ width := Nat.pow_le_pow_right (show 1 ≤ 2 by decide) wide
  have sum : toInt ((134217727 * blobSize : Nat) + blobSize) = -2147483648 := by
    decide
  have top : toInt ((size : Int) - blobSize) = size - 16 :=
    toInt_of_lt (by show _ ≤ (size : Int) - 16; omega) (by show (size : Int) - 16 < _; omega)
  have chosen := @newOffset_next size copy (contextAt size last 134217727) _
    (holds.length.trans length.symm) conflict sum (by
      refine le_of_le_of_eq ?_ top.symm
      omega)
  have converted : toSize width (-2147483648) = 2 ^ width - 2147483648 := by
    have turn : (-2147483648 : Int) % (2 ^ width : Nat) = (2 ^ width : Nat) - 2147483648 := by
      rw [← Int.add_emod_right, Int.emod_eq_of_lt (by omega) (by omega)]
      omega
    rw [toSize, turn]
    omega
  have outside : ¬ toSize width (-2147483648) + blobSize ≤ size := by
    rw [converted]
    show ¬ 2 ^ width - 2147483648 + 16 ≤ size
    omega
  rw [saveVbnvFlash]
  simp only [holds.initIfNeeded wide (upper.trans (by decide)) knows, chosen]
  exact (if_neg changed).trans (if_neg outside)

/-- When the region ends within the first blob above 2 GiB, a run that fills it
loses a save. -/
theorem run_loses_save (wide : 32 ≤ width) (lower : 2147483648 ≤ size) (upper : size < 2147483664) :
    ∃ ctx memory last, Run width size ctx memory last ∧
      ∀ current, ¬ Correct width size ctx memory last current := by
  obtain ⟨ctx, memory, run, holds, knows⟩ := run_alternate wide upper 134217727 lower (by decide)
  obtain ⟨length, filled, -⟩ := alternate_spec (134217727 + 1)
  obtain ⟨-, -, changed, conflict⟩ := alternate_spec 134217727
  have refused := holds.save_refused wide lower upper knows length changed conflict
  refine ⟨_, _, _, run.save length filled refused, fun current claimed => ?_⟩
  have read : readVbnvFlash width size _ memory = _ := claimed.read
  rw [readVbnvFlash, holds.initIfNeeded wide (upper.trans (by decide))
    fun _ => rfl, Option.map_some] at read
  exact changed (Prod.mk.inj (Option.some.inj read)).2.symm

end Invariant

end Coreboot.VbnvFlash
