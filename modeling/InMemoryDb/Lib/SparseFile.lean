import Mathlib.Tactic

/-!
# Files filled by positioned writes

A file that is filled by concurrent positioned writes has holes until the last
of them has landed.  A position holds `none` while nothing was written there,
which a reader sees as the default value.  The library tracks which positions
are written (`Covers`) separately from what they should hold (`Agrees` with an
intended image), so that the order in which the writes land never matters.
-/

namespace InMemoryDb.SparseFile

variable {α : Type*}

/-- Contents of a file with holes. -/
abbrev Sparse (α : Type*) := List (Option α)

/-- The file whose every position was written. -/
def full (data : List α) : Sparse α := data.map some

/-- Write `data` at position `offset`, extending the file with a hole when the
position lies past its end. -/
def pwrite (file : Sparse α) (offset : ℕ) (data : List α) : Sparse α :=
  if data = [] then file
  else
    file.take offset ++ List.replicate (offset - file.length) none ++
      data.map some ++ file.drop (offset + data.length)

/-- What a reader sees: holes read as `default`. -/
def contents [Inhabited α] (file : Sparse α) : List α :=
  file.map fun cell => cell.getD default

/-- Position `index` was written, with value `value`. -/
def Holds (file : Sparse α) (index : ℕ) (value : α) : Prop :=
  file[index]? = some (some value)

/-- Every position of `[offset, offset + count)` was written. -/
def Covers (file : Sparse α) (offset count : ℕ) : Prop :=
  ∀ index, offset ≤ index → index < offset + count → ∃ value, Holds file index value

/-- Whatever was written is what the intended image has at that position. -/
def Agrees (file : Sparse α) (image : List α) : Prop :=
  file.length ≤ image.length ∧
    ∀ index value, Holds file index value → image[index]? = some value

/-- The image has `data` at position `offset`. -/
def Located (image : List α) (offset : ℕ) (data : List α) : Prop :=
  offset + data.length ≤ image.length ∧
    ∀ index, index < data.length → image[offset + index]? = data[index]?

/-- Everything the first file holds, the second holds too. -/
def Grows (before after : Sparse α) : Prop :=
  ∀ index value, Holds before index value → Holds after index value

theorem getElem?_pwrite (file : Sparse α) (offset : ℕ) (data : List α)
    (index : ℕ) (hdata : data ≠ []) :
    (pwrite file offset data)[index]? =
      if index < offset then
        if index < file.length then file[index]? else some none
      else if index < offset + data.length then
        (data[index - offset]?).map some
      else file[index]? := by
  have hhead : (file.take offset ++
      List.replicate (offset - file.length) (none : Option α)).length = offset := by
    simp only [List.length_append, List.length_take, List.length_replicate]
    omega
  rw [pwrite, if_neg hdata, List.append_assoc, List.getElem?_append, hhead]
  by_cases hbefore : index < offset
  · simp only [hbefore, if_true, List.getElem?_append, List.length_take,
      List.getElem?_take, List.getElem?_replicate]
    by_cases hfile : index < file.length
    · simp [hfile, hbefore]
    · have : ¬ index < min offset file.length := by omega
      simp only [this, hfile, if_false, ite_eq_left_iff]
      omega
  · simp only [hbefore, if_false, List.getElem?_append, List.length_map,
      List.getElem?_map, List.getElem?_drop]
    by_cases hinside : index < offset + data.length
    · have : index - offset < data.length := by omega
      simp [this, hinside]
    · have houtside : ¬ index - offset < data.length := by omega
      have hindex : offset + data.length + (index - offset - data.length) = index := by
        omega
      simp [houtside, hinside, hindex]

theorem length_pwrite_le (file : Sparse α) (offset : ℕ) (data : List α) (bound : ℕ)
    (hfile : file.length ≤ bound) (hdata : offset + data.length ≤ bound) :
    (pwrite file offset data).length ≤ bound := by
  by_cases hnil : data = []
  · simpa [pwrite, hnil] using hfile
  · simp only [pwrite, if_neg hnil, List.length_append, List.length_take,
      List.length_replicate, List.length_map, List.length_drop]
    omega

theorem Grows.refl (file : Sparse α) : Grows file file := fun _ _ h => h

theorem Grows.trans {first second third : Sparse α} (h : Grows first second)
    (h' : Grows second third) : Grows first third :=
  fun index value hold => h' index value (h index value hold)

theorem Covers.mono {before after : Sparse α} (hgrows : Grows before after)
    {offset count : ℕ} (hcovers : Covers before offset count) :
    Covers after offset count := by
  intro index hlow hhigh
  obtain ⟨value, hvalue⟩ := hcovers index hlow hhigh
  exact ⟨value, hgrows index value hvalue⟩

theorem covers_zero (file : Sparse α) (offset : ℕ) : Covers file offset 0 := by
  intro index hlow hhigh
  omega

theorem holds_full {data : List α} {index : ℕ} {value : α} :
    Holds (full data) index value ↔ data[index]? = some value := by
  simp [Holds, full]

theorem covers_full (data : List α) : Covers (full data) 0 data.length := by
  intro index _ hindex
  have hlt : index < data.length := by omega
  exact ⟨data[index], holds_full.mpr (List.getElem?_eq_getElem hlt)⟩

/-- An image may be extended at its end without disturbing agreement. -/
theorem Agrees.append {file : Sparse α} {image : List α} (hagrees : Agrees file image)
    (more : List α) : Agrees file (image ++ more) := by
  refine ⟨hagrees.1.trans (by simp), ?_⟩
  intro index value hold
  have hvalue := hagrees.2 index value hold
  rw [List.getElem?_append_left (List.getElem?_eq_some_iff.mp hvalue).1]
  exact hvalue

theorem Located.append {image data : List α} {offset : ℕ}
    (hlocated : Located image offset data) (more : List α) :
    Located (image ++ more) offset data := by
  obtain ⟨hlength, hdata⟩ := hlocated
  refine ⟨hlength.trans (by simp), ?_⟩
  intro index hindex
  rw [List.getElem?_append_left (by omega)]
  exact hdata index hindex

theorem located_append_self (image data : List α) :
    Located (image ++ data) image.length data := by
  refine ⟨by simp, ?_⟩
  intro index _
  rw [List.getElem?_append_right (by omega)]
  simp

/-- A piece of located data is located at the matching offset. -/
theorem Located.piece {image data : List α} {offset : ℕ}
    (hlocated : Located image offset data) (start count : ℕ) :
    Located image (offset + start) ((data.drop start).take count) ∨
      (data.drop start).take count = [] := by
  by_cases hstart : start < data.length
  · left
    obtain ⟨hlength, hdata⟩ := hlocated
    constructor
    · simp only [List.length_take, List.length_drop]
      omega
    · intro index hindex
      simp only [List.length_take, List.length_drop] at hindex
      rw [List.getElem?_take_of_lt (by omega), List.getElem?_drop, Nat.add_assoc]
      exact hdata (start + index) (by omega)
  · right
    rw [List.drop_eq_nil_of_le (by omega)]
    simp

theorem agrees_pwrite {file : Sparse α} {image data : List α} {offset : ℕ}
    (hagrees : Agrees file image) (hlocated : Located image offset data) :
    Agrees (pwrite file offset data) image := by
  refine ⟨length_pwrite_le file offset data _ hagrees.1 hlocated.1, ?_⟩
  intro index value hold
  by_cases hnil : data = []
  · exact hagrees.2 index value (by simpa [pwrite, hnil] using hold)
  rw [Holds, getElem?_pwrite file offset data index hnil] at hold
  split_ifs at hold with hbefore hfile hinside
  · exact hagrees.2 index value hold
  · simp at hold
  · obtain ⟨_, hdata⟩ := hlocated
    have hindex := hdata (index - offset) (by omega)
    rw [Nat.add_sub_of_le (by omega)] at hindex
    rw [hindex]
    simpa using hold
  · exact hagrees.2 index value hold

/-- A write that stores what the image has there loses nothing. -/
theorem grows_pwrite {file : Sparse α} {image data : List α} {offset : ℕ}
    (hagrees : Agrees file image) (hlocated : Located image offset data) :
    Grows file (pwrite file offset data) := by
  intro index value hold
  by_cases hnil : data = []
  · simpa [pwrite, hnil] using hold
  rw [Holds, getElem?_pwrite file offset data index hnil]
  have hlt : index < file.length := (List.getElem?_eq_some_iff.mp hold).1
  split_ifs with hbefore hinside
  · exact hold
  · obtain ⟨_, hdata⟩ := hlocated
    have hindex := hdata (index - offset) (by omega)
    rw [Nat.add_sub_of_le (by omega), hagrees.2 index value hold] at hindex
    simp [← hindex]
  · exact hold

/-- Storing a piece of located data. -/
theorem pwrite_piece {file : Sparse α} {image data : List α} {offset : ℕ}
    (hagrees : Agrees file image) (hlocated : Located image offset data) (start count : ℕ) :
    Agrees (pwrite file (offset + start) ((data.drop start).take count)) image ∧
      Grows file (pwrite file (offset + start) ((data.drop start).take count)) := by
  rcases hlocated.piece start count with hpiece | hnil
  · exact ⟨agrees_pwrite hagrees hpiece, grows_pwrite hagrees hpiece⟩
  · rw [hnil, pwrite, if_pos rfl]
    exact ⟨hagrees, Grows.refl file⟩

theorem covers_pwrite (file : Sparse α) (offset : ℕ) (data : List α) :
    Covers (pwrite file offset data) offset data.length := by
  intro index hlow hhigh
  have hnil : data ≠ [] := by
    rintro rfl
    simp at hhigh
    omega
  have hlt : index - offset < data.length := by omega
  refine ⟨data[index - offset], ?_⟩
  rw [Holds, getElem?_pwrite file offset data index hnil, if_neg (by omega),
    if_pos hhigh, List.getElem?_eq_getElem hlt]
  rfl

/-- A write fills no position outside its range. -/
theorem holds_pwrite {file : Sparse α} {offset : ℕ} {data : List α} {index : ℕ} {value : α}
    (hold : Holds (pwrite file offset data) index value) :
    Holds file index value ∨ (offset ≤ index ∧ index < offset + data.length) := by
  by_cases hnil : data = []
  · exact Or.inl (by simpa [pwrite, hnil] using hold)
  rw [Holds, getElem?_pwrite _ _ _ _ hnil] at hold
  split_ifs at hold with hlow hfile hhigh
  · exact Or.inl hold
  · simp at hold
  · exact Or.inr ⟨not_lt.mp hlow, hhigh⟩
  · exact Or.inl hold

/-- Covered ranges that touch join. -/
theorem Covers.join {file : Sparse α} {offset first second : ℕ}
    (hfirst : Covers file offset first) (hsecond : Covers file (offset + first) second) :
    Covers file offset (first + second) := by
  intro index hlow hhigh
  by_cases hindex : index < offset + first
  · exact hfirst index hlow hindex
  · exact hsecond index (by omega) (by omega)

/-- Covered data of the image is in the file, byte by byte. -/
theorem Covers.holds {file : Sparse α} {image data : List α} {offset : ℕ}
    (hagrees : ∀ index value, Holds file index value → image[index]? = some value)
    (hlocated : Located image offset data) (hcovers : Covers file offset data.length)
    (index : ℕ) (hindex : index < data.length) :
    ∃ value, data[index]? = some value ∧ Holds file (offset + index) value := by
  obtain ⟨value, hvalue⟩ := hcovers (offset + index) (by omega) (by omega)
  refine ⟨value, ?_, hvalue⟩
  rw [← hlocated.2 index hindex]
  exact hagrees _ _ hvalue

/-- A file that agrees with the image and has no hole is the image. -/
theorem eq_full_of_covers {file : Sparse α} {image : List α}
    (hagrees : Agrees file image) (hcovers : Covers file 0 image.length) :
    file = full image := by
  apply List.ext_getElem?
  intro index
  by_cases hindex : index < image.length
  · obtain ⟨value, hvalue⟩ := hcovers index (by omega) (by omega)
    rw [hvalue, full, List.getElem?_map, hagrees.2 index value hvalue]
    rfl
  · have hfile : file.length ≤ index := hagrees.1.trans (by omega)
    rw [List.getElem?_eq_none hfile, List.getElem?_eq_none (by simpa [full] using hindex)]

@[simp]
theorem contents_full [Inhabited α] (data : List α) : contents (full data) = data := by
  simp [contents, full, Function.comp_def]

@[simp]
theorem length_contents [Inhabited α] (file : Sparse α) :
    (contents file).length = file.length := by
  simp [contents]

theorem agrees_contents [Inhabited α] (file : Sparse α) : Agrees file (contents file) := by
  refine ⟨(length_contents file).ge, ?_⟩
  intro index value hold
  rw [Holds] at hold
  simp [contents, hold]

/-! ## Several writes -/

/-- The writes of a list, one after another. -/
def pwriteAll (file : Sparse α) (writes : List (ℕ × List α)) : Sparse α :=
  writes.foldl (fun file write => pwrite file write.1 write.2) file

theorem agrees_pwriteAll {file : Sparse α} {image : List α} {writes : List (ℕ × List α)}
    (hagrees : Agrees file image)
    (hlocated : ∀ write ∈ writes, Located image write.1 write.2) :
    Agrees (pwriteAll file writes) image ∧ Grows file (pwriteAll file writes) := by
  induction writes generalizing file with
  | nil => exact ⟨hagrees, Grows.refl file⟩
  | cons write writes ih =>
      have hhead := hlocated write (by simp)
      obtain ⟨hagrees', hgrows⟩ := ih (agrees_pwrite hagrees hhead)
        fun other hother => hlocated other (List.mem_cons_of_mem _ hother)
      exact ⟨hagrees', (grows_pwrite hagrees hhead).trans hgrows⟩

theorem covers_pwriteAll {file : Sparse α} {image : List α} {writes : List (ℕ × List α)}
    (hagrees : Agrees file image)
    (hlocated : ∀ write ∈ writes, Located image write.1 write.2) :
    ∀ write ∈ writes, Covers (pwriteAll file writes) write.1 write.2.length := by
  induction writes generalizing file with
  | nil => exact fun _ h => by cases h
  | cons head writes ih =>
      have hhead := hlocated head (by simp)
      have hrest : ∀ write ∈ writes, Located image write.1 write.2 :=
        fun other hother => hlocated other (List.mem_cons_of_mem _ hother)
      intro write hwrite
      rcases List.mem_cons.mp hwrite with rfl | hwrite
      · exact (covers_pwrite file write.1 write.2).mono
          (agrees_pwriteAll (agrees_pwrite hagrees hhead) hrest).2
      · exact ih (agrees_pwrite hagrees hhead) hrest write hwrite

/-- Nothing but the writes fills a position. -/
theorem holds_pwriteAll {file : Sparse α} {writes : List (ℕ × List α)} {index : ℕ} {value : α}
    (hold : Holds (pwriteAll file writes) index value) :
    Holds file index value ∨
      ∃ write ∈ writes, write.1 ≤ index ∧ index < write.1 + write.2.length := by
  induction writes generalizing file with
  | nil => exact Or.inl hold
  | cons head writes ih =>
      rcases ih hold with hbefore | ⟨write, hwrite, hrange⟩
      · rcases holds_pwrite hbefore with hfile | hrange
        · exact Or.inl hfile
        · exact Or.inr ⟨head, List.mem_cons_self, hrange⟩
      · exact Or.inr ⟨write, List.mem_cons_of_mem _ hwrite, hrange⟩

theorem length_pwrite (file : Sparse α) (offset : ℕ) {data : List α} (hdata : data ≠ []) :
    (pwrite file offset data).length = max file.length (offset + data.length) := by
  simp only [pwrite, if_neg hdata, List.length_append, List.length_take,
    List.length_replicate, List.length_map, List.length_drop]
  omega

/-- The file ends where one of the writes ended. -/
theorem length_pwriteAll {file : Sparse α} {writes : List (ℕ × List α)}
    (hnonempty : ∀ write ∈ writes, write.2 ≠ []) :
    (pwriteAll file writes).length = file.length ∨
      ∃ write ∈ writes, (pwriteAll file writes).length = write.1 + write.2.length := by
  induction writes generalizing file with
  | nil => exact Or.inl rfl
  | cons head writes ih =>
      have hlength := length_pwrite file head.1 (hnonempty head (by simp))
      rcases @ih (pwrite file head.1 head.2) fun other hother =>
        hnonempty other (List.mem_cons_of_mem _ hother) with hsame | ⟨write, hwrite, hend⟩
      · rw [hlength] at hsame
        rcases max_choice file.length (head.1 + head.2.length) with hmax | hmax
        · exact Or.inl (hsame.trans hmax)
        · exact Or.inr ⟨head, by simp, hsame.trans hmax⟩
      · exact Or.inr ⟨write, List.mem_cons_of_mem _ hwrite, hend⟩

/-! ## Reading over holes -/

/-- What was written of a range is its front. -/
def FromFront (file : Sparse α) (offset count : ℕ) : Prop :=
  ∀ lower index, offset ≤ lower → lower ≤ index → index < offset + count →
    (∃ value, Holds file index value) → ∃ value, Holds file lower value

/-- How far a range was written. -/
theorem FromFront.exists_kept {file : Sparse α} {offset count : ℕ}
    (hfront : FromFront file offset count) :
    ∃ kept, ∀ index, index < count →
      ((∃ value, Holds file (offset + index) value) ↔ index < kept) := by
  induction count with
  | zero => exact ⟨0, fun index hindex => absurd hindex (Nat.not_lt_zero index)⟩
  | succ count ih =>
      obtain ⟨kept, hkept⟩ := ih fun lower index hlow hle hindex =>
        hfront lower index hlow hle (by omega)
      by_cases hlast : ∃ value, Holds file (offset + count) value
      · refine ⟨count + 1, fun index hindex => ⟨fun _ => hindex, fun _ => ?_⟩⟩
        exact hfront (offset + index) (offset + count) (by omega) (by omega) (by omega) hlast
      · refine ⟨min kept count, fun index hindex => ?_⟩
        by_cases hbefore : index < count
        · rw [hkept index hbefore, lt_min_iff, and_iff_left hbefore]
        · obtain rfl : index = count := by omega
          exact ⟨fun h => absurd h hlast, fun h => absurd h (by omega)⟩

section Reading

variable [Inhabited α]

/-- What a reader sees at a position, also behind the end. -/
def readAt (file : Sparse α) (index : ℕ) : α := file[index]?.join.getD default

/-- What a reader sees of a range. -/
def window (file : Sparse α) (offset count : ℕ) : List α :=
  (List.range' offset count).map (readAt file)

/-- Data of which only the first `kept` positions were stored, as a reader sees it. -/
def blanked (data : List α) (kept : ℕ) : List α :=
  data.take kept ++ List.replicate (data.length - kept) default

theorem readAt_of_holds {file : Sparse α} {index : ℕ} {value : α}
    (hold : Holds file index value) : readAt file index = value := by
  rw [Holds] at hold
  rw [readAt, hold]
  rfl

theorem readAt_of_hole {file : Sparse α} {index : ℕ}
    (hhole : ∀ value, ¬ Holds file index value) : readAt file index = default := by
  rw [readAt]
  cases hcell : file[index]? with
  | none => rfl
  | some cell =>
      cases cell with
      | none => rfl
      | some value => exact absurd hcell (hhole value)

@[simp]
theorem length_window (file : Sparse α) (offset count : ℕ) :
    (window file offset count).length = count := by
  simp [window]

theorem getElem?_window (file : Sparse α) (offset : ℕ) {count index : ℕ} (hindex : index < count) :
    (window file offset count)[index]? = some (readAt file (offset + index)) := by
  simp [window, List.getElem?_range' hindex]

theorem window_append (file : Sparse α) (offset first second : ℕ) :
    window file offset (first + second) =
      window file offset first ++ window file (offset + first) second := by
  rw [window, window, window, ← List.map_append, List.range'_append_1]

@[simp]
theorem length_blanked (data : List α) (kept : ℕ) : (blanked data kept).length = data.length := by
  rw [blanked, List.length_append, List.length_take, List.length_replicate]
  omega

theorem getElem?_blanked (data : List α) (kept index : ℕ) :
    (blanked data kept)[index]? =
      data[index]?.map fun value => if index < kept then value else default := by
  rw [blanked, List.getElem?_append, List.getElem?_take, List.getElem?_replicate,
    List.length_take]
  by_cases hindex : index < data.length
  · rw [List.getElem?_eq_getElem hindex, Option.map_some]
    by_cases hkept : index < kept
    · rw [if_pos (lt_min hkept hindex), if_pos hkept, if_pos hkept]
    · rw [if_neg fun h => hkept (h.trans_le (min_le_left _ _)), if_neg hkept, if_pos]
      omega
  · rw [List.getElem?_eq_none (not_lt.mp hindex), Option.map_none, ite_self, ite_eq_left_iff]
    intro _
    rw [if_neg]
    omega

@[simp]
theorem blanked_nil (kept : ℕ) : blanked ([] : List α) kept = [] := by
  simp [blanked]

theorem blanked_append (first second : List α) (kept : ℕ) :
    blanked (first ++ second) kept =
      blanked first kept ++ blanked second (kept - first.length) := by
  apply List.ext_getElem?
  intro index
  rw [getElem?_blanked, List.getElem?_append, List.getElem?_append, length_blanked]
  by_cases hindex : index < first.length
  · rw [if_pos hindex, if_pos hindex, getElem?_blanked]
  · rw [if_neg hindex, if_neg hindex, getElem?_blanked]
    congr 1
    funext value
    congr 1
    rw [eq_iff_iff]
    omega

theorem take_blanked (data : List α) (kept count : ℕ) :
    (blanked data kept).take count = blanked (data.take count) kept := by
  apply List.ext_getElem?
  intro index
  rw [getElem?_blanked, List.getElem?_take, List.getElem?_take, getElem?_blanked]
  split_ifs <;> rfl

theorem drop_blanked (data : List α) (kept count : ℕ) :
    (blanked data kept).drop count = blanked (data.drop count) (kept - count) := by
  apply List.ext_getElem?
  intro index
  rw [getElem?_blanked, List.getElem?_drop, List.getElem?_drop, getElem?_blanked]
  congr 1
  funext value
  congr 1
  rw [eq_iff_iff]
  omega

theorem blanked_of_le {data : List α} {kept : ℕ} (hkept : data.length ≤ kept) :
    blanked data kept = data := by
  rw [blanked, List.take_of_length_le hkept, Nat.sub_eq_zero_of_le hkept, List.replicate_zero,
    List.append_nil]

@[simp]
theorem blanked_zero (data : List α) : blanked data 0 = List.replicate data.length default := by
  simp [blanked]

/-- A range that was written from its front reads as the front of its data, and as the
default value behind it. -/
theorem FromFront.window_eq {file : Sparse α} {image data : List α} {offset : ℕ}
    (hfront : FromFront file offset data.length) (hagrees : Agrees file image)
    (hlocated : Located image offset data) :
    ∃ kept, window file offset data.length = blanked data kept := by
  obtain ⟨kept, hkept⟩ := hfront.exists_kept
  refine ⟨kept, ?_⟩
  apply List.ext_getElem?
  intro index
  rw [getElem?_blanked]
  by_cases hindex : index < data.length
  · rw [getElem?_window file offset hindex, List.getElem?_eq_getElem hindex, Option.map_some]
    congr 1
    split_ifs with hheld
    · obtain ⟨value, hvalue⟩ := (hkept index hindex).mpr hheld
      have himage := hagrees.2 _ _ hvalue
      rw [hlocated.2 index hindex, List.getElem?_eq_getElem hindex, Option.some.injEq] at himage
      rw [readAt_of_holds hvalue, himage]
    · exact readAt_of_hole fun value hvalue => hheld ((hkept index hindex).mp ⟨value, hvalue⟩)
  · rw [List.getElem?_eq_none (by simpa using hindex), List.getElem?_eq_none (not_lt.mp hindex)]
    rfl

/-- Nothing is read behind the end. -/
theorem window_behind {file : Sparse α} {offset : ℕ} (hend : file.length ≤ offset) (count : ℕ) :
    window file offset count = List.replicate count default := by
  rw [List.eq_replicate_iff]
  refine ⟨length_window file offset count, ?_⟩
  intro value hvalue
  obtain ⟨index, hindex, rfl⟩ := List.mem_map.mp hvalue
  have hlow := (List.mem_range'_1.mp hindex).1
  rw [readAt, List.getElem?_eq_none (hend.trans hlow)]
  rfl

end Reading

end InMemoryDb.SparseFile
