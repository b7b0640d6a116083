import Mathlib.Data.Multiset.Count
import Mathlib.Tactic

/-!
# Reference-counted cells

Cells hold a content and the number of references to them.  A holder of the only
reference may overwrite the content; everybody else may only read.  As long as
the counts are those of the references that exist, no other reference sees such
a write.
-/

namespace InMemoryDb.RefCount

variable {α : Type*}

structure Cell (α : Type*) where
  content : α
  strong : ℕ
  deriving DecidableEq

/-- Cells by address.  An address is given out once. -/
structure Heap (α : Type*) where
  cells : List (Cell α)
  deriving DecidableEq

namespace Heap

def empty : Heap α := ⟨[]⟩

def read (heap : Heap α) (addr : ℕ) : Option α := heap.cells[addr]?.map Cell.content

/-- The count of a cell, `0` if there is no cell. -/
def strong (heap : Heap α) (addr : ℕ) : ℕ := (heap.cells[addr]?.map Cell.strong).getD 0

/-- A new cell with its first reference. -/
def alloc (heap : Heap α) (content : α) : Heap α × ℕ :=
  (⟨heap.cells ++ [⟨content, 1⟩]⟩, heap.cells.length)

/-- One reference more. -/
def clone (heap : Heap α) (addr : ℕ) : Heap α :=
  ⟨heap.cells.modify addr fun cell => { cell with strong := cell.strong + 1 }⟩

/-- One reference less. -/
def release (heap : Heap α) (addr : ℕ) : Heap α :=
  ⟨heap.cells.modify addr fun cell => { cell with strong := cell.strong - 1 }⟩

def write (heap : Heap α) (addr : ℕ) (content : α) : Heap α :=
  ⟨heap.cells.modify addr fun cell => { cell with content := content }⟩

variable {heap : Heap α} {addr other : ℕ} {content : α}

/-! ## What each operation changes -/

/-- A field that an update of one cell keeps is kept in every cell. -/
theorem map_modify {β : Type*} (cells : List (Cell α)) (addr other : ℕ) {field : Cell α → β}
    {update : Cell α → Cell α} (hsame : ∀ cell, field (update cell) = field cell) :
    (cells.modify addr update)[other]?.map field = cells[other]?.map field := by
  rw [List.getElem?_modify, Option.map_eq_map, Option.map_map]
  congr 1
  funext cell
  simp only [Function.comp_apply]
  split_ifs
  · exact hsame cell
  · rfl

@[simp]
theorem read_clone : (heap.clone addr).read other = heap.read other :=
  map_modify heap.cells addr other fun _ => rfl

@[simp]
theorem read_release : (heap.release addr).read other = heap.read other :=
  map_modify heap.cells addr other fun _ => rfl

theorem read_write_self (hread : (heap.read addr).isSome) :
    (heap.write addr content).read addr = some content := by
  rw [read, Option.isSome_map] at hread
  obtain ⟨cell, hcell⟩ := Option.isSome_iff_exists.mp hread
  rw [read, write, List.getElem?_modify, hcell]
  simp

theorem read_write_ne (hne : addr ≠ other) :
    (heap.write addr content).read other = heap.read other := by
  rw [read, read, write, List.getElem?_modify]
  simp [hne]

theorem read_alloc_self : (heap.alloc content).1.read (heap.alloc content).2 = some content := by
  simp [read, alloc]

theorem read_alloc_ne (hlive : (heap.read other).isSome) :
    (heap.alloc content).1.read other = heap.read other := by
  rw [read, Option.isSome_map, isSome_getElem?] at hlive
  rw [read, read, alloc, List.getElem?_append_left hlive]

theorem strong_clone (hlive : 0 < heap.strong addr) :
    (heap.clone addr).strong other = heap.strong other + if addr = other then 1 else 0 := by
  by_cases heq : addr = other
  · subst heq
    cases hcell : heap.cells[addr]? with
    | none => simp [strong, hcell] at hlive
    | some cell => simp [strong, clone, hcell]
  · simp [strong, clone, heq]

theorem strong_release :
    (heap.release addr).strong other = heap.strong other - if addr = other then 1 else 0 := by
  by_cases heq : addr = other
  · subst heq
    cases hcell : heap.cells[addr]? with
    | none => simp [strong, release, hcell]
    | some cell => simp [strong, release, hcell]
  · simp [strong, release, heq]

@[simp]
theorem strong_write : (heap.write addr content).strong other = heap.strong other :=
  congrArg (Option.getD · 0) (map_modify heap.cells addr other fun _ => rfl)

theorem strong_alloc :
    (heap.alloc content).1.strong other =
      heap.strong other + if (heap.alloc content).2 = other then 1 else 0 := by
  rcases lt_trichotomy other heap.cells.length with hlt | heq | hgt
  · have hne : heap.cells.length ≠ other := by omega
    simp [strong, alloc, List.getElem?_append_left hlt, hne]
  · subst heq
    simp [strong, alloc]
  · have hne : heap.cells.length ≠ other := by omega
    have hold : heap.cells[other]? = none := List.getElem?_eq_none (by omega)
    have hnew : (heap.cells ++ [⟨content, 1⟩])[other]? = none :=
      List.getElem?_eq_none (by simp; omega)
    simp [strong, alloc, hold, hnew, hne]

theorem isSome_read_of_strong (hlive : 0 < heap.strong addr) : (heap.read addr).isSome := by
  cases hcell : heap.cells[addr]? with
  | none => simp [strong, hcell] at hlive
  | some cell => simp [read, hcell]

end Heap

/-! ## Counted references -/

/-- The counts are those of the references `refs`. -/
def Owned (heap : Heap α) (refs : Multiset ℕ) : Prop := ∀ addr, heap.strong addr = refs.count addr

variable {heap : Heap α} {addr other : ℕ} {content : α} {refs : Multiset ℕ}

theorem owned_empty : Owned (Heap.empty : Heap α) 0 := fun _ => rfl

namespace Owned

theorem strong_pos (howned : Owned heap refs) (haddr : addr ∈ refs) : 0 < heap.strong addr := by
  rw [howned addr]
  exact Multiset.count_pos.mpr haddr

/-- A reference can be read through. -/
theorem live (howned : Owned heap refs) (haddr : addr ∈ refs) : (heap.read addr).isSome :=
  Heap.isSome_read_of_strong (howned.strong_pos haddr)

theorem alloc (howned : Owned heap refs) (content : α) :
    Owned (heap.alloc content).1 ((heap.alloc content).2 ::ₘ refs) := by
  intro addr
  rw [Heap.strong_alloc, howned addr, Multiset.count_cons]
  simp only [eq_comm]

theorem clone (howned : Owned heap refs) (haddr : addr ∈ refs) :
    Owned (heap.clone addr) (addr ::ₘ refs) := by
  intro other
  rw [Heap.strong_clone (howned.strong_pos haddr), howned other, Multiset.count_cons]
  simp only [eq_comm]

theorem release (howned : Owned heap (addr ::ₘ refs)) : Owned (heap.release addr) refs := by
  intro other
  rw [Heap.strong_release, howned other, Multiset.count_cons]
  by_cases heq : addr = other
  · simp [heq]
  · simp [heq, Ne.symm heq]

theorem write (howned : Owned heap refs) (addr : ℕ) (content : α) :
    Owned (heap.write addr content) refs := by
  intro other
  rw [Heap.strong_write]
  exact howned other

/-- Where the count is one, nobody else refers to the cell. -/
theorem notMem_of_unique (howned : Owned heap (addr ::ₘ refs)) (hunique : heap.strong addr = 1) :
    addr ∉ refs := by
  rw [howned addr, Multiset.count_cons_self] at hunique
  exact Multiset.count_eq_zero.mp (by omega)

/-- The holder of the only reference may write: no other reference sees it. -/
theorem read_write (howned : Owned heap (addr ::ₘ refs)) (hunique : heap.strong addr = 1)
    (hother : other ∈ refs) : (heap.write addr content).read other = heap.read other := by
  apply Heap.read_write_ne
  rintro rfl
  exact howned.notMem_of_unique hunique hother

theorem read_alloc (howned : Owned heap refs) (hother : other ∈ refs) :
    (heap.alloc content).1.read other = heap.read other :=
  Heap.read_alloc_ne (howned.live hother)

end Owned

end InMemoryDb.RefCount
