import Mathlib.Data.Finmap
import Mathlib.Tactic

/-!
# Last writer wins

A table that is only ever written as a whole entry keeps, for each key, the last
value written to it.  Writes that are repeated over the state they led to change
nothing, whatever comes behind them.
-/

namespace InMemoryDb.LastWrite

variable {κ α : Type*} [DecidableEq κ]

/-- The writes, one after another. -/
def applyWrites (table : Finmap fun _ : κ => α) (writes : List (κ × α)) :
    Finmap fun _ : κ => α :=
  writes.foldl (fun table write => table.insert write.1 write.2) table

/-- The value of the last write to a key. -/
def lastWrite (key : κ) : List (κ × α) → Option α
  | [] => none
  | (other, value) :: writes =>
      (lastWrite key writes).or (if other = key then some value else none)

theorem lastWrite_append (key : κ) (first second : List (κ × α)) :
    lastWrite key (first ++ second) = (lastWrite key second).or (lastWrite key first) := by
  induction first with
  | nil => simp [lastWrite]
  | cons write first ih =>
      obtain ⟨other, value⟩ := write
      rw [List.cons_append, lastWrite, lastWrite, ih, Option.or_assoc]

theorem lookup_applyWrites (table : Finmap fun _ : κ => α) (writes : List (κ × α)) (key : κ) :
    (applyWrites table writes).lookup key = (lastWrite key writes).or (table.lookup key) := by
  induction writes generalizing table with
  | nil => simp [applyWrites, lastWrite]
  | cons write writes ih =>
      obtain ⟨other, value⟩ := write
      change (applyWrites (table.insert other value) writes).lookup key = _
      rw [ih, lastWrite, Option.or_assoc]
      congr 1
      split_ifs with hkey
      · subst hkey
        rw [Finmap.lookup_insert, Option.some_or]
      · rw [Finmap.lookup_insert_of_ne _ (Ne.symm hkey), Option.none_or]

/-- Where no key is written twice, the last write is the only one. -/
theorem lastWrite_eq_some_iff {writes : List (κ × α)} (hnodup : (writes.map Prod.fst).Nodup)
    {key : κ} {value : α} : lastWrite key writes = some value ↔ (key, value) ∈ writes := by
  induction writes generalizing value with
  | nil => simp [lastWrite]
  | cons write writes ih =>
      obtain ⟨other, first⟩ := write
      rw [List.map_cons, List.nodup_cons] at hnodup
      obtain ⟨hfresh, hrest⟩ := hnodup
      rw [lastWrite, List.mem_cons, Prod.mk.injEq, ← ih hrest]
      by_cases hkey : other = key
      · subst hkey
        have hnone : lastWrite other writes = none := by
          rw [Option.eq_none_iff_forall_ne_some]
          intro later hlater
          exact hfresh (List.mem_map.mpr ⟨(other, later), (ih hrest).mp hlater, rfl⟩)
        rw [hnone, if_pos rfl, Option.none_or, Option.some.injEq]
        simp [eq_comm]
      · rw [if_neg hkey, Option.or_none]
        simp [Ne.symm hkey]

/-- Replaying `again` over a state that already has it. -/
theorem applyWrites_again (table : Finmap fun _ : κ => α) (front again rest : List (κ × α)) :
    applyWrites (applyWrites table (front ++ again)) (again ++ rest) =
      applyWrites table (front ++ again ++ rest) := by
  apply Finmap.ext_lookup
  intro key
  simp only [lookup_applyWrites, lastWrite_append]
  cases lastWrite key rest with
  | some value => rfl
  | none =>
      cases lastWrite key again with
      | some value => rfl
      | none => rfl

end InMemoryDb.LastWrite
