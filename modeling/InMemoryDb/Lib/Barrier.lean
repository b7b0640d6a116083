import Mathlib.Tactic

/-!
# Weights behind barriers

A sequence of items, each with a weight, some of them barriers.  An item with a
barrier behind it is covered; `exposed` is the weight of the others.
-/

namespace InMemoryDb.Barrier

variable {α : Type*} (weight : α → ℕ) (barrier : α → Bool)

/-- The weight of the items with no barrier behind them. -/
def exposed : List α → ℕ
  | [] => 0
  | item :: rest => (if rest.any barrier then 0 else weight item) + exposed rest

variable {weight barrier}

theorem exposed_append (front back : List α) :
    exposed weight barrier (front ++ back) =
      (if back.any barrier then 0 else exposed weight barrier front) +
        exposed weight barrier back := by
  induction front with
  | nil => simp [exposed]
  | cons item front ih =>
      rw [List.cons_append, exposed, exposed, ih, List.any_append]
      by_cases hback : back.any barrier = true
      · simp [hback]
      · simp only [hback, Bool.false_eq_true, if_false, Bool.or_false, Nat.add_assoc]

/-- What stands behind is exposed to the same amount whatever is in front. -/
theorem exposed_le_append (front back : List α) :
    exposed weight barrier back ≤ exposed weight barrier (front ++ back) := by
  rw [exposed_append]
  exact Nat.le_add_left _ _

theorem exposed_eq_zero {items : List α} (hzero : ∀ item ∈ items, weight item = 0) :
    exposed weight barrier items = 0 := by
  induction items with
  | nil => rfl
  | cons item items ih =>
      rw [exposed, ih fun other hother => hzero other (List.mem_cons_of_mem _ hother),
        hzero item List.mem_cons_self, ite_self]

/-- A barrier at the end covers everything. -/
theorem exposed_concat_barrier {items : List α} {item : α} (hbarrier : barrier item = true)
    (hweight : weight item = 0) : exposed weight barrier (items ++ [item]) = 0 := by
  rw [exposed_append]
  simp [exposed, hbarrier, hweight]

/-- An item at the end is exposed. -/
theorem exposed_concat (items : List α) {item : α} (hbarrier : barrier item = false) :
    exposed weight barrier (items ++ [item]) = exposed weight barrier items + weight item := by
  rw [exposed_append]
  simp [exposed, hbarrier]

theorem any_barrier_eq_false {items : List α} (hbarrier : ∀ item ∈ items, barrier item = false) :
    items.any barrier = false := by
  rw [List.any_eq_false]
  intro item hitem
  rw [hbarrier item hitem]
  exact Bool.false_ne_true

/-- Weightless items that are no barriers can be added at the end. -/
theorem exposed_append_light {items light : List α}
    (hbarrier : ∀ item ∈ light, barrier item = false) (hweight : ∀ item ∈ light, weight item = 0) :
    exposed weight barrier (items ++ light) = exposed weight barrier items := by
  rw [exposed_append, any_barrier_eq_false hbarrier, exposed_eq_zero hweight]
  simp

/-- One item changes, and is neither heavier nor less of a barrier. -/
theorem exposed_replace (front back : List α) {item other : α}
    (hweight : weight other ≤ weight item) (hbarrier : barrier other = barrier item) :
    exposed weight barrier (front ++ other :: back) ≤
      exposed weight barrier (front ++ item :: back) := by
  rw [exposed_append, exposed_append, List.any_cons, List.any_cons, hbarrier, exposed, exposed]
  by_cases hback : back.any barrier = true
  · simp [hback]
  · simp only [hback, Bool.false_eq_true, if_false]
    omega

theorem exposed_le_sum (items : List α) :
    exposed weight barrier items ≤ (items.map weight).sum := by
  induction items with
  | nil => exact le_rfl
  | cons item items ih =>
      rw [exposed, List.map_cons, List.sum_cons]
      split_ifs <;> omega

/-- Items put in between add at most their own weight. -/
theorem exposed_insert (front back : List α) {middle : List α}
    (hbarrier : ∀ item ∈ middle, barrier item = false) :
    exposed weight barrier (front ++ (middle ++ back)) ≤
      exposed weight barrier (front ++ back) + (middle.map weight).sum := by
  have hsum := @exposed_le_sum _ weight barrier middle
  rw [exposed_append, exposed_append, exposed_append, List.any_append,
    any_barrier_eq_false hbarrier, Bool.false_or]
  split_ifs <;> omega

/-- An item is exposed, or there is a barrier behind it. -/
theorem le_exposed_or_barrier (front back : List α) (item : α) :
    weight item ≤ exposed weight barrier (front ++ item :: back) ∨ back.any barrier = true := by
  by_cases hback : back.any barrier = true
  · exact Or.inr hback
  · left
    refine le_trans ?_ (exposed_le_append front (item :: back))
    rw [exposed, if_neg hback]
    exact Nat.le_add_right _ _

end InMemoryDb.Barrier
