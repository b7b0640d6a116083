import Mathlib.Tactic

/-!
# Linearizability

A history of calls and returns is linearizable when the operations can be put in
one order that a sequential object would have executed with the same results, and
that never puts an operation before one that had returned when it was called.
The rule proved here is the one of linearization points: if every operation takes
effect at one moment between its call and its return, the order of these moments
is such an order.
-/

namespace InMemoryDb.Linearization

/-- A sequential object: what an operation does to the state, and its result. -/
structure Object (State Op Res : Type*) where
  apply : State → Op → State × Res

variable {State Op Res : Type*}

namespace Object

/-- The state after a list of operations. -/
def final (obj : Object State Op Res) (state : State) (ops : List Op) : State :=
  ops.foldl (fun state op => (obj.apply state op).1) state

/-- The results of a list of operations. -/
def results (obj : Object State Op Res) : State → List Op → List Res
  | _, [] => []
  | state, op :: ops => (obj.apply state op).2 :: obj.results (obj.apply state op).1 ops

variable (obj : Object State Op Res)

theorem final_append (state : State) (front back : List Op) :
    obj.final state (front ++ back) = obj.final (obj.final state front) back :=
  List.foldl_append

theorem results_append (state : State) (front back : List Op) :
    obj.results state (front ++ back) =
      obj.results state front ++ obj.results (obj.final state front) back := by
  induction front generalizing state with
  | nil => rfl
  | cons op front ih => exact congrArg _ (ih _)

@[simp]
theorem length_results (state : State) (ops : List Op) :
    (obj.results state ops).length = ops.length := by
  induction ops generalizing state with
  | nil => rfl
  | cons op ops ih => exact congrArg (· + 1) (ih _)

end Object

/-- What is seen of an operation from outside. -/
inductive Event (Op Res : Type*) where
  | call (id : ℕ) (op : Op)
  | ret (id : ℕ) (res : Res)
  deriving DecidableEq

/-- The operation an event ends. -/
def Event.returns : Event Op Res → Option ℕ
  | .call _ _ => none
  | .ret id _ => some id

/-- The operation `id` stands in the order, and `res` is its result there. -/
def Outcome (obj : Object State Op Res) (start : State) (order : List (ℕ × Op)) (id : ℕ)
    (res : Res) : Prop :=
  ∃ front op back, order = front ++ (id, op) :: back ∧
    res = (obj.apply (obj.final start (front.map Prod.snd)) op).2

/-- An order of operations that explains a history. -/
structure Linearizes (obj : Object State Op Res) (start : State) (events : List (Event Op Res))
    (order : List (ℕ × Op)) : Prop where
  /-- No operation takes effect twice, -/
  once : (order.map Prod.fst).Nodup
  /-- nor without having been called, -/
  called : ∀ entry ∈ order, .call entry.1 entry.2 ∈ events
  /-- nor returns twice; -/
  single : (events.filterMap Event.returns).Nodup
  /-- every result returned is the one of the sequential object, -/
  returned : ∀ id res, .ret id res ∈ events → Outcome obj start order id res
  /-- and the order is that of real time where the operations do not overlap. -/
  realTime : ∀ early res late op, [.ret early res, .call late op].Sublist events →
    late ∈ order.map Prod.fst → [early, late].Sublist (order.map Prod.fst)

/-- A history with linearization points: `order` grows while the history does. -/
inductive Traced (obj : Object State Op Res) (start : State) :
    List (Event Op Res) → List (ℕ × Op) → Prop
  | nil : Traced obj start [] []
  | call {events : List (Event Op Res)} {order : List (ℕ × Op)} {id : ℕ} (op : Op)
      (htraced : Traced obj start events order) (hfresh : ∀ other, .call id other ∉ events) :
      Traced obj start (events ++ [.call id op]) order
  | point {events : List (Event Op Res)} {order : List (ℕ × Op)} {id : ℕ} {op : Op}
      (htraced : Traced obj start events order) (hcalled : .call id op ∈ events)
      (hnew : id ∉ order.map Prod.fst) :
      Traced obj start events (order ++ [(id, op)])
  | ret {events : List (Event Op Res)} {order : List (ℕ × Op)} {id : ℕ} {res : Res}
      (htraced : Traced obj start events order) (houtcome : Outcome obj start order id res)
      (hfirst : id ∉ events.filterMap Event.returns) :
      Traced obj start (events ++ [.ret id res]) order

variable {obj : Object State Op Res} {start : State} {events : List (Event Op Res)}
  {order : List (ℕ × Op)}

/-- Executing more operations changes no outcome. -/
theorem Outcome.append {id : ℕ} {res : Res} (houtcome : Outcome obj start order id res)
    (more : List (ℕ × Op)) : Outcome obj start (order ++ more) id res := by
  obtain ⟨front, op, back, rfl, hres⟩ := houtcome
  exact ⟨front, op, back ++ more, by simp, hres⟩

theorem Outcome.mem {id : ℕ} {res : Res} (houtcome : Outcome obj start order id res) :
    id ∈ order.map Prod.fst := by
  obtain ⟨front, op, back, rfl, -⟩ := houtcome
  simp

theorem outcome_of_getElem {index id : ℕ} {op : Op} {res : Res}
    (hop : order[index]? = some (id, op))
    (hres : (obj.results start (order.map Prod.snd))[index]? = some res) :
    Outcome obj start order id res := by
  obtain ⟨hindex, hget⟩ := List.getElem?_eq_some_iff.mp hop
  have hsplit : order = order.take index ++ (id, op) :: order.drop (index + 1) := by
    rw [← hget, List.getElem_cons_drop, List.take_append_drop]
  have hlength : (obj.results start ((order.take index).map Prod.snd)).length = index := by
    rw [Object.length_results, List.length_map, List.length_take_of_le hindex.le]
  refine ⟨order.take index, op, order.drop (index + 1), hsplit, ?_⟩
  rw [hsplit, List.map_append, List.map_cons, Object.results_append,
    List.getElem?_append_right hlength.le, hlength, Nat.sub_self, Object.results,
    List.getElem?_cons_zero, Option.some.injEq] at hres
  exact hres.symm

/-- A pair of events in an extended history: it was there before, or ends with the new
event. -/
theorem pair_sublist_concat {α : Type*} {early late last : α} {front : List α}
    (hpair : [early, late].Sublist (front ++ [last])) :
    [early, late].Sublist front ∨ early ∈ front ∧ late = last := by
  obtain ⟨first, second, hsplit, hfirst, hsecond⟩ := List.sublist_append_iff.mp hpair
  rcases List.sublist_singleton.mp hsecond with rfl | rfl
  · left
    rw [hsplit, List.append_nil]
    exact hfirst
  · right
    have hconcat : [early] ++ [late] = first ++ [last] := hsplit
    obtain ⟨rfl, hlast⟩ := List.append_inj' hconcat rfl
    exact ⟨List.singleton_sublist.mp hfirst, List.singleton_inj.mp hlast⟩

theorem Linearizes.call (hlin : Linearizes obj start events order) {id : ℕ} (op : Op)
    (hfresh : ∀ other, .call id other ∉ events) :
    Linearizes obj start (events ++ [.call id op]) order := by
  refine ⟨hlin.once, ?_, ?_, ?_, ?_⟩
  · intro entry hentry
    exact List.mem_append_left _ (hlin.called entry hentry)
  · have hsame : (events ++ [Event.call id op]).filterMap Event.returns =
        events.filterMap Event.returns := by
      rw [List.filterMap_append]
      exact List.append_nil _
    rw [hsame]
    exact hlin.single
  · intro other res hret
    refine hlin.returned other res ?_
    simpa using hret
  · intro early res late other hpair hlate
    rcases pair_sublist_concat hpair with hold | ⟨-, hlast⟩
    · exact hlin.realTime early res late other hold hlate
    · -- an operation called just now has not taken effect
      injection hlast with hid
      obtain ⟨entry, hentry, rfl⟩ := List.mem_map.mp hlate
      exact absurd (hid ▸ hlin.called entry hentry) (hfresh entry.2)

theorem Linearizes.point (hlin : Linearizes obj start events order) {id : ℕ} {op : Op}
    (hcalled : .call id op ∈ events) (hnew : id ∉ order.map Prod.fst) :
    Linearizes obj start events (order ++ [(id, op)]) := by
  refine ⟨?_, ?_, hlin.single, ?_, ?_⟩
  · rw [List.map_append]
    exact List.nodup_append.mpr ⟨hlin.once, List.nodup_singleton _, by
      intro other hother last hlast heq
      obtain rfl : last = id := List.mem_singleton.mp hlast
      exact hnew (heq ▸ hother)⟩
  · intro entry hentry
    rcases List.mem_append.mp hentry with hold | hlast
    · exact hlin.called entry hold
    · rw [List.mem_singleton.mp hlast]
      exact hcalled
  · intro other res hret
    exact (hlin.returned other res hret).append _
  · intro early res late other hpair hlate
    rw [List.map_append] at hlate ⊢
    rcases List.mem_append.mp hlate with hold | hlast
    · exact (hlin.realTime early res late other hpair hold).trans (List.sublist_append_left _ _)
    · -- whatever has returned has taken effect before this point
      have hearly : early ∈ order.map Prod.fst :=
        (hlin.returned early res (hpair.subset List.mem_cons_self)).mem
      rw [List.mem_singleton.mp hlast]
      exact (List.singleton_sublist.mpr hearly).append (List.Sublist.refl [id])

theorem Linearizes.ret (hlin : Linearizes obj start events order) {id : ℕ} {res : Res}
    (houtcome : Outcome obj start order id res) (hfirst : id ∉ events.filterMap Event.returns) :
    Linearizes obj start (events ++ [.ret id res]) order := by
  refine ⟨hlin.once, ?_, ?_, ?_, ?_⟩
  · intro entry hentry
    exact List.mem_append_left _ (hlin.called entry hentry)
  · rw [List.filterMap_append]
    exact List.nodup_append.mpr ⟨hlin.single, List.nodup_singleton _, by
      intro other hother last hlast heq
      obtain rfl : last = id := List.mem_singleton.mp hlast
      exact hfirst (heq ▸ hother)⟩
  · intro other result hret
    rcases List.mem_append.mp hret with hold | hlast
    · exact hlin.returned other result hold
    · injection List.mem_singleton.mp hlast with hid hres
      rw [hid, hres]
      exact houtcome
  · intro early result late op hpair hlate
    rcases pair_sublist_concat hpair with hold | ⟨-, hlast⟩
    · exact hlin.realTime early result late op hold hlate
    · cases hlast

/-- Several operations take effect one after another. -/
theorem Traced.points {more : List (ℕ × Op)} (htraced : Traced obj start events order)
    (hcalled : ∀ entry ∈ more, .call entry.1 entry.2 ∈ events)
    (honce : ((order ++ more).map Prod.fst).Nodup) : Traced obj start events (order ++ more) := by
  induction more generalizing order with
  | nil =>
      rw [List.append_nil]
      exact htraced
  | cons entry more ih =>
      rw [List.append_cons] at honce ⊢
      refine ih (htraced.point (hcalled entry List.mem_cons_self) ?_)
        (fun other hother => hcalled other (List.mem_cons_of_mem _ hother)) honce
      rw [List.map_append, List.map_append] at honce
      exact fun hmem => List.disjoint_of_nodup_append honce.of_append_left hmem
        List.mem_cons_self

/-- The rule of linearization points. -/
theorem Traced.linearizes (htraced : Traced obj start events order) :
    Linearizes obj start events order := by
  induction htraced with
  | nil =>
      refine ⟨List.nodup_nil, ?_, List.nodup_nil, ?_, ?_⟩
      · exact fun _ h => by cases h
      · exact fun _ _ h => by cases h
      · exact fun _ _ _ _ _ h => by cases h
  | call op _ hfresh ih => exact ih.call op hfresh
  | point _ hcalled hnew ih => exact ih.point hcalled hnew
  | ret _ houtcome hfirst ih => exact ih.ret houtcome hfirst

end InMemoryDb.Linearization
