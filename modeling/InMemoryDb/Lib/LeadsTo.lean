import InMemoryDb.Lib.Machine
import Mathlib.Order.OrderIsoNat

/-!
# What must happen

An execution is an infinite sequence of steps, some of which may be idle.  A
scheduler is fair to a set of actions if it never stops taking them while one is
possible.  From fairness follows `LeadsTo`; the rules are Lamport's rule for one
helpful action and the induction over a variant.
-/

namespace InMemoryDb.Machine

variable {σ α : Type*} {step : σ → α → Option σ}

/-- One step of an execution, `none` when nothing happens. -/
def Moves (step : σ → α → Option σ) (state : σ) : Option α → σ → Prop
  | none, after => after = state
  | some action, after => step state action = some after

/-- None of the actions is possible. -/
def Blocked (step : σ → α → Option σ) (helpful : α → Bool) (state : σ) : Prop :=
  ∀ action, helpful action = true → step state action = none

structure Execution (step : σ → α → Option σ) where
  state : ℕ → σ
  act : ℕ → Option α
  moves : ∀ n, Moves step (state n) (act n) (state (n + 1))

namespace Execution

variable (run : Execution step)

/-- Whenever `before` holds, `after` holds then or later. -/
def LeadsTo (before after : σ → Prop) : Prop :=
  ∀ n, before (run.state n) → ∃ m, n ≤ m ∧ after (run.state m)

/-- Weak fairness: the helpful actions are taken, or blocked, again and again. -/
def Fair (helpful : α → Bool) : Prop :=
  ∀ n, ∃ m, n ≤ m ∧
    (Blocked step helpful (run.state m) ∨ ∃ action, run.act m = some action ∧ helpful action = true)

variable {run} {before middle after : σ → Prop}

theorem step_of_act {n : ℕ} {action : α} (hact : run.act n = some action) :
    step (run.state n) action = some (run.state (n + 1)) := by
  have hmoves := run.moves n
  rw [hact] at hmoves
  exact hmoves

theorem state_of_idle {n : ℕ} (hact : run.act n = none) : run.state (n + 1) = run.state n := by
  have hmoves := run.moves n
  rw [hact] at hmoves
  exact hmoves

/-- A property that every later step keeps holds from there on. -/
theorem keeps_from {Inv : σ → Prop} {first : ℕ} (hfirst : Inv (run.state first))
    (hkeep : ∀ n action, first ≤ n → run.act n = some action → Inv (run.state n) →
      Inv (run.state (n + 1))) {n : ℕ} (hle : first ≤ n) : Inv (run.state n) := by
  induction n, hle using Nat.le_induction with
  | base => exact hfirst
  | succ n hle ih =>
      cases hact : run.act n with
      | none =>
          rw [state_of_idle hact]
          exact ih
      | some action => exact hkeep n action hle hact ih

theorem keeps {Inv : σ → Prop} (hstart : Inv (run.state 0))
    (hkeep : ∀ n action, run.act n = some action → Inv (run.state n) →
      Inv (run.state (n + 1))) (n : ℕ) : Inv (run.state n) :=
  keeps_from hstart (fun n action _ => hkeep n action) (Nat.zero_le n)

/-- What is left after a case was dealt with. -/
theorem LeadsTo.cancel
    (hfirst : run.LeadsTo before fun state => middle state ∨ after state)
    (hsecond : run.LeadsTo middle after) : run.LeadsTo before after := by
  intro n hbefore
  obtain ⟨m, hle, hmiddle | hafter⟩ := hfirst n hbefore
  · obtain ⟨k, hle', hafter⟩ := hsecond m hmiddle
    exact ⟨k, hle.trans hle', hafter⟩
  · exact ⟨m, hle, hafter⟩

/-- One fair set of actions: every step keeps `before` or reaches `after`, a helpful
one reaches it, and where these are blocked it is reached already. -/
theorem leadsTo_of_fair {helpful : α → Bool} (hfair : run.Fair helpful)
    (hblocked : ∀ n, before (run.state n) → Blocked step helpful (run.state n) →
      after (run.state n))
    (hkeep : ∀ n action, run.act n = some action → before (run.state n) →
      before (run.state (n + 1)) ∨ after (run.state (n + 1)))
    (hhelp : ∀ n action, run.act n = some action → helpful action = true →
      before (run.state n) → after (run.state (n + 1))) : run.LeadsTo before after := by
  intro n hbefore
  by_contra hnever
  push Not at hnever
  obtain ⟨m, hle, hcase⟩ := hfair n
  have hm : before (run.state m) := by
    refine keeps_from hbefore (fun k action hk hact hstill => ?_) hle
    exact (hkeep k action hact hstill).resolve_right (hnever _ (by omega))
  rcases hcase with hblock | ⟨action, hact, hhelpful⟩
  · exact hnever m hle (hblocked m hm hblock)
  · exact hnever (m + 1) (by omega) (hhelp m action hact hhelpful hm)

/-- Induction over a variant. -/
theorem leadsTo_of_variant {β : Type*} [LT β] [WellFoundedLT β] (variant : σ → β)
    (hless : ∀ bound, run.LeadsTo (fun state => before state ∧ variant state = bound)
      fun state => after state ∨ before state ∧ variant state < bound) :
    run.LeadsTo before after := by
  have hbounded : ∀ bound n, variant (run.state n) = bound → before (run.state n) →
      ∃ m, n ≤ m ∧ after (run.state m) := by
    intro bound
    induction bound using WellFoundedLT.induction with
    | ind bound ih =>
        intro n hbound hbefore
        obtain ⟨m, hle, hafter | ⟨hagain, hlt⟩⟩ := hless bound n ⟨hbefore, hbound⟩
        · exact ⟨m, hle, hafter⟩
        · obtain ⟨k, hle', hafter⟩ := ih _ hlt m rfl hagain
          exact ⟨k, hle.trans hle', hafter⟩
  exact fun n => hbounded _ n rfl

/-- A variant that never grows is constant from some point on. -/
theorem eventually_constant {β : Type*} [PartialOrder β] [WellFoundedLT β] (variant : σ → β)
    (hstep : ∀ n, variant (run.state (n + 1)) ≤ variant (run.state n)) :
    ∃ n, ∀ m, n ≤ m → variant (run.state m) = variant (run.state n) := by
  obtain ⟨n, hconstant⟩ := WellFoundedGT.monotone_chain_condition
    (OrderHom.mk (fun n => OrderDual.toDual (variant (run.state n)))
      (monotone_nat_of_le_succ hstep))
  exact ⟨n, fun m hle => (OrderDual.toDual.injective (hconstant m hle)).symm⟩

/-! ## Components -/

section

variable {τ β : Type*} {inner : τ → β → Option τ}

/-- What a component does from the time `first` on, as an execution of its own. -/
def component (run : Execution step) (view : σ → τ) (actOf : α → Option β) (first : ℕ)
    (hmoves : ∀ n, first ≤ n → Moves inner (view (run.state n)) ((run.act n).bind actOf)
      (view (run.state (n + 1)))) : Execution inner where
  state n := view (run.state (first + n))
  act n := (run.act (first + n)).bind actOf
  moves n := hmoves (first + n) (Nat.le_add_right _ _)

/-- A scheduler that is fair to the actions of a component is so to the component. -/
theorem Fair.component {view : σ → τ} {actOf : α → Option β} {first : ℕ}
    {hmoves : ∀ n, first ≤ n → Moves inner (view (run.state n)) ((run.act n).bind actOf)
      (view (run.state (n + 1)))} {helpful : α → Bool} {helpful' : β → Bool}
    (hfair : run.Fair helpful)
    (hblocked : ∀ state, Blocked step helpful state → Blocked inner helpful' (view state))
    (hact : ∀ action, helpful action = true →
      ∃ action', actOf action = some action' ∧ helpful' action' = true) :
    (run.component view actOf first hmoves).Fair helpful' := by
  intro n
  obtain ⟨m, hle, hcase⟩ := hfair (first + n)
  refine ⟨m - first, by omega, ?_⟩
  have hm : first + (m - first) = m := by omega
  rcases hcase with hblock | ⟨action, haction, hhelpful⟩
  · left
    change Blocked inner helpful' (view (run.state (first + (m - first))))
    rw [hm]
    exact hblocked _ hblock
  · obtain ⟨action', hsome, hhelpful'⟩ := hact action hhelpful
    refine Or.inr ⟨action', ?_, hhelpful'⟩
    change (run.act (first + (m - first))).bind actOf = some action'
    rw [hm, haction]
    exact hsome

end

end Execution

/-! ## Executions that end -/

theorem run_append (start : σ) (first second : List α) :
    run step start (first ++ second) =
      (run step start first).bind fun state => run step state second := by
  induction first generalizing start with
  | nil => rfl
  | cons action first ih =>
      rw [List.cons_append, run, run]
      cases step start action with
      | none => rfl
      | some after => exact ih after

/-- The state after the first `n` actions. -/
def stateAfter (step : σ → α → Option σ) (start : σ) (actions : List α) (n : ℕ) : σ :=
  (run step start (actions.take n)).getD start

theorem moves_stateAfter {start : σ} {actions : List α}
    (hrun : (run step start actions).isSome) (n : ℕ) :
    Moves step (stateAfter step start actions n) actions[n]?
      (stateAfter step start actions (n + 1)) := by
  cases hact : actions[n]? with
  | none =>
      have hlength := List.getElem?_eq_none_iff.mp hact
      change stateAfter step start actions (n + 1) = stateAfter step start actions n
      rw [stateAfter, stateAfter, List.take_of_length_le hlength,
        List.take_of_length_le (hlength.trans (Nat.le_succ n))]
  | some action =>
      obtain ⟨hlt, hget⟩ := List.getElem?_eq_some_iff.mp hact
      have htake : actions.take (n + 1) = actions.take n ++ [action] := by
        rw [List.take_add_one, hact, Option.toList_some]
      have hsplit : actions = (actions.take n ++ [action]) ++ actions.drop (n + 1) := by
        rw [← htake, List.take_append_drop]
      rw [hsplit, run_append, run_append] at hrun
      change step (stateAfter step start actions n) action = _
      rw [stateAfter, stateAfter, htake, run_append]
      cases hbefore : run step start (actions.take n) with
      | none =>
          rw [hbefore] at hrun
          cases hrun
      | some state =>
          cases hafter : step state action with
          | none =>
              rw [hbefore] at hrun
              simp [run, hafter] at hrun
          | some after => simp [run, hafter]

/-- A list of actions, and nothing behind it. -/
def Execution.ofActs (start : σ) (actions : List α)
    (hrun : (run step start actions).isSome) : Execution step where
  state := stateAfter step start actions
  act n := actions[n]?
  moves := moves_stateAfter hrun

theorem guarded_eq_some {guard : σ → α → Prop} [∀ state action, Decidable (guard state action)]
    {state after : σ} {action : α} (hstep : guarded step guard state action = some after) :
    guard state action ∧ step state action = some after := by
  unfold guarded at hstep
  split_ifs at hstep with hguard
  exact ⟨hguard, hstep⟩

/-- An execution all of whose steps meet the guard. -/
def Execution.unguard {guard : σ → α → Prop} [∀ state action, Decidable (guard state action)]
    (run : Execution (guarded step guard)) : Execution step where
  state := run.state
  act := run.act
  moves n := by
    cases hact : run.act n with
    | none => exact state_of_idle hact
    | some action => exact (guarded_eq_some (step_of_act hact)).2

/-- A run that can be evaluated gives an execution that is fair to all actions that are
blocked where it ends. -/
theorem exists_execution {guard : σ → α → Prop}
    [∀ state action, Decidable (guard state action)] {start : σ} (actions : List α)
    (property : σ → Bool)
    (hrun : (run (guarded step guard) start actions).any property = true) :
    ∃ final, property final = true ∧ ∃ execution : Execution step, execution.state 0 = start ∧
      (∀ n action, execution.act n = some action → guard (execution.state n) action) ∧
      ∀ helpful, Blocked step helpful final → execution.Fair helpful := by
  obtain ⟨final, hfinal, hproperty⟩ := (Option.any_eq_true _ _).mp hrun
  have hsome : (run (guarded step guard) start actions).isSome := by rw [hfinal]; rfl
  refine ⟨final, hproperty, (Execution.ofActs start actions hsome).unguard, rfl, ?_, ?_⟩
  · intro n action hact
    exact (guarded_eq_some (Execution.step_of_act
      (show (Execution.ofActs start actions hsome).act n = some action from hact))).1
  · intro helpful hblocked n
    refine ⟨max n actions.length, le_max_left _ _, Or.inl ?_⟩
    change Blocked step helpful (stateAfter (guarded step guard) start actions _)
    rw [stateAfter, List.take_of_length_le (le_max_right _ _), hfinal]
    exact hblocked

end InMemoryDb.Machine
