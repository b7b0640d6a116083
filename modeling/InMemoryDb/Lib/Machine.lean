import Mathlib.Tactic

/-!
# Runs of a step function

A machine is a partial step function: `step state action = none` when the
action is not enabled (the thread is blocked, or the process has aborted).
`Reach` collects the states of all runs whose steps satisfy a guard; the rules of
invariants and of evaluated runs are proved once here.
-/

namespace InMemoryDb.Machine

variable {σ α : Type*}

/-- The state after a list of actions. -/
def run (step : σ → α → Option σ) : σ → List α → Option σ
  | state, [] => some state
  | state, action :: actions => (step state action).bind fun after => run step after actions

/-- The states reached from `start` by runs all of whose steps meet `guard`. -/
inductive Reach (step : σ → α → Option σ) (guard : σ → α → Prop) (start : σ) : σ → Prop
  | start : Reach step guard start start
  | next {state after : σ} {action : α} (hstate : Reach step guard start state)
      (hguard : guard state action) (hstep : step state action = some after) :
      Reach step guard start after

variable {step : σ → α → Option σ} {guard guard' : σ → α → Prop} {start : σ}

/-- A property of the start that every guarded step keeps holds in every state
reached. -/
theorem Reach.invariant {Inv : σ → Prop} (hstart : Inv start)
    (hkeep : ∀ state action after, Inv state → guard state action →
      step state action = some after → Inv after)
    {state : σ} (hreach : Reach step guard start state) : Inv state := by
  induction hreach with
  | start => exact hstart
  | next _ hguard hstep ih => exact hkeep _ _ _ ih hguard hstep

theorem Reach.weaken (himp : ∀ state action, guard state action → guard' state action)
    {state : σ} (hreach : Reach step guard start state) :
    Reach step guard' start state := by
  induction hreach with
  | start => exact Reach.start
  | next _ hguard hstep ih => exact ih.next (himp _ _ hguard) hstep

theorem Reach.trans {middle final : σ} (hfirst : Reach step guard start middle)
    (hsecond : Reach step guard middle final) : Reach step guard start final := by
  induction hsecond with
  | start => exact hfirst
  | next _ hguard hstep ih => exact ih.next hguard hstep

/-- A guard may be replaced by what it implies together with an invariant. -/
theorem Reach.strengthen {Inv : σ → Prop} (hstart : Inv start)
    (hkeep : ∀ state action after, Inv state → guard state action →
      step state action = some after → Inv after)
    (himp : ∀ state action, Inv state → guard state action → guard' state action)
    {state : σ} (hreach : Reach step guard start state) :
    Inv state ∧ Reach step guard' start state := by
  induction hreach with
  | start => exact ⟨hstart, Reach.start⟩
  | next _ hguard hstep ih =>
      exact ⟨hkeep _ _ _ ih.1 hguard hstep, ih.2.next (himp _ _ ih.1 hguard) hstep⟩

/-- Restrict a step function to the steps that meet a decidable guard. -/
def guarded (step : σ → α → Option σ) (guard : σ → α → Prop)
    [∀ state action, Decidable (guard state action)] (state : σ) (action : α) : Option σ :=
  if guard state action then step state action else none

theorem reach_of_run [∀ state action, Decidable (guard state action)]
    {actions : List α} {state final : σ} (hreach : Reach step guard start state)
    (hrun : run (guarded step guard) state actions = some final) :
    Reach step guard start final := by
  induction actions generalizing state with
  | nil =>
      simp only [run, Option.some.injEq] at hrun
      exact hrun ▸ hreach
  | cons action actions ih =>
      rw [run, Option.bind_eq_some_iff] at hrun
      obtain ⟨after, hstep, hrest⟩ := hrun
      by_cases hguard : guard state action
      · rw [guarded, if_pos hguard] at hstep
        exact ih (hreach.next hguard hstep) hrest
      · simp [guarded, hguard] at hstep

/-- A run of actions that meet the guard in every state. -/
theorem reach_of_forall {actions : List α} {state final : σ} (hreach : Reach step guard start state)
    (hguard : ∀ action ∈ actions, ∀ state, guard state action)
    (hrun : run step state actions = some final) : Reach step guard start final := by
  induction actions generalizing state with
  | nil => exact Option.some.inj hrun ▸ hreach
  | cons action actions ih =>
      rw [run, Option.bind_eq_some_iff] at hrun
      obtain ⟨after, hstep, hrest⟩ := hrun
      exact ih (hreach.next (hguard action List.mem_cons_self state) hstep)
        (fun other hother => hguard other (List.mem_cons_of_mem _ hother)) hrest

/-- Every step of one machine is a run of another, as `view` shows it. -/
theorem Reach.refines {τ β : Type*} {step' : τ → β → Option τ} {guard' : τ → β → Prop}
    (view : σ → τ)
    (hkeep : ∀ state action after, Reach step guard start state → guard state action →
      step state action = some after → Reach step' guard' (view state) (view after))
    {state : σ} (hreach : Reach step guard start state) :
    Reach step' guard' (view start) (view state) := by
  induction hreach with
  | start => exact Reach.start
  | next hstate hguard hstep ih => exact ih.trans (hkeep _ _ _ hstate hguard hstep)

/-- A run that can be evaluated gives a reachable state with any property that
can be evaluated. -/
theorem exists_reach [∀ state action, Decidable (guard state action)] (actions : List α)
    (property : σ → Bool)
    (hrun : (run (guarded step guard) start actions).any property = true) :
    ∃ state, Reach step guard start state ∧ property state = true := by
  obtain ⟨state, hstate, hproperty⟩ := (Option.any_eq_true _ _).mp hrun
  exact ⟨state, reach_of_run Reach.start hstate, hproperty⟩

end InMemoryDb.Machine
