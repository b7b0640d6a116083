import Mathlib.Tactic

/-!
# Rolling hashes

A hash that takes in one symbol after another, each round a permutation of the
state for a fixed symbol and injective in the symbol for a fixed state.  Such a
hash may collide, but never on two strings that differ in one place only.
-/

namespace InMemoryDb.RollingHash

variable {σ β : Type*}

/-- No round forgets the state, and none takes two symbols for one. -/
structure Faithful (step : σ → β → σ) : Prop where
  state : ∀ symbol, Function.Injective fun hash => step hash symbol
  symbol : ∀ hash, Function.Injective (step hash)

variable {step : σ → β → σ}

/-- Two states stay apart under the same symbols. -/
theorem Faithful.foldl_injective (hstep : Faithful step) (symbols : List β) :
    Function.Injective fun hash => symbols.foldl step hash := by
  induction symbols with
  | nil => exact Function.injective_id
  | cons symbol symbols ih => exact ih.comp (hstep.state symbol)

/-- Strings that differ in one place only have different hashes. -/
theorem Faithful.foldl_set_ne (hstep : Faithful step) {symbols : List β} {position : ℕ}
    {symbol : β} (hposition : position < symbols.length) (hne : symbols[position] ≠ symbol)
    (hash : σ) : (symbols.set position symbol).foldl step hash ≠ symbols.foldl step hash := by
  have hbefore : symbols = symbols.take position ++ symbols[position] ::
      symbols.drop (position + 1) := by
    rw [List.getElem_cons_drop, List.take_append_drop]
  have hafter : symbols.set position symbol = symbols.take position ++ symbol ::
      symbols.drop (position + 1) := by
    rw [List.set_eq_take_append_cons_drop, if_pos hposition]
  intro heq
  rw [hafter, List.foldl_append, List.foldl_cons] at heq
  conv_rhs at heq => rw [hbefore, List.foldl_append, List.foldl_cons]
  exact hne (hstep.symbol _ (hstep.foldl_injective _ heq)).symm

end InMemoryDb.RollingHash
