import Mathlib.Computability.StateTransition
/-!
# Loops

A loop is a function to the state after one more round, or to nothing where it
ends; Mathlib's `StateTransition.eval` has the state in which it ends, if it
does. The rule for loops is the usual one, an invariant that every round keeps
and a measure that every round brings down: run for as many rounds as the
measure says, the loop has come to its end (`rounds_mem_eval`).
-/
open StateTransition (Reaches eval mem_eval reaches_eval)

namespace Dstore.Lib

variable {σ : Type} (round : σ → Option σ)

/-- At most `k` rounds. -/
def rounds : Nat → σ → σ
  | 0, s => s
  | k + 1, s =>
    match round s with
    | none => s
    | some s' => rounds k s'

variable {round}

theorem rounds_end {s : σ} (h : round s = none) (k : Nat) : rounds round k s = s := by
  cases k with
  | zero => rfl
  | succ k => rw [rounds, h]

theorem rounds_succ {s s' : σ} (h : round s = some s') (k : Nat) : rounds round (k + 1) s = rounds round k s' := by
  rw [rounds, h]

/-- What holds at the start and is kept by every round holds whenever the loop
comes to its test. -/
theorem inv_of_reaches (I : σ → Prop) (hkeep : ∀ s s', I s → round s = some s' → I s') {s t : σ}
    (h : Reaches round s t) (hs : I s) : I t := by
  induction h with
  | refl => exact hs
  | tail _ hround ih => exact hkeep _ _ ih hround

/-- A loop whose rounds keep an invariant and bring a measure down ends, and the
invariant holds there. -/
theorem rounds_mem_eval (I : σ → Prop) (size : σ → Nat) (hkeep : ∀ s s', I s → round s = some s' → I s' ∧ size s' < size s)
    {k : Nat} {s : σ} (hs : I s) (hk : size s ≤ k) : rounds round k s ∈ eval round s ∧ I (rounds round k s) := by
  induction k generalizing s with
  | zero =>
    -- no round can bring the measure below zero
    have hend : round s = none := by
      rcases hround : round s with - | s'
      · rfl
      · have := (hkeep s s' hs hround).2
        omega
    exact ⟨mem_eval.2 ⟨.refl, hend⟩, hs⟩
  | succ k ih =>
    rcases hround : round s with - | s'
    · rw [rounds_end hround]
      exact ⟨mem_eval.2 ⟨.refl, hround⟩, hs⟩
    · obtain ⟨hs', hdown⟩ := hkeep s s' hs hround
      rw [rounds_succ hround, reaches_eval (.single hround)]
      exact ih hs' (by omega)

end Dstore.Lib
