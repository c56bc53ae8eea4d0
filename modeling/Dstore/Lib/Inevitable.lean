import Mathlib.Algebra.Order.Ring.Int
import Mathlib.Data.Nat.Init
/-!
# What must happen

A transition system whose steps are taken by several parties in any order:
`Inevitably step Q s` says that from `s` a `Q` state is reached whichever way
the choices fall, as long as somebody goes on while somebody can. In particular
nobody is stuck on the way.

`Inevitably.of_measure` is the rule: an invariant and a measure, kept and
brought down by every step that does not reach `Q`, and a step that can be taken
wherever `Q` does not hold yet.
-/

namespace Dstore.Lib

variable {S : Type}

/-- `Q` holds here, or somebody can move and every move leads to a state from
which `Q` must come. -/
inductive Inevitably (step : S → S → Prop) (Q : S → Prop) : S → Prop
  | now {s : S} : Q s → Inevitably step Q s
  | later {s : S} : (∃ s', step s s') → (∀ s', step s s' → Inevitably step Q s') → Inevitably step Q s

namespace Inevitably

variable {step : S → S → Prop} {Q : S → Prop}

theorem of_measure (I : S → Prop) (size : S → Nat)
    (hkeep : ∀ s s', I s → ¬ Q s → step s s' → Q s' ∨ (I s' ∧ size s' < size s))
    (hmove : ∀ s, I s → ¬ Q s → ∃ s', step s s') {s : S} (hs : I s) : Inevitably step Q s := by
  induction hn : size s using Nat.strongRecOn generalizing s with
  | ind n ih =>
    by_cases hq : Q s
    · exact .now hq
    · refine .later (hmove s hs hq) fun s' hstep => ?_
      rcases hkeep s s' hs hq hstep with hq' | ⟨hs', hless⟩
      · exact .now hq'
      · exact ih _ (hn ▸ hless) hs' rfl

end Inevitably

end Dstore.Lib
