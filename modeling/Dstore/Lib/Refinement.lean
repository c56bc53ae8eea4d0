import Mathlib.Algebra.Order.Ring.Int
import Mathlib.Data.List.Forall2
import Dstore.Lib.Runs
/-!
# Refinement of request-response machines

A machine answers each request and moves on. It refines a second one, its
specification, when related states give matching answers and move to related
states: then the answers to every list of requests match (`responses_match`).
The requests may have to be legal where they come (`Run.Legal`).
-/

namespace Dstore.Lib

variable {S A Q R B : Type}

/-- A deterministic machine with states `S`, requests `Q` and answers `R`. -/
abbrev Machine (S Q R : Type) := S → Q → R × S

namespace Machine

/-- The answers to a list of requests. -/
def responses (m : Machine S Q R) : S → List Q → List R
  | _, [] => []
  | s, q :: qs => (m s q).1 :: responses m (m s q).2 qs

/-- The state after a request. -/
def next (m : Machine S Q R) (s : S) (q : Q) : S := (m s q).2

/-- From related states a legal request gets matching answers and leads to
related states. -/
def Refines (m : Machine S Q R) (spec : Machine A Q B) (legal : S → Q → Prop) (rel : S → A → Prop)
    (matching : R → B → Prop) : Prop :=
  ∀ s a q, rel s a → legal s q → matching (m s q).1 (spec a q).1 ∧ rel (m s q).2 (spec a q).2

variable {m : Machine S Q R} {spec : Machine A Q B} {legal : S → Q → Prop} {rel : S → A → Prop}
  {matching : R → B → Prop}

/-- A refinement matches answer by answer. -/
theorem Refines.responses_match (h : m.Refines spec legal rel matching) {s : S} {a : A} (hr : rel s a) {qs : List Q}
    (hq : Run.Legal legal m.next s qs) : List.Forall₂ matching (m.responses s qs) (spec.responses a qs) := by
  induction qs generalizing s a with
  | nil => exact .nil
  | cons q qs ih =>
    obtain ⟨h1, h2⟩ := h s a q hr hq.1
    exact .cons h1 (ih h2 hq.2)

/-- And the states at the end are related. -/
theorem Refines.states_related (h : m.Refines spec legal rel matching) {s : S} {a : A} (hr : rel s a) {qs : List Q}
    (hq : Run.Legal legal m.next s qs) : rel (qs.foldl m.next s) (qs.foldl spec.next a) := by
  induction qs generalizing s a with
  | nil => exact hr
  | cons q qs ih => exact ih (h s a q hr hq.1).2 hq.2

/-- Where the first request that is not legal gets an answer that does not
match, all answers match exactly when all requests are legal. -/
theorem Refines.responses_match_iff (h : m.Refines spec legal rel matching)
    (hbreak : ∀ s a q, rel s a → ¬ legal s q → ¬ matching (m s q).1 (spec a q).1) {s : S} {a : A} (hr : rel s a)
    {qs : List Q} : List.Forall₂ matching (m.responses s qs) (spec.responses a qs) ↔ Run.Legal legal m.next s qs := by
  refine ⟨fun hall => ?_, h.responses_match hr⟩
  induction qs generalizing s a with
  | nil => trivial
  | cons q qs ih =>
    obtain ⟨hone, hrest⟩ := List.forall₂_cons.1 hall
    have hq : legal s q := Classical.byContradiction fun hq => hbreak s a q hr hq hone
    exact ⟨hq, ih (h s a q hr hq).2 hrest⟩

end Machine

end Dstore.Lib
