import Mathlib.Algebra.Order.Ring.Int
import Mathlib.Data.Nat.Init
/-!
# Runs of a labelled transition system

A run is an infinite sequence of states, each the previous one or a step from
it, so a finite execution is a run that stutters at its end. Properties of
every reachable state, or of two states of one run at different times, are
statements about `Run.state`.

`Run.inv` proves an invariant from the initial state and one step; `Run.mono`
does the same for a relation between an earlier and a later state. `Run.begins`
finds the step that made something true.
-/

namespace Dstore.Lib

variable {S E : Type}

/-- Steps whose state and event satisfy `G`. -/
def Guarded (G : S → E → Prop) (step : S → E → S → Prop) (s : S) (e : E) (s' : S) : Prop :=
  G s e ∧ step s e s'

/-- A run of `step` from `init`. -/
structure Run (step : S → E → S → Prop) (init : S) where
  state : Nat → S
  state_zero : state 0 = init
  state_succ : ∀ t, state (t + 1) = state t ∨ ∃ e, step (state t) e (state (t + 1))

namespace Run

variable {step : S → E → S → Prop} {init : S}

/-- What holds initially and is kept by every step holds at every time. -/
theorem inv (r : Run step init) (I : S → Prop) (h0 : I init)
    (hs : ∀ s e s', I s → step s e s' → I s') : ∀ t, I (r.state t) := by
  intro t
  induction t with
  | zero => rw [r.state_zero]; exact h0
  | succ t ih =>
    rcases r.state_succ t with h | ⟨e, h⟩
    · rw [h]; exact ih
    · exact hs _ _ _ ih h

/-- A reflexive, transitive relation that every step from an `I` state
respects relates every earlier state to every later one. -/
theorem mono (r : Run step init) (R : S → S → Prop) (hrefl : ∀ s, R s s)
    (htrans : ∀ a b c, R a b → R b c → R a c)
    (hs : ∀ t e, step (r.state t) e (r.state (t + 1)) → R (r.state t) (r.state (t + 1))) :
    ∀ t t', t ≤ t' → R (r.state t) (r.state t') := by
  intro t t' h
  induction h with
  | refl => exact hrefl _
  | @step m _ ih =>
    refine htrans _ _ _ ih ?_
    rcases r.state_succ m with h | ⟨e, h⟩
    · rw [h]; exact hrefl _
    · exact hs m e h

/-- The step at which a property begins to hold. -/
theorem begins (r : Run step init) {P : S → Prop} (h0 : ¬ P init) {t : Nat} (h : P (r.state t)) :
    ∃ t' < t, ¬ P (r.state t') ∧ P (r.state (t' + 1)) ∧ ∃ e, step (r.state t') e (r.state (t' + 1)) := by
  induction t with
  | zero => exact absurd (r.state_zero ▸ h) h0
  | succ t ih =>
    by_cases hbefore : P (r.state t)
    · obtain ⟨t', ht', hbegins⟩ := ih hbefore
      exact ⟨t', by omega, hbegins⟩
    · rcases r.state_succ t with hsame | hstep
      · exact absurd (hsame ▸ h) hbefore
      · exact ⟨t, by omega, hbefore, h, hstep⟩

/-- The same for what holds from some time on. -/
theorem since (r : Run step init) (I : S → Prop) {t t' : Nat} (hle : t ≤ t') (h : I (r.state t))
    (hs : ∀ u e, t ≤ u → u < t' → I (r.state u) → step (r.state u) e (r.state (u + 1)) → I (r.state (u + 1))) :
      I (r.state t') := by
  induction hle with
  | refl => exact h
  | @step m hm ih =>
    have hbefore := ih fun u e hu hlt => hs u e hu (Nat.lt_succ_of_lt hlt)
    rcases r.state_succ m with hsame | ⟨e, hstep⟩
    · exact hsame ▸ hbefore
    · exact hs m e hm (Nat.lt_succ_self m) hbefore hstep

/-- A run up to `t`, and then a step. -/
def extend (r : Run step init) {t : Nat} {e : E} {s' : S} (h : step (r.state t) e s') : Run step init where
  state u := if u ≤ t then r.state u else s'
  state_zero := by rw [if_pos (Nat.zero_le t), r.state_zero]
  state_succ u := by
    rcases Nat.lt_trichotomy u t with hlt | rfl | hgt
    · rw [if_pos (show u + 1 ≤ t from hlt), if_pos hlt.le]
      exact r.state_succ u
    · rw [if_pos (Nat.le_refl u), if_neg (show ¬ u + 1 ≤ u from Nat.not_succ_le_self u)]
      exact .inr ⟨e, h⟩
    · rw [if_neg (by omega), if_neg (by omega)]
      exact .inl rfl

theorem extend_state (r : Run step init) {t : Nat} {e : E} {s' : S} (h : step (r.state t) e s') :
    (r.extend h).state (t + 1) = s' := if_neg (Nat.not_succ_le_self t)

/-- The run of a stronger guard is a run of the weaker one. -/
def weaken {G G' : S → E → Prop} {step : S → E → S → Prop} (h : ∀ s e, G s e → G' s e)
    (r : Run (Guarded G step) init) : Run (Guarded G' step) init where
  state := r.state
  state_zero := r.state_zero
  state_succ t := (r.state_succ t).imp id fun ⟨e, hg, hs⟩ => ⟨e, h _ _ hg, hs⟩

/-! ## Runs of finite event lists -/

/-- The state after the first `t` events; past the end it stays. -/
def stateAfter (exec : S → E → S) : S → List E → Nat → S
  | s, [], _ => s
  | s, _ :: _, 0 => s
  | s, e :: es, t + 1 => stateAfter exec (exec s e) es t

theorem stateAfter_succ (exec : S → E → S) (s : S) (es : List E) (t : Nat) :
    stateAfter exec s es (t + 1) = stateAfter exec s es t ∨
      ∃ e, es[t]? = some e ∧ stateAfter exec s es (t + 1) = exec (stateAfter exec s es t) e := by
  induction es generalizing s t with
  | nil => exact .inl rfl
  | cons e es ih =>
    cases t with
    | zero => exact .inr ⟨e, rfl, by cases es <;> rfl⟩
    | succ t => simpa [stateAfter] using ih (exec s e) t

/-- Executing a list of events one by one, with no guard. -/
def ofList (exec : S → E → S) (init : S) (es : List E) : Run (fun s e s' => s' = exec s e) init where
  state := stateAfter exec init es
  state_zero := by cases es <;> rfl
  state_succ t := (stateAfter_succ exec init es t).imp id fun ⟨e, _, hs⟩ => ⟨e, hs⟩

theorem ofList_state (exec : S → E → S) (init : S) (es : List E) (t : Nat) :
    (ofList exec init es).state t = stateAfter exec init es t := rfl

/-- What every event of the list keeps. -/
theorem stateAfter_inv (I : S → Prop) (exec : S → E → S) {s : S} {es : List E} (h0 : I s)
    (hs : ∀ s, ∀ e ∈ es, I s → I (exec s e)) (t : Nat) : I (stateAfter exec s es t) := by
  induction es generalizing s t with
  | nil => exact h0
  | cons e es ih =>
    cases t with
    | zero => exact h0
    | succ t => exact ih (hs s e List.mem_cons_self h0) (fun s x hx => hs s x (List.mem_cons_of_mem _ hx)) t

/-- Executing a list of events one by one; one that is not possible is passed
over. -/
def ofPartial (step : S → E → Option S) (init : S) (es : List E) : Run (fun s e s' => step s e = some s') init where
  state := stateAfter (fun s e => (step s e).getD s) init es
  state_zero := by cases es <;> rfl
  state_succ t := by
    rcases stateAfter_succ (fun s e => (step s e).getD s) init es t with h | ⟨e, -, h⟩
    · exact .inl h
    · rw [h]
      rcases hstep : step _ e with - | s'
      · exact .inl rfl
      · exact .inr ⟨e, hstep⟩

/-- Each event of the list meets the guard when its turn comes. -/
def Legal (G : S → E → Prop) (exec : S → E → S) : S → List E → Prop
  | _, [] => True
  | s, e :: es => G s e ∧ Legal G exec (exec s e) es

instance decidableLegal (G : S → E → Prop) (exec : S → E → S) [∀ s e, Decidable (G s e)] :
    ∀ s es, Decidable (Legal G exec s es)
  | _, [] => inferInstanceAs (Decidable True)
  | s, e :: es => @instDecidableAnd _ _ _ (decidableLegal G exec (exec s e) es)

theorem Legal.guard {G : S → E → Prop} {exec : S → E → S} {s : S} {es : List E} (h : Legal G exec s es)
    {t : Nat} {e : E} (he : es[t]? = some e) : G (stateAfter exec s es t) e := by
  induction es generalizing s t with
  | nil => simp at he
  | cons x xs ih =>
    cases t with
    | zero => simp at he; exact he ▸ h.1
    | succ t => exact ih h.2 (by simpa using he)

/-- Executing a list of events one by one. -/
def ofEvents {G : S → E → Prop} (exec : S → E → S) (init : S) (es : List E) (h : Legal G exec init es) :
    Run (Guarded G (fun s e s' => s' = exec s e)) init where
  state := stateAfter exec init es
  state_zero := by cases es <;> rfl
  state_succ t := (stateAfter_succ exec init es t).imp id fun ⟨e, he, hs⟩ => ⟨e, h.guard he, hs⟩

theorem ofEvents_state {G : S → E → Prop} (exec : S → E → S) (init : S) (es : List E) (h : Legal G exec init es) (t : Nat) :
    (ofEvents exec init es h).state t = stateAfter exec init es t := rfl

end Run

end Dstore.Lib
