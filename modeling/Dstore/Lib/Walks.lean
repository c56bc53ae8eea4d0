import Mathlib.Algebra.Order.Ring.Int
/-!
# Walks in a tree of names

A place is the list of names from the root to it. A walk goes down into a named
entry or up, and up from the root stays there. Every walk comes down to a
number of moves up followed by names (`normal`), and where it ends is read off
these (`walk_eq`).
-/

namespace Dstore.Lib

variable {α : Type}

inductive Move (α : Type) where
  | up
  | down (name : α)
  deriving DecidableEq, Repr

/-- The place after a walk. -/
def walk (place : List α) : List (Move α) → List α
  | [] => place
  | .up :: moves => walk place.dropLast moves
  | .down name :: moves => walk (place ++ [name]) moves

theorem walk_append (place : List α) (moves more : List (Move α)) :
    walk place (moves ++ more) = walk (walk place moves) more := by
  induction moves generalizing place with
  | nil => rfl
  | cons m moves ih =>
    cases m with
    | up => exact ih place.dropLast
    | down name => exact ih (place ++ [name])

/-- The normal form of a walk after `ups` moves up and the `names`. -/
def normalFrom (ups : Nat) (names : List α) : List (Move α) → Nat × List α
  | [] => (ups, names)
  | .up :: moves => if names.isEmpty then normalFrom (ups + 1) [] moves else normalFrom ups names.dropLast moves
  | .down name :: moves => normalFrom ups (names ++ [name]) moves

def normal (moves : List (Move α)) : Nat × List α := normalFrom 0 [] moves

theorem walk_normalFrom (place : List α) (ups : Nat) (names : List α) (moves : List (Move α)) :
    walk (place.take (place.length - ups) ++ names) moves =
      place.take (place.length - (normalFrom ups names moves).1) ++ (normalFrom ups names moves).2 := by
  induction moves generalizing ups names with
  | nil => rfl
  | cons m moves ih =>
    cases m with
    | down name =>
      rw [walk, List.append_assoc]
      exact ih ups (names ++ [name])
    | up =>
      rw [walk, normalFrom]
      cases names with
      | nil =>
        -- one more of the first names goes
        rw [if_pos List.isEmpty_nil, ← ih, List.append_nil, List.append_nil, List.dropLast_eq_take, List.take_take,
          List.length_take]
        congr 2
        omega
      | cons a names =>
        rw [if_neg (by simp), ← ih, List.dropLast_append_of_ne_nil (by simp)]

/-- A walk goes up as often as its normal form says, then down along its names. -/
theorem walk_eq (place : List α) (moves : List (Move α)) :
    walk place moves = place.take (place.length - (normal moves).1) ++ (normal moves).2 := by
  have h := walk_normalFrom place 0 [] moves
  rwa [Nat.sub_zero, List.take_length, List.append_nil] at h

theorem walk_nil (moves : List (Move α)) : walk [] moves = (normal moves).2 := by
  rw [walk_eq, List.take_nil, List.nil_append]

/-- A walk ends below its start when its names lead back there first. -/
theorem walk_eq_append_iff (place : List α) (moves : List (Move α)) (rest : List α) :
    walk place moves = place ++ rest ↔ (normal moves).2 = place.drop (place.length - (normal moves).1) ++ rest := by
  have hplace := List.take_append_drop (place.length - (normal moves).1) place
  rw [walk_eq]
  constructor
  · intro h
    rw [← hplace, List.append_assoc] at h
    simpa using h
  · intro h
    rw [h, ← List.append_assoc, hplace]

end Dstore.Lib
