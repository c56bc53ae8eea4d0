import Mathlib.Algebra.Order.Ring.Int
import Mathlib.Logic.Function.Basic
/-!
# Files and their names

A file system as threads see it that share it: a name leads to a file, and a
file that somebody has open stays the same file when its name is removed or
leads to another one. What is written to a file is seen by all who have it open.

`Files` carries that no file has two names, so a file is not changed by writing
to what another name leads to.
-/

namespace Dstore.Lib

variable {Name α : Type}

structure Files (Name α : Type) where
  /-- The number of the file under a name. -/
  names : Name → Option Nat
  content : Nat → List α
  /-- The number of the next new file. -/
  next : Nat
  names_lt : ∀ p i, names p = some i → i < next
  names_inj : ∀ p q i, names p = some i → names q = some i → p = q

namespace Files

def empty : Files Name α := ⟨fun _ => none, fun _ => [], 0, nofun, nofun⟩

/-- What is read under a name. -/
def read (f : Files Name α) (p : Name) : Option (List α) := (f.names p).map f.content

/-- What is written at the end of an open file. -/
def append (f : Files Name α) (i : Nat) (more : List α) : Files Name α :=
  { f with content := Function.update f.content i (f.content i ++ more) }

def truncate (f : Files Name α) (i : Nat) : Files Name α := { f with content := Function.update f.content i [] }

/-- One more number is in use. -/
def allocate (f : Files Name α) : Files Name α :=
  { f with next := f.next + 1, names_lt := fun p i h => Nat.lt_succ_of_lt (f.names_lt p i h) }

variable [DecidableEq Name]

/-- A name is given to a file that has none. -/
def link (f : Files Name α) (p : Name) (i : Nat) (hlt : i < f.next) (hfree : ∀ q, f.names q ≠ some i) : Files Name α where
  names := Function.update f.names p (some i)
  content := f.content
  next := f.next
  names_lt q j h := by
    by_cases hq : q = p
    · rw [hq, Function.update_self] at h
      exact Option.some.inj h ▸ hlt
    · rw [Function.update_of_ne hq] at h
      exact f.names_lt q j h
  names_inj q q' j h h' := by
    by_cases hq : q = p <;> by_cases hq' : q' = p
    · rw [hq, hq']
    · rw [hq, Function.update_self] at h
      rw [Function.update_of_ne hq', ← h] at h'
      exact absurd h' (hfree q')
    · rw [hq', Function.update_self] at h'
      rw [Function.update_of_ne hq, ← h'] at h
      exact absurd h (hfree q)
    · rw [Function.update_of_ne hq] at h
      rw [Function.update_of_ne hq'] at h'
      exact f.names_inj q q' j h h'

def unlink (f : Files Name α) (p : Name) : Files Name α where
  names := Function.update f.names p none
  content := f.content
  next := f.next
  names_lt q i h := by
    by_cases hq : q = p
    · rw [hq, Function.update_self] at h
      cases h
    · rw [Function.update_of_ne hq] at h
      exact f.names_lt q i h
  names_inj q q' i h h' := by
    by_cases hq : q = p
    · rw [hq, Function.update_self] at h
      cases h
    · by_cases hq' : q' = p
      · rw [hq', Function.update_self] at h'
        cases h'
      · rw [Function.update_of_ne hq] at h
        rw [Function.update_of_ne hq'] at h'
        exact f.names_inj q q' i h h'

/-- A file that loses its name has none. -/
theorem names_unlink_ne {f : Files Name α} {p : Name} {i : Nat} (h : f.names p = some i) (q : Name) :
    (f.unlink p).names q ≠ some i := by
  show Function.update f.names p none q ≠ some i
  by_cases hq : q = p
  · rw [hq, Function.update_self]
    exact nofun
  · rw [Function.update_of_ne hq]
    exact fun hqi => hq (f.names_inj q p i hqi h)

/-- Opens the file under a name for writing, which empties it or makes it. -/
def openTruncated (f : Files Name α) (p : Name) : Nat × Files Name α :=
  match f.names p with
  | some i => (i, f.truncate i)
  | none =>
    (f.next, (f.allocate.link p f.next (Nat.lt_succ_self _) fun q h => Nat.lt_irrefl _ (f.names_lt q _ h)).truncate f.next)

/-- The file under `p` is from now on that under `q`. -/
def rename (f : Files Name α) (p q : Name) : Files Name α :=
  match h : f.names p with
  | none => f
  | some i =>
    (f.unlink p).link q i (f.names_lt p i h) (names_unlink_ne h)

/-! ## What the operations do -/

/-- The file that is opened is the one under the name or a new one; either way
no other name leads to it. -/
theorem openTruncated_spec (f : Files Name α) (p : Name) : ∃ i g, f.openTruncated p = (i, g) ∧
    g.names = Function.update f.names p (some i) ∧ g.content = Function.update f.content i [] ∧ f.next ≤ g.next ∧
    (f.names p = some i ∨ i = f.next) ∧ ∀ q, f.names q = some i → q = p := by
  unfold openTruncated
  split
  · rename_i i hi
    refine ⟨i, _, rfl, ?_, rfl, Nat.le_refl _, .inl hi, fun q hq => f.names_inj q p i hq hi⟩
    rw [← hi, Function.update_eq_self]
    rfl
  · exact ⟨f.next, _, rfl, rfl, rfl, Nat.le_succ _, .inr rfl, fun q hq => absurd (f.names_lt q _ hq) (Nat.lt_irrefl _)⟩

theorem rename_spec {f : Files Name α} {p : Name} {i : Nat} (h : f.names p = some i) (q : Name) :
    (f.rename p q).names = Function.update (Function.update f.names p none) q (some i) ∧
      (f.rename p q).content = f.content ∧ (f.rename p q).next = f.next := by
  unfold rename
  split
  · rename_i hnone
    rw [h] at hnone
    cases hnone
  · rename_i j hj
    obtain rfl := Option.some.inj (h.symm.trans hj)
    exact ⟨rfl, rfl, rfl⟩

/-- Writing to the file under a name is seen under that name only. -/
theorem read_append {f : Files Name α} {p : Name} {i : Nat} (h : f.names p = some i) (more : List α) (q : Name) :
    (f.append i more).read q = if q = p then some (f.content i ++ more) else f.read q := by
  unfold read append
  by_cases hq : q = p
  · rw [if_pos hq, hq]
    simp [h]
  · rw [if_neg hq]
    refine Option.map_congr fun j hj => Function.update_of_ne ?_ _ _
    rintro rfl
    exact hq (f.names_inj q p _ hj h)

theorem read_openTruncated (f : Files Name α) (p q : Name) :
    (f.openTruncated p).2.read q = if q = p then some [] else f.read q := by
  obtain ⟨i, g, heq, hnames, hcontent, -, -, honly⟩ := f.openTruncated_spec p
  rw [heq]
  unfold read
  rw [hnames, hcontent]
  by_cases hq : q = p
  · rw [if_pos hq, hq]
    simp
  · rw [if_neg hq, Function.update_of_ne hq]
    refine Option.map_congr fun j hj => Function.update_of_ne ?_ _ _
    rintro rfl
    exact hq (honly q hj)

theorem read_unlink (f : Files Name α) (p q : Name) : (f.unlink p).read q = if q = p then none else f.read q := by
  unfold read unlink
  by_cases hq : q = p
  · rw [if_pos hq, hq]
    simp
  · rw [if_neg hq]
    simp [Function.update_of_ne hq]

theorem read_rename {f : Files Name α} {p : Name} {i : Nat} (h : f.names p = some i) (q x : Name) :
    (f.rename p q).read x = if x = q then some (f.content i) else if x = p then none else f.read x := by
  obtain ⟨hnames, hcontent, -⟩ := rename_spec h q
  unfold read
  rw [hnames, hcontent]
  by_cases hq : x = q
  · rw [if_pos hq, hq]
    simp
  · rw [if_neg hq, Function.update_of_ne hq]
    by_cases hp : x = p
    · rw [if_pos hp, hp]
      simp
    · rw [if_neg hp, Function.update_of_ne hp]

end Files

end Dstore.Lib
