import Mathlib.Algebra.Order.Ring.Int
import Mathlib.Data.List.Induction
import Mathlib.Data.List.Perm.Basic
/-!
# Prefixes, separators and searching

What the readers of text need to know about lists: where a prefix of a
concatenation ends, how many fields a separator makes, and where a pattern
occurs first.
-/

namespace Dstore.Lib

variable {α : Type}

/-- A prefix of a concatenation ends in the first list or reaches into the
second. -/
theorem prefix_append_cases {s a b : List α} (h : s <+: a ++ b) : s <+: a ∨ ∃ rest, s = a ++ rest ∧ rest <+: b := by
  rcases List.prefix_or_prefix_of_prefix h (List.prefix_append a b) with hs | ⟨rest, rfl⟩
  · exact .inl hs
  · exact .inr ⟨rest, rfl, (List.prefix_append_right_inj a).1 h⟩

/-- Where an element of a list with a new last one is: it is the last one, or
the rest of the list after it ends with the new one. -/
theorem concat_eq_append_cons {l before rest : List α} {a x : α} :
    l ++ [a] = before ++ x :: rest ↔ (rest = [] ∧ l = before ∧ a = x) ∨ ∃ r, rest = r ++ [a] ∧ l = before ++ x :: r := by
  constructor
  · intro h
    rcases List.eq_nil_or_concat rest with rfl | ⟨r, y, rfl⟩
    · obtain ⟨hl, ha⟩ := List.append_inj' h rfl
      exact .inl ⟨rfl, hl, (List.cons.inj ha).1⟩
    · rw [List.concat_eq_append, ← List.cons_append, ← List.append_assoc] at h
      obtain ⟨hl, ha⟩ := List.append_inj' h rfl
      exact .inr ⟨r, by rw [List.concat_eq_append, (List.cons.inj ha).1], hl⟩
  · rintro (⟨rfl, rfl, rfl⟩ | ⟨r, rfl, rfl⟩)
    · rfl
    · simp

/-- Replacing an element changes nothing else. -/
theorem set_perm {l : List α} {i : Nat} {a : α} (h : l[i]? = some a) (b : α) : (a :: l.set i b).Perm (b :: l) := by
  obtain ⟨hi, rfl⟩ := List.getElem?_eq_some_iff.1 h
  calc List.Perm (l[i] :: l.set i b) (l[i] :: b :: l.eraseIdx i) := (List.set_perm_cons_eraseIdx hi b).cons _
    List.Perm _ (b :: l[i] :: l.eraseIdx i) := .swap _ _ _
    List.Perm _ (b :: l) := (List.getElem_cons_eraseIdx_perm hi).cons _

theorem sum_map_set {l : List α} {i : Nat} {a : α} (h : l[i]? = some a) (b : α) (f : α → Nat) :
    ((l.set i b).map f).sum + f a = (l.map f).sum + f b := by
  have hsum := ((set_perm h b).map f).sum_nat
  rw [List.map_cons, List.sum_cons, List.map_cons, List.sum_cons] at hsum
  omega

/-- There is one field more than there are separators. -/
theorem length_splitOn [BEq α] (a : α) (s : List α) : (s.splitOn a).length = s.count a + 1 := by
  induction s with
  | nil => rfl
  | cons c s ih =>
    rw [List.splitOn_cons_eq_if_modifyHead, List.count_cons]
    split
    · rw [List.length_cons, ih]
    · rw [List.length_modifyHead, ih, Nat.add_zero]

/-- A text goes up to the first `a`, or has none. -/
theorem exists_first [DecidableEq α] (a : α) (s : List α) :
    ∃ line tail, s = line ++ tail ∧ a ∉ line ∧ (tail = [] ∨ ∃ more, tail = a :: more) := by
  induction s with
  | nil => exact ⟨[], [], rfl, List.not_mem_nil, .inl rfl⟩
  | cons b s ih =>
    by_cases hb : b = a
    · exact ⟨[], b :: s, rfl, List.not_mem_nil, .inr ⟨s, by rw [hb]⟩⟩
    · obtain ⟨line, tail, rfl, hline, htail⟩ := ih
      exact ⟨b :: line, tail, rfl, by simp [Ne.symm hb, hline], htail⟩

/-- A text is its finished part, empty or ending with the separator, and a last
piece without one. -/
theorem exists_unfinished [DecidableEq α] (a : α) (s : List α) :
    ∃ done last, s = done ++ last ∧ a ∉ last ∧ (done = [] ∨ ∃ front, done = front ++ [a]) := by
  induction s using List.reverseRecOn with
  | nil => exact ⟨[], [], rfl, by simp, .inl rfl⟩
  | append_singleton s c ih =>
    by_cases hc : c = a
    · subst hc
      exact ⟨s ++ [c], [], by simp, by simp, .inr ⟨s, rfl⟩⟩
    · obtain ⟨done, last, rfl, hlast, hdone⟩ := ih
      refine ⟨done, last ++ [c], by simp, ?_, hdone⟩
      simp [hlast, Ne.symm hc]

/-! ## Searching -/

section Find
variable [DecidableEq α]

/-- The position of the first occurrence of a pattern. -/
def find (pat : List α) : List α → Option Nat
  | [] => if pat = [] then some 0 else none
  | c :: s => if pat <+: c :: s then some 0 else (find pat s).map (· + 1)

theorem find_at_start {pat s : List α} (h : pat <+: s) : find pat s = some 0 := by
  cases s with
  | nil => exact if_pos (List.prefix_nil.1 h)
  | cons c s => exact if_pos h

theorem find_cons_skip {pat s : List α} {c : α} (h : ¬ pat <+: c :: s) :
    find pat (c :: s) = (find pat s).map (· + 1) := if_neg h

/-- A pattern does not start where its first element does not occur. -/
theorem find_skip {a : α} {pat l : List α} (hl : a ∉ l) (s : List α) :
    find (a :: pat) (l ++ s) = (find (a :: pat) s).map (· + l.length) := by
  induction l with
  | nil => simp
  | cons c l ih =>
    rw [List.mem_cons, not_or] at hl
    have hnot : ¬ a :: pat <+: c :: (l ++ s) := fun hp => hl.1 (List.cons_prefix_cons.1 hp).1
    rw [List.cons_append, find_cons_skip hnot, ih hl.2, Option.map_map]
    rfl

/-- An occurrence lies inside the list. -/
theorem find_le {pat s : List α} {i : Nat} (h : find pat s = some i) : i + pat.length ≤ s.length := by
  induction s generalizing i with
  | nil =>
    unfold find at h
    split at h
    · rename_i hpat
      cases h
      simp [hpat]
    · cases h
  | cons c s ih =>
    unfold find at h
    split at h
    · rename_i hpat
      cases h
      simpa using hpat.length_le
    · obtain ⟨j, hj, rfl⟩ := Option.map_eq_some_iff.1 h
      have := ih hj
      rw [List.length_cons]
      omega

/-- What follows does not move the first occurrence. -/
theorem find_append {pat s : List α} {i : Nat} (h : find pat s = some i) (rest : List α) :
    find pat (s ++ rest) = some i := by
  induction s generalizing i with
  | nil =>
    unfold find at h
    split at h
    · rename_i hpat
      rw [hpat, find_at_start (List.nil_prefix), h]
    · cases h
  | cons c s ih =>
    have hlen := find_le h
    unfold find at h
    split at h
    · rename_i hpat
      rw [find_at_start (hpat.trans (List.prefix_append _ _)), h]
    · rename_i hpat
      obtain ⟨j, hj, rfl⟩ := Option.map_eq_some_iff.1 h
      have hnot : ¬ pat <+: c :: (s ++ rest) := by
        intro hp
        exact hpat (List.prefix_of_prefix_length_le hp (List.prefix_append (c :: s) rest) (by omega))
      rw [List.cons_append, find_cons_skip hnot, ih hj]
      rfl

/-- A prefix that ends before the first occurrence does has none. -/
theorem find_eq_none_of_short {pat s p : List α} {i : Nat} (h : find pat s = some i) (hp : p <+: s)
    (hlen : p.length < i + pat.length) : find pat p = none := by
  rcases hj : find pat p with _ | j
  · rfl
  · obtain ⟨rest, rfl⟩ := hp
    have hle := find_le hj
    rw [find_append hj rest, Option.some.injEq] at h
    omega

/-- A prefix that has the whole of the first occurrence has it at the same
place. -/
theorem find_in_front {pat s p : List α} {i : Nat} (h : find pat s = some i) (hp : p <+: s)
    (hlen : i + pat.length ≤ p.length) : find pat p = some i := by
  induction p generalizing s i with
  | nil =>
    have hpat : pat = [] := by
      rw [List.length_nil] at hlen
      exact List.eq_nil_of_length_eq_zero (by omega)
    subst hpat
    rw [find_at_start List.nil_prefix] at h ⊢
    exact h
  | cons c p ih =>
    obtain ⟨rest, rfl⟩ := hp
    rw [List.cons_append] at h
    by_cases hpat : pat <+: c :: (p ++ rest)
    · rw [find_at_start hpat] at h
      cases h
      exact find_at_start (List.prefix_of_prefix_length_le hpat (List.prefix_append (c :: p) rest) (by omega))
    · rw [find_cons_skip hpat] at h
      obtain ⟨j, hj, rfl⟩ := Option.map_eq_some_iff.1 h
      have hnot : ¬ pat <+: c :: p := fun hp => hpat (hp.trans (List.prefix_append (c :: p) rest))
      rw [find_cons_skip hnot, ih hj (List.prefix_append p rest) (by simp at hlen; omega)]
      rfl

end Find

end Dstore.Lib
