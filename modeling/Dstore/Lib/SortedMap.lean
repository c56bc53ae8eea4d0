import Mathlib.Algebra.Order.Ring.Int
import Mathlib.Data.List.Nodup
import Mathlib.Order.Basic
/-!
# Ordered maps as sorted lists

`std::map` read as the list of its entries in key order. A `SortedMap` carries
the proof that its keys are strictly increasing, so two maps with the same
entries are the same list (`ext_mem`), whatever order they were filled in.
-/

namespace Dstore.Lib

variable {K V : Type} [LinearOrder K]

structure SortedMap (K V : Type) [LinearOrder K] where
  entries : List (K × V)
  sorted : entries.Pairwise (fun a b => a.1 < b.1)

namespace SortedMap

def empty : SortedMap K V := ⟨[], List.Pairwise.nil⟩

/-- `m[k] = v` on the entries. -/
def assignList (k : K) (v : V) : List (K × V) → List (K × V)
  | [] => [(k, v)]
  | e :: es => if k < e.1 then (k, v) :: e :: es else if k = e.1 then (k, v) :: es else e :: assignList k v es

theorem mem_assignList {k : K} {v : V} {l : List (K × V)} (hl : l.Pairwise (fun a b => a.1 < b.1)) {p : K × V} :
    p ∈ assignList k v l ↔ p = (k, v) ∨ (p.1 ≠ k ∧ p ∈ l) := by
  induction l with
  | nil => simp [assignList]
  | cons e es ih =>
    obtain ⟨he, hes⟩ := List.pairwise_cons.1 hl
    rw [assignList]
    split
    · rename_i hlt
      have hne : ∀ q ∈ e :: es, q.1 ≠ k := by
        intro q hq
        rcases List.mem_cons.1 hq with rfl | hq
        · exact ne_of_gt hlt
        · exact ne_of_gt (hlt.trans (he q hq))
      rw [List.mem_cons]
      exact or_congr_right ⟨fun hp => ⟨hne p hp, hp⟩, And.right⟩
    · split
      · rename_i hk
        rw [List.mem_cons, List.mem_cons]
        refine or_congr_right ⟨fun hp => ⟨?_, .inr hp⟩, ?_⟩
        · exact hk ▸ ne_of_gt (he p hp)
        · rintro ⟨hne, rfl | hp⟩
          · exact absurd hk.symm hne
          · exact hp
      · rename_i hk
        rw [List.mem_cons, ih hes, List.mem_cons]
        constructor
        · rintro (rfl | rfl | ⟨hne, hp⟩)
          · exact .inr ⟨fun h => hk h.symm, .inl rfl⟩
          · exact .inl rfl
          · exact .inr ⟨hne, .inr hp⟩
        · rintro (rfl | ⟨hne, rfl | hp⟩)
          · exact .inr (.inl rfl)
          · exact .inl rfl
          · exact .inr (.inr ⟨hne, hp⟩)

theorem sorted_assignList {k : K} {v : V} {l : List (K × V)} (hl : l.Pairwise (fun a b => a.1 < b.1)) :
    (assignList k v l).Pairwise (fun a b => a.1 < b.1) := by
  induction l with
  | nil => exact List.pairwise_singleton _ _
  | cons e es ih =>
    obtain ⟨he, hes⟩ := List.pairwise_cons.1 hl
    rw [assignList]
    split
    · rename_i hlt
      refine List.pairwise_cons.2 ⟨fun q hq => ?_, hl⟩
      rcases List.mem_cons.1 hq with rfl | hq
      · exact hlt
      · exact hlt.trans (he q hq)
    · split
      · rename_i hk
        exact List.pairwise_cons.2 ⟨fun q hq => hk ▸ he q hq, hes⟩
      · rename_i hlt hk
        refine List.pairwise_cons.2 ⟨fun q hq => ?_, ih hes⟩
        rcases (mem_assignList hes).1 hq with rfl | ⟨-, hq⟩
        · exact lt_of_le_of_ne (not_lt.1 hlt) (Ne.symm hk)
        · exact he q hq

def assign (m : SortedMap K V) (k : K) (v : V) : SortedMap K V := ⟨assignList k v m.entries, sorted_assignList m.sorted⟩

theorem mem_assign {m : SortedMap K V} {k : K} {v : V} {p : K × V} :
    p ∈ (m.assign k v).entries ↔ p = (k, v) ∨ (p.1 ≠ k ∧ p ∈ m.entries) := mem_assignList m.sorted

/-- Assign a list of entries, later ones over earlier ones. -/
def assignAll (m : SortedMap K V) (l : List (K × V)) : SortedMap K V := l.foldl (fun m e => m.assign e.1 e.2) m

theorem mem_of_mem_assignAll {m : SortedMap K V} {l : List (K × V)} {p : K × V} (h : p ∈ (m.assignAll l).entries) :
    p ∈ m.entries ∨ p ∈ l := by
  induction l generalizing m with
  | nil => exact .inl h
  | cons e es ih =>
    rcases ih h with hm | hes
    · rcases mem_assign.1 hm with rfl | ⟨-, hm⟩
      · exact .inr List.mem_cons_self
      · exact .inl hm
    · exact .inr (List.mem_cons_of_mem _ hes)

/-- An entry of the old map is still there when its key is not assigned. -/
theorem mem_assignAll_of_not_mem {m : SortedMap K V} {l : List (K × V)} {p : K × V} (hp : p ∈ m.entries)
    (hl : p.1 ∉ l.map Prod.fst) : p ∈ (m.assignAll l).entries := by
  induction l generalizing m with
  | nil => exact hp
  | cons e es ih =>
    rw [List.map_cons, List.mem_cons, not_or] at hl
    exact ih (mem_assign.2 (.inr ⟨hl.1, hp⟩)) hl.2

/-- An entry is assigned, or is old and its key is not assigned. -/
theorem mem_assignAll_cases {m : SortedMap K V} {l : List (K × V)} {p : K × V} (h : p ∈ (m.assignAll l).entries) :
    p ∈ l ∨ p ∈ m.entries ∧ p.1 ∉ l.map Prod.fst := by
  induction l generalizing m with
  | nil => exact .inr ⟨h, by simp⟩
  | cons e es ih =>
    rcases ih h with hes | ⟨hm, hes⟩
    · exact .inl (List.mem_cons_of_mem _ hes)
    · rcases mem_assign.1 hm with rfl | ⟨hne, hm⟩
      · exact .inl List.mem_cons_self
      · refine .inr ⟨hm, ?_⟩
        rw [List.map_cons, List.mem_cons, not_or]
        exact ⟨hne, hes⟩

/-- Every key that is assigned is there, with one value or another. -/
theorem exists_mem_assignAll {m : SortedMap K V} {l : List (K × V)} {k : K}
    (h : k ∈ m.entries.map Prod.fst ∨ k ∈ l.map Prod.fst) : k ∈ (m.assignAll l).entries.map Prod.fst := by
  induction l generalizing m with
  | nil => exact h.resolve_right (by simp)
  | cons e es ih =>
    have hassign : ∀ {k' : K}, k' = e.1 ∨ k' ∈ m.entries.map Prod.fst → k' ∈ (m.assign e.1 e.2).entries.map Prod.fst := by
      intro k' hk'
      by_cases he : k' = e.1
      · exact List.mem_map.2 ⟨e, mem_assign.2 (.inl rfl), he.symm⟩
      · obtain ⟨p, hp, rfl⟩ := List.mem_map.1 (hk'.resolve_left he)
        exact List.mem_map.2 ⟨p, mem_assign.2 (.inr ⟨he, hp⟩), rfl⟩
    refine ih ?_
    rcases h with h | h
    · exact .inl (hassign (.inr h))
    · rcases List.mem_cons.1 h with rfl | h
      · exact .inl (hassign (.inl rfl))
      · exact .inr h

theorem nodup_of_sorted {l : List (K × V)} (h : l.Pairwise (fun a b => a.1 < b.1)) : l.Nodup :=
  h.imp fun h heq => absurd (heq ▸ h) (lt_irrefl _)

/-- Sorted lists with the same members are equal. -/
theorem eq_of_sorted {l l' : List (K × V)} (hl : l.Pairwise (fun a b => a.1 < b.1))
    (hl' : l'.Pairwise (fun a b => a.1 < b.1)) (h : ∀ p, p ∈ l ↔ p ∈ l') : l = l' := by
  refine List.Perm.eq_of_pairwise (fun a b _ _ hab hba => absurd (hab.trans hba) (lt_irrefl _)) hl hl' ?_
  exact (List.perm_ext_iff_of_nodup (nodup_of_sorted hl) (nodup_of_sorted hl')).2 h

/-- The first entry not below `k`, as an index; the number of entries when
there is none. -/
def lower_bound (m : SortedMap K V) (k : K) : Nat := m.entries.findIdx fun e => k ≤ e.1

/-- From `lower_bound` on stand the entries not below `k`, before it the
others. -/
theorem split_lower_bound (m : SortedMap K V) (k : K) :
    m.entries.drop (m.lower_bound k) = m.entries.filter (fun e => k ≤ e.1) ∧
      m.entries.take (m.lower_bound k) = m.entries.filter (fun e => e.1 < k) := by
  unfold lower_bound
  have hsorted := m.sorted
  generalize m.entries = l at hsorted
  induction l with
  | nil => simp
  | cons e es ih =>
    obtain ⟨he, hes⟩ := List.pairwise_cons.1 hsorted
    obtain ⟨h1, h2⟩ := ih hes
    rw [List.findIdx_cons]
    by_cases hk : k ≤ e.1
    · have hall : ∀ q ∈ e :: es, k ≤ q.1 := by
        intro q hq
        rcases List.mem_cons.1 hq with rfl | hq
        · exact hk
        · exact hk.trans (le_of_lt (he q hq))
      rw [decide_eq_true hk, cond_true, List.drop_zero, List.take_zero]
      constructor
      · exact (List.filter_eq_self.2 fun q hq => decide_eq_true (hall q hq)).symm
      · symm
        rw [List.filter_eq_nil_iff]
        intro q hq
        rw [decide_eq_true_eq, not_lt]
        exact hall q hq
    · rw [decide_eq_false hk, cond_false, List.drop_succ_cons, List.take_succ_cons, List.filter_cons, List.filter_cons,
        if_neg (by simpa using hk), if_pos (by simpa using hk), h1, h2]
      exact ⟨rfl, rfl⟩

end SortedMap

end Dstore.Lib
