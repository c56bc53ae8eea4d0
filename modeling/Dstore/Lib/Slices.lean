import Mathlib.Algebra.Order.Ring.Int
import Mathlib.Data.List.Basic
/-!
# A list in slices of one length

`slices n k l` are the first `k` slices of `n` elements of `l`, as a loop that
counts them takes them. `Sliced n l parts` says what it is to cut a list up:
the parts give it back, all have `n` elements but the last one, which may be
shorter and is only empty when the list is. There is one way to do it
(`Sliced.unique`).
-/

namespace Dstore.Lib

variable {α : Type} {n : Nat} {l : List α}

/-! ## The first slices -/

def slices (n k : Nat) (l : List α) : List (List α) := (List.range k).map fun i => (l.drop (i * n)).take n

theorem slices_succ (n k : Nat) (l : List α) : slices n (k + 1) l = slices n k l ++ [(l.drop (k * n)).take n] := by
  rw [slices, List.range_succ, List.map_append]
  rfl

theorem flatten_slices (n k : Nat) (l : List α) : (slices n k l).flatten = l.take (k * n) := by
  induction k with
  | zero => simp [slices]
  | succ k ih => rw [slices_succ, List.flatten_concat, ih, Nat.succ_mul, List.take_add]

theorem length_of_mem_slices {k : Nat} (h : k * n ≤ l.length) {p : List α} (hp : p ∈ slices n k l) : p.length = n := by
  obtain ⟨i, hi, rfl⟩ := List.mem_map.1 hp
  have hle : (i + 1) * n ≤ k * n := Nat.mul_le_mul_right n (List.mem_range.1 hi)
  rw [Nat.succ_mul] at hle
  rw [List.length_take, List.length_drop]
  omega

/-! ## Cutting a list up -/

structure Sliced (n : Nat) (l : List α) (parts : List (List α)) : Prop where
  whole : parts.flatten = l
  full : ∀ p ∈ parts.dropLast, p.length = n
  last : ∀ p, parts.getLast? = some p → p.length ≤ n ∧ (l ≠ [] → p ≠ [])
  single : l = [] → parts = [[]]

theorem sliced_nil (n : Nat) : Sliced n ([] : List α) [[]] where
  whole := rfl
  full p hp := by cases hp
  last p hp := by
    obtain rfl : [] = p := Option.some.inj hp
    exact ⟨Nat.zero_le n, fun h => h⟩
  single _ := rfl

/-- As many slices as reach to the end of the list cut it up. -/
theorem sliced_slices {k : Nat} (hlt : k * n < l.length) (hle : l.length ≤ (k + 1) * n) :
    Sliced n l (slices n (k + 1) l) where
  whole := by rw [flatten_slices, List.take_of_length_le hle]
  full p hp := by
    rw [slices_succ, List.dropLast_concat] at hp
    exact length_of_mem_slices (Nat.le_of_lt hlt) hp
  last p hp := by
    rw [slices_succ, List.getLast?_concat] at hp
    obtain rfl := Option.some.inj hp
    rw [Nat.succ_mul] at hle
    refine ⟨List.length_take_le n _, fun _ hnil => ?_⟩
    have hlen := congrArg List.length hnil
    rw [List.length_take, List.length_drop, List.length_nil] at hlen
    omega
  single hnil := by
    rw [hnil] at hlt
    cases hlt

/-- Parts that are all of full length. -/
theorem sliced_of_full (hn : 0 < n) {parts : List (List α)} (hne : parts ≠ []) (hfull : ∀ p ∈ parts, p.length = n) :
    Sliced n parts.flatten parts where
  whole := rfl
  full p hp := hfull p (List.dropLast_subset parts hp)
  last p hp := by
    have hlen := hfull p (List.mem_of_getLast? hp)
    exact ⟨Nat.le_of_eq hlen, fun _ hnil => by rw [hnil, List.length_nil] at hlen; omega⟩
  single hnil := by
    obtain ⟨p, ps, rfl⟩ := List.exists_cons_of_ne_nil hne
    have hlen := hfull p List.mem_cons_self
    rw [List.flatten_eq_nil_iff.1 hnil p List.mem_cons_self, List.length_nil] at hlen
    omega

/-- The first part is the first `n` elements; what is left, if there is any, is
cut up by the others. -/
theorem Sliced.head {p : List α} {parts : List (List α)} (h : Sliced n l (p :: parts)) (hne : l ≠ []) :
    p = l.take n ∧ (parts = [] ∧ l.length ≤ n ∨ n < l.length ∧ Sliced n (l.drop n) parts) := by
  have hwhole := h.whole
  cases parts with
  | nil =>
    obtain rfl : p = l := by simpa using hwhole
    have hle := (h.last p rfl).1
    exact ⟨(List.take_of_length_le hle).symm, .inl ⟨rfl, hle⟩⟩
  | cons q parts =>
    have hp : p.length = n := h.full p List.mem_cons_self
    rw [List.flatten_cons] at hwhole
    have hrest : (q :: parts).flatten = l.drop n := by rw [← hwhole, ← hp, List.drop_left]
    -- the last part has elements, so there are some after the first part
    have hlast : ∀ r, (q :: parts).getLast? = some r → r.length ≤ n ∧ r ≠ [] := fun r hr =>
      ⟨(h.last r (by rw [List.getLast?_cons_cons, hr])).1, (h.last r (by rw [List.getLast?_cons_cons, hr])).2 hne⟩
    have hdrop : l.drop n ≠ [] := by
      intro hnil
      have hmem := List.getLast_mem (List.cons_ne_nil q parts)
      rw [hnil] at hrest
      exact (hlast _ (List.getLast?_eq_some_getLast _)).2 (List.flatten_eq_nil_iff.1 hrest _ hmem)
    have hlt : n < l.length := Nat.lt_of_not_le (mt List.drop_eq_nil_iff.2 hdrop)
    refine ⟨by rw [← hwhole, ← hp, List.take_left], .inr ⟨hlt, hrest, fun r hr => ?_, fun r hr => ?_, fun hnil => ?_⟩⟩
    · exact h.full r (List.mem_cons_of_mem p hr)
    · exact ⟨(hlast r hr).1, fun _ => (hlast r hr).2⟩
    · exact absurd hnil hdrop

theorem Sliced.ne_nil {parts : List (List α)} (h : Sliced n l parts) : parts ≠ [] := by
  rintro rfl
  cases h.single h.whole.symm

theorem Sliced.unique {parts parts' : List (List α)} (h : Sliced n l parts) (h' : Sliced n l parts') : parts = parts' := by
  induction parts generalizing l parts' with
  | nil => exact absurd rfl h.ne_nil
  | cons p parts ih =>
    by_cases hl : l = []
    · rw [h.single hl, h'.single hl]
    · obtain ⟨p', parts', rfl⟩ := List.exists_cons_of_ne_nil h'.ne_nil
      obtain ⟨hp, hrest⟩ := h.head hl
      obtain ⟨hp', hrest'⟩ := h'.head hl
      rcases hrest with ⟨hnil, hle⟩ | ⟨hlt, hrest⟩ <;> rcases hrest' with ⟨hnil', hle'⟩ | ⟨hlt', hrest'⟩
      · rw [hp, hp', hnil, hnil']
      · omega
      · omega
      · rw [hp, hp', ih hrest hrest']

end Dstore.Lib
