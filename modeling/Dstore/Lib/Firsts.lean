import Mathlib.Algebra.Order.Ring.Int
import Mathlib.Data.List.InsertIdx
import Mathlib.Data.List.Nodup
/-!
# First occurrences

`firsts key l` keeps the first element of each key. Its keys are the
`eraseDups` of the keys of `l`, and adding the elements of one more key to `l`,
wherever they stand, puts one element into `firsts key l` (`firsts_insert`).
-/

namespace Dstore.Lib

variable {α κ : Type} [DecidableEq κ]

/-! ## Without repetitions -/

section EraseDups
variable [BEq κ] [LawfulBEq κ]

theorem eraseDups_filter (p : κ → Bool) (l : List κ) : (l.filter p).eraseDups = l.eraseDups.filter p := by
  induction hn : l.length using Nat.strong_induction_on generalizing l with
  | _ n ih =>
    cases l with
    | nil => rfl
    | cons a l =>
      have hlen : (l.filter fun b => !b == a).length < n := by
        have := l.length_filter_le fun b => !b == a
        rw [List.length_cons] at hn
        omega
      have hcomm : (l.filter fun b => !b == a).filter p = (l.filter p).filter fun b => !b == a := by
        rw [List.filter_filter, List.filter_filter]
        exact List.filter_congr fun b _ => Bool.and_comm _ _
      rw [List.eraseDups_cons, List.filter_cons, List.filter_cons]
      split
      · rw [List.eraseDups_cons, ← hcomm, ih _ hlen _ rfl]
      · rename_i ha
        rw [← ih _ hlen _ rfl, hcomm]
        -- the elements equal to `a` have gone with `a`
        congr 1
        symm
        refine List.filter_eq_self.2 fun b hb => ?_
        have hpb := (List.mem_filter.1 hb).2
        by_cases hba : b = a
        · exact absurd (hba ▸ hpb) ha
        · simpa using hba

theorem eraseDups_cons (a : κ) (l : List κ) : (a :: l).eraseDups = a :: l.eraseDups.filter (fun b => b ≠ a) := by
  rw [List.eraseDups_cons, ← eraseDups_filter]
  congr 2
  apply List.filter_congr
  intro b _
  by_cases h : b = a <;> simp [h]

theorem nodup_eraseDups (l : List κ) : l.eraseDups.Nodup := by
  induction l with
  | nil => simp
  | cons a l ih =>
    rw [eraseDups_cons]
    refine List.nodup_cons.2 ⟨by simp, ih.filter _⟩

end EraseDups

/-- Taking out one element before or after cutting a list makes no difference
to what comes after it. -/
theorem take_cons_filter {l : List κ} (hl : l.Nodup) (a : κ) (n : Nat) :
    (a :: (l.take n).filter (fun b => b ≠ a)).take n = (a :: l.filter (fun b => b ≠ a)).take n := by
  cases n with
  | zero => rfl
  | succ n =>
    rw [List.take_succ_cons, List.take_succ_cons]
    congr 1
    induction l generalizing n with
    | nil => simp
    | cons x l ih =>
      obtain ⟨hx, hl⟩ := List.nodup_cons.1 hl
      rw [List.take_succ_cons, List.filter_cons, List.filter_cons]
      by_cases hxa : x = a
      · -- `a` stood here and stands nowhere else
        subst hxa
        have hnot : ∀ m : List κ, m ⊆ l → m.filter (fun b => b ≠ x) = m := by
          intro m hm
          refine List.filter_eq_self.2 fun b hb => decide_eq_true ?_
          rintro rfl
          exact hx (hm hb)
        rw [if_neg (by simp), if_neg (by simp), hnot _ (List.take_subset _ _), hnot _ (List.Subset.refl _), List.take_take,
          Nat.min_self]
      · rw [if_pos (by simpa using hxa), if_pos (by simpa using hxa)]
        cases n with
        | zero => rfl
        | succ n => rw [List.take_succ_cons, List.take_succ_cons, ih hl]

/-! ## The first of each key -/

variable (key : α → κ)

def firsts : List α → List α
  | [] => []
  | a :: l => a :: (firsts l).filter fun b => key b ≠ key a

theorem firsts_keys [BEq κ] [LawfulBEq κ] (l : List α) : (firsts key l).map key = (l.map key).eraseDups := by
  induction l with
  | nil => rfl
  | cons a l ih =>
    rw [firsts, List.map_cons, List.map_cons, eraseDups_cons, ← ih, List.filter_map]
    rfl

theorem firsts_nodup (l : List α) : ((firsts key l).map key).Nodup := by
  rw [firsts_keys]
  exact nodup_eraseDups _

theorem firsts_subset (l : List α) : firsts key l ⊆ l := by
  induction l with
  | nil => exact List.Subset.refl _
  | cons a l ih =>
    intro b hb
    rcases List.mem_cons.1 hb with rfl | hb
    · exact List.mem_cons_self
    · exact List.mem_cons_of_mem _ (ih (List.mem_filter.1 hb).1)

/-- Leaving keys out leaves their first elements out. -/
theorem firsts_filter (p : κ → Bool) (l : List α) :
    firsts key (l.filter fun a => p (key a)) = (firsts key l).filter fun a => p (key a) := by
  induction l with
  | nil => rfl
  | cons a l ih =>
    rw [firsts, List.filter_cons, List.filter_cons, List.filter_filter]
    by_cases ha : p (key a) = true
    · rw [if_pos ha, if_pos ha, firsts, ih, List.filter_filter]
      congr 1
      exact List.filter_congr fun b _ => Bool.and_comm _ _
    · rw [if_neg ha, if_neg ha, ih]
      apply List.filter_congr
      intro b _
      by_cases hb : key b = key a
      · simp [hb, Bool.not_eq_true _ ▸ ha]
      · simp [hb]

/-! ## One more key -/

variable {key}

/-- A list is what it is without one element, with that element put in. -/
theorem exists_insertIdx {l : List α} (hl : (l.map key).Nodup) {x : α} (hx : x ∈ l) :
    ∃ i ≤ (l.filter fun a => key a ≠ key x).length, l = (l.filter fun a => key a ≠ key x).insertIdx i x := by
  induction l with
  | nil => cases hx
  | cons a l ih =>
    rw [List.map_cons, List.nodup_cons] at hl
    by_cases ha : key a = key x
    · have hxa : x = a := by
        rcases List.mem_cons.1 hx with h | h
        · exact h
        · exact absurd (ha ▸ List.mem_map_of_mem h) hl.1
      subst hxa
      have hself : l.filter (fun a => key a ≠ key x) = l := by
        refine List.filter_eq_self.2 fun b hb => decide_eq_true fun hbx => ?_
        exact hl.1 (hbx ▸ List.mem_map_of_mem hb)
      refine ⟨0, Nat.zero_le _, ?_⟩
      rw [List.filter_cons, if_neg (by simp), hself]
      rfl
    · have hx : x ∈ l := by
        rcases List.mem_cons.1 hx with rfl | h
        · exact absurd rfl ha
        · exact h
      obtain ⟨i, hi, he⟩ := ih hl.2 hx
      rw [List.filter_cons, if_pos (by simpa using ha)]
      refine ⟨i + 1, by simpa using hi, ?_⟩
      rw [List.insertIdx_succ_cons, ← he]

/-- The elements of one more key, all of them `x`, put `x` at one place among
the first elements and move nothing else. -/
theorem firsts_insert {l l' : List α} {x : α} (hl : l = l'.filter fun a => key a ≠ key x)
    (hx : ∀ a ∈ l', key a = key x → a = x) :
    firsts key l' = firsts key l ∨ ∃ i ≤ (firsts key l).length, firsts key l' = (firsts key l).insertIdx i x := by
  have hf : firsts key l = (firsts key l').filter fun a => key a ≠ key x := by
    rw [hl]
    exact firsts_filter key (fun k => k ≠ key x) l'
  by_cases hmem : key x ∈ (firsts key l').map key
  · obtain ⟨y, hy, hk⟩ := List.mem_map.1 hmem
    obtain rfl := hx y (firsts_subset key l' hy) hk
    rw [hf]
    exact .inr (exists_insertIdx (firsts_nodup key l') hy)
  · refine .inl ?_
    rw [hf]
    symm
    refine List.filter_eq_self.2 fun a ha => decide_eq_true fun hk => ?_
    exact hmem (hk ▸ List.mem_map_of_mem ha)

/-- Inserting and then cutting. -/
theorem take_insertIdx {l : List α} {i : Nat} (hi : i ≤ l.length) (x : α) (n : Nat) :
    (l.insertIdx i x).take n = l.take n ∨
      ∃ j ≤ (l.take n).length, (l.insertIdx i x).take n = ((l.take n).insertIdx j x).take n := by
  by_cases hn : n ≤ i
  · exact .inl (List.take_insertIdx_eq_take_of_le l x n i hn)
  · refine .inr ⟨i, by rw [List.length_take]; omega, ?_⟩
    induction l generalizing i n with
    | nil =>
      obtain rfl : i = 0 := Nat.le_zero.1 hi
      simp
    | cons a l ih =>
      cases n with
      | zero => exact absurd (Nat.zero_le _) hn
      | succ n =>
        cases i with
        | zero =>
          rw [List.insertIdx_zero, List.insertIdx_zero, List.take_succ_cons, List.take_succ_cons, List.take_take]
          rw [Nat.min_eq_left (Nat.le_succ n)]
        | succ i =>
          rw [List.insertIdx_succ_cons, List.take_succ_cons, List.take_succ_cons, List.insertIdx_succ_cons,
            List.take_succ_cons]
          rw [ih (by simpa using hi) n (by omega)]

end Dstore.Lib
