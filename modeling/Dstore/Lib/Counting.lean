import Mathlib.Algebra.BigOperators.Group.Finset.Piecewise
import Mathlib.Algebra.Order.Ring.Int
import Mathlib.Data.List.Basic
/-!
# Counting members of a list

A count over a table is the sum of the counts over the rows of each key.
-/

namespace Dstore.Lib

variable {α : Type}

theorem countP_eq_sum_filter {κ : Type} [DecidableEq κ] (key : α → κ) (p : α → Bool) {s : Finset κ} {l : List α}
    (h : ∀ x ∈ l, key x ∈ s) : l.countP p = s.sum fun k => (l.filter fun x => key x = k).countP p := by
  induction l with
  | nil => simp
  | cons x l ih =>
    have hone : ∀ k, ((x :: l).filter fun x => key x = k).countP p =
        (l.filter fun x => key x = k).countP p + if k = key x then (if p x then 1 else 0) else 0 := by
      intro k
      by_cases hk : key x = k
      · rw [List.filter_cons_of_pos (by simpa using hk), List.countP_cons, if_pos hk.symm]
      · rw [List.filter_cons_of_neg (by simpa using hk), if_neg (Ne.symm hk), Nat.add_zero]
    rw [List.countP_cons, ih fun y hy => h y (List.mem_cons_of_mem _ hy), Finset.sum_congr rfl fun k _ => hone k,
      Finset.sum_add_distrib, Finset.sum_ite_eq' s (key x), if_pos (h x List.mem_cons_self)]

end Dstore.Lib
