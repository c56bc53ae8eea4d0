import Mathlib.Algebra.Order.Ring.Int
import Mathlib.Data.List.Basic
/-!
# Folding a function over the whole blocks of a list

`foldBlocks f n s m` cuts `m` into blocks of `n` elements and folds `f` over
them; a shorter rest is left out. Folding can be resumed with that rest and
what comes after it (`foldBlocks_resume`), which is what makes a block-wise
function incremental.
-/

namespace Dstore.Lib

variable {σ α : Type} (f : σ → List α → σ) (n : Nat)

def foldBlocks (s : σ) (m : List α) : σ :=
  (List.range (m.length / n)).foldl (fun s i => f s ((m.drop (n * i)).take n)) s

/-- What is left after the whole blocks. -/
def restBlock (m : List α) : List α := m.drop (n * (m.length / n))

variable {f n}

theorem foldBlocks_short {s : σ} {m : List α} (h : m.length < n) : foldBlocks f n s m = s := by
  simp [foldBlocks, Nat.div_eq_of_lt h]

theorem restBlock_short {m : List α} (h : m.length < n) : restBlock n m = m := by
  simp [restBlock, Nat.div_eq_of_lt h]

/-- The first block, and then the others. -/
theorem foldBlocks_step {s : σ} {m : List α} (hn : 0 < n) (h : n ≤ m.length) :
    foldBlocks f n s m = foldBlocks f n (f s (m.take n)) (m.drop n) := by
  have hdiv : m.length / n = (m.drop n).length / n + 1 := by
    rw [List.length_drop, Nat.div_eq_sub_div hn h]
  unfold foldBlocks
  rw [hdiv, List.range_succ_eq_map, List.foldl_cons, List.foldl_map]
  simp only [Nat.mul_zero, List.drop_zero, List.drop_drop, Nat.mul_succ, Nat.add_comm]

theorem restBlock_step {m : List α} (hn : 0 < n) (h : n ≤ m.length) : restBlock n m = restBlock n (m.drop n) := by
  have hdiv : m.length / n = (m.drop n).length / n + 1 := by
    rw [List.length_drop, Nat.div_eq_sub_div hn h]
  unfold restBlock
  rw [hdiv, List.drop_drop, Nat.mul_succ, Nat.add_comm]

theorem restBlock_length (m : List α) : (restBlock n m).length = m.length % n := by
  rw [restBlock, List.length_drop, Nat.mod_eq_sub_mul_div]

/-- Folding over the whole blocks, then over what is left together with what
comes after, is folding over all of it, and leaves the same rest. -/
theorem foldBlocks_resume (hn : 0 < n) (s : σ) (a b : List α) :
    foldBlocks f n (foldBlocks f n s a) (restBlock n a ++ b) = foldBlocks f n s (a ++ b) ∧
      restBlock n (restBlock n a ++ b) = restBlock n (a ++ b) := by
  induction hlen : a.length using Nat.strong_induction_on generalizing a s with
  | _ k ih =>
    by_cases hshort : a.length < n
    · rw [foldBlocks_short hshort, restBlock_short hshort]
      exact ⟨rfl, rfl⟩
    · have hle : n ≤ a.length := Nat.le_of_not_lt hshort
      have hle' : n ≤ (a ++ b).length := by rw [List.length_append]; omega
      rw [foldBlocks_step hn hle, restBlock_step hn hle, foldBlocks_step hn hle', restBlock_step hn hle',
        List.take_append_of_le_length hle, List.drop_append_of_le_length hle]
      exact ih (a.drop n).length (by rw [List.length_drop]; omega) _ (a.drop n) rfl

/-- A function that commutes with the steps on blocks of full length commutes
with the fold. -/
theorem foldBlocks_map {τ : Type} {g : τ → List α → τ} (h : σ → τ)
    (hstep : ∀ s b, b.length = n → h (f s b) = g (h s) b) (s : σ) (m : List α) :
    h (foldBlocks f n s m) = foldBlocks g n (h s) m := by
  have hblock : ∀ i ∈ List.range (m.length / n), ((m.drop (n * i)).take n).length = n := by
    intro i hi
    have hlt := List.mem_range.1 hi
    have hle : n * i + n ≤ m.length := by
      calc n * i + n = n * (i + 1) := (Nat.mul_succ n i).symm
        _ ≤ n * (m.length / n) := Nat.mul_le_mul_left n hlt
        _ ≤ m.length := Nat.mul_div_le _ _
    rw [List.length_take, List.length_drop]
    omega
  unfold foldBlocks
  generalize List.range (m.length / n) = is at hblock ⊢
  induction is generalizing s with
  | nil => rfl
  | cons i is ih =>
    rw [List.foldl_cons, List.foldl_cons, ih _ fun j hj => hblock j (List.mem_cons_of_mem _ hj),
      hstep _ _ (hblock i List.mem_cons_self)]

end Dstore.Lib
