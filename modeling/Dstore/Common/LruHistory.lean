import Mathlib.Algebra.Order.Ring.Int
import Dstore.Common.LruCache
import Dstore.Lib.Firsts
/-!
# The cache holds the keys used last

What an `LruCache` holds is a function of the calls made on it. A use of a key
is a `put` of it or a `get` that finds it; the keys in the list are the first
`capacity` keys of the uses, the latest use first, each with the value that was
put last (`after_spec`).
-/
open Dstore.Lib

namespace Dstore

variable {K V : Type}

inductive CacheCall (K V : Type) where
  | put (key : K) (value : V)
  | get (key : K)

namespace CacheCall

def putKey : CacheCall K V → Option K
  | .put key _ => some key
  | .get _ => none

/-- The value of a key after a call, from the value before it. -/
def stored [DecidableEq K] (key : K) (old : Option V) : CacheCall K V → Option V
  | .put k value => if k = key then some value else old
  | .get _ => old

end CacheCall

/-- The value of the last `put` of a key. -/
def lastPut [DecidableEq K] (calls : List (CacheCall K V)) (key : K) : Option V :=
  calls.foldl (CacheCall.stored key) none

/-- The keys put, as often as they were. -/
def putKeys (calls : List (CacheCall K V)) : List K := calls.filterMap CacheCall.putKey

namespace LruState

variable [DecidableEq K]

def call (c : LruState K V) : CacheCall K V → LruState K V
  | .put key value => c.put key value
  | .get key => (c.get key).2

/-- The key a call uses, if it does. -/
def used (c : LruState K V) : CacheCall K V → List K
  | .put key _ => [key]
  | .get key => if (c.get key).1.isSome then [key] else []

/-- A new cache after these calls, the first one first. -/
def after (capacity : Nat) (calls : List (CacheCall K V)) : LruState K V := calls.foldl call { capacity := capacity }

def usesFrom (c : LruState K V) : List (CacheCall K V) → List K
  | [] => []
  | x :: calls => usesFrom (c.call x) calls ++ c.used x

/-- The uses of these calls on a new cache, the latest first. -/
def uses (capacity : Nat) (calls : List (CacheCall K V)) : List K := usesFrom { capacity := capacity } calls

theorem after_snoc (capacity : Nat) (calls : List (CacheCall K V)) (x : CacheCall K V) :
    after capacity (calls ++ [x]) = (after capacity calls).call x := by
  simp only [after, List.foldl_append, List.foldl_cons, List.foldl_nil]

theorem usesFrom_snoc (c : LruState K V) (calls : List (CacheCall K V)) (x : CacheCall K V) :
    usesFrom c (calls ++ [x]) = (calls.foldl call c).used x ++ usesFrom c calls := by
  induction calls generalizing c with
  | nil => simp [usesFrom]
  | cons y calls ih => rw [List.cons_append, usesFrom, usesFrom, ih, List.foldl_cons, List.append_assoc]

theorem uses_snoc (capacity : Nat) (calls : List (CacheCall K V)) (x : CacheCall K V) :
    uses capacity (calls ++ [x]) = (after capacity calls).used x ++ uses capacity calls := usesFrom_snoc _ _ _

theorem lastPut_snoc (calls : List (CacheCall K V)) (x : CacheCall K V) (k : K) :
    lastPut (calls ++ [x]) k = x.stored k (lastPut calls k) := by
  simp only [lastPut, List.foldl_append, List.foldl_cons, List.foldl_nil]

/-! ## One call -/

theorem map_fst_filter (l : List (K × V)) (k : K) :
    (l.filter (fun p => p.1 ≠ k)).map Prod.fst = (l.map Prod.fst).filter (fun b => b ≠ k) := by
  rw [List.filter_map]
  rfl

/-- The state of a cache against the calls it has seen. -/
structure Tracks (c : LruState K V) (capacity : Nat) (calls : List (CacheCall K V)) (uses : List K) : Prop where
  wf : c.WF
  capacity_eq : c.capacity = capacity
  order : c.toList.map Prod.fst = uses.eraseDups.take capacity
  values : ∀ p ∈ c.toList, lastPut calls p.1 = some p.2
  used : ∀ k, k ∈ uses ↔ k ∈ putKeys calls

theorem Tracks.empty (capacity : Nat) : Tracks ({ capacity := capacity } : LruState K V) capacity [] [] where
  wf := (LruCache.empty capacity).wf
  capacity_eq := rfl
  order := by simp [toList]
  values p hp := by cases hp
  used k := by simp [putKeys]

variable {c : LruState K V} {capacity : Nat} {calls : List (CacheCall K V)} {uses : List K}

theorem Tracks.put (h : Tracks c capacity calls uses) (k : K) (v : V) :
    Tracks (c.put k v) capacity (calls ++ [.put k v]) (k :: uses) := by
  obtain ⟨hwf, hlist, hcap⟩ := h.wf.put k v
  refine ⟨hwf, hcap.trans h.capacity_eq, ?_, ?_, ?_⟩
  · rw [hlist, h.capacity_eq, List.map_take, List.map_cons, map_fst_filter, h.order, eraseDups_cons]
    exact take_cons_filter (nodup_eraseDups uses) k capacity
  · intro p hp
    rw [hlist] at hp
    rw [lastPut_snoc]
    rcases List.mem_cons.1 (List.mem_of_mem_take hp) with rfl | hp
    · exact if_pos rfl
    · obtain ⟨hp, hne⟩ := List.mem_filter.1 hp
      have hne : ¬ k = p.1 := fun hk => absurd hk.symm (of_decide_eq_true hne)
      exact (if_neg hne).trans (h.values p hp)
  · intro k'
    simp only [putKeys, List.filterMap_append, List.mem_append, List.mem_cons, h.used]
    simp [CacheCall.putKey, or_comm]

theorem Tracks.get_miss (h : Tracks c capacity calls uses) (k : K) (hk : (c.get k).1 = none) (hc : (c.get k).2 = c) :
    Tracks (c.call (.get k)) capacity (calls ++ [.get k]) (c.used (.get k) ++ uses) := by
  have hused : c.used (.get k) = [] := if_neg (by simp [hk])
  rw [hused, List.nil_append]
  show Tracks (c.get k).2 _ _ _
  rw [hc]
  refine { h with values := fun p hp => ?_, used := fun k' => ?_ }
  · rw [lastPut_snoc]
    exact h.values p hp
  · rw [h.used]
    simp [putKeys, CacheCall.putKey]

theorem Tracks.get_hit (h : Tracks c capacity calls uses) {k : K} {v : V} (hk : (c.get k).1 = some v)
    (hmem : (k, v) ∈ c.toList) (hlist : (c.get k).2.toList = (k, v) :: c.toList.filter (fun p => p.1 ≠ k)) :
    Tracks (c.call (.get k)) capacity (calls ++ [.get k]) (c.used (.get k) ++ uses) := by
  have hused : c.used (.get k) = [k] := if_pos (by simp [hk])
  have hkey : k ∈ uses.eraseDups.take capacity := h.order ▸ List.mem_map_of_mem hmem
  obtain ⟨hwf, hcap, -⟩ := h.wf.get k
  rw [hused, List.singleton_append]
  refine ⟨hwf, hcap.trans h.capacity_eq, ?_, ?_, ?_⟩
  · show (c.get k).2.toList.map Prod.fst = _
    rw [hlist, List.map_cons, map_fst_filter, h.order, eraseDups_cons]
    rw [← take_cons_filter (nodup_eraseDups uses) k capacity]
    -- the key was among the first `capacity`, so there is room for it again
    symm
    apply List.take_of_length_le
    have hlt : ((uses.eraseDups.take capacity).filter (fun b => b ≠ k)).length < (uses.eraseDups.take capacity).length :=
      List.length_filter_lt_length_iff_exists.2 ⟨k, hkey, by simp⟩
    have := List.length_take_le capacity uses.eraseDups
    simp only [List.length_cons]
    omega
  · intro p hp
    have hp : p ∈ (c.get k).2.toList := hp
    rw [lastPut_snoc]
    rw [hlist] at hp
    rcases List.mem_cons.1 hp with rfl | hp
    · exact h.values _ hmem
    · exact h.values p (List.mem_filter.1 hp).1
  · intro k'
    have hin : k ∈ putKeys calls := (h.used k).1 (List.mem_eraseDups.1 (List.mem_of_mem_take hkey))
    simp only [putKeys, List.filterMap_append, List.mem_append, List.mem_cons, h.used]
    constructor
    · rintro (rfl | hk')
      · exact .inl hin
      · exact .inl hk'
    · rintro (hk' | hk')
      · exact .inr hk'
      · simp [CacheCall.putKey] at hk'

theorem Tracks.call (h : Tracks c capacity calls uses) (x : CacheCall K V) :
    Tracks (c.call x) capacity (calls ++ [x]) (c.used x ++ uses) := by
  cases x with
  | put k v => exact h.put k v
  | get k =>
    rcases (h.wf.get k).2.2 with ⟨hk, -, hc⟩ | ⟨v, hk, hmem, hlist⟩
    · exact h.get_miss k hk hc
    · exact h.get_hit hk hmem hlist

/-! ## Any calls -/

theorem tracks (capacity : Nat) (calls : List (CacheCall K V)) :
    Tracks (after capacity calls) capacity calls (LruState.uses capacity calls) := by
  induction calls using List.reverseRecOn with
  | nil => exact Tracks.empty capacity
  | append_singleton calls x ih =>
    rw [after_snoc, uses_snoc]
    exact ih.call x

theorem Tracks.size_eq (h : Tracks c capacity calls uses) : c.size = min capacity (putKeys calls).eraseDups.length := by
  have hperm : uses.eraseDups.Perm (putKeys calls).eraseDups := by
    refine (List.perm_ext_iff_of_nodup (nodup_eraseDups _) (nodup_eraseDups _)).2 fun k => ?_
    rw [List.mem_eraseDups, List.mem_eraseDups, h.used]
  have hlen := congrArg List.length h.order
  rw [List.length_map, List.length_take, hperm.length_eq] at hlen
  rw [← hlen]
  exact h.wf.size_eq.trans (List.length_map _).symm

theorem Tracks.get_eq (h : Tracks c capacity calls uses) (k : K) :
    (c.get k).1 = if k ∈ c.toList.map Prod.fst then lastPut calls k else none := by
  rcases (h.wf.get k).2.2 with ⟨hk, hnot, -⟩ | ⟨v, hk, hmem, -⟩
  · rw [hk, if_neg]
    intro hin
    obtain ⟨p, hp, rfl⟩ := List.mem_map.1 hin
    exact hnot p.2 hp
  · rw [hk, if_pos (List.mem_map_of_mem hmem)]
    exact (h.values _ hmem).symm

/-- After any calls the list and the index are in step, and the list holds the
keys used last, as many as there is room for, in the order of their last uses,
each with the value put last. -/
theorem after_spec (capacity : Nat) (calls : List (CacheCall K V)) :
    (after capacity calls).WF ∧ (after capacity calls).size ≤ capacity ∧
      (after capacity calls).size = min capacity (putKeys calls).eraseDups.length ∧
      (∀ k, k ∈ LruState.uses capacity calls ↔ k ∈ putKeys calls) ∧
      (after capacity calls).toList.map Prod.fst = (LruState.uses capacity calls).eraseDups.take capacity ∧
      (∀ p ∈ (after capacity calls).toList, lastPut calls p.1 = some p.2) ∧
      ∀ k, ((after capacity calls).get k).1 =
        if k ∈ (after capacity calls).toList.map Prod.fst then lastPut calls k else none := by
  have h := tracks capacity calls
  refine ⟨h.wf, ?_, h.size_eq, h.used, h.order, h.values, h.get_eq⟩
  rw [h.size_eq]
  exact Nat.min_le_left _ _

example : (after 2 [.put "a" 1, .put "b" 2, .get "a", .put "c" 3] : LruState String Nat).toList =
    [("c", 3), ("a", 1)] := by decide

end LruState

end Dstore
