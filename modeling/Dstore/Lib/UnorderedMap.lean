import Mathlib.Algebra.Order.Ring.Int
import Mathlib.Data.List.Nodup
/-!
# Hash maps as lists in iteration order

`std::unordered_map` read as the list of its entries in the order in which it
iterates. Assigning to a key that is there leaves the order; a new key may
rehash the table, after which the order can be any. Which one it is, a
`Layout` says.
-/

namespace Dstore.Lib

variable {K V : Type} [DecidableEq K]

/-- The order in which a table iterates after a new entry. -/
structure Layout (α : Type) where
  arrange : List α → List α
  perm : ∀ l, (arrange l).Perm l

/-- The newest entry first, as a table without collisions does it. -/
def Layout.newestFirst (α : Type) : Layout α := ⟨id, fun _ => .refl _⟩

structure UnorderedMap (K V : Type) where
  entries : List (K × V)
  nodup : (entries.map Prod.fst).Nodup

namespace UnorderedMap

def empty : UnorderedMap K V := ⟨[], List.nodup_nil⟩

def replace (k : K) (v : V) (e : K × V) : K × V := if e.1 = k then (k, v) else e

theorem replace_fst (k : K) (v : V) (e : K × V) : (replace k v e).1 = e.1 := by
  unfold replace
  split
  · rename_i h; exact h.symm
  · rfl

/-- `m[k] = v` on the entries. -/
def assignList (layout : Layout (K × V)) (k : K) (v : V) (l : List (K × V)) : List (K × V) :=
  if k ∈ l.map Prod.fst then l.map (replace k v) else layout.arrange ((k, v) :: l)

theorem nodup_assignList (layout : Layout (K × V)) (k : K) (v : V) {l : List (K × V)} (h : (l.map Prod.fst).Nodup) :
    ((assignList layout k v l).map Prod.fst).Nodup := by
  unfold assignList
  split
  · rw [List.map_map]
    exact (List.map_congr_left (fun e _ => replace_fst k v e) : l.map (Prod.fst ∘ replace k v) = l.map Prod.fst) ▸ h
  · rename_i hk
    exact ((layout.perm _).map _).nodup_iff.2 (List.nodup_cons.2 ⟨hk, h⟩)

def assign (layout : Layout (K × V)) (m : UnorderedMap K V) (k : K) (v : V) : UnorderedMap K V :=
  ⟨assignList layout k v m.entries, nodup_assignList layout k v m.nodup⟩

def keys (m : UnorderedMap K V) : List K := m.entries.map Prod.fst

variable {layout : Layout (K × V)} {m : UnorderedMap K V} {k : K} {v : V}

theorem mem_assign {p : K × V} : p ∈ (m.assign layout k v).entries ↔ p = (k, v) ∨ (p.1 ≠ k ∧ p ∈ m.entries) := by
  show p ∈ assignList layout k v m.entries ↔ _
  unfold assignList
  split
  · rename_i hk
    rw [List.mem_map]
    constructor
    · rintro ⟨e, he, rfl⟩
      unfold replace
      split
      · exact .inl rfl
      · rename_i hne
        exact .inr ⟨hne, he⟩
    · rintro (rfl | ⟨hne, hp⟩)
      · obtain ⟨e, he, hek⟩ := List.mem_map.1 hk
        exact ⟨e, he, if_pos hek⟩
      · exact ⟨p, hp, if_neg hne⟩
  · rename_i hk
    rw [(layout.perm _).mem_iff, List.mem_cons]
    refine or_congr_right ⟨fun hp => ⟨?_, hp⟩, And.right⟩
    exact fun he => hk (he ▸ List.mem_map_of_mem hp)

end UnorderedMap

end Dstore.Lib
