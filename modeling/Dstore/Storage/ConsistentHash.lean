import Mathlib.Algebra.Order.Ring.Int
import Mathlib.Data.List.Perm.Subperm
import Mathlib.Data.List.Rotate
import Mathlib.Data.Set.Function
import Dstore.Lib.SortedMap
import Dstore.Common.Result
/-!
# The consistent-hash ring

`ConsistentHashRing` of `consistent_hash.cpp`. `hash64` is `std::hash` on
strings: a parameter, with values of any size.

The loop of `locate` goes round the ring from `lower_bound` on. One turn
decides: the entries met later are the ones met before. The model gives the
loop as many steps as the ring has entries and answers `none` when it has not
ended by then. On a ring of healthy nodes it always ends, with pairwise
distinct ids, as many as asked for or as the ring has (`locate_spec`).
-/
open Dstore.Lib

namespace Dstore

structure StorageNode where
  id : Str
  address : Str
  healthy : Bool := true
  deriving DecidableEq, Repr

structure ConsistentHashRing where
  virtual_nodes : Nat := 128
  ring : SortedMap Nat StorageNode := SortedMap.empty

namespace ConsistentHashRing

variable (hash64 : Str → Nat)

/-- `node.id + "#" + std::to_string(i)`. -/
def label (id : Str) (i : Nat) : Str := id ++ lit "#" ++ to_string i

/-- The virtual nodes of a node. -/
def positions (virtual_nodes : Nat) (node : StorageNode) : List (Nat × StorageNode) :=
  (List.range virtual_nodes).map fun i => (hash64 (label node.id i), node)

def add_node (r : ConsistentHashRing) (node : StorageNode) : ConsistentHashRing :=
  { r with ring := r.ring.assignAll (positions hash64 r.virtual_nodes node) }

def remove_node (r : ConsistentHashRing) (node_id : Str) : ConsistentHashRing :=
  { r with ring := ⟨r.ring.entries.filter (fun e => e.2.id ≠ node_id), r.ring.sorted.filter _⟩ }

/-- The loop of `nodes`: the first entry of each id. -/
def nodesLoop : List StorageNode → List StorageNode → List StorageNode
  | [], out => out
  | node :: rest, out => nodesLoop rest (if node.id ∈ out.map (·.id) then out else out ++ [node])

def nodes (r : ConsistentHashRing) : List StorageNode := nodesLoop (r.ring.entries.map Prod.snd) []

/-- What the loop of `locate` does with the node at the iterator; `seen` is
the ids of `out`. -/
def visit (out : List StorageNode) (node : StorageNode) : List StorageNode :=
  if node.healthy && !(out.map (·.id)).contains node.id then out ++ [node] else out

/-- The loop of `locate`, at the entry of index `it`. -/
def locateLoop (ring : List StorageNode) (replicas total : Nat) : Nat → Nat → List StorageNode → Option (List StorageNode)
  | 0, _, out => if out.length < replicas ∧ out.length < total then none else some out
  | fuel + 1, it, out =>
    if out.length < replicas ∧ out.length < total then
      match ring[it]? with
      | none => none
      | some node => locateLoop ring replicas total fuel (if it + 1 = ring.length then 0 else it + 1) (visit out node)
    else some out

def locate (r : ConsistentHashRing) (key : Str) (replicas : Int) : Option (List StorageNode) :=
  if r.ring.entries = [] ∨ replicas ≤ 0 then some []
  else
    let it := r.ring.lower_bound (hash64 key)
    let it := if it = r.ring.entries.length then 0 else it
    locateLoop (r.ring.entries.map Prod.snd) replicas.toNat r.nodes.length r.ring.entries.length it []

/-! ## One turn of the ring -/

/-- The loop over the entries it meets. -/
def walk (replicas total : Nat) : List StorageNode → List StorageNode → Option (List StorageNode)
  | [], out => if out.length < replicas ∧ out.length < total then none else some out
  | node :: turn, out =>
    if out.length < replicas ∧ out.length < total then walk replicas total turn (visit out node) else some out

theorem locateLoop_eq_walk (ring : List StorageNode) (replicas total : Nat) {fuel it : Nat} (hit : it < ring.length)
    (hf : fuel ≤ ring.length) (out : List StorageNode) :
    locateLoop ring replicas total fuel it out = walk replicas total ((ring.rotate it).take fuel) out := by
  induction fuel generalizing it out with
  | zero =>
    rw [locateLoop, List.take_zero, walk]
  | succ fuel ih =>
    have hx : ring[it]? = some ring[it] := List.getElem?_eq_getElem hit
    have hrot : ring.rotate it = ring[it] :: (ring.drop (it + 1) ++ ring.take it) := by
      rw [List.rotate_eq_drop_append_take (Nat.le_of_lt hit), List.drop_eq_getElem_cons hit, List.cons_append]
    have hnext : (ring.rotate (if it + 1 = ring.length then 0 else it + 1)).take fuel =
        (ring.drop (it + 1) ++ ring.take it).take fuel := by
      have hlen : fuel ≤ (ring.drop (it + 1) ++ ring.take it).length := by
        simp only [List.length_append, List.length_drop, List.length_take]
        omega
      split
      · rename_i he
        rw [List.rotate_zero, he, List.drop_length, List.nil_append]
        rw [List.take_take, Nat.min_eq_left (by omega)]
      · rename_i he
        rw [List.rotate_eq_drop_append_take (by omega), List.take_succ_eq_append_getElem hit, ← List.append_assoc,
          List.take_append_of_le_length hlen]
    rw [locateLoop, hrot, List.take_succ_cons, walk]
    split
    · simp only [hx]
      rw [ih (by split <;> omega) (by omega), hnext]
    · rfl

theorem mem_visit {out : List StorageNode} {n m : StorageNode} (h : m ∈ visit out n) :
    m = n ∧ n.healthy = true ∨ m ∈ out := by
  unfold visit at h
  split at h
  · rename_i hc
    rw [Bool.and_eq_true] at hc
    rcases List.mem_append.1 h with h | h
    · exact .inr h
    · exact .inl ⟨List.mem_singleton.1 h, hc.1⟩
  · exact .inr h

theorem nodup_visit {out : List StorageNode} (h : (out.map (·.id)).Nodup) (n : StorageNode) :
    ((visit out n).map (·.id)).Nodup := by
  unfold visit
  split
  · rename_i hc
    rw [Bool.and_eq_true, Bool.not_eq_true', List.contains_eq_mem, decide_eq_false_iff_not] at hc
    rw [List.map_append, List.nodup_append]
    refine ⟨h, by simp, fun a ha b hb => ?_⟩
    rintro rfl
    rw [List.map_cons, List.map_nil, List.mem_singleton] at hb
    exact hc.2 (hb ▸ ha)
  · exact h

theorem id_mem_visit {out : List StorageNode} {n : StorageNode} (hn : n.healthy = true) :
    n.id ∈ (visit out n).map (·.id) := by
  unfold visit
  split
  · simp
  · rename_i hc
    rw [Bool.and_eq_true, not_and] at hc
    simpa using hc hn

theorem subset_visit (out : List StorageNode) (n : StorageNode) : out ⊆ visit out n := by
  unfold visit
  split
  · exact List.subset_append_left _ _
  · exact List.Subset.refl _

theorem length_visit_le (out : List StorageNode) (n : StorageNode) : (visit out n).length ≤ out.length + 1 := by
  unfold visit
  split <;> simp

/-- What a finished walk returns. -/
theorem walk_some {replicas total : Nat} {turn out res : List StorageNode} (h : walk replicas total turn out = some res)
    (hn : (out.map (·.id)).Nodup) (hlen : out.length ≤ min replicas total) :
    (res.map (·.id)).Nodup ∧ res.length = min replicas total ∧ ∀ n ∈ res, n ∈ out ∨ n ∈ turn ∧ n.healthy = true := by
  induction turn generalizing out with
  | nil =>
    rw [walk] at h
    split at h
    · cases h
    · obtain rfl : out = res := Option.some.inj h
      exact ⟨hn, by omega, fun n hn => .inl hn⟩
  | cons x turn ih =>
    rw [walk] at h
    split at h
    · have hlen' := length_visit_le out x
      obtain ⟨h1, h2, h3⟩ := ih h (nodup_visit hn x) (by omega)
      refine ⟨h1, h2, fun n hn => ?_⟩
      rcases h3 n hn with h | ⟨h, hh⟩
      · rcases mem_visit h with ⟨rfl, hh⟩ | h
        · exact .inr ⟨List.mem_cons_self, hh⟩
        · exact .inl h
      · exact .inr ⟨List.mem_cons_of_mem _ h, hh⟩
    · obtain rfl : out = res := Option.some.inj h
      exact ⟨hn, by omega, fun n hn => .inl hn⟩

/-- A walk that has not ended has met every healthy node and found fewer ids
than there are. -/
theorem walk_none {replicas total : Nat} {turn out : List StorageNode} (h : walk replicas total turn out = none) :
    ∃ res : List StorageNode, res.length < total ∧ out ⊆ res ∧
      ∀ n ∈ turn, n.healthy = true → n.id ∈ res.map (·.id) := by
  induction turn generalizing out with
  | nil =>
    rw [walk] at h
    split at h
    · rename_i hc
      exact ⟨out, hc.2, List.Subset.refl _, by simp⟩
    · cases h
  | cons x turn ih =>
    rw [walk] at h
    split at h
    · obtain ⟨res, h1, h2, h3⟩ := ih h
      refine ⟨res, h1, List.Subset.trans (subset_visit out x) h2, fun n hn hh => ?_⟩
      rcases List.mem_cons.1 hn with rfl | hn
      · exact List.map_subset _ h2 (id_mem_visit hh)
      · exact h3 n hn hh
    · cases h

/-! ## The ids of a ring -/

theorem nodesLoop_spec (l out : List StorageNode) (h : (out.map (·.id)).Nodup) :
    ((nodesLoop l out).map (·.id)).Nodup ∧
      ∀ x, x ∈ (nodesLoop l out).map (·.id) ↔ x ∈ out.map (·.id) ∨ x ∈ l.map (·.id) := by
  induction l generalizing out with
  | nil => exact ⟨h, by simp [nodesLoop]⟩
  | cons n l ih =>
    rw [nodesLoop]
    split
    · rename_i hn
      obtain ⟨h1, h2⟩ := ih out h
      refine ⟨h1, fun x => ?_⟩
      rw [h2, List.map_cons, List.mem_cons]
      constructor
      · rintro (hx | hx)
        · exact .inl hx
        · exact .inr (.inr hx)
      · rintro (hx | rfl | hx)
        · exact .inl hx
        · exact .inl hn
        · exact .inr hx
    · rename_i hn
      obtain ⟨h1, h2⟩ := ih (out ++ [n]) (by
        rw [List.map_append, List.nodup_append]
        refine ⟨h, by simp, fun a ha b hb => ?_⟩
        rintro rfl
        rw [List.map_cons, List.map_nil, List.mem_singleton] at hb
        exact hn (hb ▸ ha))
      refine ⟨h1, fun x => ?_⟩
      rw [h2, List.map_append, List.map_cons, List.mem_append, List.mem_cons]
      simp [or_assoc]

theorem nodes_spec (r : ConsistentHashRing) :
    (r.nodes.map (·.id)).Nodup ∧ ∀ x, x ∈ r.nodes.map (·.id) ↔ ∃ e ∈ r.ring.entries, e.2.id = x := by
  obtain ⟨h1, h2⟩ := nodesLoop_spec (r.ring.entries.map Prod.snd) [] (by simp)
  refine ⟨h1, fun x => ?_⟩
  rw [nodes, h2]
  simp

/-- On a ring of healthy nodes `locate` ends, with as many distinct ids as
asked for, or all there are. -/
theorem locate_spec (r : ConsistentHashRing) (hr : ∀ e ∈ r.ring.entries, e.2.healthy = true) (key : Str) (replicas : Int) :
    ∃ out, r.locate hash64 key replicas = some out ∧ (out.map (·.id)).Nodup ∧
      out.length = min replicas.toNat r.nodes.length ∧ ∀ n ∈ out, ∃ e ∈ r.ring.entries, e.2 = n := by
  unfold locate
  by_cases h0 : r.ring.entries = [] ∨ replicas ≤ 0
  · rw [if_pos h0]
    refine ⟨[], rfl, by simp, ?_, by simp⟩
    rcases h0 with h0 | h0
    · simp [nodes, h0, nodesLoop]
    · simp [Int.toNat_of_nonpos h0]
  · rw [if_neg h0]
    rw [not_or] at h0
    have hpos : 0 < r.ring.entries.length := List.length_pos_of_ne_nil h0.1
    have hle : r.ring.lower_bound (hash64 key) ≤ r.ring.entries.length := List.findIdx_le_length
    simp only
    rw [locateLoop_eq_walk _ _ _ (by rw [List.length_map]; split <;> omega) (by simp)]
    generalize (if r.ring.lower_bound (hash64 key) = r.ring.entries.length then 0
      else r.ring.lower_bound (hash64 key)) = it
    rw [List.take_of_length_le (by simp)]
    have hmem : ∀ n, n ∈ (r.ring.entries.map Prod.snd).rotate it ↔ ∃ e ∈ r.ring.entries, e.2 = n := by
      intro n
      rw [List.mem_rotate, List.mem_map]
    cases hw : walk replicas.toNat r.nodes.length ((r.ring.entries.map Prod.snd).rotate it) [] with
    | some out =>
      obtain ⟨h1, h2, h3⟩ := walk_some hw (by simp) (by simp)
      refine ⟨out, rfl, h1, h2, fun n hn => ?_⟩
      rcases h3 n hn with h | ⟨h, -⟩
      · cases h
      · exact (hmem n).1 h
    | none =>
      -- a whole turn has met every id, and there is none left to wait for
      exfalso
      obtain ⟨res, h1, -, h3⟩ := walk_none hw
      obtain ⟨hnd, hids⟩ := nodes_spec r
      have hsub : r.nodes.map (·.id) ⊆ res.map (·.id) := by
        intro x hx
        obtain ⟨e, he, rfl⟩ := (hids x).1 hx
        exact h3 e.2 ((hmem _).2 ⟨e, he, rfl⟩) (hr e he)
      have := (hnd.subperm hsub).length_le
      simp only [List.length_map] at this
      omega

/-! ## The ring of a set of nodes -/

/-- No two virtual-node labels of these ids hash to one position. -/
def NoCollision (ids : List Str) : Prop :=
  Set.InjOn hash64 { l | ∃ id ∈ ids, ∃ i < 128, l = label id i }

/-- The ring with these nodes. -/
def build (nodes : List StorageNode) : ConsistentHashRing := nodes.foldl (add_node hash64) {}

theorem build_ring (nodes : List StorageNode) :
    (build hash64 nodes).ring = SortedMap.empty.assignAll (nodes.flatMap (positions hash64 128)) := by
  have h : ∀ r : ConsistentHashRing, r.virtual_nodes = 128 →
      (nodes.foldl (add_node hash64) r).ring = r.ring.assignAll (nodes.flatMap (positions hash64 128)) := by
    induction nodes with
    | nil => intro r _; rfl
    | cons n nodes ih =>
      intro r hr
      rw [List.foldl_cons, ih (add_node hash64 r n) hr, List.flatMap_cons, SortedMap.assignAll, SortedMap.assignAll,
        List.foldl_append]
      simp only [add_node, hr, SortedMap.assignAll]
  exact h {} rfl

theorem mem_positions {v : Nat} {n : StorageNode} {e : Nat × StorageNode} :
    e ∈ positions hash64 v n ↔ e.2 = n ∧ ∃ i < v, e.1 = hash64 (label n.id i) := by
  simp only [positions, List.mem_map, List.mem_range]
  constructor
  · rintro ⟨i, hi, rfl⟩
    exact ⟨rfl, i, hi, rfl⟩
  · rintro ⟨rfl, i, hi, he⟩
    exact ⟨i, hi, by rw [← he]⟩

theorem mem_of_mem_build {nodes : List StorageNode} {e : Nat × StorageNode} (h : e ∈ (build hash64 nodes).ring.entries) :
    e.2 ∈ nodes := by
  rw [build_ring] at h
  rcases SortedMap.mem_of_mem_assignAll h with h | h
  · cases h
  · obtain ⟨n, hn, he⟩ := List.mem_flatMap.1 h
    exact ((mem_positions hash64).1 he).1 ▸ hn

/-- A ring that was given a node is not empty. -/
theorem nodes_build_pos (n : StorageNode) (nodes : List StorageNode) : 0 < (build hash64 (n :: nodes)).nodes.length := by
  have hmem : hash64 (label n.id 0) ∈ (build hash64 (n :: nodes)).ring.entries.map Prod.fst := by
    rw [build_ring]
    refine SortedMap.exists_mem_assignAll (.inr ?_)
    have hpos : (hash64 (label n.id 0), n) ∈ positions hash64 128 n := (mem_positions hash64).2 ⟨rfl, 0, by decide, rfl⟩
    exact List.mem_map.2 ⟨_, List.mem_flatMap.2 ⟨n, List.mem_cons_self, hpos⟩, rfl⟩
  obtain ⟨e, he, -⟩ := List.mem_map.1 hmem
  have := ((nodes_spec (build hash64 (n :: nodes))).2 e.2.id).2 ⟨e, he, rfl⟩
  obtain ⟨x, hx, -⟩ := List.mem_map.1 this
  exact List.length_pos_of_mem hx

variable {hash64}

/-- The ring of one node. -/
theorem nodes_length_singleton (node : StorageNode) : (build hash64 [node]).nodes.length = 1 := by
  obtain ⟨hnodup, hmem⟩ := nodes_spec (build hash64 [node])
  have hsub : (build hash64 [node]).nodes.map (·.id) ⊆ [node.id] := by
    intro x hx
    obtain ⟨e, he, rfl⟩ := (hmem x).1 hx
    rw [List.mem_singleton, List.mem_singleton.1 (mem_of_mem_build hash64 he)]
  have hle := (hnodup.subperm hsub).length_le
  have hpos := nodes_build_pos hash64 node []
  rw [List.length_map, List.length_singleton] at hle
  omega

end ConsistentHashRing

end Dstore
