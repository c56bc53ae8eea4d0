import Mathlib.Algebra.Order.Ring.Int
import Dstore.Lib.Firsts
import Dstore.Storage.ConsistentHash
/-!
# Placement is the clockwise walk

On a ring of healthy nodes `locate` returns the first nodes met going up from
the key's position, once round the ring (`locate_eq`), whatever the hash
function and however virtual nodes collide. So a new node only steps in between
the others, and goes without a trace (`locate_add_node`).
-/
open Dstore.Lib

namespace Dstore

namespace ConsistentHashRing

/-- The nodes met from a position on, once round the ring. -/
def clockwise (r : ConsistentHashRing) (position : Nat) : List StorageNode :=
  (r.ring.entries.filter (fun e => position ≤ e.1) ++ r.ring.entries.filter (fun e => e.1 < position)).map Prod.snd

variable (hash64 : Str → Nat)

theorem mem_clockwise {r : ConsistentHashRing} {position : Nat} {n : StorageNode} :
    n ∈ r.clockwise position ↔ ∃ e ∈ r.ring.entries, e.2 = n := by
  simp only [clockwise, List.mem_map, List.mem_append, List.mem_filter, decide_eq_true_eq]
  constructor
  · rintro ⟨e, he | he, rfl⟩
    · exact ⟨e, he.1, rfl⟩
    · exact ⟨e, he.1, rfl⟩
  · rintro ⟨e, he, rfl⟩
    rcases Nat.lt_or_ge e.1 position with h | h
    · exact ⟨e, .inr ⟨he, h⟩, rfl⟩
    · exact ⟨e, .inl ⟨he, h⟩, rfl⟩

theorem length_clockwise (r : ConsistentHashRing) (position : Nat) :
    (r.clockwise position).length = r.ring.entries.length := by
  obtain ⟨h1, h2⟩ := r.ring.split_lower_bound position
  rw [clockwise, ← h1, ← h2, List.length_map, List.length_append, List.length_drop, List.length_take]
  have : r.ring.lower_bound position ≤ r.ring.entries.length := List.findIdx_le_length
  omega

/-- The iterator's start, `begin()` when `lower_bound` is `end()`. -/
theorem clockwise_eq_rotate (r : ConsistentHashRing) (position : Nat) :
    (r.ring.entries.map Prod.snd).rotate
        (if r.ring.lower_bound position = r.ring.entries.length then 0 else r.ring.lower_bound position) =
      r.clockwise position := by
  obtain ⟨h1, h2⟩ := r.ring.split_lower_bound position
  have hle : r.ring.lower_bound position ≤ r.ring.entries.length := List.findIdx_le_length
  rw [clockwise, ← h1, ← h2]
  split
  · rename_i he
    rw [he, List.drop_length, List.take_length, List.nil_append, List.rotate_zero]
  · rw [List.rotate_eq_drop_append_take (by rwa [List.length_map]), ← List.map_drop, ← List.map_take, List.map_append]

/-- It is a position of the ring. -/
theorem start_lt {r : ConsistentHashRing} (h : r.ring.entries ≠ []) (position : Nat) :
    (if r.ring.lower_bound position = r.ring.entries.length then 0 else r.ring.lower_bound position) <
      (r.ring.entries.map Prod.snd).length := by
  have hpos : 0 < r.ring.entries.length := List.length_pos_of_ne_nil h
  have hle : r.ring.lower_bound position ≤ r.ring.entries.length := List.findIdx_le_length
  rw [List.length_map]
  split <;> omega

/-- Past its first checks `locate` is one turn of the ring, clockwise. -/
theorem locate_eq_walk {r : ConsistentHashRing} {replicas : Int} (h : ¬ (r.ring.entries = [] ∨ replicas ≤ 0)) (key : Str) :
    r.locate hash64 key replicas = walk replicas.toNat r.nodes.length (r.clockwise (hash64 key)) [] := by
  have hstart := start_lt (not_or.1 h).1 (hash64 key)
  unfold locate
  rw [if_neg h]
  simp only
  rw [locateLoop_eq_walk _ _ _ hstart (by simp), clockwise_eq_rotate]
  rw [List.take_of_length_le (by rw [length_clockwise])]

/-! ## The walk on healthy nodes -/

/-- The loop of `nodes` appends the first nodes of the ids not there yet. -/
theorem nodesLoop_eq (l out : List StorageNode) :
    nodesLoop l out = out ++ (firsts StorageNode.id l).filter (fun n => n.id ∉ out.map (·.id)) := by
  induction l generalizing out with
  | nil => simp [nodesLoop, firsts]
  | cons x l ih =>
    rw [nodesLoop, firsts, List.filter_cons, List.filter_filter]
    by_cases hx : x.id ∈ out.map (·.id)
    · rw [if_pos hx, if_neg (by simpa using hx), ih]
      congr 1
      apply List.filter_congr
      intro n _
      by_cases hn : n.id = x.id
      · rw [hn]
        simp [hx]
      · simp [hn]
    · rw [if_neg hx, if_pos (by simpa using hx), ih, List.append_assoc]
      congr 1
      rw [List.singleton_append]
      congr 1
      apply List.filter_congr
      intro n _
      by_cases hn : n.id = x.id <;> simp [hn]

theorem nodes_eq (r : ConsistentHashRing) : r.nodes = firsts StorageNode.id (r.ring.entries.map Prod.snd) := by
  rw [nodes, nodesLoop_eq, List.nil_append]
  exact List.filter_eq_self.2 (by simp)

/-- On healthy nodes both loops take the same step. -/
theorem visit_of_healthy {out : List StorageNode} {n : StorageNode} (hn : n.healthy = true) :
    visit out n = if n.id ∈ out.map (·.id) then out else out ++ [n] := by
  unfold visit
  rw [hn, Bool.true_and, List.contains_eq_mem]
  by_cases h : n.id ∈ out.map (·.id)
  · rw [if_pos h, if_neg (by simpa using h)]
  · rw [if_neg h, if_pos (by simpa using h)]

theorem take_nodesLoop {out : List StorageNode} {n : Nat} (h : out.length = n) (l : List StorageNode) :
    (nodesLoop l out).take n = out := by
  rw [nodesLoop_eq, List.take_left' h]

/-- A walk over healthy nodes ends with the first nodes of the ids it met. -/
theorem walk_healthy {replicas total : Nat} {turn out res : List StorageNode} (h : walk replicas total turn out = some res)
    (hh : ∀ n ∈ turn, n.healthy = true) (hlen : out.length ≤ min replicas total) :
    res = (nodesLoop turn out).take (min replicas total) := by
  induction turn generalizing out with
  | nil =>
    rw [walk] at h
    split at h
    · cases h
    · obtain rfl : out = res := Option.some.inj h
      exact (take_nodesLoop (by omega) []).symm
  | cons x turn ih =>
    rw [walk] at h
    split at h
    · have hx := length_visit_le out x
      rw [nodesLoop, ← visit_of_healthy (hh x List.mem_cons_self)]
      exact ih h (fun n hn => hh n (List.mem_cons_of_mem _ hn)) (by omega)
    · obtain rfl : out = res := Option.some.inj h
      exact (take_nodesLoop (by omega) _).symm

/-- How many ids the ring has. -/
theorem length_firsts_clockwise (r : ConsistentHashRing) (position : Nat) :
    (firsts StorageNode.id (r.clockwise position)).length = r.nodes.length := by
  obtain ⟨hnd, hids⟩ := nodes_spec r
  have hperm : ((firsts StorageNode.id (r.clockwise position)).map (·.id)).Perm (r.nodes.map (·.id)) := by
    refine (List.perm_ext_iff_of_nodup (firsts_nodup _ _) hnd).2 fun x => ?_
    rw [firsts_keys, List.mem_eraseDups, hids, List.mem_map]
    constructor
    · rintro ⟨n, hn, rfl⟩
      obtain ⟨e, he, rfl⟩ := mem_clockwise.1 hn
      exact ⟨e, he, rfl⟩
    · rintro ⟨e, he, rfl⟩
      exact ⟨e.2, mem_clockwise.2 ⟨e, he, rfl⟩, rfl⟩
  simpa using hperm.length_eq

/-- On a ring of healthy nodes `locate` is the first nodes met clockwise. -/
theorem locate_eq {r : ConsistentHashRing} (hr : ∀ e ∈ r.ring.entries, e.2.healthy = true) (key : Str) (replicas : Int) :
    r.locate hash64 key replicas = some ((firsts StorageNode.id (r.clockwise (hash64 key))).take replicas.toNat) := by
  by_cases h0 : r.ring.entries = [] ∨ replicas ≤ 0
  · have hnil : (firsts StorageNode.id (r.clockwise (hash64 key))).take replicas.toNat = [] := by
      rcases h0 with h0 | h0
      · simp [clockwise, h0, firsts]
      · rw [Int.toNat_of_nonpos h0, List.take_zero]
    rw [locate, if_pos h0, hnil]
  · obtain ⟨out, hout, -⟩ := locate_spec hash64 r hr key replicas
    have hw := hout
    rw [locate_eq_walk hash64 h0] at hw
    have hh : ∀ n ∈ r.clockwise (hash64 key), n.healthy = true := by
      intro n hn
      obtain ⟨e, he, rfl⟩ := mem_clockwise.1 hn
      exact hr e he
    have hres := walk_healthy hw hh (Nat.zero_le _)
    rw [nodesLoop_eq, List.nil_append, List.filter_eq_self.2 (by simp), ← length_firsts_clockwise r (hash64 key)] at hres
    rw [hout, hres, ← List.take_take, List.take_length]

/-! ## Placement -/

/-- The distinct ids on the ring. -/
def ids (r : ConsistentHashRing) : List Str := (r.ring.entries.map fun e => e.2.id).eraseDups

theorem length_ids (r : ConsistentHashRing) : r.ids.length = r.nodes.length := by
  rw [nodes_eq, ← List.length_map StorageNode.id, firsts_keys, List.map_map]
  rfl

/-- `locate` returns the first ids met clockwise, as many as asked for or all
there are. -/
theorem locate_clockwise {r : ConsistentHashRing} (hr : ∀ e ∈ r.ring.entries, e.2.healthy = true) (key : Str)
    (replicas : Int) :
    ∃ out, r.locate hash64 key replicas = some out ∧
      out.map (·.id) = ((r.clockwise (hash64 key)).map (·.id)).eraseDups.take (min (max replicas 0) r.ids.length).toNat ∧
      (out.length : Int) = min (max replicas 0) r.ids.length ∧ (out.map (·.id)).Nodup := by
  have hlen : (firsts StorageNode.id (r.clockwise (hash64 key))).length = r.ids.length := by
    rw [length_firsts_clockwise, length_ids]
  have hmin : (min (max replicas 0) r.ids.length).toNat = min replicas.toNat r.ids.length := by omega
  refine ⟨_, locate_eq hash64 hr key replicas, ?_, ?_, ?_⟩
  · rw [List.map_take, firsts_keys, hmin, ← List.take_take]
    congr 1
    symm
    apply List.take_of_length_le
    rw [← firsts_keys, List.length_map, hlen]
  · rw [List.length_take, hlen]
    omega
  · rw [List.map_take]
    exact (firsts_nodup _ _).sublist (List.take_sublist _ _)

/-- Three nodes on two positions: `c` took the place of `a`. -/
def crowded : ConsistentHashRing :=
  [⟨lit "a", [], true⟩, ⟨lit "bb", [], true⟩, ⟨lit "c", [], true⟩].foldl (add_node List.length) { virtual_nodes := 2 }

theorem crowded_healthy : ∀ e ∈ crowded.ring.entries, e.2.healthy = true := by decide +kernel

/-- The walk starts at `bb` and comes round to `c`. -/
theorem locate_clockwise_crowded :
    ∃ out, crowded.locate List.length (lit "film") 5 = some out ∧ out.map (·.id) = [lit "bb", lit "c"] := by
  obtain ⟨out, hout, hids, -⟩ := locate_clockwise List.length crowded_healthy (lit "film") 5
  exact ⟨out, hout, hids.trans (by decide +kernel)⟩

/-! ## One more node -/

variable {hash64}

/-- The entries of a node whose positions were free are those of its id. -/
theorem filter_add_node {r : ConsistentHashRing} {node : StorageNode} (hid : ∀ e ∈ r.ring.entries, e.2.id ≠ node.id)
    (hfree : ∀ i < r.virtual_nodes, hash64 (label node.id i) ∉ r.ring.entries.map Prod.fst) :
    (r.add_node hash64 node).ring.entries.filter (fun e => e.2.id ≠ node.id) = r.ring.entries := by
  have hkeys : ∀ e ∈ r.ring.entries, e.1 ∉ (positions hash64 r.virtual_nodes node).map Prod.fst := by
    intro e he hpos
    obtain ⟨p, hp, hpe⟩ := List.mem_map.1 hpos
    obtain ⟨-, i, hi, hpi⟩ := (mem_positions hash64).1 hp
    exact hfree i hi (hpi ▸ hpe ▸ List.mem_map_of_mem he)
  refine SortedMap.eq_of_sorted ((r.add_node hash64 node).ring.sorted.filter _) r.ring.sorted fun p => ?_
  rw [List.mem_filter, decide_eq_true_eq]
  constructor
  · rintro ⟨hp, hne⟩
    rcases SortedMap.mem_of_mem_assignAll hp with hp | hp
    · exact hp
    · exact absurd (congrArg (·.id) ((mem_positions hash64).1 hp).1) hne
  · intro hp
    exact ⟨SortedMap.mem_assignAll_of_not_mem hp (hkeys p hp), hid p hp⟩

theorem clockwise_filter (r : ConsistentHashRing) (id : Str) (position : Nat) :
    (r.clockwise position).filter (fun n => n.id ≠ id) = (r.remove_node id).clockwise position := by
  have hcomm : ∀ p : Nat × StorageNode → Bool,
      (r.ring.entries.filter p).filter (fun e => e.2.id ≠ id) = (r.remove_node id).ring.entries.filter p := by
    intro p
    show _ = (r.ring.entries.filter _).filter p
    rw [List.filter_filter, List.filter_filter]
    exact List.filter_congr fun e _ => Bool.and_comm _ _
  rw [clockwise, clockwise, List.filter_map, ← hcomm, ← hcomm, ← List.filter_append]
  rfl

/-- Removing a node just added restores the ring. -/
theorem remove_add_node {r : ConsistentHashRing} {node : StorageNode} (hid : ∀ e ∈ r.ring.entries, e.2.id ≠ node.id)
    (hfree : ∀ i < r.virtual_nodes, hash64 (label node.id i) ∉ r.ring.entries.map Prod.fst) :
    (r.add_node hash64 node).remove_node node.id = r := by
  obtain ⟨v, ⟨entries, sorted⟩⟩ := r
  have h := filter_add_node hid hfree
  unfold remove_node
  simp only [h]
  rfl

/-- A new node steps in at one place among those located, or nowhere, and
leaves no trace when it goes. -/
theorem locate_add_node {r : ConsistentHashRing} {node : StorageNode} (hr : ∀ e ∈ r.ring.entries, e.2.healthy = true)
    (hnode : node.healthy = true) (hid : ∀ e ∈ r.ring.entries, e.2.id ≠ node.id)
    (hfree : ∀ i < r.virtual_nodes, hash64 (label node.id i) ∉ r.ring.entries.map Prod.fst) (key : Str) (replicas : Int) :
    (∃ before after, r.locate hash64 key replicas = some before ∧
      (r.add_node hash64 node).locate hash64 key replicas = some after ∧
      (after = before ∨ ∃ i ≤ before.length, after = (before.insertIdx i node).take replicas.toNat)) ∧
    ((r.add_node hash64 node).remove_node node.id).locate hash64 key replicas = r.locate hash64 key replicas := by
  have hmem : ∀ e ∈ (r.add_node hash64 node).ring.entries, e ∈ r.ring.entries ∨ e.2 = node := by
    intro e he
    rcases SortedMap.mem_of_mem_assignAll he with he | he
    · exact .inl he
    · exact .inr ((mem_positions hash64).1 he).1
  have hr' : ∀ e ∈ (r.add_node hash64 node).ring.entries, e.2.healthy = true := by
    intro e he
    rcases hmem e he with he | he
    · exact hr e he
    · rw [he, hnode]
  have hback := remove_add_node hid hfree
  refine ⟨⟨_, _, locate_eq hash64 hr key replicas, locate_eq hash64 hr' key replicas, ?_⟩, by rw [hback]⟩
  have hfilter := clockwise_filter (r.add_node hash64 node) node.id (hash64 key)
  rw [hback] at hfilter
  have hsame : ∀ n ∈ (r.add_node hash64 node).clockwise (hash64 key), n.id = node.id → n = node := by
    intro n hn hne
    obtain ⟨e, he, rfl⟩ := mem_clockwise.1 hn
    rcases hmem e he with he | he
    · exact absurd hne (hid e he)
    · exact he
  rcases firsts_insert hfilter.symm hsame with h | ⟨i, hi, h⟩
  · rw [h]
    exact .inl rfl
  · rw [h]
    exact take_insertIdx hi node replicas.toNat

theorem locate_add_node_crowded :
    (∃ before after, crowded.locate List.length (lit "film") 2 = some before ∧
      (crowded.add_node List.length ⟨lit "ddd", [], true⟩).locate List.length (lit "film") 2 = some after ∧
      (after = before ∨ ∃ i ≤ before.length, after = (before.insertIdx i ⟨lit "ddd", [], true⟩).take 2)) ∧
    ((crowded.add_node List.length ⟨lit "ddd", [], true⟩).remove_node (lit "ddd")).locate List.length (lit "film") 2 =
      crowded.locate List.length (lit "film") 2 :=
  locate_add_node crowded_healthy rfl (by decide +kernel) (by decide +kernel) (lit "film") 2

end ConsistentHashRing

end Dstore
