import Mathlib.Algebra.Order.Ring.Int
import Dstore.Storage.RingWalk
/-!
# Unhealthy nodes on the ring

`locate` skips unhealthy nodes, and stops when it has as many ids as `nodes`
counts. `nodes` counts unhealthy nodes too. So on a ring with an unhealthy node
the loop goes round for ever when more replicas are asked for than there are
healthy nodes, and on every other ring it ends (`locate_ends_iff`).
-/
open Dstore.Lib

namespace Dstore

namespace ConsistentHashRing

variable (hash64 : Str → Nat)

/-- `locate` with so many steps of its loop. -/
def locateWithin (r : ConsistentHashRing) (key : Str) (replicas : Int) (fuel : Nat) : Option (List StorageNode) :=
  if r.ring.entries = [] ∨ replicas ≤ 0 then some []
  else
    let it := r.ring.lower_bound (hash64 key)
    let it := if it = r.ring.entries.length then 0 else it
    locateLoop (r.ring.entries.map Prod.snd) replicas.toNat r.nodes.length fuel it []

/-- `locate` itself has the steps of one turn. -/
theorem locateWithin_turn (r : ConsistentHashRing) (key : Str) (replicas : Int) :
    r.locateWithin hash64 key replicas r.ring.entries.length = r.locate hash64 key replicas := rfl

/-! ## Rings that nodes were added to and removed from -/

inductive Reachable : ConsistentHashRing → Prop where
  | new (virtual_nodes : Nat) : Reachable { virtual_nodes := virtual_nodes }
  | add_node {r : ConsistentHashRing} (h : Reachable r) (node : StorageNode) : Reachable (r.add_node hash64 node)
  | remove_node {r : ConsistentHashRing} (h : Reachable r) (node_id : Str) : Reachable (r.remove_node node_id)

variable {hash64}

/-- Every virtual node stands where a label of its id hashes to. -/
theorem Reachable.labelled {r : ConsistentHashRing} (h : Reachable hash64 r) :
    ∀ e ∈ r.ring.entries, ∃ i < r.virtual_nodes, e.1 = hash64 (label e.2.id i) := by
  induction h with
  | new virtual_nodes => intro e he; cases he
  | add_node h node ih =>
    intro e he
    rcases SortedMap.mem_of_mem_assignAll he with he | he
    · exact ih e he
    · obtain ⟨rfl, i, hi, hpos⟩ := (mem_positions hash64).1 he
      exact ⟨i, hi, hpos⟩
  | remove_node h node_id ih =>
    intro e he
    exact ih e (List.mem_filter.1 he).1

/-- Adding a node again replaces all its virtual nodes, so an id has one node. -/
theorem Reachable.same {r : ConsistentHashRing} (h : Reachable hash64 r) :
    ∀ e ∈ r.ring.entries, ∀ e' ∈ r.ring.entries, e.2.id = e'.2.id → e.2 = e'.2 := by
  induction h with
  | new virtual_nodes => intro e he; cases he
  | remove_node h node_id ih =>
    intro e he e' he'
    exact ih e (List.mem_filter.1 he).1 e' (List.mem_filter.1 he').1
  | @add_node r h node ih =>
    have hcases : ∀ e ∈ (r.add_node hash64 node).ring.entries, e.2 = node ∨ e ∈ r.ring.entries ∧ e.2.id ≠ node.id := by
      intro e he
      rcases SortedMap.mem_assignAll_cases he with he | ⟨he, hpos⟩
      · exact .inl ((mem_positions hash64).1 he).1
      · refine .inr ⟨he, fun hid => hpos ?_⟩
        obtain ⟨i, hi, hlab⟩ := h.labelled e he
        exact List.mem_map.2 ⟨(e.1, node), (mem_positions hash64).2 ⟨rfl, i, hi, hid ▸ hlab⟩, rfl⟩
    intro e he e' he' hids
    rcases hcases e he with h1 | ⟨h1, hne⟩
    · rcases hcases e' he' with h2 | ⟨h2, hne⟩
      · rw [h1, h2]
      · exact absurd (hids ▸ congrArg (·.id) h1) hne
    · rcases hcases e' he' with h2 | ⟨h2, -⟩
      · exact absurd (hids.trans (congrArg (·.id) h2)) hne
      · exact ih e h1 e' h2 hids

theorem Reachable.mem_nodes {r : ConsistentHashRing} (h : Reachable hash64 r) {n : StorageNode} :
    n ∈ r.nodes ↔ ∃ e ∈ r.ring.entries, e.2 = n := by
  constructor
  · intro hn
    rw [nodes_eq] at hn
    exact List.mem_map.1 (firsts_subset _ _ hn)
  · rintro ⟨e, he, rfl⟩
    obtain ⟨m, hm, hid⟩ := List.mem_map.1 (((nodes_spec r).2 e.2.id).2 ⟨e, he, rfl⟩)
    have hm' := hm
    rw [nodes_eq] at hm'
    obtain ⟨e', he', rfl⟩ := List.mem_map.1 (firsts_subset _ _ hm')
    rwa [← h.same e' he' e he hid]

/-! ## What the walk can find -/

/-- The healthy nodes of the ring, each once. -/
def healthyNodes (r : ConsistentHashRing) : List StorageNode := r.nodes.filter (·.healthy)

theorem nodup_healthyNodes (r : ConsistentHashRing) : (r.healthyNodes.map (·.id)).Nodup :=
  (nodes_spec r).1.sublist (List.filter_sublist.map _)

/-- Distinct healthy nodes of the ring are at most all of them. -/
theorem Reachable.length_le {r : ConsistentHashRing} (h : Reachable hash64 r) {out : List StorageNode}
    (hn : (out.map (·.id)).Nodup) (hout : ∀ n ∈ out, (∃ e ∈ r.ring.entries, e.2 = n) ∧ n.healthy = true) :
    out.length ≤ r.healthyNodes.length := by
  have hsub : out.map (·.id) ⊆ r.healthyNodes.map (·.id) := by
    apply List.map_subset
    intro n hmem
    exact List.mem_filter.2 ⟨h.mem_nodes.2 (hout n hmem).1, (hout n hmem).2⟩
  simpa using (hn.subperm hsub).length_le

/-- The loop does not end while what it can find is short of both bounds. -/
theorem locateLoop_none {ring : List StorageNode} {replicas total : Nat}
    (hshort : ∀ out : List StorageNode, (out.map (·.id)).Nodup → (∀ n ∈ out, n ∈ ring ∧ n.healthy = true) →
      out.length < replicas ∧ out.length < total)
    (fuel : Nat) {it : Nat} (hit : it < ring.length) {out : List StorageNode} (hn : (out.map (·.id)).Nodup)
    (hout : ∀ n ∈ out, n ∈ ring ∧ n.healthy = true) : locateLoop ring replicas total fuel it out = none := by
  induction fuel generalizing it out with
  | zero =>
    rw [locateLoop, if_pos (hshort out hn hout)]
  | succ fuel ih =>
    rw [locateLoop, if_pos (hshort out hn hout), List.getElem?_eq_getElem hit]
    refine ih (by split <;> omega) (nodup_visit hn _) fun n hmem => ?_
    rcases mem_visit hmem with ⟨rfl, hh⟩ | hmem
    · exact ⟨List.getElem_mem hit, hh⟩
    · exact hout n hmem

/-- A walk that has not ended has passed every healthy node and is short of
both bounds. -/
theorem walk_none_found {replicas total : Nat} {turn out : List StorageNode} (h : walk replicas total turn out = none) :
    (nodesLoop (turn.filter (·.healthy)) out).length < replicas ∧
      (nodesLoop (turn.filter (·.healthy)) out).length < total := by
  induction turn generalizing out with
  | nil =>
    rw [walk] at h
    split at h
    · rename_i hc
      exact hc
    · cases h
  | cons x turn ih =>
    rw [walk] at h
    split at h
    · have := ih h
      by_cases hx : x.healthy = true
      · rwa [List.filter_cons, if_pos hx, nodesLoop, ← visit_of_healthy hx]
      · have hskip : visit out x = out := by
          unfold visit
          simp [Bool.eq_false_iff.2 hx]
        rwa [List.filter_cons, if_neg hx, ← hskip]
    · cases h

theorem Reachable.walk_none {r : ConsistentHashRing} (h : Reachable hash64 r) {replicas position : Nat}
    (hw : walk replicas r.nodes.length (r.clockwise position) [] = none) :
    r.healthyNodes.length < replicas ∧ r.healthyNodes.length < r.nodes.length := by
  obtain ⟨h1, h2⟩ := walk_none_found hw
  obtain ⟨-, hids⟩ := nodesLoop_spec ((r.clockwise position).filter (·.healthy)) [] List.nodup_nil
  have hsub : r.healthyNodes.map (·.id) ⊆ (nodesLoop ((r.clockwise position).filter (·.healthy)) []).map (·.id) := by
    intro x hx
    obtain ⟨n, hn, rfl⟩ := List.mem_map.1 hx
    obtain ⟨hn, hh⟩ := List.mem_filter.1 hn
    exact (hids _).2 (.inr (List.mem_map_of_mem (List.mem_filter.2 ⟨mem_clockwise.2 (h.mem_nodes.1 hn), hh⟩)))
  have := (r.nodup_healthyNodes.subperm hsub).length_le
  simp only [List.length_map] at this
  omega

theorem length_healthyNodes_lt {r : ConsistentHashRing} :
    r.healthyNodes.length < r.nodes.length ↔ ¬ ∀ n ∈ r.nodes, n.healthy = true := by
  rw [healthyNodes, List.length_filter_lt_length_iff_exists]
  simp

/-! ## When the loop ends -/

/-- The loop ends for `replicas`, and with every healthy node of the ring when
there are fewer of them. -/
def Ends (hash64 : Str → Nat) (r : ConsistentHashRing) (key : Str) (replicas : Int) : Prop :=
  ∃ fuel out, r.locateWithin hash64 key replicas fuel = some out ∧
    ((r.healthyNodes.length : Int) < replicas → ∀ n ∈ r.nodes, n.healthy = true → n ∈ out)

theorem Reachable.ends {r : ConsistentHashRing} (h : Reachable hash64 r) (key : Str) {replicas : Int}
    (hc : replicas ≤ r.healthyNodes.length ∨ ∀ n ∈ r.nodes, n.healthy = true) : Ends hash64 r key replicas := by
  refine ⟨r.ring.entries.length, ?_⟩
  rw [locateWithin_turn]
  by_cases h0 : r.ring.entries = [] ∨ replicas ≤ 0
  · refine ⟨[], by rw [locate, if_pos h0], fun hlt n hn => ?_⟩
    rcases h0 with h0 | h0
    · obtain ⟨e, he, -⟩ := h.mem_nodes.1 hn
      rw [h0] at he
      cases he
    · omega
  rw [locate_eq_walk hash64 h0]
  rw [not_or] at h0
  rcases hw : walk replicas.toNat r.nodes.length (r.clockwise (hash64 key)) [] with _ | out
  · obtain ⟨h1, h2⟩ := h.walk_none hw
    rcases hc with hc | hc
    · omega
    · exact absurd hc (length_healthyNodes_lt.1 h2)
  · obtain ⟨hnd, hlen, hmem⟩ := walk_some hw List.nodup_nil (Nat.zero_le _)
    refine ⟨out, rfl, fun hlt n hn hh => ?_⟩
    -- every node is healthy, and the walk stopped at the number of nodes
    have hall := hc.resolve_left (by omega)
    have hfull : r.healthyNodes.length = r.nodes.length := by
      rw [healthyNodes, List.filter_eq_self.2 hall]
    have hsub : out ⊆ r.nodes := by
      intro m hm
      rcases hmem m hm with hm | ⟨hm, -⟩
      · cases hm
      · exact h.mem_nodes.2 (mem_clockwise.1 hm)
    have hperm := (hnd.of_map _).subperm hsub
    exact (hperm.perm_of_length_le (by omega)).mem_iff.2 hn

theorem Reachable.not_ends {r : ConsistentHashRing} (h : Reachable hash64 r) (key : Str) {replicas : Int}
    (hlt : (r.healthyNodes.length : Int) < replicas) (hsick : ¬ ∀ n ∈ r.nodes, n.healthy = true) (fuel : Nat) :
    r.locateWithin hash64 key replicas fuel = none := by
  have hne : r.ring.entries ≠ [] := by
    intro h0
    refine hsick fun n hn => ?_
    obtain ⟨e, he, -⟩ := h.mem_nodes.1 hn
    rw [h0] at he
    cases he
  have hless := length_healthyNodes_lt.2 hsick
  unfold locateWithin
  rw [if_neg (by rw [not_or]; exact ⟨hne, by omega⟩)]
  refine locateLoop_none (fun out hn hout => ?_) fuel (start_lt hne (hash64 key)) List.nodup_nil (by simp)
  have := h.length_le hn fun n hmem => ⟨List.mem_map.1 (hout n hmem).1, (hout n hmem).2⟩
  omega

/-- The loop ends exactly when there are healthy nodes enough or no others. -/
theorem locate_ends_iff {r : ConsistentHashRing} (h : Reachable hash64 r) (key : Str) (replicas : Int) :
    Ends hash64 r key replicas ↔ replicas ≤ r.healthyNodes.length ∨ ∀ n ∈ r.nodes, n.healthy = true := by
  constructor
  · rintro ⟨fuel, out, hout, -⟩
    by_contra hc
    rw [not_or, not_le] at hc
    rw [h.not_ends key hc.1 hc.2 fuel] at hout
    cases hout
  · exact h.ends key

/-- A healthy node and one that is not. -/
def half : ConsistentHashRing :=
  [⟨lit "a", [], true⟩, ⟨lit "bb", [], false⟩].foldl (add_node List.length) { virtual_nodes := 1 }

theorem half_reachable : Reachable List.length half :=
  ((Reachable.new 1).add_node ⟨lit "a", [], true⟩).add_node ⟨lit "bb", [], false⟩

theorem locate_ends_half : Ends List.length half (lit "file") 1 :=
  (locate_ends_iff half_reachable (lit "file") 1).2 (.inl (by decide +kernel))

/-- Two replicas of one healthy node are looked for without end. -/
theorem locate_half_spins :
    Reachable List.length half ∧ ∀ fuel, half.locateWithin List.length (lit "file") 2 fuel = none := by
  refine ⟨half_reachable, half_reachable.not_ends (lit "file") ?_ ?_⟩
  · decide +kernel
  · decide +kernel

end ConsistentHashRing

end Dstore
