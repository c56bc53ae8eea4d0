import Dstore.Lib.UnorderedMap
import Dstore.Storage.ConsistentHash
/-!
# Membership and replica plans

`ClusterState` of `replication.cpp`. `heartbeat` moves the node before it reads
the id that it is stored under, so every node goes under the empty id, in the
place of the one before: a process knows the node that it heard of last, and no
other (`known_heartbeat`), and a plan is that node (`write_plan_targets`).

Every caller of `heartbeat` passes a healthy node, so the state carries that all
its nodes are, and a plan always exists: `locate` ends on the ring that is built
anew from the nodes.
-/
open Dstore.Lib

namespace Dstore

/-- A node as `heartbeat` is given it. -/
abbrev LiveNode := { node : StorageNode // node.healthy = true }

def LiveNode.of (id address : Str) : LiveNode := ⟨⟨id, address, true⟩, rfl⟩

/-- `parse_node`: `id=address`, or one text for both. -/
def parse_node (spec : Str) : LiveNode :=
  let id := spec.takeWhile (· ≠ 61)
  if id = spec then .of spec spec else .of id (spec.drop (id.length + 1))

structure NodeState where
  node : LiveNode
  last_seen : Nat

/-- What is left of a string that has been moved from. -/
def movedFrom : Str := []

structure ClusterState where
  layout : Layout (Str × NodeState)
  nodes : UnorderedMap Str NodeState
  keyed : ∀ e ∈ nodes.entries, e.1 = movedFrom

structure ReplicaPlan where
  targets : List StorageNode
  quorum : Int := 0

namespace ClusterState

variable (hash64 : Str → Nat)

/-- A `ClusterState` that has heard of no node. -/
def empty (layout : Layout (Str × NodeState)) : ClusterState where
  layout := layout
  nodes := UnorderedMap.empty
  keyed := by simp [UnorderedMap.empty]

/-- `nodes_[node.id] = NodeState{std::move(node), now}`. The right side of an
assignment is evaluated first, so `node.id` has been moved from. -/
def heartbeat (s : ClusterState) (now : Nat) (node : LiveNode) : ClusterState where
  layout := s.layout
  nodes := s.nodes.assign s.layout movedFrom ⟨node, now⟩
  keyed e he := by
    rcases UnorderedMap.mem_assign.1 he with rfl | ⟨-, he⟩
    · rfl
    · exact s.keyed e he

def known_nodes (s : ClusterState) : List StorageNode := s.nodes.entries.map fun e => e.2.node.val

theorem healthy (s : ClusterState) : ∀ n ∈ s.known_nodes, n.healthy = true := by
  intro n hn
  obtain ⟨e, -, rfl⟩ := List.mem_map.1 hn
  exact e.2.node.property

theorem ring_healthy (s : ClusterState) :
    ∀ e ∈ (ConsistentHashRing.build hash64 s.known_nodes).ring.entries, e.2.healthy = true :=
  fun _ he => s.healthy _ (ConsistentHashRing.mem_of_mem_build hash64 he)

theorem locate_isSome (s : ClusterState) (chunk_id : Str) (replicas : Int) :
    ((ConsistentHashRing.build hash64 s.known_nodes).locate hash64 chunk_id replicas).isSome = true := by
  obtain ⟨out, h, -⟩ := ConsistentHashRing.locate_spec hash64 _ (s.ring_healthy hash64) chunk_id replicas
  rw [h]
  rfl

def write_plan (s : ClusterState) (chunk_id : Str) (replicas quorum : Int) : ReplicaPlan :=
  ⟨((ConsistentHashRing.build hash64 s.known_nodes).locate hash64 chunk_id replicas).get
    (s.locate_isSome hash64 chunk_id replicas), quorum⟩

def read_plan (s : ClusterState) (chunk_id : Str) (replicas quorum : Int) : ReplicaPlan :=
  s.write_plan hash64 chunk_id replicas quorum

/-! ## Heartbeats -/

/-- After a heartbeat there is one entry. -/
theorem entries_heartbeat (s : ClusterState) (now : Nat) (node : LiveNode) :
    (s.heartbeat now node).nodes.entries = [(movedFrom, ⟨node, now⟩)] := by
  have hnew : (movedFrom, ⟨node, now⟩) ∈ (s.heartbeat now node).nodes.entries := UnorderedMap.mem_assign.2 (.inl rfl)
  have hall : ∀ e ∈ (s.heartbeat now node).nodes.entries, e = (movedFrom, ⟨node, now⟩) := by
    intro e he
    rcases UnorderedMap.mem_assign.1 he with rfl | ⟨hne, he⟩
    · rfl
    · exact absurd (s.keyed e he) hne
  have hnodup := (s.heartbeat now node).nodes.nodup.of_map
  exact List.perm_singleton.1 ((List.perm_ext_iff_of_nodup hnodup (List.nodup_singleton _)).2 fun e =>
    ⟨fun he => List.mem_singleton.2 (hall e he), fun he => List.mem_singleton.1 he ▸ hnew⟩)

theorem known_heartbeat (s : ClusterState) (now : Nat) (node : LiveNode) :
    (s.heartbeat now node).known_nodes = [node.val] := by
  rw [known_nodes, entries_heartbeat]
  rfl

/-- Heartbeats of a list of nodes, in order. -/
def heartbeats (s : ClusterState) (now : Nat) (members : List LiveNode) : ClusterState :=
  members.foldl (fun view member => view.heartbeat now member) s

/-- The last one is what is left of them. -/
theorem entries_heartbeats (s : ClusterState) (now : Nat) (first : LiveNode) (members : List LiveNode) :
    ((s.heartbeat now first).heartbeats now members).nodes.entries =
      [(movedFrom, ⟨members.getLast?.getD first, now⟩)] := by
  induction members using List.reverseRecOn with
  | nil => exact s.entries_heartbeat now first
  | append_singleton members m _ =>
    rw [heartbeats, List.foldl_append, List.getLast?_append]
    exact entries_heartbeat _ now m

theorem known_heartbeats (s : ClusterState) (now : Nat) (first : LiveNode) (members : List LiveNode) :
    ((s.heartbeat now first).heartbeats now members).known_nodes = [(members.getLast?.getD first).val] := by
  rw [known_nodes, entries_heartbeats]
  rfl

/-- The process has heard of a node, as it has from its start on. -/
def Started (s : ClusterState) : Prop := s.known_nodes ≠ []

theorem Started.single {s : ClusterState} (h : s.Started) : ∃ node, s.known_nodes = [node] := by
  have hkeys : s.nodes.entries.map Prod.fst = List.replicate s.nodes.entries.length movedFrom := by
    refine List.eq_replicate_iff.2 ⟨List.length_map _, fun k hk => ?_⟩
    obtain ⟨e, he, rfl⟩ := List.mem_map.1 hk
    exact s.keyed e he
  have hlen : s.nodes.entries.length ≤ 1 := List.nodup_replicate.1 (hkeys ▸ s.nodes.nodup)
  obtain ⟨e, he⟩ := List.length_eq_one_iff.1
    (show s.nodes.entries.length = 1 from le_antisymm hlen (List.length_pos_iff.2 fun hnil =>
      h (by simp [known_nodes, hnil])))
  exact ⟨e.2.node.val, by rw [known_nodes, he]; rfl⟩

/-! ## What a plan is -/

theorem write_plan_congr {s s' : ClusterState} (h : s.known_nodes = s'.known_nodes) (c : Str) (r q : Int) :
    s.write_plan hash64 c r q = s'.write_plan hash64 c r q := by
  unfold write_plan
  simp only [h]

/-- A plan of the one node that is known. -/
theorem write_plan_targets {s : ClusterState} {node : StorageNode} (h : s.known_nodes = [node]) (c : Str) (r q : Int) :
    (s.write_plan hash64 c r q).targets = if 1 ≤ r then [node] else [] := by
  obtain ⟨out, hout, -, hlen, hmem⟩ := ConsistentHashRing.locate_spec hash64 _ (s.ring_healthy hash64) c r
  have htargets : (s.write_plan hash64 c r q).targets = out := Option.get_of_eq_some _ hout
  rw [h] at hlen hmem
  rw [ConsistentHashRing.nodes_length_singleton] at hlen
  rw [htargets]
  split
  · obtain ⟨n, rfl⟩ := List.length_eq_one_iff.1 (show out.length = 1 by omega)
    obtain ⟨e, he, hn⟩ := hmem n (List.mem_singleton_self n)
    rw [← hn, List.mem_singleton.1 (ConsistentHashRing.mem_of_mem_build hash64 he)]
  · exact List.length_eq_zero_iff.1 (by omega)

end ClusterState

end Dstore
