import Mathlib.Data.List.Sort
import Dstore.Storage.Replication
/-!
# Who is alive

`healthy_nodes` and `elect_leader` of `replication.cpp`. Both go by the time of
the last heartbeat, which the state has for one node only, and whether or not
it came from that node; `SeenAt` is the node and the time.
-/
open Dstore.Lib

namespace Dstore.ClusterState

/-- The clock counts nanoseconds, the timeout seconds. -/
def healthy_nodes (s : ClusterState) (now : Nat) (timeout : Int) : List StorageNode :=
  (s.nodes.entries.filter fun e => (now : Int) - e.2.last_seen ≤ timeout * 10 ^ 9).map fun e => e.2.node.val

def elect_leader (s : ClusterState) (now : Nat) (timeout : Int) : Result StorageNode :=
  match (s.healthy_nodes now timeout).insertionSort fun a b => a.id ≤ b.id with
  | [] => .error (.Unavailable (lit "no healthy nodes available for leader election"))
  | leader :: _ => .ok leader

/-- The last heartbeat was for this node, at this time. -/
def SeenAt (s : ClusterState) (id : Str) (t : Nat) : Prop :=
  ∃ e ∈ s.nodes.entries, e.2.node.val.id = id ∧ e.2.last_seen = t

variable {s : ClusterState}

/-- A leader is a healthy node. -/
theorem mem_of_elect_leader {now : Nat} {timeout : Int} {leader : StorageNode}
    (h : s.elect_leader now timeout = .ok leader) : leader ∈ s.healthy_nodes now timeout := by
  have hperm := List.perm_insertionSort (fun a b : StorageNode => a.id ≤ b.id) (s.healthy_nodes now timeout)
  unfold elect_leader at h
  split at h
  · cases h
  · rename_i sorted rest heq
    rw [heq] at hperm
    rw [← Except.ok.inj h]
    exact hperm.mem_iff.1 List.mem_cons_self

/-- A node is healthy when its last heartbeat is recent. -/
theorem exists_mem_healthy_nodes {now : Nat} {timeout : Int} {id : Str} :
    (∃ n ∈ s.healthy_nodes now timeout, n.id = id) ↔ ∃ t, s.SeenAt id t ∧ (now : Int) - t ≤ timeout * 10 ^ 9 := by
  unfold healthy_nodes
  constructor
  · rintro ⟨n, hn, rfl⟩
    obtain ⟨e, he, rfl⟩ := List.mem_map.1 hn
    obtain ⟨he, hrecent⟩ := List.mem_filter.1 he
    exact ⟨e.2.last_seen, ⟨e, he, rfl, rfl⟩, by simpa using hrecent⟩
  · rintro ⟨t, ⟨e, he, rfl, rfl⟩, hrecent⟩
    exact ⟨e.2.node.val, List.mem_map.2 ⟨e, List.mem_filter.2 ⟨he, by simpa using hrecent⟩, rfl⟩, rfl⟩

/-- Heartbeats make the last node seen now, and the others not at all. -/
theorem seenAt_heartbeats {now : Nat} {first : LiveNode} {members : List LiveNode} {id : Str} {t : Nat} :
    ((s.heartbeat now first).heartbeats now members).SeenAt id t ↔ (members.getLast?.getD first).val.id = id ∧ t = now := by
  rw [SeenAt, entries_heartbeats]
  simp only [List.mem_singleton, exists_eq_left, eq_comm (a := now)]

theorem seenAt_heartbeat {now : Nat} {node : LiveNode} {id : Str} {t : Nat} :
    (s.heartbeat now node).SeenAt id t ↔ node.val.id = id ∧ t = now := @seenAt_heartbeats s now node [] id t

end Dstore.ClusterState
