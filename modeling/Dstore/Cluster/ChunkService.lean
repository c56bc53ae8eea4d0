import Dstore.Cluster.HintedHandoff
import Dstore.Cluster.NodeClient
/-!
# The distributed chunk service

`DistributedChunkService` of `distributed_chunk_service.cpp`. An operation runs
on the node `self` and acts on the whole `Net`: its own store directly, the
stores of the replica plan's other targets through `NodeClient`. A call to a
node whose address has no port that can be read throws, and the operation ends
there.

A plan has each node once, so in one `put`, `get` or `remove` the deliveries
are a function of the target; a replay can call one node several times, and
there the delivery also depends on how many calls were made before.
-/

namespace Dstore

structure DistributedChunkService where
  self : LiveNode
  replication_factor : Int
  write_quorum : Int
  read_quorum : Int
  /-- Whether there is a handoff queue. -/
  handoff : Bool := true
  seed_members : List LiveNode := []

/-- What the outside does to one `put`. -/
structure Conditions where
  disk : Option DiskFault := none
  deliver : StorageNode → Delivery := fun _ => .fine
  queue : Option HintedHandoffQueue.Fault := none

namespace DistributedChunkService

variable (H : HexHash) (hash64 : Str → Nat) (svc : DistributedChunkService)

/-- The id of the node the service runs on. -/
abbrev me : Str := svc.self.val.id

def is_self (node : StorageNode) : Bool := node.id = svc.me

def refresh_seed_members (net : Net) : Net :=
  net.setView svc.me (((net.views svc.me).heartbeat net.clock svc.self).heartbeats net.clock svc.seed_members)

/-- The replication loop of `put`; `none` when it is left by an exception. -/
def replicate (cond : Conditions) (ref : ChunkRef) (bytes : Bytes) : List StorageNode → Int → Net → Option Int × Net
  | [], acknowledgements, net => (some acknowledgements, net)
  | node :: rest, acknowledgements, net =>
    if svc.is_self node then replicate cond ref bytes rest acknowledgements net
    else
      match NodeClient.put_chunk H (cond.deliver node) net node ref bytes with
      | (.ok (), net) => replicate cond ref bytes rest (acknowledgements + 1) net
      | (.error .exception, net) => (none, net)
      | (.error (.status _), net) =>
        let net := if svc.handoff
          then net.setQueue svc.me (HintedHandoffQueue.enqueue (net.queues svc.me) cond.queue node ref).2 else net
        replicate cond ref bytes rest acknowledgements net

def put (cond : Conditions) (net : Net) (bytes : Bytes) : Outcome ChunkRef × Net :=
  let net := svc.refresh_seed_members net
  match (net.stores svc.me).put H cond.disk bytes with
  | (.error status, store) => (.error (.status status), net.setStore svc.me store)
  | (.ok local_ref, store) =>
    let net := net.setStore svc.me store
    let plan := (net.views svc.me).write_plan hash64 local_ref.checksum svc.replication_factor svc.write_quorum
    match svc.replicate H cond local_ref bytes plan.targets 1 net with
    | (none, net) => (.error .exception, net)
    | (some acknowledgements, net) =>
      if acknowledgements < svc.write_quorum then (.error (.status (.Unavailable (lit "quorum write failed"))), net)
      else (.ok local_ref, net)

/-- Read repair: the value goes to the replicas that failed. -/
def repair (repairs : StorageNode → Delivery) (checksum : Str) (value : Bytes) : List StorageNode → Net → Outcome Unit × Net
  | [], net => (.ok (), net)
  | failed :: rest, net =>
    if svc.is_self failed then
      repair repairs checksum value rest (net.setStore svc.me ((net.stores svc.me).put H none value).2)
    else
      match NodeClient.put_chunk H (repairs failed) net failed ⟨checksum, value.length % 2 ^ 64⟩ value with
      | (.error .exception, net) => (.error .exception, net)
      | (_, net) => repair repairs checksum value rest net

/-- One target's answer to a read. -/
def ask (reads : StorageNode → Delivery) (checksum : Str) (net : Net) (node : StorageNode) : Outcome Bytes × Net :=
  if svc.is_self node then
    let (data, store) := (net.stores svc.me).get H checksum
    (data.lift, net.setStore svc.me store)
  else NodeClient.get_chunk H (reads node) net node checksum

/-- The loop of `get`, and what follows it. -/
def readLoop (reads repairs : StorageNode → Delivery) (checksum : Str) :
    List StorageNode → Int → Status → List StorageNode → Net → Outcome Bytes × Net
  | [], _, last_error, _, net =>
    let (found, store) := (net.stores svc.me).get H checksum
    let net := net.setStore svc.me store
    let failure := if last_error.code = .kNotFound then .Unavailable (lit "quorum read failed") else last_error
    match found with
    | .ok value => (if svc.read_quorum ≤ 1 then .ok value else .error (.status failure), net)
    | .error _ => (.error (.status failure), net)
  | node :: rest, responses, last_error, failed, net =>
    match svc.ask H reads checksum net node with
    | (.ok value, net) =>
      if responses + 1 ≥ svc.read_quorum then
        let (repaired, net) := svc.repair H repairs checksum value failed net
        (repaired.map fun _ => value, net)
      else readLoop reads repairs checksum rest (responses + 1) last_error failed net
    | (.error .exception, net) => (.error .exception, net)
    | (.error (.status status), net) => readLoop reads repairs checksum rest responses status (failed ++ [node]) net

def get (reads repairs : StorageNode → Delivery) (net : Net) (checksum : Str) : Outcome Bytes × Net :=
  let net := svc.refresh_seed_members net
  let plan := (net.views svc.me).read_plan hash64 checksum svc.replication_factor svc.read_quorum
  svc.readLoop H reads repairs checksum plan.targets 0 (.NotFound (lit "chunk not found")) [] net

/-- The loop of `remove`; `none` when it is left by an exception. -/
def removeLoop (disk : Option DiskFault) (deliver : StorageNode → Delivery) (checksum : Str) :
    List StorageNode → Int → Net → Option Int × Net
  | [], acknowledgements, net => (some acknowledgements, net)
  | node :: rest, acknowledgements, net =>
    if svc.is_self node then
      let (removed, store) := (net.stores svc.me).remove_if_unreferenced disk checksum 0
      removeLoop disk deliver checksum rest (if removed.isOk then acknowledgements + 1 else acknowledgements)
        (net.setStore svc.me store)
    else
      match NodeClient.delete_chunk (deliver node) net node checksum with
      | (.ok (), net) => removeLoop disk deliver checksum rest (acknowledgements + 1) net
      | (.error .exception, net) => (none, net)
      | (.error (.status _), net) => removeLoop disk deliver checksum rest acknowledgements net

def remove (disk : Option DiskFault) (deliver : StorageNode → Delivery) (net : Net) (checksum : Str)
    (references : Int) : Outcome Unit × Net :=
  if references > 0 then (.ok (), net)
  else
    let net := svc.refresh_seed_members net
    let plan := (net.views svc.me).write_plan hash64 checksum svc.replication_factor svc.write_quorum
    match svc.removeLoop disk deliver checksum plan.targets 0 net with
    | (none, net) => (.error .exception, net)
    | (some acknowledgements, net) =>
      if acknowledgements < min svc.write_quorum plan.targets.length
      then (.error (.status (.Unavailable (lit "quorum delete failed"))), net) else (.ok (), net)

/-- The loop of `replay_hinted_handoff`; `i` counts the calls made, and `none` is
an exception. -/
def replayLoop (deliver : Nat → StorageNode → Delivery) :
    List HandoffHint → Nat → Int → List HandoffHint → Net → Option (Int × List HandoffHint) × Net
  | [], _, delivered, remaining, net => (some (delivered, remaining), net)
  | hint :: rest, i, delivered, remaining, net =>
    let (found, store) := (net.stores svc.me).get H hint.checksum
    let net := net.setStore svc.me store
    match found with
    | .error _ => replayLoop deliver rest i delivered (remaining ++ [hint]) net
    | .ok bytes =>
      let target : StorageNode := ⟨hint.target_node_id, hint.target_address, true⟩
      match NodeClient.put_chunk H (deliver i target) net target ⟨hint.checksum, hint.size⟩ bytes with
      | (.ok (), net) => replayLoop deliver rest (i + 1) (delivered + 1) remaining net
      | (.error .exception, net) => (none, net)
      | (.error (.status _), net) => replayLoop deliver rest (i + 1) delivered (remaining ++ [hint]) net

def replay_hinted_handoff (deliver : Nat → StorageNode → Delivery) (fault : Option HintedHandoffQueue.Fault) (net : Net) :
    Outcome Int × Net :=
  if svc.handoff then
    match HintedHandoffQueue.load (net.queues svc.me) with
    | .error status => (.error (.status status), net)
    | .ok loaded =>
      match svc.replayLoop H deliver loaded 0 0 [] net with
      | (none, net) => (.error .exception, net)
      | (some (delivered, remaining), net) =>
        match HintedHandoffQueue.replace (net.queues svc.me) fault remaining with
        | (.error status, file) => (.error (.status status), net.setQueue svc.me file)
        | (.ok (), file) => (.ok delivered, net.setQueue svc.me file)
  else (.ok 0, net)

end DistributedChunkService

end Dstore
