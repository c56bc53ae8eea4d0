import Dstore.Cluster.ChunkService
import Dstore.Metadata.MetadataStore
/-!
# Repair and rebalancing

`RepairWorker` and `RebalanceWorker` of `repair_worker.cpp`. A repair reads each
chunk of each object of a bucket through the chunk service and puts it again;
a chunk that cannot be read or put is passed over. Rebalancing is the same.
-/

namespace Dstore

/-- What the outside does to one repair; the index is that of the chunk. -/
structure RepairConditions where
  reads : Nat → StorageNode → Delivery := fun _ _ => .fine
  repairs : Nat → StorageNode → Delivery := fun _ _ => .fine
  puts : Nat → Conditions := fun _ => {}

namespace RepairWorker

variable (H : HexHash) (hash64 : Str → Nat) (svc : DistributedChunkService)

/-- `full.value().chunks` of an object; one that is not found has none. -/
def chunksOf (db : MetadataStore) (object : ObjectMetadata) : List ChunkRef :=
  match db.get_object object.bucket object.key with
  | .error _ => []
  | .ok full => full.chunks

/-- The inner loop of `repair_bucket`, over the chunks that are left; `none` when
it is left by an exception. -/
def repairLoop (cond : RepairConditions) : Nat → List ChunkRef → Nat → Net → Option Nat × Net
  | _, [], repaired, net => (some repaired, net)
  | i, chunk :: rest, repaired, net =>
    match svc.get H hash64 (cond.reads i) (cond.repairs i) net chunk.checksum with
    | (.error .exception, net) => (none, net)
    | (.error (.status _), net) => repairLoop cond (i + 1) rest repaired net
    | (.ok bytes, net) =>
      match svc.put H hash64 (cond.puts i) net bytes with
      | (.error .exception, net) => (none, net)
      | (.error (.status _), net) => repairLoop cond (i + 1) rest repaired net
      | (.ok _, net) => repairLoop cond (i + 1) rest (repaired + 1) net

/-- The loops of `repair_bucket` run over the chunks of all objects; the count
is an `int`. -/
def repair_bucket (cond : RepairConditions) (db : MetadataStore) (net : Net) (bucket : Str) : Outcome Int × Net :=
  match db.list_objects bucket with
  | .error status => (.error (.status status), net)
  | .ok objects =>
    match repairLoop H hash64 svc cond 0 (objects.flatMap (chunksOf db)) 0 net with
    | (none, net) => (.error .exception, net)
    | (some repaired, net) => (.ok (int32 repaired), net)

end RepairWorker

namespace RebalanceWorker

def rebalance_bucket (H : HexHash) (hash64 : Str → Nat) (svc : DistributedChunkService) (cond : RepairConditions)
    (db : MetadataStore) (net : Net) (bucket : Str) : Outcome Int × Net :=
  RepairWorker.repair_bucket H hash64 svc cond db net bucket

end RebalanceWorker

end Dstore
