import Dstore.Cluster.ChunkService
import Dstore.Durability.Wal
import Dstore.Metadata.MetadataStore
import Dstore.Storage.Chunking
/-!
# The object routes

The handlers of `main.cpp` under `/v1/objects/`. A `Server` is what `main`
sets up from the configuration of one node; what its handlers act on is the
`World`, the state of all nodes by id. The conditions of a request say which of
the calls it makes outside the process fail; the index is that of the chunk.

A call to a node whose address throws ends the handler: nothing is sent.
Metrics are counted apart and no handler reads them, so they are left out.
-/

namespace Dstore

structure World where
  net : Net
  metadata : Str → MetadataStore
  wal : Str → WriteAheadLog

namespace World

def setNet (w : World) (net : Net) : World := { w with net := net }

def setMetadata (w : World) (id : Str) (db : MetadataStore) : World :=
  { w with metadata := fun x => if x = id then db else w.metadata x }

def setWal (w : World) (id : Str) (log : WriteAheadLog) : World :=
  { w with wal := fun x => if x = id then log else w.wal x }

section Frames
variable (w : World) (id : Str)

@[simp] theorem setNet_net (net : Net) : (w.setNet net).net = net := rfl
@[simp] theorem setNet_metadata (net : Net) : (w.setNet net).metadata = w.metadata := rfl
@[simp] theorem setNet_wal (net : Net) : (w.setNet net).wal = w.wal := rfl
@[simp] theorem setMetadata_net (db : MetadataStore) : (w.setMetadata id db).net = w.net := rfl
@[simp] theorem setMetadata_self (db : MetadataStore) : (w.setMetadata id db).metadata id = db := if_pos rfl
@[simp] theorem setMetadata_wal (db : MetadataStore) : (w.setMetadata id db).wal = w.wal := rfl
theorem setMetadata_ne (db : MetadataStore) {x : Str} (h : x ≠ id) : (w.setMetadata id db).metadata x = w.metadata x :=
  if_neg h
@[simp] theorem setWal_net (log : WriteAheadLog) : (w.setWal id log).net = w.net := rfl
@[simp] theorem setWal_metadata (log : WriteAheadLog) : (w.setWal id log).metadata = w.metadata := rfl
@[simp] theorem setWal_self (log : WriteAheadLog) : (w.setWal id log).wal id = log := if_pos rfl
theorem setWal_ne (log : WriteAheadLog) {x : Str} (h : x ≠ id) : (w.setWal id log).wal x = w.wal x := if_neg h

end Frames

end World

/-- What the handlers read of `cfg`, and the chunk service. -/
structure Server where
  chunk_size : UInt64
  chunks : DistributedChunkService

structure PutConditions where
  wal : Option Nat := none
  chunks : Nat → Conditions := fun _ => {}
  metadata : MetadataStore.PutFaults := {}

structure GetConditions where
  reads : Nat → StorageNode → Delivery := fun _ _ => .fine
  repairs : Nat → StorageNode → Delivery := fun _ _ => .fine

structure DeleteConditions where
  wal : Option Nat := none
  metadata : MetadataStore.DeleteFaults := {}
  disk : Nat → Option DiskFault := fun _ => none
  deliver : Nat → StorageNode → Delivery := fun _ _ => .fine

namespace Server

variable (H : HexHash) (hash64 : Str → Nat) (srv : Server)

/-- The id of the node. -/
abbrev me : Str := srv.chunks.me

def object_path (path : Str) : Str × Str :=
  let rest := path.drop (lit "/v1/objects/").length
  let bucket := rest.takeWhile (· ≠ Path.slash)
  if bucket = rest then ([], []) else (bucket, rest.drop (bucket.length + 1))

/-- `bucket + "/" + key`. -/
def objectName (bucket key : Str) : Str := bucket ++ Path.slash :: key

/-- The loop of the PUT handler over the parts of the body. -/
def putParts (cond : Nat → Conditions) : Nat → List Bytes → List ChunkRef → Net → Outcome (List ChunkRef) × Net
  | _, [], refs, net => (.ok refs, net)
  | i, part :: rest, refs, net =>
    match srv.chunks.put H hash64 (cond i) net part with
    | (.error failure, net) => (.error failure, net)
    | (.ok ref, net) => putParts cond (i + 1) rest (refs ++ [ref]) net

/-- The body of the answer to an upload. -/
def putAnswer (m : ObjectMetadata) : Bytes :=
  lit "\x7b\"bucket\":\"" ++ m.bucket ++ lit "\",\"key\":\"" ++ m.key ++ lit "\",\"checksum\":\"" ++ m.checksum ++
    lit "\",\"chunks\":" ++ to_string m.chunks.length ++ lit "\x7d\n"

def putObject (cond : PutConditions) (req : HttpRequest) (w : World) : HttpResponse × World :=
  match authorized w.net.token req .kWrite with
  | .error status => (status_response status, w)
  | .ok () =>
    let (bucket, key) := object_path req.path
    if bucket = [] ∨ key = [] then (status_response (.Invalid (lit "expected /v1/objects/\x7bbucket\x7d/\x7bkey\x7d")), w)
    else
      match (w.wal srv.me).append H cond.wal ⟨.kPutObject, objectName bucket key, H.hex req.body⟩ with
      | (.error status, log) => (status_response status, w.setWal srv.me log)
      | (.ok (), log) =>
        let w := w.setWal srv.me log
        match srv.putParts H hash64 cond.chunks 0 (chunk_bytes req.body srv.chunk_size) [] w.net with
        | (.error failure, net) => (failure_response failure, w.setNet net)
        | (.ok chunks, net) =>
          let w := w.setNet net
          let m : ObjectMetadata := ⟨bucket, key, req.body.length % 2 ^ 64, H.hex req.body, chunks⟩
          match (w.metadata srv.me).put_object cond.metadata m with
          | (.error status, db) => (status_response status, w.setMetadata srv.me db)
          | (.ok (), db) => (⟨201, lit "application/json", putAnswer m⟩, w.setMetadata srv.me db)

/-- The loop of the GET handler over the chunks of the object. -/
def getParts (cond : GetConditions) : Nat → List ChunkRef → Bytes → Net → Outcome Bytes × Net
  | _, [], out, net => (.ok out, net)
  | i, ref :: rest, out, net =>
    let plan := (net.views srv.me).read_plan hash64 ref.checksum srv.chunks.replication_factor srv.chunks.read_quorum
    if (plan.targets.length : Int) < min srv.chunks.read_quorum srv.chunks.replication_factor
    then (.error (.status (.Unavailable (lit "insufficient healthy replicas for quorum read"))), net)
    else
      match srv.chunks.get H hash64 (cond.reads i) (cond.repairs i) net ref.checksum with
      | (.error failure, net) => (.error failure, net)
      | (.ok data, net) => getParts cond (i + 1) rest (out ++ data) net

def getObject (cond : GetConditions) (req : HttpRequest) (w : World) : HttpResponse × World :=
  match authorized w.net.token req .kRead with
  | .error status => (status_response status, w)
  | .ok () =>
    let (bucket, key) := object_path req.path
    match (w.metadata srv.me).get_object bucket key with
    | .error status => (status_response status, w)
    | .ok m =>
      match srv.getParts H hash64 cond 0 m.chunks [] w.net with
      | (.error failure, net) => (failure_response failure, w.setNet net)
      | (.ok out, net) =>
        if H.hex out ≠ m.checksum then (status_response (.Internal (lit "object checksum mismatch")), w.setNet net)
        else (⟨200, lit "application/octet-stream", out⟩, w.setNet net)

/-- The loop of the DELETE handler over the chunks of the object; the count is
made anew for each, and what `remove` returns is dropped. -/
def removeParts (cond : DeleteConditions) (db : MetadataStore) : Nat → List ChunkRef → Net → Outcome Unit × Net
  | _, [], net => (.ok (), net)
  | i, ref :: rest, net =>
    match srv.chunks.remove hash64 (cond.disk i) (cond.deliver i) net ref.checksum (db.chunk_ref_count ref.checksum) with
    | (.error .exception, net) => (.error .exception, net)
    | (_, net) => removeParts cond db (i + 1) rest net

def deleteObject (cond : DeleteConditions) (req : HttpRequest) (w : World) : HttpResponse × World :=
  match authorized w.net.token req .kDelete with
  | .error status => (status_response status, w)
  | .ok () =>
    let (bucket, key) := object_path req.path
    match (w.metadata srv.me).get_object bucket key with
    | .error status => (status_response status, w)
    | .ok m =>
      match (w.wal srv.me).append H cond.wal ⟨.kDeleteObject, objectName bucket key, lit "delete"⟩ with
      | (.error status, log) => (status_response status, w.setWal srv.me log)
      | (.ok (), log) =>
        let w := w.setWal srv.me log
        match (w.metadata srv.me).delete_object cond.metadata bucket key with
        | (.error status, db) => (status_response status, w.setMetadata srv.me db)
        | (.ok (), db) =>
          let w := w.setMetadata srv.me db
          match srv.removeParts hash64 cond db 0 m.chunks w.net with
          | (.error failure, net) => (failure_response failure, w.setNet net)
          | (.ok (), net) => (⟨204, lit "application/json", []⟩, w.setNet net)

end Server

end Dstore
