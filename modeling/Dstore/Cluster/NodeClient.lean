import Dstore.Common.Text
import Dstore.Server.ChunkRoutes
import Dstore.Storage.Replication
/-!
# Calls between nodes

`NodeClient` of `node_client.cpp`. What the processes of a cluster keep is a
`Net`, by node id; a call to a node acts on that node's store through its
chunk routes. A `Delivery` says what becomes of one call: the peer is not
reached, or it handles the request, with its disk in some state, and its
answer comes back or is lost. All nodes share the admin token.

Every method first takes the address of the node apart, and throws when what
stands behind its last colon is not a number.
-/

namespace Dstore

structure Net where
  token : Str
  stores : Str → ChunkStore
  views : Str → ClusterState
  /-- The hinted handoff files. -/
  queues : Str → Option Str
  clock : Nat

inductive Delivery where
  | refused
  | handled (disk : Option DiskFault) (answered : Bool)
  deriving DecidableEq, Repr

/-- The peer is reached, works and answers. -/
def Delivery.fine : Delivery := .handled none true

namespace Net

def setStore (net : Net) (id : Str) (store : ChunkStore) : Net :=
  { net with stores := fun x => if x = id then store else net.stores x }

def setView (net : Net) (id : Str) (view : ClusterState) : Net :=
  { net with views := fun x => if x = id then view else net.views x }

def setQueue (net : Net) (id : Str) (file : Option Str) : Net :=
  { net with queues := fun x => if x = id then file else net.queues x }

section Frames
variable (net : Net) (id : Str)

@[simp] theorem setStore_self (s : ChunkStore) : (net.setStore id s).stores id = s := if_pos rfl
theorem setStore_ne (s : ChunkStore) {x : Str} (h : x ≠ id) : (net.setStore id s).stores x = net.stores x := if_neg h
theorem setStore_same : (net.setStore id (net.stores id)).stores = net.stores := by
  funext x
  by_cases hx : x = id
  · rw [hx]
    exact if_pos rfl
  · exact if_neg hx

@[simp] theorem setStore_views (s : ChunkStore) : (net.setStore id s).views = net.views := rfl
@[simp] theorem setStore_queues (s : ChunkStore) : (net.setStore id s).queues = net.queues := rfl
@[simp] theorem setStore_token (s : ChunkStore) : (net.setStore id s).token = net.token := rfl
@[simp] theorem setView_self (v : ClusterState) : (net.setView id v).views id = v := if_pos rfl
@[simp] theorem setView_stores (v : ClusterState) : (net.setView id v).stores = net.stores := rfl
@[simp] theorem setView_queues (v : ClusterState) : (net.setView id v).queues = net.queues := rfl
@[simp] theorem setView_token (v : ClusterState) : (net.setView id v).token = net.token := rfl
@[simp] theorem setQueue_self (f : Option Str) : (net.setQueue id f).queues id = f := if_pos rfl
@[simp] theorem setQueue_stores (f : Option Str) : (net.setQueue id f).stores = net.stores := rfl
@[simp] theorem setQueue_views (f : Option Str) : (net.setQueue id f).views = net.views := rfl
@[simp] theorem setQueue_token (f : Option Str) : (net.setQueue id f).token = net.token := rfl

end Frames

end Net

namespace NodeClient

/-- Host and port, which is 8080 by default. The outcome `none` is the exception
of `std::stoi`. -/
def split_address (address : Str) : Option (Str × Int32) :=
  let port := (address.reverse.takeWhile (· ≠ 58)).reverse
  if port = address then some (address, 8080)
  else (stoi port).map fun number => (address.take (address.length - (port.length + 1)), number)

variable (H : HexHash)

/-- A request to a node: its address is taken apart, and `http_request` goes to
its server, which runs `handle`. -/
def http_request (d : Delivery) (handle : Option DiskFault → ChunkStore → HttpResponse × ChunkStore) (net : Net)
    (node : StorageNode) : Outcome HttpResponse × Net :=
  match split_address node.address, d with
  | none, _ => (.error .exception, net)
  | some _, .refused => (.error (.status (.Unavailable (lit "connect failed"))), net)
  | some _, .handled disk answered =>
    let (resp, store) := handle disk (net.stores node.id)
    (if answered then .ok resp else .error (.status (.Internal (lit "invalid response"))), net.setStore node.id store)

/-- What every method makes of the outcome of its request. -/
def finish {σ α : Type} (failure : Status) (value : HttpResponse → α) : Outcome HttpResponse × σ → Outcome α × σ
  | (.error e, s) => (.error e, s)
  | (.ok resp, s) => if resp.status ≥ 300 then (.error (.status failure), s) else (.ok (value resp), s)

/-- A request for a chunk, with the caller's token. -/
def chunkRequest (method : String) (token checksum : Str) (body : Bytes) : HttpRequest where
  method := lit method
  path := lit "/v1/chunks/" ++ checksum
  headers := (∅ : AList fun _ : Str => Str).insert (lit "authorization") (lit "Bearer " ++ token)
  body := body

def put_chunk (d : Delivery) (net : Net) (node : StorageNode) (ref : ChunkRef) (bytes : Bytes) : Outcome Unit × Net :=
  let req := chunkRequest "PUT" net.token ref.checksum bytes
  finish (.Unavailable (lit "remote chunk put failed on " ++ node.id)) (fun _ => ())
    (http_request d (fun disk => Server.putChunk H net.token disk req) net node)

def get_chunk (d : Delivery) (net : Net) (node : StorageNode) (checksum : Str) : Outcome Bytes × Net :=
  let req := chunkRequest "GET" net.token checksum []
  finish (.NotFound (lit "remote chunk not found on " ++ node.id)) HttpResponse.body
    (http_request d (fun _ => Server.getChunk H net.token req) net node)

def delete_chunk (d : Delivery) (net : Net) (node : StorageNode) (checksum : Str) : Outcome Unit × Net :=
  let req := chunkRequest "DELETE" net.token checksum []
  finish (.Unavailable (lit "remote chunk delete failed on " ++ node.id)) (fun _ => ())
    (http_request d (fun disk => Server.deleteChunk net.token disk req) net node)

/-! ## What a call does -/

/-- The node can be called: the port in its address is a number. -/
def callable (node : StorageNode) : Bool := (split_address node.address).isSome

/-- The disk of the peer, if the call gets there. -/
def reaches (d : Delivery) (node : StorageNode) : Option (Option DiskFault) :=
  match d with
  | .handled disk _ => if callable node then some disk else none
  | .refused => none

/-- The peer keeps a chunk for the caller, who learns of it. -/
def acks (d : Delivery) (store : ChunkStore) (checksum : Str) : Bool :=
  match d with
  | .handled disk true => store.exists_ checksum || !ChunkStore.stopsWrite disk
  | _ => false

theorem reaches_eq_some {d : Delivery} {node : StorageNode} {disk : Option DiskFault} :
    reaches d node = some disk ↔ callable node = true ∧ ∃ answered, d = .handled disk answered := by
  cases d with
  | refused => simp [reaches]
  | handled disk' answered =>
    unfold reaches
    split <;> simp [*]

theorem reaches_fine {node : StorageNode} (h : callable node = true) : reaches .fine node = some none :=
  reaches_eq_some.2 ⟨h, true, rfl⟩

theorem acks_fine (store : ChunkStore) (c : Str) : acks .fine store c = true := by
  simp [acks, Delivery.fine, ChunkStore.stopsWrite]

/-- What the caller of a get learns of what the peer's store found. -/
def relayed (node : StorageNode) : Delivery → Result Bytes → Result Bytes
  | .refused, _ => .error (.Unavailable (lit "connect failed"))
  | .handled _ false, _ => .error (.Internal (lit "invalid response"))
  | .handled _ true, .error _ => .error (.NotFound (lit "remote chunk not found on " ++ node.id))
  | .handled _ true, .ok bytes => .ok bytes

theorem relayed_eq_ok {node : StorageNode} {d : Delivery} {found : Result Bytes} {b : Bytes}
    (h : relayed node d found = .ok b) : (∃ disk, d = .handled disk true) ∧ found = .ok b := by
  rcases d with - | ⟨disk, - | -⟩
  · cases h
  · cases h
  · rcases found with e | x
    · cases h
    · exact ⟨⟨disk, rfl⟩, h⟩

theorem authorized_chunkRequest (method : String) (token c : Str) (b : Bytes) :
    Server.authorized token (chunkRequest method token c b) .kAdmin = .ok () :=
  Server.authorized_of_header _ (AList.lookup_insert _)

theorem chunkOf_chunkRequest (method : String) (token c : Str) (b : Bytes) :
    Server.chunkOf (chunkRequest method token c b) = c := List.drop_left

section Calls
variable {H} {d : Delivery} {net : Net} {node : StorageNode}

/-- A node that cannot be called is not. -/
theorem http_request_exception (h : callable node = false)
    (handle : Option DiskFault → ChunkStore → HttpResponse × ChunkStore) :
    http_request d handle net node = (.error .exception, net) := by
  have hnone : split_address node.address = none := Option.not_isSome_iff_eq_none.1 (Bool.eq_false_iff.1 h)
  simp only [http_request, hnone]

theorem http_request_refused (h : callable node = true)
    (handle : Option DiskFault → ChunkStore → HttpResponse × ChunkStore) :
    http_request .refused handle net node = (.error (.status (.Unavailable (lit "connect failed"))), net) := by
  obtain ⟨parts, hparts⟩ := Option.isSome_iff_exists.1 h
  simp only [http_request, hparts]

theorem http_request_handled (h : callable node = true) {disk : Option DiskFault} {answered : Bool}
    (handle : Option DiskFault → ChunkStore → HttpResponse × ChunkStore) :
    http_request (.handled disk answered) handle net node =
      (if answered then .ok (handle disk (net.stores node.id)).1
        else .error (.status (.Internal (lit "invalid response"))),
          net.setStore node.id (handle disk (net.stores node.id)).2) := by
  obtain ⟨parts, hparts⟩ := Option.isSome_iff_exists.1 h
  simp only [http_request, hparts]

/-! ### `put_chunk` -/

theorem put_chunk_exception (d : Delivery) (net : Net) (h : callable node = false) (ref : ChunkRef) (b : Bytes) :
    put_chunk H d net node ref b = (.error .exception, net) := by
  rw [put_chunk, http_request_exception h]
  rfl

/-- The peer's store takes the chunk if the call gets there. -/
theorem put_chunk_net (ref : ChunkRef) (b : Bytes) : (put_chunk H d net node ref b).2 =
    (reaches d node).elim net fun disk => net.setStore node.id ((net.stores node.id).put H disk b).2 := by
  cases hcall : callable node with
  | false =>
    rw [put_chunk_exception d net hcall]
    cases d <;> simp [reaches, hcall]
  | true =>
    cases d with
    | refused =>
      rw [put_chunk, http_request_refused hcall]
      rfl
    | handled disk answered =>
      have hstore : (Server.putChunk H net.token disk (chunkRequest "PUT" net.token ref.checksum b) (net.stores node.id)).2 =
          ((net.stores node.id).put H disk b).2 := by
        simp only [Server.putChunk, authorized_chunkRequest]
        have hbody : (chunkRequest "PUT" net.token ref.checksum b).body = b := rfl
        rw [hbody]
        rcases (net.stores node.id).put H disk b with ⟨e | r, store⟩
        · rfl
        · dsimp only
          split <;> rfl
      rw [put_chunk, http_request_handled hcall, hstore]
      simp only [reaches, hcall, if_true]
      cases answered with
      | false => rfl
      | true =>
        simp only [if_true, finish]
        split <;> rfl

/-- A put of a chunk under its own checksum succeeds when the peer has the file
and says so. -/
theorem put_chunk_result (d : Delivery) (net : Net) (h : callable node = true) (size : Nat) (b : Bytes) :
    (acks d (net.stores node.id) (H.hex b) = true → (put_chunk H d net node ⟨H.hex b, size⟩ b).1 = .ok ()) ∧
      (acks d (net.stores node.id) (H.hex b) = false →
        ∃ status, (put_chunk H d net node ⟨H.hex b, size⟩ b).1 = .error (.status status)) := by
  cases d with
  | refused =>
    rw [put_chunk, http_request_refused h]
    exact ⟨fun hf => (by cases hf), fun _ => ⟨_, rfl⟩⟩
  | handled disk answered =>
    rw [put_chunk, http_request_handled h]
    cases answered with
    | false => exact ⟨fun hf => (by cases hf), fun _ => ⟨_, rfl⟩⟩
    | true =>
      have hchunk := chunkOf_chunkRequest "PUT" net.token (H.hex b) b
      have hauth := authorized_chunkRequest "PUT" net.token (H.hex b) b
      have hbody : (chunkRequest "PUT" net.token (H.hex b) b).body = b := rfl
      have hexists : (net.stores node.id).exists_ (H.hex b) = ((net.stores node.id).file (H.hex b)).isSome := rfl
      rcases (net.stores node.id).put_cases H disk b with ⟨hgood, s', heq, -⟩ | ⟨hnone, hbad, e, s', heq, -⟩
      · have hput : Server.putChunk H net.token disk (chunkRequest "PUT" net.token (H.hex b) b) (net.stores node.id) =
            (⟨201, lit "application/json", lit "\x7b\"ok\":true\x7d\n"⟩, s') := by
          simp only [Server.putChunk, hauth, hbody, heq, hchunk, ne_eq, not_true, if_false]
        have hack : acks (.handled disk true) (net.stores node.id) (H.hex b) = true := by
          simp only [acks, hexists]
          cases hf : (net.stores node.id).file (H.hex b) with
          | none => simp [hgood hf]
          | some x => rfl
        rw [hack, hput]
        exact ⟨fun _ => rfl, fun hf => (by cases hf)⟩
      · have hput : Server.putChunk H net.token disk (chunkRequest "PUT" net.token (H.hex b) b) (net.stores node.id) =
            (Server.status_response e, s') := by
          simp only [Server.putChunk, hauth, hbody, heq]
        have hge := Server.status_response_ge e
        have hack : acks (.handled disk true) (net.stores node.id) (H.hex b) = false := by
          simp only [acks, hexists, hnone, hbad]
          rfl
        rw [hack, hput]
        simp only [if_true, finish, ge_iff_le, hge]
        exact ⟨fun hf => (by cases hf), fun _ => ⟨_, rfl⟩⟩

/-- A call to a node that can be called returns. -/
theorem put_chunk_returns (d : Delivery) (net : Net) (h : callable node = true) (ref : ChunkRef) (b : Bytes) :
    (put_chunk H d net node ref b).1 ≠ .error .exception := by
  cases d with
  | refused =>
    rw [put_chunk, http_request_refused h]
    simp [finish]
  | handled disk answered =>
    rw [put_chunk, http_request_handled h]
    cases answered with
    | false => simp [finish]
    | true =>
      simp only [finish, if_true]
      split <;> simp

/-! ### `get_chunk` -/

theorem get_chunk_exception (h : callable node = false) (c : Str) :
    get_chunk H d net node c = (.error .exception, net) := by
  rw [get_chunk, http_request_exception h]
  rfl

theorem get_chunk_net (c : Str) : (get_chunk H d net node c).2 =
    (reaches d node).elim net fun _ => net.setStore node.id ((net.stores node.id).get H c).2 := by
  cases hcall : callable node with
  | false =>
    rw [get_chunk_exception hcall]
    cases d <;> simp [reaches, hcall]
  | true =>
    cases d with
    | refused =>
      rw [get_chunk, http_request_refused hcall]
      rfl
    | handled disk answered =>
      have hstore : (Server.getChunk H net.token (chunkRequest "GET" net.token c []) (net.stores node.id)).2 =
          ((net.stores node.id).get H c).2 := by
        simp only [Server.getChunk, authorized_chunkRequest, chunkOf_chunkRequest]
        rcases (net.stores node.id).get H c with ⟨e | b, store⟩ <;> rfl
      rw [get_chunk, http_request_handled hcall, hstore]
      simp only [reaches, hcall, if_true]
      cases answered with
      | false => rfl
      | true =>
        simp only [if_true, finish]
        split <;> rfl

/-- The peer's store is asked, and its answer may come back. -/
theorem get_chunk_result (d : Delivery) (net : Net) (h : callable node = true) (c : Str) :
    (get_chunk H d net node c).1 = (relayed node d ((net.stores node.id).get H c).1).lift := by
  cases d with
  | refused =>
    rw [get_chunk, http_request_refused h]
    rfl
  | handled disk answered =>
    rw [get_chunk, http_request_handled h]
    cases answered with
    | false => rfl
    | true =>
      simp only [Server.getChunk, authorized_chunkRequest, chunkOf_chunkRequest, if_true]
      rcases (net.stores node.id).get H c with ⟨e | b, store⟩
      · simp only [finish, ge_iff_le, Server.status_response_ge e, if_true]
        rfl
      · rfl

/-- What a get returns depends on the store of the node that is asked. -/
theorem get_chunk_congr {net' : Net} (c : Str) (hs : net'.stores node.id = net.stores node.id) :
    (get_chunk H d net' node c).1 = (get_chunk H d net node c).1 := by
  cases hcall : callable node with
  | false => rw [get_chunk_exception hcall, get_chunk_exception hcall]
  | true => rw [get_chunk_result _ _ hcall, get_chunk_result _ _ hcall, hs]

/-! ### `delete_chunk` -/

theorem delete_chunk_exception (h : callable node = false) (c : Str) :
    delete_chunk d net node c = (.error .exception, net) := by
  rw [delete_chunk, http_request_exception h]
  rfl

theorem delete_chunk_net (c : Str) : (delete_chunk d net node c).2 =
    (reaches d node).elim net fun disk => net.setStore node.id ((net.stores node.id).remove_if_unreferenced disk c 0).2 := by
  cases hcall : callable node with
  | false =>
    rw [delete_chunk_exception hcall]
    cases d <;> simp [reaches, hcall]
  | true =>
    cases d with
    | refused =>
      rw [delete_chunk, http_request_refused hcall]
      rfl
    | handled disk answered =>
      have hstore : (Server.deleteChunk net.token disk (chunkRequest "DELETE" net.token c []) (net.stores node.id)).2 =
          ((net.stores node.id).remove_if_unreferenced disk c 0).2 := by
        simp only [Server.deleteChunk, authorized_chunkRequest, chunkOf_chunkRequest]
        rcases (net.stores node.id).remove_if_unreferenced disk c 0 with ⟨e | b, store⟩ <;> rfl
      rw [delete_chunk, http_request_handled hcall, hstore]
      simp only [reaches, hcall, if_true]
      cases answered with
      | false => rfl
      | true =>
        simp only [if_true, finish]
        split <;> rfl

theorem delete_chunk_returns (h : callable node = true) (c : Str) : (delete_chunk d net node c).1 ≠ .error .exception := by
  cases d with
  | refused =>
    rw [delete_chunk, http_request_refused h]
    simp [finish]
  | handled disk answered =>
    rw [delete_chunk, http_request_handled h]
    cases answered with
    | false => simp [finish]
    | true =>
      simp only [finish, if_true]
      split <;> simp

end Calls

end NodeClient

end Dstore
