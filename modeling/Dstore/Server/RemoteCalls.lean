import Dstore.Network.Exchange
import Dstore.Server.Routes
/-!
# Calls between nodes, over the wire

`Cluster.NodeClient` has a call to a node act on that node's store and says
with a `Delivery` what the network does to it. Here are the methods of
`NodeClient` on top of `http_request`, against the routes of the other node,
and what joins the two: over any connection a call ends as it does with some
delivery, or fails and leaves everything as it was.
-/
open Dstore.Lib Dstore.HttpServer

namespace Dstore

namespace Server

variable {H : HexHash} {hash64 : Str → Nat} {srv : Server}

/-! ## What the routes look at -/

theorem authorized_congr {req req' : HttpRequest} (h : bearer req = bearer req') (token : Str) (p : Permission) :
    authorized token req p = authorized token req' p := by
  rw [authorized, authorized, h]

theorem respond_congr (cond : Outside) {req req' : HttpRequest} (h : SameRequest req req') (w : World) :
    srv.respond H hash64 cond req w = srv.respond H hash64 cond req' w := by
  have hauth := authorized_congr h.bearer w.net.token
  have hchunk : chunkOf req = chunkOf req' := by rw [chunkOf, chunkOf, h.path]
  have hmatch : ∀ route : Route, decide (route.Matches req) = decide (route.Matches req') := by
    intro route
    rw [decide_eq_decide, Route.Matches, Route.Matches, h.method, h.path]
  unfold respond
  rw [show (fun route : Route => decide (route.Matches req)) = fun route => decide (route.Matches req') from funext hmatch]
  rcases hroute : (srv.routes H hash64).find? (fun route => decide (route.Matches req')) with - | route
  · rw [hroute]
  · rw [hroute]
    have hmem := List.mem_of_find?_eq_some hroute
    simp only [routes, List.mem_cons, List.not_mem_nil, or_false] at hmem
    rcases hmem with rfl | rfl | rfl | rfl | rfl | rfl | rfl | rfl | rfl | rfl | rfl | rfl
    · simp only [putObject, hauth, h.path, h.body]
    · simp only [getObject, hauth, h.path]
    · simp only [deleteObject, hauth, h.path]
    · simp only [getMetadata, hauth, after, h.path]
    · simp only [postHeartbeat, hauth, h.body]
    · simp only [onStore, putChunk, hauth, hchunk, h.body]
    · simp only [onStore, getChunk, hauth, hchunk]
    · simp only [onStore, deleteChunk, hauth, hchunk]
    · rfl
    · simp only [postRepair, hauth, after, h.path]
    · simp only [postRepair, hauth, after, h.path]
    · simp only [postReplay, hauth]

theorem newline_status_response (status : Status) : newline ∉ (status_response status).content_type :=
  show newline ∉ lit "application/json" by decide

theorem newline_failure_response (failure : Failure) : newline ∉ (failure_response failure).content_type := by
  cases failure with
  | status status => exact newline_status_response status
  | exception => exact List.not_mem_nil

/-- No handler puts a newline into the type of its answer. -/
theorem newline_respond (cond : Outside) (req : HttpRequest) (w : World) :
    newline ∉ (srv.respond H hash64 cond req w).1.content_type := by
  have hjson : newline ∉ lit "application/json" := by decide
  have hoctets : newline ∉ lit "application/octet-stream" := by decide
  have herror := newline_status_response
  have hfailure := newline_failure_response
  unfold respond
  rcases hroute : (srv.routes H hash64).find? (fun route => decide (route.Matches req)) with - | route
  · rw [hroute]
    exact hjson
  · rw [hroute]
    have hmem := List.mem_of_find?_eq_some hroute
    simp only [routes, List.mem_cons, List.not_mem_nil, or_false] at hmem
    rcases hmem with rfl | rfl | rfl | rfl | rfl | rfl | rfl | rfl | rfl | rfl | rfl | rfl
    all_goals simp only [putObject, getObject, deleteObject, getMetadata, postHeartbeat, onStore, putChunk, getChunk,
      deleteChunk, getHealth, postRepair, postReplay, countAnswer]
    all_goals repeat' split
    all_goals simp only [herror, hfailure, hjson, hoctets, not_false_iff]

/-! ## The route of a call -/

/-- A path with another start. -/
theorem not_prefix_append {a b : Str} (h : ¬ a <+: b) (h' : ¬ b <+: a) (c : Str) : ¬ a <+: b ++ c := by
  intro hp
  rcases prefix_append_cases hp with hab | ⟨rest, rfl, -⟩
  · exact h hab
  · exact h' (List.prefix_append _ _)

/-- The handler of the route that a call is for. -/
def handlerOf (srv : Server) (H : HexHash) (hash64 : Str → Nat) (cond : Outside) :
    ClientCall → HttpRequest → World → HttpResponse × World
  | .upload .. => srv.putObject H hash64 cond.put
  | .download _ => srv.getObject H hash64 cond.get
  | .delete _ => srv.deleteObject H hash64 cond.delete
  | .metadata _ => srv.getMetadata
  | .heartbeat _ => srv.postHeartbeat
  | .put_chunk .. => srv.onStore fun token => putChunk H token cond.disk
  | .get_chunk _ => srv.onStore (getChunk H)
  | .delete_chunk _ => srv.onStore fun token => deleteChunk token cond.disk

theorem respond_at {cond : Outside} {req : HttpRequest} {w : World} (i : Nat) {route : Route}
    (hroute : (srv.routes H hash64)[i]? = some route) (hm : route.Matches req)
    (hbefore : ∀ r ∈ (srv.routes H hash64).take i, ¬ r.Matches req) :
    srv.respond H hash64 cond req w = route.handler cond req w := by
  have hsplit : srv.routes H hash64 = (srv.routes H hash64).take i ++ route :: (srv.routes H hash64).drop (i + 1) := by
    obtain ⟨hi, rfl⟩ := List.getElem?_eq_some_iff.1 hroute
    rw [← List.drop_eq_getElem_cons hi, List.take_append_drop]
  have hfind : (srv.routes H hash64).find? (fun route => decide (route.Matches req)) = some route :=
    List.find?_eq_some_iff_append.2 ⟨by simpa using hm, _, _, hsplit, by simpa using hbefore⟩
  rw [respond, hfind]

theorem respond_call (cond : Outside) (token : Str) (call : ClientCall) (w : World) :
    srv.respond H hash64 cond (call.received token) w = srv.handlerOf H hash64 cond call (call.received token) w := by
  have hput : lit "GET" ≠ lit "PUT" ∧ lit "DELETE" ≠ lit "PUT" ∧ lit "POST" ≠ lit "PUT" := by decide
  have hget : lit "PUT" ≠ lit "GET" ∧ lit "DELETE" ≠ lit "GET" ∧ lit "POST" ≠ lit "GET" := by decide
  have hdelete : lit "PUT" ≠ lit "DELETE" ∧ lit "GET" ≠ lit "DELETE" ∧ lit "POST" ≠ lit "DELETE" := by decide
  have hpost : lit "PUT" ≠ lit "POST" ∧ lit "GET" ≠ lit "POST" ∧ lit "DELETE" ≠ lit "POST" := by decide
  have hmetadata : ∀ c, ¬ lit "/v1/objects/" <+: lit "/v1/metadata/" ++ c := not_prefix_append (by decide) (by decide)
  have hchunks : ∀ c, ¬ lit "/v1/objects/" <+: lit "/v1/chunks/" ++ c := not_prefix_append (by decide) (by decide)
  have hchunks' : ∀ c, ¬ lit "/v1/metadata/" <+: lit "/v1/chunks/" ++ c := not_prefix_append (by decide) (by decide)
  cases call with
  | upload object file => exact respond_at 0 rfl ⟨rfl, List.prefix_append _ _⟩ (by simp)
  | download object =>
    exact respond_at 1 rfl ⟨rfl, List.prefix_append _ _⟩
      (by simp [routes, Route.Matches, ClientCall.received, ClientCall.request, hput])
  | delete object =>
    refine respond_at 2 rfl ⟨rfl, List.prefix_append _ _⟩ ?_
    simp [routes, Route.Matches, ClientCall.received, ClientCall.request, hput, hget]
  | metadata object =>
    refine respond_at 3 rfl ⟨rfl, List.prefix_append _ _⟩ ?_
    simp [routes, Route.Matches, ClientCall.received, ClientCall.request, hput, hmetadata, hdelete]
  | heartbeat id =>
    refine respond_at 4 rfl ⟨rfl, List.prefix_rfl⟩ ?_
    simp [routes, Route.Matches, ClientCall.received, ClientCall.request, hput, hget, hdelete]
  | put_chunk c size bytes =>
    refine respond_at 5 rfl ⟨rfl, List.prefix_append _ _⟩ ?_
    simp [routes, Route.Matches, ClientCall.received, ClientCall.request, hget, hdelete, hpost, hchunks]
  | get_chunk c =>
    refine respond_at 6 rfl ⟨rfl, List.prefix_append _ _⟩ ?_
    simp [routes, Route.Matches, ClientCall.received, ClientCall.request, hput, hdelete, hpost, hchunks, hchunks']
  | delete_chunk c =>
    refine respond_at 7 rfl ⟨rfl, List.prefix_append _ _⟩ ?_
    simp [routes, Route.Matches, ClientCall.received, ClientCall.request, hput, hget, hpost, hchunks]

end Server

/-! ## The methods of `NodeClient` -/

namespace NodeClient

section Http
variable {σ α : Type} (http : Str → Int32 → HttpRequest → σ → Result HttpResponse × σ) (token : Str) (node : StorageNode)

/-- The methods differ in the call, the failure and the value. -/
def call_http (call : ClientCall) (failure : Status) (value : HttpResponse → α) (s : σ) : Outcome α × σ :=
  match split_address node.address with
  | none => (.error .exception, s)
  | some (host, port) =>
    let (resp, s) := http host port (call.request token) s
    finish failure value (resp.lift, s)

def put_chunk_http (ref : ChunkRef) (bytes : Bytes) : σ → Outcome Unit × σ :=
  call_http http token node (.put_chunk ref.checksum ref.size bytes)
    (.Unavailable (lit "remote chunk put failed on " ++ node.id))
    fun _ => ()

def get_chunk_http (checksum : Str) : σ → Outcome Bytes × σ :=
  call_http http token node (.get_chunk checksum) (.NotFound (lit "remote chunk not found on " ++ node.id)) HttpResponse.body

def delete_chunk_http (checksum : Str) : σ → Outcome Unit × σ :=
  call_http http token node (.delete_chunk checksum)
    (.Unavailable (lit "remote chunk delete failed on " ++ node.id)) fun _ => ()

def heartbeat_http (from_node_id : Str) : σ → Outcome Unit × σ :=
  call_http http token node (.heartbeat from_node_id) (.Unavailable (lit "heartbeat failed on " ++ node.id)) fun _ => ()

/-- A call to a node with a port that can be read. -/
theorem call_http_of_split {host : Str} {port : Int32} (h : split_address node.address = some (host, port))
    (call : ClientCall)
    (failure : Status) (value : HttpResponse → α) (s : σ) : call_http http token node call failure value s =
      finish failure value ((http host port (call.request token) s).1.lift, (http host port (call.request token) s).2) := by
  simp only [call_http, h]

end Http

/-! ## Over any connection -/

section Wire
variable {H : HexHash} {hash64 : Str → Nat} {peer : Server} {cond : Outside} {w : World}

/-- `http_request` to the server `peer`, with what `dial` makes of an address. -/
def wire (H : HexHash) (hash64 : Str → Nat) (peer : Server) (cond : Outside) (dial : Str → Int32 → Except ConnectFault Link)
    (host : Str) (port : Int32) (request : HttpRequest) (w : World) : Result HttpResponse × World :=
  HttpServer.http_request (dial host port) host (peer.respond H hash64 cond) request w

/-- The request for a call is one that every connection to its address carries
as it is. -/
def CanSend (dial : Str → Int32 → Except ConnectFault Link) (token address : Str) (call : ClientCall) : Prop :=
  ∀ host port, split_address address = some (host, port) → ∀ link, dial host port = .ok link →
    Sendable link.limit host (link.order (call.request token).headers) token call

/-- A call fails without a connection, or is exchanged. -/
theorem wire_cases {dial : Str → Int32 → Except ConnectFault Link} {address host : Str} {port : Int32} {call : ClientCall}
    (h : CanSend dial w.net.token address call) (hsplit : split_address address = some (host, port)) :
    (∃ status, wire H hash64 peer cond dial host port (call.request w.net.token) w = (.error status, w)) ∨
      Exchanged (peer.handlerOf H hash64 cond call (call.received w.net.token) w) w
        (wire H hash64 peer cond dial host port (call.request w.net.token) w) := by
  unfold wire
  rcases hdial : dial host port with fault | link
  · exact .inl ⟨fault.status, rfl⟩
  · right
    rw [← Server.respond_call]
    exact exchange_cases (fun _ _ w hsame => Server.respond_congr cond hsame w) (h host port hsplit link hdial)
      (fun req w => Server.newline_respond cond req w) w

/-- The answer of a chunk route. -/
theorem onStore_eq (handler : Str → HttpRequest → ChunkStore → HttpResponse × ChunkStore) (req : HttpRequest)
    {node : StorageNode}
    (hnode : peer.me = node.id) : peer.onStore handler req w = ((handler w.net.token req (w.net.stores node.id)).1,
      w.setNet (w.net.setStore node.id (handler w.net.token req (w.net.stores node.id)).2)) := by
  rw [← hnode]
  rfl

/-- The call ends as with some delivery, or it fails and nothing has happened. -/
def Delivered {α : Type} (w : World) (call : Delivery → Outcome α × Net) (out : Outcome α × World) : Prop :=
  (∃ d, out = ((call d).1, w.setNet (call d).2)) ∨ (out.1.isOk = false ∧ out.2 = w)

/-- A call to a chunk route ends as with some delivery, or fails and nothing has
happened, or is told of the beginning of the answer. -/
theorem call_delivered {α : Type} {dial : Str → Int32 → Except ConnectFault Link} {node : StorageNode} {call : ClientCall}
    (failure : Status) (value : HttpResponse → α) (handle : Option DiskFault → ChunkStore → HttpResponse × ChunkStore)
    (hsend : CanSend dial w.net.token node.address call)
    (hhandle : peer.handlerOf H hash64 cond call (call.received w.net.token) w =
      ((handle cond.disk (w.net.stores node.id)).1,
        w.setNet (w.net.setStore node.id (handle cond.disk (w.net.stores node.id)).2))) :
    Delivered w (fun d => finish failure value (http_request d handle w.net node))
        (call_http (wire H hash64 peer cond dial) w.net.token node call failure value w) ∨
      callable node = true ∧ ∃ resp, resp.status = (handle cond.disk (w.net.stores node.id)).1.status ∧
        resp.body <+: (handle cond.disk (w.net.stores node.id)).1.body ∧
        call_http (wire H hash64 peer cond dial) w.net.token node call failure value w =
          finish failure value (.ok resp,
            w.setNet (w.net.setStore node.id (handle cond.disk (w.net.stores node.id)).2)) := by
  cases hsplit : split_address node.address with
  | none =>
    -- the exception comes before anything is sent
    refine .inl (.inr ?_)
    simp only [call_http, hsplit]
    exact ⟨rfl, trivial⟩
  | some address =>
    obtain ⟨host, port⟩ := address
    have hcall : callable node = true := by rw [callable, hsplit]; rfl
    have hcases : (∃ status, wire H hash64 peer cond dial host port (call.request w.net.token) w = (.error status, w)) ∨
        Exchanged (peer.handlerOf H hash64 cond call (call.received w.net.token) w) w
          (wire H hash64 peer cond dial host port (call.request w.net.token) w) := wire_cases hsend hsplit
    rw [hhandle] at hcases
    rw [call_http_of_split _ _ _ hsplit]
    generalize wire H hash64 peer cond dial host port (call.request w.net.token) w = out at hcases
    rcases hcases with ⟨status, rfl⟩ | hcases
    · exact .inl (.inr ⟨rfl, rfl⟩)
    · cases hcases with
      | answered resp hstatus hbody => exact .inr ⟨hcall, resp, hstatus, hbody, rfl⟩
      | unanswered =>
        refine .inl (.inl ⟨.handled cond.disk false, ?_⟩)
        dsimp only
        rw [http_request_handled hcall]
        rfl
      | refused resp hstatus =>
        exact .inl (.inr ⟨by simp [finish, hstatus, Result.lift]; rfl, by simp [finish, hstatus, Result.lift]⟩)
      | lost => exact .inl (.inr ⟨rfl, rfl⟩)

/-- Where the value does not depend on the body there is nothing to be cut. -/
theorem call_delivered_unit {dial : Str → Int32 → Except ConnectFault Link} {node : StorageNode} {call : ClientCall}
    {failure : Status} (handle : Option DiskFault → ChunkStore → HttpResponse × ChunkStore)
    (hsend : CanSend dial w.net.token node.address call)
    (hhandle : peer.handlerOf H hash64 cond call (call.received w.net.token) w =
      ((handle cond.disk (w.net.stores node.id)).1,
        w.setNet (w.net.setStore node.id (handle cond.disk (w.net.stores node.id)).2))) :
    Delivered w (fun d => finish failure (fun _ => ()) (http_request d handle w.net node))
      (call_http (wire H hash64 peer cond dial) w.net.token node call failure (fun _ => ()) w) := by
  rcases call_delivered failure (fun _ => ()) handle hsend hhandle with
    hdelivered | ⟨hcall, resp, hstatus, -, heq⟩
  · exact hdelivered
  · refine .inl ⟨.handled cond.disk true, ?_⟩
    dsimp only
    rw [heq, http_request_handled hcall]
    simp only [finish, if_true, hstatus]
    split <;> rfl

/-! ## The calls -/

/-- A heartbeat of the node with this id, in the view of the peer. -/
def seen (peer : Server) (id : Str) (w : World) : World :=
  w.setNet (w.net.setView peer.me ((w.net.views peer.me).heartbeat w.net.clock (LiveNode.of id (peer.peerAddress id))))

/-- A heartbeat is seen or not; one that succeeds has been. -/
theorem heartbeat_seen {dial : Str → Int32 → Except ConnectFault Link} {node : StorageNode} {id : Str}
    (hsend : CanSend dial w.net.token node.address (.heartbeat id)) :
    ((heartbeat_http (wire H hash64 peer cond dial) w.net.token node id w).1 = .ok () ∧
        (heartbeat_http (wire H hash64 peer cond dial) w.net.token node id w).2 = seen peer id w) ∨
      ((heartbeat_http (wire H hash64 peer cond dial) w.net.token node id w).1.isOk = false ∧
        ((heartbeat_http (wire H hash64 peer cond dial) w.net.token node id w).2 = seen peer id w ∨
          (heartbeat_http (wire H hash64 peer cond dial) w.net.token node id w).2 = w)) := by
  have hhandle : peer.handlerOf H hash64 cond (.heartbeat id) ((ClientCall.heartbeat id).received w.net.token) w =
      (⟨200, lit "application/json", lit "\x7b\"ok\":true\x7d\n"⟩, seen peer id w) := by
    have hauth : Server.authorized w.net.token ((ClientCall.heartbeat id).received w.net.token) .kAdmin = .ok () :=
      Server.authorized_of_header _ (AList.lookup_insert _)
    simp only [Server.handlerOf, Server.postHeartbeat, hauth]
    rfl
  rw [heartbeat_http]
  cases hsplit : split_address node.address with
  | none =>
    simp only [call_http, hsplit]
    exact .inr ⟨rfl, .inr trivial⟩
  | some address =>
    obtain ⟨host, port⟩ := address
    have hcases : (∃ status, wire H hash64 peer cond dial host port ((ClientCall.heartbeat id).request w.net.token) w =
        (.error status, w)) ∨
        Exchanged (peer.handlerOf H hash64 cond (.heartbeat id) ((ClientCall.heartbeat id).received w.net.token) w) w
          (wire H hash64 peer cond dial host port ((ClientCall.heartbeat id).request w.net.token) w) :=
            wire_cases hsend hsplit
    rw [hhandle] at hcases
    rw [call_http_of_split _ _ _ hsplit]
    generalize wire H hash64 peer cond dial host port _ w = out at hcases
    rcases hcases with ⟨status, rfl⟩ | hcases
    · exact .inr ⟨rfl, .inr rfl⟩
    · cases hcases with
      | answered resp hstatus hbody => exact .inl (by simp [finish, hstatus, Result.lift])
      | unanswered => exact .inr ⟨rfl, .inl rfl⟩
      | refused resp hstatus => exact .inr (by simp [finish, hstatus, Result.lift]; rfl)
      | lost => exact .inr ⟨rfl, .inr rfl⟩

end Wire

end NodeClient

end Dstore
