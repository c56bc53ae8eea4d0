import Dstore.Cluster.RepairWorker
import Dstore.Server.Config
import Dstore.Server.ObjectStore
/-!
# The routes of a server

The table of routes that `main` sets up and the loop of `HttpServer::run` that
picks one: the first whose method is that of the request and whose start is a
prefix of the path. Every route under `/v1/` checks the token of the request
first. The route of the metrics is left out; its path is not under `/v1/`.

A request without a token is checked against the empty one. That is no token of
the server unless the configuration says so: `load_config` accepts an empty
`admin_token`, and then every request is an administrator's
(`no_credentials_no_effect`, `stranger_uploads`).
-/

namespace Dstore

/-- What the outside does to one request. -/
structure Outside where
  put : PutConditions := {}
  get : GetConditions := {}
  delete : DeleteConditions := {}
  /-- The node's own disk, for a chunk route. -/
  disk : Option DiskFault := none
  repair : RepairConditions := {}
  replay : Nat → StorageNode → Delivery := fun _ _ => .fine
  queue : Option HintedHandoffQueue.Fault := none

structure Route where
  method : Str
  start : Str
  handler : Outside → HttpRequest → World → HttpResponse × World

/-- The test in the loop over the routes. -/
def Route.Matches (route : Route) (req : HttpRequest) : Prop := req.method = route.method ∧ route.start <+: req.path

instance (route : Route) (req : HttpRequest) : Decidable (route.Matches req) := inferInstanceAs (Decidable (_ ∧ _))

namespace Server

variable (H : HexHash) (hash64 : Str → Nat) (srv : Server)

/-- The part of the path after the start of the route. -/
def after (start : String) (req : HttpRequest) : Str := req.path.drop (lit start).length

/-- The answer with a number. -/
def countAnswer (field : String) (n : Int) : HttpResponse :=
  ⟨200, lit "application/json", lit "\x7b\"" ++ lit field ++ lit "\":" ++ to_string_int n ++ lit "\x7d\n"⟩

def metadataAnswer (m : ObjectMetadata) : Bytes :=
  lit "\x7b\"bucket\":\"" ++ m.bucket ++ lit "\",\"key\":\"" ++ m.key ++ lit "\",\"size\":" ++ to_string m.size ++
    lit ",\"checksum\":\"" ++ m.checksum ++ lit "\",\"chunks\":" ++ to_string m.chunks.length ++ lit "\x7d\n"

def getMetadata (req : HttpRequest) (w : World) : HttpResponse × World :=
  match authorized w.net.token req .kRead with
  | .error status => (status_response status, w)
  | .ok () =>
    let (bucket, key) := object_path (lit "/v1/objects/" ++ after "/v1/metadata/" req)
    match (w.metadata srv.me).get_object bucket key with
    | .error status => (status_response status, w)
    | .ok m => (⟨200, lit "application/json", metadataAnswer m⟩, w)

/-- `peer_addresses`, in which a later peer replaces an earlier one. -/
def peerAddress (node_id : Str) : Str :=
  match srv.chunks.seed_members.reverse.find? (fun peer => peer.val.id = node_id) with
  | none => lit "remote"
  | some peer => peer.val.address

def postHeartbeat (req : HttpRequest) (w : World) : HttpResponse × World :=
  match authorized w.net.token req .kAdmin with
  | .error status => (status_response status, w)
  | .ok () =>
    let node := LiveNode.of req.body (srv.peerAddress req.body)
    (⟨200, lit "application/json", lit "\x7b\"ok\":true\x7d\n"⟩,
      w.setNet (w.net.setView srv.me ((w.net.views srv.me).heartbeat w.net.clock node)))

/-- A chunk route acts on the node's own store. -/
def onStore (handler : Str → HttpRequest → ChunkStore → HttpResponse × ChunkStore) (req : HttpRequest) (w : World) :
    HttpResponse × World :=
  let (response, store) := handler w.net.token req (w.net.stores srv.me)
  (response, w.setNet (w.net.setStore srv.me store))

/-- The routes of repair and rebalancing differ in their paths and answers. -/
def postRepair (start field : String) (cond : RepairConditions) (req : HttpRequest) (w : World) : HttpResponse × World :=
  match authorized w.net.token req .kAdmin with
  | .error status => (status_response status, w)
  | .ok () =>
    match RepairWorker.repair_bucket H hash64 srv.chunks cond (w.metadata srv.me) w.net (after start req) with
    | (.error failure, net) => (failure_response failure, w.setNet net)
    | (.ok repaired, net) => (countAnswer field repaired, w.setNet net)

def postReplay (cond : Outside) (req : HttpRequest) (w : World) : HttpResponse × World :=
  match authorized w.net.token req .kAdmin with
  | .error status => (status_response status, w)
  | .ok () =>
    match srv.chunks.replay_hinted_handoff H cond.replay cond.queue w.net with
    | (.error failure, net) => (failure_response failure, w.setNet net)
    | (.ok delivered, net) => (countAnswer "delivered" delivered, w.setNet net)

def getHealth (w : World) : HttpResponse × World :=
  (⟨200, lit "application/json", lit "\x7b\"ok\":true,\"node\":\"" ++ srv.me ++ lit "\"\x7d\n"⟩, w)

/-- The routes in the order in which `main` adds them. -/
def routes : List Route :=
  [⟨lit "PUT", lit "/v1/objects/", fun cond => srv.putObject H hash64 cond.put⟩,
    ⟨lit "GET", lit "/v1/objects/", fun cond => srv.getObject H hash64 cond.get⟩,
    ⟨lit "DELETE", lit "/v1/objects/", fun cond => srv.deleteObject H hash64 cond.delete⟩,
    ⟨lit "GET", lit "/v1/metadata/", fun _ => srv.getMetadata⟩,
    ⟨lit "POST", lit "/v1/heartbeat", fun _ => srv.postHeartbeat⟩,
    ⟨lit "PUT", lit "/v1/chunks/", fun cond => srv.onStore fun token => putChunk H token cond.disk⟩,
    ⟨lit "GET", lit "/v1/chunks/", fun _ => srv.onStore (getChunk H)⟩,
    ⟨lit "DELETE", lit "/v1/chunks/", fun cond => srv.onStore fun token => deleteChunk token cond.disk⟩,
    ⟨lit "GET", lit "/healthz", fun _ _ => srv.getHealth⟩,
    ⟨lit "POST", lit "/v1/admin/repair/", fun cond => srv.postRepair H hash64 "/v1/admin/repair/" "repaired" cond.repair⟩,
    ⟨lit "POST", lit "/v1/admin/rebalance/",
      fun cond => srv.postRepair H hash64 "/v1/admin/rebalance/" "rebalanced" cond.repair⟩,
    ⟨lit "POST", lit "/v1/admin/handoff/replay", srv.postReplay H⟩]

/-- What the server answers to a request that was read. -/
def respond (cond : Outside) (req : HttpRequest) (w : World) : HttpResponse × World :=
  match (srv.routes H hash64).find? (fun route => decide (route.Matches req)) with
  | none => (⟨404, lit "application/json", lit "\x7b\x7d\n"⟩, w)
  | some route => route.handler cond req w

/-! ## Requests without credentials -/

/-- No `authorization` header with a token in it. -/
def NoCredentials (req : HttpRequest) : Prop :=
  ∀ value ∈ req.headers.lookup (lit "authorization"), ∀ c rest, value ≠ lit "Bearer " ++ c :: rest

variable {H hash64 srv}

theorem NoCredentials.bearer {req : HttpRequest} (h : NoCredentials req) : Server.bearer req = [] := by
  unfold Server.bearer
  cases hvalue : req.headers.lookup (lit "authorization") with
  | none => rfl
  | some value =>
    by_cases hp : lit "Bearer " <+: value
    · obtain ⟨token, rfl⟩ := hp
      cases token with
      | nil =>
        rw [List.append_nil]
        exact (if_pos List.prefix_rfl).trans List.drop_length
      | cons c rest => exact absurd rfl (h _ hvalue c rest)
    · exact if_neg hp

/-- The empty token is refused by a server that has another one. -/
theorem NoCredentials.refused {req : HttpRequest} (h : NoCredentials req) {token : Str} (ht : token ≠ []) (p : Permission) :
    authorized token req p = .error (.Unauthenticated (lit "missing or invalid token")) := by
  rw [authorized, h.bearer, AuthManager.authorize, AuthManager.admin, AuthManager.add_token,
    AList.lookup_insert_ne (Ne.symm ht)]
  rfl

theorem onStore_refused {handler : Str → HttpRequest → ChunkStore → HttpResponse × ChunkStore} {req : HttpRequest}
    {w : World}
    {response : HttpResponse} (h : handler w.net.token req (w.net.stores srv.me) = (response, w.net.stores srv.me)) :
    srv.onStore handler req w = (response, w) := by
  have hsame : w.net.setStore srv.me (w.net.stores srv.me) = w.net :=
    congrArg (fun stores => { w.net with stores := stores }) (Net.setStore_same _ _)
  simp only [onStore, h, hsame, World.setNet]

/-- Each route under `/v1/` first asks for a permission. -/
theorem route_refused {route : Route} (hr : route ∈ srv.routes H hash64) (hstart : lit "/v1/" <+: route.start)
    {req : HttpRequest}
    {w : World} {status : Status} (h : ∀ p, authorized w.net.token req p = .error status) (cond : Outside) :
    route.handler cond req w = (status_response status, w) := by
  simp only [routes, List.mem_cons, List.not_mem_nil, or_false] at hr
  rcases hr with rfl | rfl | rfl | rfl | rfl | rfl | rfl | rfl | rfl | rfl | rfl | rfl
  · simp only [putObject, h]
  · simp only [getObject, h]
  · simp only [deleteObject, h]
  · simp only [getMetadata, h]
  · simp only [postHeartbeat, h]
  · dsimp only
    refine onStore_refused ?_
    simp only [putChunk, h]
  · dsimp only
    refine onStore_refused ?_
    simp only [getChunk, h]
  · dsimp only
    refine onStore_refused ?_
    simp only [deleteChunk, h]
  · exact absurd hstart (show ¬ lit "/v1/" <+: lit "/healthz" by decide)
  · simp only [postRepair, h]
  · simp only [postRepair, h]
  · simp only [postReplay, h]

/-- Whatever the state of the node, a request without credentials is refused by
every route it matches under `/v1/`, and changes nothing. -/
def RefusesStrangers (H : HexHash) (hash64 : Str → Nat) (cfg : Config) : Prop :=
  ∀ (w : World) (cond : Outside) (req : HttpRequest), w.net.token = cfg.admin_token → NoCredentials req →
    ∀ route ∈ (ofConfig cfg).routes H hash64, lit "/v1/" <+: route.start → route.Matches req →
      (route.handler cond req w).1.status = 401 ∧ (route.handler cond req w).2 = w

/-- A heartbeat without headers. -/
def strangerHeartbeat : HttpRequest := ⟨lit "POST", lit "/v1/heartbeat", ∅, []⟩

theorem noCredentials_of_empty {req : HttpRequest} (h : req.headers = ∅) : NoCredentials req := by
  intro value hvalue
  rw [h, AList.lookup_empty] at hvalue
  cases hvalue

/-- A server whose token is empty takes the heartbeat. -/
theorem heartbeat_taken {w : World} (ht : w.net.token = []) : (srv.postHeartbeat strangerHeartbeat w).1.status = 200 := by
  have hauth : authorized w.net.token strangerHeartbeat .kAdmin = .ok () := by
    rw [authorized, (noCredentials_of_empty rfl).bearer, ht, AuthManager.authorize_admin]
  simp only [postHeartbeat, hauth]

/-- The server of a configuration refuses strangers when the last `admin_token`
of the file is not empty. -/
theorem no_credentials_no_effect (H : HexHash) (hash64 : Str → Nat) (path text : Str) (cfg : Config)
    (h : Config.load_config path (some text) = some (.ok cfg)) :
    RefusesStrangers H hash64 cfg ↔ (Config.values text (lit "admin_token")).getLast? ≠ some [] := by
  have htoken := Config.load_config_admin_token h
  constructor
  · intro hrefuses hempty
    rw [hempty, Option.getD_some] at htoken
    have hheartbeat := hrefuses { World.start [] with net := { freshNet with token := [] } } {} strangerHeartbeat htoken.symm
      (noCredentials_of_empty rfl) ⟨lit "POST", lit "/v1/heartbeat", fun _ => (ofConfig cfg).postHeartbeat⟩
        (by simp [routes])
      (show lit "/v1/" <+: lit "/v1/heartbeat" by decide) ⟨rfl, List.prefix_rfl⟩
    rw [heartbeat_taken rfl] at hheartbeat
    exact absurd hheartbeat.1 (by decide)
  · intro hlast w cond req hw hreq route hroute hstart _
    have hne : cfg.admin_token ≠ [] := by
      rw [htoken]
      cases hval : (Config.values text (lit "admin_token")).getLast? with
      | none => decide
      | some value =>
        intro hnil
        exact hlast (by rw [hval, ← hnil, Option.getD_some])
    rw [route_refused hroute hstart (fun p => hreq.refused (hw ▸ hne) p) cond]
    exact ⟨rfl, rfl⟩

def quietConfig : Str := lit "# node\nadmin_token = \"secret\"  # changed\n"

theorem load_quietConfig :
    Config.load_config (lit "node.toml") (some quietConfig) = some (.ok { admin_token := lit "secret" }) := by
  decide +kernel

/-- A server with its own token refuses strangers. -/
theorem quiet_refuses :
    Config.load_config (lit "node.toml") (some quietConfig) = some (.ok { admin_token := lit "secret" }) ∧
      RefusesStrangers Sha256.hexHash sixthByte { admin_token := lit "secret" } :=
  ⟨load_quietConfig, (no_credentials_no_effect Sha256.hexHash sixthByte _ _ _ load_quietConfig).2 (by decide +kernel)⟩

/-- A node alone, with an empty token. -/
def openConfig : Str :=
  lit "replication_factor = 1\nwrite_quorum = 1\nread_quorum = 1\nadmin_token = \"\"\n"

def openNode : Config := { replication_factor := 1, write_quorum := 1, read_quorum := 1, admin_token := [] }

def openWorld : World :=
  { World.start [ofConfig openNode] with net := { (World.start [ofConfig openNode]).net with token := [] } }

def strangerPut : HttpRequest := ⟨lit "PUT", lit "/v1/objects/b/x", ∅, lit "ab"⟩

/-- A request without any header stores an object. -/
theorem stranger_uploads :
    Config.load_config (lit "node.toml") (some openConfig) = some (.ok openNode) ∧
      openWorld.net.token = openNode.admin_token ∧ NoCredentials strangerPut ∧
      ((ofConfig openNode).respond Sha256.hexHash sixthByte {} strangerPut openWorld).1.status = 201 ∧
      (((ofConfig openNode).respond Sha256.hexHash sixthByte {} strangerPut openWorld).2.metadata
        (ofConfig openNode).me).tables.objects ≠ [] := by
  refine ⟨by decide +kernel, rfl, noCredentials_of_empty rfl, ?_⟩
  decide +kernel

end Server

end Dstore
