import Dstore.Lib.Refinement
import Dstore.Server.ObjectSpec
/-!
# Nodes as object stores

What an object store is: a map from names to contents, and the answers it
gives (`Objects.serve`). The nodes of a cluster share their chunks but each
has its own metadata, so each is to be an object store of its own.

`Consistent` relates the world to those maps: the rows of every node are those
of its objects, and every chunk a node lists is on one of its sources. An upload
or a read keeps it. A delete keeps it when every node that still lists a chunk
it removes has that chunk on a source of its own that the delete leaves alone
(`CanDelete`, `Consistent.handle`).
-/
open Dstore.Lib

namespace Dstore

/-! ## The specification -/

/-- A name as a request path can spell it. -/
structure ObjectName where
  bucket : Str
  key : Str
  bucket_ne : bucket ≠ []
  key_ne : key ≠ []
  noSlash : Path.slash ∉ bucket
  noNul : (0 : UInt8) ∉ bucket ∧ (0 : UInt8) ∉ key

inductive Request where
  | put (name : ObjectName) (body : Bytes)
  | get (name : ObjectName)
  | delete (name : ObjectName)

inductive Answer where
  | created
  | found (body : Bytes)
  | missing
  | deleted
  deriving DecidableEq, Repr

/-- The response carries the answer. -/
def Answer.Matches (r : HttpResponse) : Answer → Prop
  | .created => r.status = 201
  | .found body => r.status = 200 ∧ r.body = body
  | .missing => r.status = 404
  | .deleted => r.status = 204

/-- The contents of an object store, by bucket and key. -/
abbrev Objects := Str → Str → Option Bytes

namespace Objects

def empty : Objects := fun _ _ => none

def set (o : Objects) (name : ObjectName) (content : Option Bytes) : Objects :=
  fun b k => if b = name.bucket ∧ k = name.key then content else o b k

/-- A request to an object store. -/
def serve : Machine Objects Request Answer
  | o, .put name body => (.created, o.set name (some body))
  | o, .get name =>
    match o name.bucket name.key with
    | none => (.missing, o)
    | some body => (.found body, o)
  | o, .delete name =>
    match o name.bucket name.key with
    | none => (.missing, o)
    | some _ => (.deleted, o.set name none)

theorem set_self (o : Objects) (name : ObjectName) (content : Option Bytes) :
    o.set name content name.bucket name.key = content := if_pos ⟨rfl, rfl⟩

theorem set_other (o : Objects) (name : ObjectName) (content : Option Bytes) {b k : Str}
    (h : ¬ (b = name.bucket ∧ k = name.key)) : o.set name content b k = o b k := if_neg h

end Objects

/-! ## Requests to a server -/

def ObjectName.path (name : ObjectName) : Str := lit "/v1/objects/" ++ (name.bucket ++ Path.slash :: name.key)

/-- The request as the server gets it, with the admin token. -/
def objectRequest (method : String) (token : Str) (name : ObjectName) (body : Bytes) : HttpRequest where
  method := lit method
  path := name.path
  headers := (∅ : AList fun _ : Str => Str).insert (lit "authorization") (lit "Bearer " ++ token)
  body := body

namespace Server

variable (H : HexHash) (hash64 : Str → Nat) (srv : Server)

/-- One request, with every node in reach and no faults. -/
def handle : Machine World Request HttpResponse
  | w, .put name body => srv.putObject H hash64 {} (objectRequest "PUT" w.net.token name body) w
  | w, .get name => srv.getObject H hash64 {} (objectRequest "GET" w.net.token name []) w
  | w, .delete name => srv.deleteObject H hash64 {} (objectRequest "DELETE" w.net.token name []) w

theorem object_path_path (name : ObjectName) : object_path name.path = (name.bucket, name.key) := by
  have hrest : name.path.drop (lit "/v1/objects/").length = name.bucket ++ Path.slash :: name.key := List.drop_left
  have hall : ∀ c ∈ name.bucket, (decide (c ≠ Path.slash)) = true :=
    fun c hc => decide_eq_true fun he => name.noSlash (he ▸ hc)
  have htake : (name.bucket ++ Path.slash :: name.key).takeWhile (· ≠ Path.slash) = name.bucket := by
    rw [List.takeWhile_append_of_pos hall]
    simp
  unfold object_path
  simp only [hrest]
  rw [htake, if_neg (by simp), ← List.drop_drop, List.drop_left]
  rfl

theorem authorized_objectRequest (method : String) (token : Str) (name : ObjectName) (body : Bytes) (p : Permission) :
    authorized token (objectRequest method token name body) p = .ok () :=
  authorized_of_header _ (AList.lookup_insert _)

/-- What an upload of `body` is recorded as. -/
def metadataOf (bucket key : Str) (body : Bytes) : ObjectMetadata :=
  ⟨bucket, key, body.length % 2 ^ 64, H.hex body, (chunk_bytes body srv.chunk_size).map (refOf H)⟩

/-- A body that a vector can hold, of at most `2 ^ 31` chunks, all in `S`. -/
structure CanStore (S : Set Bytes) (body : Bytes) : Prop where
  vector : body.length < 2 ^ 63
  positions : (chunk_bytes body srv.chunk_size).length ≤ 2 ^ 31
  content : ∀ p ∈ chunk_bytes body srv.chunk_size, p ∈ S

/-- The rows of an object are those of its content. -/
def Rows (S : Set Bytes) (t : Tables) (bucket key : Str) : Option Bytes → Prop
  | none => t.object bucket key = [] ∧ t.parts bucket key = []
  | some body => srv.CanStore S body ∧ t.object bucket key = [MetadataStore.objectRow (srv.metadataOf H bucket key body)] ∧
      t.parts bucket key = MetadataStore.chunkRows bucket key 0 ((chunk_bytes body srv.chunk_size).map (refOf H))

theorem fits_metadataOf {srv : Server} {S : Set Bytes} {body : Bytes} (h : srv.CanStore S body) (bucket key : Str) :
    MetadataStore.Fits (srv.metadataOf H bucket key body) where
  size := Nat.mod_lt _ (by decide)
  checksum := cstr_digest (H.digest body)
  chunks c hc := by
    obtain ⟨p, -, rfl⟩ := List.mem_map.1 hc
    exact ⟨cstr_digest (H.digest p), Nat.mod_lt _ (by decide)⟩
  length := by
    rw [metadataOf, List.length_map]
    exact h.positions

variable {H hash64 srv} {S : Set Bytes} {w : World}

/-- An upload stores the parts and then the rows. -/
theorem handle_put (hash64 : Str → Nat) (hr : srv.Writable) (h : w.net.Sound H S)
    (hlog : (w.wal srv.me).good = true) (hidle : (w.metadata srv.me).saved = none) (name : ObjectName) {body : Bytes}
    (hb : srv.CanStore S body) :
    ∃ file n, srv.handle H hash64 w (.put name body) =
      (⟨201, lit "application/json", putAnswer (srv.metadataOf H name.bucket name.key body)⟩,
        ((w.setWal srv.me ⟨file, true⟩).setNet
          (srv.putParts H hash64 (fun _ => {}) 0 (chunk_bytes body srv.chunk_size) [] w.net).2).setMetadata srv.me
            ⟨(w.metadata srv.me).tables.upload (srv.metadataOf H name.bucket name.key body), none, n⟩) := by
  obtain ⟨file, happend⟩ := WriteAheadLog.append_good H hlog ⟨.kPutObject, objectName name.bucket name.key, H.hex body⟩
  obtain ⟨net', hput, -, -⟩ := putParts_spec hash64 hr (chunk_bytes body srv.chunk_size) 0 [] h hb.content
  obtain ⟨n, hmeta⟩ := MetadataStore.put_object_ok hidle (m := srv.metadataOf H name.bucket name.key body)
    (le_trans (fits_metadataOf H hb _ _).length (by decide))
  rw [List.nil_append] at hput
  refine ⟨file, n, ?_⟩
  have hpath : object_path (objectRequest "PUT" w.net.token name body).path = (name.bucket, name.key) :=
    object_path_path name
  have hbody : (objectRequest "PUT" w.net.token name body).body = body := rfl
  have hnames : ¬ (name.bucket = [] ∨ name.key = []) := not_or.2 ⟨name.bucket_ne, name.key_ne⟩
  rw [handle, putObject, authorized_objectRequest]
  simp only [hpath, hbody, if_neg hnames, happend, World.setWal_net, hput, World.setNet_metadata, World.setWal_metadata]
  rw [show (⟨name.bucket, name.key, body.length % 2 ^ 64, H.hex body, (chunk_bytes body srv.chunk_size).map (refOf H)⟩ :
    ObjectMetadata) = srv.metadataOf H name.bucket name.key body from rfl, hmeta]

/-- An upload to a node that cannot make its write quorum is logged and refused. -/
theorem handle_put_refused (hash64 : Str → Nat) (hreach : srv.chunks.Reachable)
    (hq : 1 + (srv.chunks.peer.isSome.toNat : Int) < srv.chunks.write_quorum) (h : w.net.Sound H S)
    (hlog : (w.wal srv.me).good = true) (name : ObjectName) {body : Bytes}
    (hS : ∀ p ∈ chunk_bytes body srv.chunk_size, p ∈ S) :
    ∃ file net', srv.handle H hash64 w (.put name body) =
        (status_response (.Unavailable (lit "quorum write failed")), (w.setWal srv.me ⟨file, true⟩).setNet net') ∧
      Keeps H S srv.chunks (fun _ _ => True) w.net net' := by
  obtain ⟨file, happend⟩ := WriteAheadLog.append_good H hlog ⟨.kPutObject, objectName name.bucket name.key, H.hex body⟩
  obtain ⟨p, parts, hparts⟩ := List.exists_cons_of_ne_nil (chunk_bytes_ne_nil body srv.chunk_size)
  obtain ⟨net', hput, hkeep⟩ := putParts_refused hash64 hreach hq p parts 0 [] h
    (hS p (by rw [hparts]; exact List.mem_cons_self))
  refine ⟨file, net', ?_, hkeep⟩
  have hpath : object_path (objectRequest "PUT" w.net.token name body).path = (name.bucket, name.key) :=
    object_path_path name
  have hbody : (objectRequest "PUT" w.net.token name body).body = body := rfl
  have hnames : ¬ (name.bucket = [] ∨ name.key = []) := not_or.2 ⟨name.bucket_ne, name.key_ne⟩
  rw [handle, putObject, authorized_objectRequest]
  simp only [hpath, hbody, if_neg hnames, happend, World.setWal_net, hparts, hput]
  rfl

/-- A read of an object that is there. -/
theorem handle_get_found (hash64 : Str → Nat) (hr : srv.Ready) (hs : (w.net.views srv.me).Started) (h : w.net.Sound H S)
    (hinj : Set.InjOn H.hex S) (name : ObjectName) {body : Bytes}
    (hrows : srv.Rows H S (w.metadata srv.me).tables name.bucket name.key (some body))
    (hst : ∀ p ∈ chunk_bytes body srv.chunk_size, srv.Stored H w.net (H.hex p)) :
    ∃ net', srv.handle H hash64 w (.get name) = (⟨200, lit "application/octet-stream", body⟩, w.setNet net') ∧
      Keeps H S srv.chunks (fun _ _ => True) w.net net' := by
  obtain ⟨hb, hobject, hparts⟩ := hrows
  rw [← cstr_eq name.noNul.1, ← cstr_eq name.noNul.2] at hobject hparts
  have hread := MetadataStore.get_object_eq (fits_metadataOf H hb _ _) hobject hparts
  have hcontent : ((chunk_bytes body srv.chunk_size).map (refOf H)).map (contentOf H S) =
      chunk_bytes body srv.chunk_size := by
    rw [List.map_map]
    exact (List.map_congr_left fun p hp => contentOf_refOf hinj (hb.content p hp)).trans (List.map_id _)
  obtain ⟨net', hget, hkeep⟩ := getParts_spec hash64 hr hinj ((chunk_bytes body srv.chunk_size).map (refOf H)) 0 []
    hs h (by
      intro ref href
      obtain ⟨p, hp, rfl⟩ := List.mem_map.1 href
      exact ⟨H.digest p, hst p hp⟩)
  rw [List.nil_append, hcontent, chunk_bytes_flatten hb.vector] at hget
  refine ⟨net', ?_, hkeep⟩
  have hpath : object_path (objectRequest "GET" w.net.token name []).path = (name.bucket, name.key) := object_path_path name
  rw [handle, getObject, authorized_objectRequest]
  simp only [hpath, hread, metadataOf, hget, ne_eq, not_true, if_false]

/-- A read or a delete of an object that is not there. -/
theorem handle_missing (name : ObjectName) (hrows : srv.Rows H S (w.metadata srv.me).tables name.bucket name.key none) :
    srv.handle H hash64 w (.get name) = (status_response (.NotFound (lit "object not found")), w) ∧
      srv.handle H hash64 w (.delete name) = (status_response (.NotFound (lit "object not found")), w) := by
  have hobject := hrows.1
  rw [← cstr_eq name.noNul.1, ← cstr_eq name.noNul.2] at hobject
  have hread := MetadataStore.get_object_missing hobject
  have hpath : ∀ method, object_path (objectRequest method w.net.token name []).path = (name.bucket, name.key) :=
    fun _ => object_path_path name
  constructor
  · rw [handle, getObject, authorized_objectRequest]
    simp only [hpath, hread]
  · rw [handle, deleteObject, authorized_objectRequest]
    simp only [hpath, hread]

/-- A delete of an object that is there removes its rows, and then the chunks
that it finds unreferenced. -/
theorem handle_delete (hash64 : Str → Nat) (hreach : srv.chunks.Reachable) (hlog : (w.wal srv.me).good = true)
    (name : ObjectName) {body : Bytes} (hrows : srv.Rows H S (w.metadata srv.me).tables name.bucket name.key (some body)) :
    ∃ file, srv.handle H hash64 w (.delete name) = (⟨204, lit "application/json", []⟩,
      ((w.setWal srv.me ⟨file, true⟩).setMetadata srv.me
        ⟨(w.metadata srv.me).tables.erase name.bucket name.key, (w.metadata srv.me).saved, 1⟩).setNet
          (srv.removeParts hash64 {} ⟨(w.metadata srv.me).tables.erase name.bucket name.key, (w.metadata srv.me).saved, 1⟩ 0
            ((chunk_bytes body srv.chunk_size).map (refOf H)) w.net).2) := by
  obtain ⟨hb, hobject, hparts⟩ := hrows
  have hcb := cstr_eq name.noNul.1
  have hck := cstr_eq name.noNul.2
  rw [← hcb, ← hck] at hobject hparts
  have hread := MetadataStore.get_object_eq (fits_metadataOf H hb _ _) hobject hparts
  obtain ⟨file, happend⟩ := WriteAheadLog.append_good H hlog ⟨.kDeleteObject, objectName name.bucket name.key, lit "delete"⟩
  obtain ⟨htables, hresult⟩ := (w.metadata srv.me).delete_object_eq name.bucket name.key
  rw [hobject, List.length_singleton, int32_eq (by decide), if_neg (by decide)] at hresult
  rw [hobject, hcb, hck, List.length_singleton] at htables
  refine ⟨file, ?_⟩
  have hpath : object_path (objectRequest "DELETE" w.net.token name []).path = (name.bucket, name.key) :=
    object_path_path name
  rw [handle, deleteObject, authorized_objectRequest]
  simp only [hpath, hread, metadataOf, happend, World.setWal_metadata]
  rw [← Prod.eta ((w.metadata srv.me).delete_object {} name.bucket name.key), hresult, htables]
  dsimp only
  rw [← Prod.eta (srv.removeParts hash64 {} _ 0 _ _), removeParts_ok hreach]
  rfl

/-- The references of the parts of a body. -/
theorem digest_refs (body : Bytes) (n : UInt64) : ∀ ref ∈ (chunk_bytes body n).map (refOf H), Digest ref.checksum := by
  intro ref href
  obtain ⟨p, -, rfl⟩ := List.mem_map.1 href
  exact H.digest p

/-- A delete of an object with a chunk whose other references read as zero or
less: the homes of the node lose the chunk. -/
theorem handle_delete_gone (hash64 : Str → Nat) (hreach : srv.chunks.Reachable) (h : w.net.Sound H S)
    (hlog : (w.wal srv.me).good = true) (name : ObjectName) {body : Bytes}
    (hrows : srv.Rows H S (w.metadata srv.me).tables name.bucket name.key (some body)) {p : Bytes}
    (hp : p ∈ chunk_bytes body srv.chunk_size)
    (hcount : int32 (((w.metadata srv.me).tables.erase name.bucket name.key).count (H.hex p)) ≤ 0) :
    ((srv.handle H hash64 w (.delete name)).2.metadata srv.me).tables =
        (w.metadata srv.me).tables.erase name.bucket name.key ∧
      (srv.handle H hash64 w (.delete name)).2.net.Sound H S ∧
      ∀ id, ((srv.handle H hash64 w (.delete name)).2.net.stores id).cache = (w.net.stores id).cache ∧
        ((w.net.stores id).file (H.hex p) = none ∨ id ∈ srv.chunks.homes →
          ((srv.handle H hash64 w (.delete name)).2.net.stores id).file (H.hex p) = none) := by
  obtain ⟨file, heq⟩ := handle_delete hash64 hreach hlog name hrows
  rw [heq, World.setNet_metadata, World.setMetadata_self, World.setNet_net]
  refine ⟨rfl, (removeParts_spec hash64 hreach {} _ _ 0 h (digest_refs body srv.chunk_size)).sound, fun id => ?_⟩
  obtain ⟨hcache, hfile⟩ := removeParts_gone hash64 hreach
    ⟨(w.metadata srv.me).tables.erase name.bucket name.key, (w.metadata srv.me).saved, 1⟩ _ 0
    (digest_refs body srv.chunk_size) (H.digest p) w.net id
  refine ⟨hcache, fun hor => hfile (hor.imp_right fun hid => ⟨hid, refOf H p, List.mem_map_of_mem hp, rfl, ?_⟩)⟩
  rwa [MetadataStore.chunk_ref_count, cstr_digest (H.digest p)]

/-- A read of an object whose first chunk is gone. -/
theorem handle_get_gone (hreach : srv.chunks.Reachable) (h : w.net.Sound H S) (name : ObjectName) {body : Bytes}
    (hrows : srv.Rows H S (w.metadata srv.me).tables name.bucket name.key (some body)) {p : Bytes} {rest : List Bytes}
    (hparts : chunk_bytes body srv.chunk_size = p :: rest) (hgone : srv.Gone w.net (H.hex p)) :
    (srv.handle H hash64 w (.get name)).1.status = 500 := by
  obtain ⟨hb, hobject, hchunks⟩ := hrows
  rw [← cstr_eq name.noNul.1, ← cstr_eq name.noNul.2] at hobject hchunks
  have hread := MetadataStore.get_object_eq (fits_metadataOf H hb _ _) hobject hchunks
  obtain ⟨m, net', hget⟩ := getParts_gone hash64 hreach h (H.digest p) hgone 0 (p.length % 2 ^ 64) (rest.map (refOf H)) []
  have hpath : object_path (objectRequest "GET" w.net.token name []).path = (name.bucket, name.key) := object_path_path name
  have hlist : (chunk_bytes body srv.chunk_size).map (refOf H) = ⟨H.hex p, p.length % 2 ^ 64⟩ :: rest.map (refOf H) := by
    rw [hparts]
    rfl
  rw [handle, getObject, authorized_objectRequest]
  simp only [hpath, hread, metadataOf, hlist, hget]
  rfl

end Server

/-! ## The nodes and their objects -/

/-- Replace the objects of one node. -/
def setObjects (m : Str → Objects) (id : Str) (o : Objects) : Str → Objects := fun x => if x = id then o else m x

section Cluster
variable (H : HexHash) (hash64 : Str → Nat) (S : Set Bytes) (nodes : List Server)

/-- Every node has the rows of its own objects, and what it lists is stored. A
node that cannot make its quorums has no objects. -/
structure Consistent (w : World) (m : Str → Objects) : Prop where
  sound : w.net.Sound H S
  started : ∀ srv ∈ nodes, (w.net.views srv.me).Started
  logs : ∀ srv ∈ nodes, (w.wal srv.me).good = true
  idle : ∀ srv ∈ nodes, (w.metadata srv.me).saved = none
  stored : ∀ srv ∈ nodes, ∀ c, (w.metadata srv.me).tables.Lists c → Digest c ∧ srv.Stored H w.net c
  rows : ∀ srv ∈ nodes, ∀ b k, srv.Rows H S (w.metadata srv.me).tables b k (m srv.me b k)
  ready : ∀ srv ∈ nodes, ∀ b k body, m srv.me b k = some body → srv.Ready

/-- The rows of a node once `srv` has deleted the rows of an object. -/
def tablesAfter (w : World) (srv : Server) (name : ObjectName) (other : Server) : Tables :=
  if other.me = srv.me then (w.metadata srv.me).tables.erase name.bucket name.key else (w.metadata other.me).tables

/-- A chunk of the object that a delete will find unreferenced is, for every node
that still lists it, on a source of that node which the delete leaves alone. -/
def CanDelete (w : World) (srv : Server) (name : ObjectName) : Prop :=
  ∀ r ∈ (w.metadata srv.me).tables.parts name.bucket name.key,
    int32 (((w.metadata srv.me).tables.erase name.bucket name.key).count r.checksum) ≤ 0 →
      ∀ other ∈ nodes, (tablesAfter w srv name other).Lists r.checksum →
        ∃ id ∈ other.chunks.sources, id ∉ srv.chunks.homes ∧ (w.net.stores id).exists_ r.checksum = true

instance (w : World) (srv : Server) (name : ObjectName) : Decidable (CanDelete nodes w srv name) :=
  inferInstanceAs (Decidable (∀ r ∈ (w.metadata srv.me).tables.parts name.bucket name.key, _))

/-- A request that a node can serve. -/
def CanServe (w : World) (srv : Server) : Request → Prop
  | .put _ body => srv.CanStore S body ∧ srv.Ready
  | .get _ => True
  | .delete name => CanDelete nodes w srv name

/-- Servers of distinct nodes, each with a peer that can be called. -/
structure Working : Prop where
  distinct : (nodes.map Server.me).Nodup
  reachable : ∀ srv ∈ nodes, srv.chunks.Reachable

/-- Processes that have just started on empty databases. -/
structure Fresh (w : World) : Prop where
  sound : w.net.Sound H S
  started : ∀ srv ∈ nodes, (w.net.views srv.me).Started
  logs : ∀ srv ∈ nodes, (w.wal srv.me).good = true
  empty : ∀ srv ∈ nodes, w.metadata srv.me = {}

variable {H hash64 S nodes} {w w' : World} {m : Str → Objects}

/-- The view of the process of a node, if there is one. -/
def World.startView (nodes : List Server) (i : Str) : ClusterState :=
  match nodes.find? (fun srv => srv.me = i) with
  | some srv => srv.chunks.boot (Layout.newestFirst _) 0
  | none => .empty (Layout.newestFirst _)

/-- The first start of the nodes, with nothing on disk. -/
def World.start (nodes : List Server) : World where
  net := { freshNet with views := startView nodes }
  metadata _ := {}
  wal _ := {}

theorem start_tables (nodes : List Server) (i : Str) : ((World.start nodes).metadata i).tables = {} := rfl

theorem fresh_start (hd : (nodes.map Server.me).Nodup) : Fresh H S nodes (World.start nodes) where
  sound := freshNet_sound H S
  started srv hsrv := by
    have hfind : nodes.find? (fun other => other.me = srv.me) = some srv := by
      cases hf : nodes.find? (fun other => other.me = srv.me) with
      | none => simpa using List.find?_eq_none.1 hf srv hsrv
      | some other =>
        have hme : other.me = srv.me := by simpa using List.find?_some hf
        rw [List.inj_on_of_nodup_map hd (List.mem_of_find?_eq_some hf) hsrv hme]
    show (World.startView nodes srv.me).Started
    rw [World.startView, hfind]
    exact srv.chunks.started_boot _ _
  logs _ _ := rfl
  empty _ _ := rfl

theorem Fresh.consistent (h : Fresh H S nodes w) : Consistent H S nodes w fun _ => Objects.empty where
  sound := h.sound
  started := h.started
  logs := h.logs
  idle srv hsrv := by rw [h.empty srv hsrv]
  stored srv hsrv c hl := by
    rw [h.empty srv hsrv] at hl
    obtain ⟨r, hr, -⟩ := hl
    cases hr
  rows srv hsrv b k := by
    rw [h.empty srv hsrv]
    exact ⟨rfl, rfl⟩
  ready srv hsrv b k body hbody := by cases hbody

theorem Working.eq (hw : Working nodes) {srv srv' : Server} (h : srv ∈ nodes) (h' : srv' ∈ nodes)
    (he : srv'.me = srv.me) : srv' = srv :=
  List.inj_on_of_nodup_map hw.distinct h' h he

/-- One node acts: what every node lists is stored when it is done, and its rows
are those of its new objects. -/
theorem Consistent.act (hc : Consistent H S nodes w m) (hw : Working nodes) {srv : Server} (hsrv : srv ∈ nodes)
    {kept : Str → Str → Prop} {o : Objects} (hkeep : Keeps H S srv.chunks kept w.net w'.net)
    (hmeta : ∀ i, i ≠ srv.me → w'.metadata i = w.metadata i) (hwal : ∀ i, i ≠ srv.me → w'.wal i = w.wal i)
    (hlog : (w'.wal srv.me).good = true) (hidle : (w'.metadata srv.me).saved = none)
    (hstored : ∀ other ∈ nodes, ∀ c, (w'.metadata other.me).tables.Lists c → Digest c ∧ other.Stored H w'.net c)
    (hrows : ∀ b k, srv.Rows H S (w'.metadata srv.me).tables b k (o b k))
    (hready : ∀ b k body, o b k = some body → srv.Ready) :
    Consistent H S nodes w' (setObjects m srv.me o) := by
  refine ⟨hkeep.sound, fun other hother => ?_, fun other hother => ?_, fun other hother => ?_, hstored,
    fun other hother b k => ?_, fun other hother b k body hbody => ?_⟩
  all_goals by_cases he : other.me = srv.me
  · rw [he]; exact hkeep.started (hc.started srv hsrv)
  · rw [hkeep.views other.me he]; exact hc.started other hother
  · rw [he]; exact hlog
  · rw [hwal _ he]; exact hc.logs other hother
  · rw [he]; exact hidle
  · rw [hmeta _ he]; exact hc.idle other hother
  · obtain rfl := hw.eq hsrv hother he
    rw [setObjects, if_pos rfl]
    exact hrows b k
  · rw [setObjects, if_neg he, hmeta _ he]
    exact hc.rows other hother b k
  · obtain rfl := hw.eq hsrv hother he
    rw [setObjects, if_pos rfl] at hbody
    exact hready b k body hbody
  · rw [setObjects, if_neg he] at hbody
    exact hc.ready other hother b k body hbody

/-- Where every chunk stays, a chunk that was listed before stays stored. -/
theorem Consistent.stays (hc : Consistent H S nodes w m) {srv other : Server} (hother : other ∈ nodes)
    (hkeep : Keeps H S srv.chunks (fun _ _ => True) w.net w'.net) {c : Str} (hl : (w.metadata other.me).tables.Lists c) :
    Digest c ∧ other.Stored H w'.net c := by
  obtain ⟨hd, hst⟩ := hc.stored other hother c hl
  exact ⟨hd, hst.mono fun id => hkeep.holds id c trivial hd⟩

theorem setObjects_self (m : Str → Objects) (id : Str) : setObjects m id (m id) = m := by
  funext x
  unfold setObjects
  split
  · rename_i h; rw [h]
  · rfl

/-- The checksums in the rows of a stored object. -/
theorem mem_parts_of_mem {srv : Server} {t : Tables} {b k : Str} {body : Bytes} (h : srv.Rows H S t b k (some body))
    {p : Bytes} (hp : p ∈ chunk_bytes body srv.chunk_size) : ∃ r ∈ t.parts b k, r.checksum = H.hex p := by
  rw [h.2.2]
  have hmem : ∀ (refs : List ChunkRef) (i : Nat), ∀ c ∈ refs,
      ∃ r ∈ MetadataStore.chunkRows b k i refs, r.checksum = cstr c.checksum := by
    intro refs
    induction refs with
    | nil => intro _ c hc; cases hc
    | cons c refs ih =>
      intro i c' hc'
      rcases List.mem_cons.1 hc' with rfl | hc'
      · exact ⟨_, List.mem_cons_self, rfl⟩
      · obtain ⟨r, hr, he⟩ := ih (i + 1) c' hc'
        exact ⟨r, List.mem_cons_of_mem _ hr, he⟩
  obtain ⟨r, hr, he⟩ := hmem _ 0 (Server.refOf H p) (List.mem_map_of_mem hp)
  exact ⟨r, hr, he.trans (cstr_digest (H.digest p))⟩

theorem Consistent.put (hash64 : Str → Nat) (hc : Consistent H S nodes w m) (hw : Working nodes) {srv : Server}
    (hsrv : srv ∈ nodes) (hr : srv.Ready) (name : ObjectName) {body : Bytes} (hb : srv.CanStore S body) :
    (srv.handle H hash64 w (.put name body)).1.status = 201 ∧
      Consistent H S nodes (srv.handle H hash64 w (.put name body)).2
        (setObjects m srv.me ((m srv.me).set name (some body))) := by
  obtain ⟨file, n, heq⟩ := Server.handle_put hash64 hr.toWritable hc.sound (hc.logs srv hsrv) (hc.idle srv hsrv) name hb
  obtain ⟨net', hput, hkeep, hstored⟩ := Server.putParts_spec hash64 hr.toWritable (chunk_bytes body srv.chunk_size) 0 []
    hc.sound hb.content
  rw [heq, hput]
  have hcb := cstr_eq name.noNul.1
  have hck := cstr_eq name.noNul.2
  refine ⟨rfl, hc.act hw hsrv hkeep (fun i hi => World.setMetadata_ne _ _ _ hi) (fun i hi => World.setWal_ne _ _ _ hi)
    (by simp) (by simp) (fun other hother c hl => ?_) (fun b k => ?_) fun _ _ _ _ => hr⟩
  · by_cases he : other.me = srv.me
    · rw [he, World.setMetadata_self] at hl
      rcases hl.of_upload with hl | ⟨ref, href, rfl⟩
      · exact hc.stays hother hkeep (he ▸ hl)
      · obtain ⟨p, hp, rfl⟩ := List.mem_map.1 href
        rw [show (Server.refOf H p).checksum = H.hex p from rfl, cstr_digest (H.digest p), hw.eq hsrv hother he]
        exact ⟨H.digest p, hstored p hp⟩
    · rw [World.setMetadata_ne _ _ _ he] at hl
      exact hc.stays hother hkeep hl
  · rw [World.setMetadata_self]
    by_cases hbk : b = name.bucket ∧ k = name.key
    · obtain ⟨rfl, rfl⟩ := hbk
      rw [Objects.set_self]
      have h1 := Tables.object_upload_self (w.metadata srv.me).tables (srv.metadataOf H name.bucket name.key body)
      have h2 := Tables.parts_upload_self (w.metadata srv.me).tables (srv.metadataOf H name.bucket name.key body)
      rw [show (srv.metadataOf H name.bucket name.key body).bucket = name.bucket from rfl,
        show (srv.metadataOf H name.bucket name.key body).key = name.key from rfl, hcb, hck] at h1 h2
      exact ⟨hb, h1, h2⟩
    · rw [Objects.set_other _ _ _ hbk]
      have hne : ¬ (b = cstr (srv.metadataOf H name.bucket name.key body).bucket ∧
          k = cstr (srv.metadataOf H name.bucket name.key body).key) := by
        show ¬ (b = cstr name.bucket ∧ k = cstr name.key)
        rwa [hcb, hck]
      have hrows := hc.rows srv hsrv b k
      unfold Server.Rows at hrows ⊢
      rw [Tables.object_upload_other _ _ hne, Tables.parts_upload_other _ _ hne]
      exact hrows

/-- An upload that is refused changes no objects. -/
theorem Consistent.put_refused (hash64 : Str → Nat) (hc : Consistent H S nodes w m) (hw : Working nodes) {srv : Server}
    (hsrv : srv ∈ nodes) (hq : 1 + (srv.chunks.peer.isSome.toNat : Int) < srv.chunks.write_quorum)
    (name : ObjectName) {body : Bytes}
    (hb : srv.CanStore S body) :
    (srv.handle H hash64 w (.put name body)).1.status = 500 ∧
      Consistent H S nodes (srv.handle H hash64 w (.put name body)).2 m := by
  obtain ⟨file, net', heq, hkeep⟩ := Server.handle_put_refused hash64 (hw.reachable srv hsrv) hq hc.sound
    (hc.logs srv hsrv) name hb.content
  rw [heq]
  have hact : Consistent H S nodes ((w.setWal srv.me ⟨file, true⟩).setNet net') (setObjects m srv.me (m srv.me)) :=
    hc.act hw hsrv hkeep (fun _ _ => rfl) (fun i hi => World.setWal_ne _ _ _ hi) (by simp) (hc.idle srv hsrv)
      (fun other hother c hl => hc.stays hother hkeep hl) (hc.rows srv hsrv) (hc.ready srv hsrv)
  exact ⟨rfl, by rwa [setObjects_self] at hact⟩

theorem Consistent.get (hash64 : Str → Nat) (hc : Consistent H S nodes w m) (hw : Working nodes) (hinj : Set.InjOn H.hex S)
    {srv : Server} (hsrv : srv ∈ nodes) (name : ObjectName) :
    ((Objects.serve (m srv.me) (.get name)).1).Matches (srv.handle H hash64 w (.get name)).1 ∧
      Consistent H S nodes (srv.handle H hash64 w (.get name)).2 m := by
  have hrows := hc.rows srv hsrv name.bucket name.key
  rw [Objects.serve]
  cases ho : m srv.me name.bucket name.key with
  | none =>
    rw [ho] at hrows
    rw [(Server.handle_missing name hrows).1]
    exact ⟨rfl, hc⟩
  | some body =>
    rw [ho] at hrows
    have hst : ∀ p ∈ chunk_bytes body srv.chunk_size, srv.Stored H w.net (H.hex p) := by
      intro p hp
      obtain ⟨r, hr, he⟩ := mem_parts_of_mem hrows hp
      exact (hc.stored srv hsrv (H.hex p) ⟨r, List.mem_of_mem_filter hr, he⟩).2
    obtain ⟨net', heq, hkeep⟩ := Server.handle_get_found hash64 (hc.ready srv hsrv _ _ body ho)
      (hc.started srv hsrv) hc.sound hinj name hrows hst
    rw [heq]
    refine ⟨⟨rfl, rfl⟩, ?_⟩
    have hact : Consistent H S nodes (w.setNet net') (setObjects m srv.me (m srv.me)) :=
      hc.act hw hsrv hkeep (fun _ _ => rfl) (fun _ _ => rfl) (hc.logs srv hsrv) (hc.idle srv hsrv)
        (fun other hother c hl => hc.stays hother hkeep hl) (hc.rows srv hsrv) (hc.ready srv hsrv)
    rwa [setObjects_self] at hact

theorem Consistent.delete (hc : Consistent H S nodes w m) (hw : Working nodes) {srv : Server}
    (hsrv : srv ∈ nodes) (name : ObjectName) (hd : CanDelete nodes w srv name) :
    ((Objects.serve (m srv.me) (.delete name)).1).Matches (srv.handle H hash64 w (.delete name)).1 ∧
      Consistent H S nodes (srv.handle H hash64 w (.delete name)).2
        (setObjects m srv.me (Objects.serve (m srv.me) (.delete name)).2) := by
  have hrows := hc.rows srv hsrv name.bucket name.key
  rw [Objects.serve]
  cases ho : m srv.me name.bucket name.key with
  | none =>
    rw [ho] at hrows
    rw [(Server.handle_missing name hrows).2, setObjects_self]
    exact ⟨rfl, hc⟩
  | some body =>
    rw [ho] at hrows
    have hreach := hw.reachable srv hsrv
    obtain ⟨file, heq⟩ := Server.handle_delete hash64 hreach (hc.logs srv hsrv) name hrows
    have hkeep := Server.removeParts_spec hash64 hreach {}
      ⟨(w.metadata srv.me).tables.erase name.bucket name.key, (w.metadata srv.me).saved, 1⟩
      ((chunk_bytes body srv.chunk_size).map (Server.refOf H)) 0 hc.sound (Server.digest_refs body srv.chunk_size)
    rw [heq]
    -- what a node lists in the end is still on one of its sources
    have hstored : ∀ other ∈ nodes, ∀ c, (tablesAfter w srv name other).Lists c → Digest c ∧ other.Stored H
        (srv.removeParts hash64 {} ⟨(w.metadata srv.me).tables.erase name.bucket name.key, (w.metadata srv.me).saved, 1⟩ 0
          ((chunk_bytes body srv.chunk_size).map (Server.refOf H)) w.net).2 c := by
      intro other hother c hl
      have hbefore : (w.metadata other.me).tables.Lists c := by
        unfold tablesAfter at hl
        split at hl
        · rename_i he
          rw [he]
          exact hl.of_erase
        · exact hl
      obtain ⟨hdigest, hst⟩ := hc.stored other hother c hbefore
      refine ⟨hdigest, ?_⟩
      by_cases hremoved : ∃ ref ∈ (chunk_bytes body srv.chunk_size).map (Server.refOf H), ref.checksum = c ∧
          int32 (((w.metadata srv.me).tables.erase name.bucket name.key).count c) ≤ 0
      · obtain ⟨ref, href, rfl, hcount⟩ := hremoved
        obtain ⟨p, hp, rfl⟩ := List.mem_map.1 href
        obtain ⟨r, hr, he⟩ := mem_parts_of_mem hrows hp
        obtain ⟨id, hid, hno, hexists⟩ := hd r hr (by rw [he]; exact hcount) other hother (by rw [he]; exact hl)
        rw [he] at hexists
        exact ⟨id, hid, hkeep.holds id _ (fun hcon => hno hcon.1) hdigest (((hc.sound id).holds_iff hdigest).2 hexists)⟩
      · refine hst.mono fun id => hkeep.holds id c (fun hcon => hremoved ?_) hdigest
        obtain ⟨-, ref, href, rfl, hcount⟩ := hcon
        refine ⟨ref, href, rfl, ?_⟩
        rwa [MetadataStore.chunk_ref_count, cstr_digest hdigest] at hcount
    refine ⟨rfl, hc.act hw hsrv hkeep (fun i hi => World.setMetadata_ne _ _ _ hi) (fun i hi => World.setWal_ne _ _ _ hi)
      (by simp) (by simp [hc.idle srv hsrv]) (fun other hother c hl => hstored other hother c ?_) (fun b k => ?_)
      fun b k body' hbody => ?_⟩
    · unfold tablesAfter
      rw [World.setNet_metadata] at hl
      split
      · rename_i he
        rwa [he, World.setMetadata_self] at hl
      · rename_i he
        rwa [World.setMetadata_ne _ _ _ he] at hl
    · rw [World.setNet_metadata, World.setMetadata_self]
      show srv.Rows H S _ b k ((m srv.me).set name none b k)
      by_cases hbk : b = name.bucket ∧ k = name.key
      · obtain ⟨rfl, rfl⟩ := hbk
        rw [Objects.set_self]
        exact ⟨Tables.object_erase_self _ _ _, Tables.parts_erase_self _ _ _⟩
      · rw [Objects.set_other _ _ _ hbk]
        have hrows := hc.rows srv hsrv b k
        unfold Server.Rows at hrows ⊢
        rw [Tables.object_erase_other hbk, Tables.parts_erase_other hbk]
        exact hrows
    · exact hc.ready srv hsrv name.bucket name.key body ho

/-- Every request that a node can serve gets the answer of its object store. -/
theorem Consistent.handle (hash64 : Str → Nat) (hc : Consistent H S nodes w m) (hw : Working nodes)
    (hinj : Set.InjOn H.hex S)
    {srv : Server} (hsrv : srv ∈ nodes) (q : Request) (hq : CanServe S nodes w srv q) :
    ((Objects.serve (m srv.me) q).1).Matches (srv.handle H hash64 w q).1 ∧
      Consistent H S nodes (srv.handle H hash64 w q).2 (setObjects m srv.me (Objects.serve (m srv.me) q).2) := by
  cases q with
  | put name body => exact hc.put hash64 hw hsrv hq.2 name hq.1
  | get name =>
    obtain ⟨h1, h2⟩ := hc.get hash64 hw hinj hsrv name
    have hsame : (Objects.serve (m srv.me) (.get name)).2 = m srv.me := by
      rw [Objects.serve]
      split <;> rfl
    rw [hsame, setObjects_self]
    exact ⟨h1, h2⟩
  | delete name => exact hc.delete hw hsrv name hq

end Cluster

/-! Objects of one bucket. -/

def objectX : ObjectName := ⟨lit "b", lit "x", by decide, by decide, by decide, by decide⟩

def objectY : ObjectName := ⟨lit "b", lit "y", by decide, by decide, by decide, by decide⟩

def objectZ : ObjectName := ⟨lit "b", lit "z", by decide, by decide, by decide, by decide⟩

end Dstore
