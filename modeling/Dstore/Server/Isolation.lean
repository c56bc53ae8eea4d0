import Dstore.Server.ObjectEffects
import Dstore.Server.Routes
import Dstore.Server.SingleNode
/-!
# Requests on different paths

A PUT or DELETE on one path and what a GET or a metadata request on another
path returns. The rows of an object stand under its bucket and key as SQLite
gets them, cut at the first NUL byte. Two paths whose cut names differ do not
disturb each other, whatever chunks their objects share
(`paths_isolated_iff`); two paths with one cut name are one object
(`nul_paths_collide`).

What a read returns depends on the rows of its name and on nothing else
(`reads_same`), as long as the chunks of the rows are stored.
-/
open Dstore.Lib

namespace Dstore

/-- A path that `parse_request` can produce and the PUT handler accepts. -/
structure ObjectPath where
  path : Str
  start : lit "/v1/objects/" <+: path
  word : ∀ c ∈ path, isspace c = false
  bucket_ne : (Server.object_path path).1 ≠ []
  key_ne : (Server.object_path path).2 ≠ []

namespace ObjectPath

variable (p : ObjectPath)

def bucket : Str := (Server.object_path p.path).1

def key : Str := (Server.object_path p.path).2

/-- The name in the rows. -/
def rowName : Str × Str := (cstr p.bucket, cstr p.key)

/-- The path of a metadata request for the object. -/
def metadataPath : Str := lit "/v1/metadata/" ++ p.path.drop (lit "/v1/objects/").length

theorem object_path_metadataPath (req : HttpRequest) (h : req.path = p.metadataPath) :
    Server.object_path (lit "/v1/objects/" ++ Server.after "/v1/metadata/" req) = (p.bucket, p.key) := by
  obtain ⟨rest, hrest⟩ := p.start
  have hafter : Server.after "/v1/metadata/" req = rest := by
    rw [Server.after, h, metadataPath, ← hrest, List.drop_left, List.drop_left]
  rw [hafter, hrest]
  rfl

/-- The split of a path into bucket and key loses nothing. -/
theorem path_eq : p.path = lit "/v1/objects/" ++ Server.objectName p.bucket p.key := by
  obtain ⟨rest, hrest⟩ := p.start
  have hb := p.bucket_ne
  have hpath : Server.object_path p.path = if rest.takeWhile (· ≠ Path.slash) = rest then ([], [])
      else (rest.takeWhile (· ≠ Path.slash), rest.drop ((rest.takeWhile (· ≠ Path.slash)).length + 1)) := by
    rw [Server.object_path, ← hrest, List.drop_left]
  by_cases hall : rest.takeWhile (· ≠ Path.slash) = rest
  · rw [hpath, if_pos hall] at hb
    exact absurd rfl hb
  · rw [if_neg hall] at hpath
    rw [bucket, key, hpath, Server.objectName, ← hrest]
    congr 1
    -- what follows the bucket starts with the slash that ended it
    have hsplit := List.takeWhile_append_dropWhile (p := fun c => decide (c ≠ Path.slash)) (l := rest)
    cases hdrop : rest.dropWhile (· ≠ Path.slash) with
    | nil =>
      rw [hdrop, List.append_nil] at hsplit
      exact absurd hsplit hall
    | cons c tail =>
      have hslash : c = Path.slash := by
        have hhead := List.head?_dropWhile_not (fun c => decide (c ≠ Path.slash)) rest
        rw [hdrop] at hhead
        simpa using hhead
      rw [hdrop, hslash] at hsplit
      have htail : rest.drop ((rest.takeWhile (· ≠ Path.slash)).length + 1) = tail := by
        nth_rewrite 2 [← hsplit]
        rw [← List.drop_drop, List.drop_left, List.drop_one, List.tail_cons]
      rw [htail]
      exact hsplit.symm

/-- Without NUL bytes, different paths have different names. -/
theorem rowName_injective {p q : ObjectPath} (hp : (0 : UInt8) ∉ p.path) (hq : (0 : UInt8) ∉ q.path)
    (h : p.rowName = q.rowName) : p.path = q.path := by
  have hcut : ∀ x : ObjectPath, (0 : UInt8) ∉ x.path → x.rowName = (x.bucket, x.key) := by
    intro x hx
    rw [x.path_eq, Server.objectName, List.mem_append, List.mem_append, List.mem_cons] at hx
    rw [rowName, cstr_eq fun h0 => hx (.inr (.inl h0)), cstr_eq fun h0 => hx (.inr (.inr (.inr h0)))]
  rw [hcut p hp, hcut q hq, Prod.mk.injEq] at h
  rw [p.path_eq, q.path_eq, h.1, h.2]

end ObjectPath

/-- A node on which nothing has failed and no listed chunk is lost. -/
structure Whole (H : HexHash) (S : Set Bytes) (srv : Server) (w : World) : Prop where
  steady : Steady H S srv w
  stored : ∀ c, (w.metadata srv.me).tables.Lists c → srv.Stored H w.net c

/-- The nodes of a cluster that serves requests are such. -/
theorem Consistent.whole {H : HexHash} {S : Set Bytes} {nodes : List Server} {w : World} {m : Str → Objects}
    (h : Consistent H S nodes w m) {srv : Server} (hsrv : srv ∈ nodes) : Whole H S srv w where
  steady := by
    refine ⟨h.sound, h.started srv hsrv, h.logs srv hsrv, h.idle srv hsrv, fun b k => ?_, fun c hl =>
      (h.stored srv hsrv c hl).1⟩
    have hrows := h.rows srv hsrv b k
    cases hm : m srv.me b k with
    | none =>
      rw [hm] at hrows
      rw [hrows.1]
      exact Nat.zero_le _
    | some body =>
      rw [hm] at hrows
      rw [hrows.2.1]
      exact Nat.le_refl _
  stored c hl := (h.stored srv hsrv c hl).2

namespace MetadataStore

/-- What is read of an object depends on its rows. -/
theorem get_object_congr {db db' : MetadataStore} {bucket key : Str}
    (ho : db'.tables.object (cstr bucket) (cstr key) = db.tables.object (cstr bucket) (cstr key))
    (hp : db'.tables.parts (cstr bucket) (cstr key) = db.tables.parts (cstr bucket) (cstr key)) :
    db'.get_object bucket key = db.get_object bucket key := by
  rw [get_object, get_object, ho, hp]

theorem get_object_error {db : MetadataStore} {bucket key : Str} {status : Status}
    (h : db.get_object bucket key = .error status) :
    db.tables.object (cstr bucket) (cstr key) = [] ∧ status = .NotFound (lit "object not found") := by
  rw [get_object] at h
  split at h
  · rename_i hnone
    exact ⟨hnone, (Except.error.inj h).symm⟩
  · cases h

end MetadataStore

namespace Server

variable {H : HexHash} {hash64 : Str → Nat} {S : Set Bytes} {srv : Server} {w w' : World}

/-! ## Reads -/

/-- What a read of chunks returns does not depend on where they are stored. -/
theorem getParts_same (hash64 : Str → Nat) (hr : srv.Writable) (hinj : Set.InjOn H.hex S) (refs : List ChunkRef)
    (hs : (w.net.views srv.me).Started) (h : w.net.Sound H S) (hs' : (w'.net.views srv.me).Started) (h' : w'.net.Sound H S)
    (hst : ∀ ref ∈ refs, Digest ref.checksum ∧ srv.Stored H w.net ref.checksum)
    (hst' : ∀ ref ∈ refs, Digest ref.checksum ∧ srv.Stored H w'.net ref.checksum) :
    (srv.getParts H hash64 {} 0 refs [] w'.net).1 = (srv.getParts H hash64 {} 0 refs [] w.net).1 := by
  by_cases hq : srv.chunks.read_quorum ≤ 1
  · obtain ⟨net, hparts, -⟩ := getParts_spec hash64 ⟨hr, hq⟩ hinj refs 0 [] hs h hst
    obtain ⟨net', hparts', -⟩ := getParts_spec hash64 ⟨hr, hq⟩ hinj refs 0 [] hs' h' hst'
    rw [hparts, hparts']
  · -- the quorum is out of reach, for any chunk
    cases refs with
    | nil => rfl
    | cons ref refs =>
      rw [getParts_short hr.reachable (by omega) hs h (hst ref List.mem_cons_self).1,
        getParts_short hr.reachable (by omega) hs' h' (hst ref List.mem_cons_self).1]

/-- The chunks of the object are stored, if it is there. -/
def Readable (H : HexHash) (srv : Server) (w : World) (q : ObjectPath) : Prop :=
  ∀ m, (w.metadata srv.me).get_object q.bucket q.key = .ok m →
    ∀ ref ∈ m.chunks, Digest ref.checksum ∧ srv.Stored H w.net ref.checksum

/-- Two worlds with the same rows of an object answer alike for it. -/
theorem reads_same (hr : srv.Writable) (hinj : Set.InjOn H.hex S) (h : Steady H S srv w) (h' : Steady H S srv w')
    (htoken : w'.net.token = w.net.token) {q : ObjectPath}
    (hread : (w'.metadata srv.me).get_object q.bucket q.key = (w.metadata srv.me).get_object q.bucket q.key)
    (hst : Readable H srv w q) (hst' : Readable H srv w' q) {get metadata : HttpRequest} (hget : get.path = q.path)
    (hmeta : metadata.path = q.metadataPath) :
    (srv.getObject H hash64 {} get w').1 = (srv.getObject H hash64 {} get w).1 ∧
      (srv.getMetadata metadata w').1 = (srv.getMetadata metadata w).1 := by
  have hpath : object_path get.path = (q.bucket, q.key) := by rw [hget]; rfl
  constructor
  · cases hauth : authorized w.net.token get .kRead with
    | error status => simp only [getObject, htoken, hauth]
    | ok u =>
      cases hm : (w.metadata srv.me).get_object q.bucket q.key with
      | error status => simp only [getObject, htoken, hauth, hpath, hread, hm]
      | ok m =>
        have hsame := getParts_same hash64 hr hinj m.chunks h.started h.sound h'.started h'.sound (hst m hm)
          (hst' m (hread.trans hm))
        simp only [getObject, htoken, hauth, hpath, hread, hm]
        generalize srv.getParts H hash64 {} 0 m.chunks [] w'.net = call' at hsame ⊢
        generalize srv.getParts H hash64 {} 0 m.chunks [] w.net = call at hsame ⊢
        obtain ⟨result, net⟩ := call
        obtain ⟨result', net'⟩ := call'
        obtain rfl : result' = result := hsame
        rcases result' with (status | -) | bytes
        · rfl
        · rfl
        · simp only
          split <;> rfl
  · have hmpath := q.object_path_metadataPath metadata hmeta
    cases hauth : authorized w.net.token metadata .kRead with
    | error status => simp only [getMetadata, htoken, hauth]
    | ok u =>
      cases hm : (w.metadata srv.me).get_object q.bucket q.key with
      | error status => simp only [getMetadata, htoken, hauth, hmpath, hread, hm]
      | ok m => simp only [getMetadata, htoken, hauth, hmpath, hread, hm]

/-- On a whole node every object can be read. -/
theorem readable_of_whole (h : Whole H S srv w) (q : ObjectPath) : Readable H srv w q := by
  intro m hm ref href
  have hl := MetadataStore.lists_of_get hm href
  exact ⟨h.steady.rows.digests _ hl, h.stored _ hl⟩

/-! ## Writes on another path -/

/-- Every chunk of the object is listed by no other row, or by a number of rows
that an `int` shows as positive. -/
def CountsShow (srv : Server) (w : World) (p : ObjectPath) : Prop :=
  ∀ r ∈ (w.metadata srv.me).tables.parts p.rowName.1 p.rowName.2,
    ((w.metadata srv.me).tables.erase p.rowName.1 p.rowName.2).count r.checksum = 0 ∨
      0 < int32 (((w.metadata srv.me).tables.erase p.rowName.1 p.rowName.2).count r.checksum)

/-- Whatever is put or deleted on the path `p`, a read and a metadata request on
`q` return what they returned before. -/
def Isolated (H : HexHash) (hash64 : Str → Nat) (S : Set Bytes) (srv : Server) (w : World) (p q : ObjectPath) : Prop :=
  ∀ get metadata : HttpRequest, get.path = q.path → metadata.path = q.metadataPath →
    (∀ put : HttpRequest, put.path = p.path → (∀ part ∈ chunk_bytes put.body srv.chunk_size, part ∈ S) →
      (srv.getObject H hash64 {} get (srv.putObject H hash64 {} put w).2).1 = (srv.getObject H hash64 {} get w).1 ∧
      (srv.getMetadata metadata (srv.putObject H hash64 {} put w).2).1 = (srv.getMetadata metadata w).1) ∧
    ∀ delete : HttpRequest, delete.path = p.path →
      (srv.getObject H hash64 {} get (srv.deleteObject H hash64 {} delete w).2).1 = (srv.getObject H hash64 {} get w).1 ∧
      (srv.getMetadata metadata (srv.deleteObject H hash64 {} delete w).2).1 = (srv.getMetadata metadata w).1

section Other
variable {p q : ObjectPath} (hne : p.rowName ≠ q.rowName)
include hne

theorem other_name : ¬ (cstr q.bucket = cstr p.bucket ∧ cstr q.key = cstr p.key) := by
  rintro ⟨hb, hk⟩
  exact hne (Prod.ext hb.symm hk.symm)

/-- An upload on another path. -/
theorem put_isolated (hr : srv.Writable) (hinj : Set.InjOn H.hex S) (h : Whole H S srv w) {put get metadata : HttpRequest}
    (hput : put.path = p.path) (hS : ∀ part ∈ chunk_bytes put.body srv.chunk_size, part ∈ S) (hget : get.path = q.path)
    (hmeta : metadata.path = q.metadataPath) :
    (srv.getObject H hash64 {} get (srv.putObject H hash64 {} put w).2).1 = (srv.getObject H hash64 {} get w).1 ∧
      (srv.getMetadata metadata (srv.putObject H hash64 {} put w).2).1 = (srv.getMetadata metadata w).1 := by
  rcases putObject_steady hr h.steady put hS with ⟨status, -, hrefused⟩ | ⟨-, -, -, file, db, hw, hidle, hrows⟩
  · rw [hrefused]
    exact ⟨rfl, rfl⟩
  · rw [hw]
    obtain ⟨net', hparts, hkeep, -⟩ := putParts_spec hash64 hr (chunk_bytes put.body srv.chunk_size) 0 [] h.steady.sound hS
    have hnet : (srv.uploaded H hash64 w put.body file db).net = net' := by
      show (srv.putParts H hash64 (fun _ => {}) 0 (chunk_bytes put.body srv.chunk_size) [] w.net).2 = net'
      rw [hparts]
    have hdb : (srv.uploaded H hash64 w put.body file db).metadata srv.me = db := World.setMetadata_self _ _ _
    have hwell : db.tables.WellFormed ∧ (db.get_object q.bucket q.key = (w.metadata srv.me).get_object q.bucket q.key) := by
      rcases hrows with ⟨-, hrows⟩ | ⟨-, hrows, -⟩
      · rw [hput] at hrows
        refine ⟨hrows ▸ h.steady.rows.upload fun ref href => ?_, MetadataStore.get_object_congr ?_ ?_⟩
        · obtain ⟨part, -, rfl⟩ := List.mem_map.1 href
          exact H.digest part
        · rw [hrows]
          exact Tables.object_upload_other _ _ (other_name hne)
        · rw [hrows]
          exact Tables.parts_upload_other _ _ (other_name hne)
      · refine ⟨hrows ▸ h.steady.rows, MetadataStore.get_object_congr ?_ ?_⟩
        · rw [hrows]
        · rw [hrows]
    have hsteady := uploaded_steady hash64 hr h.steady hS file hidle hwell.1
    refine reads_same hr hinj h.steady hsteady (by rw [hnet]; exact hkeep.token) (by rw [hdb]; exact hwell.2)
      (readable_of_whole h q) ?_ hget hmeta
    intro m hm ref href
    rw [hdb, hwell.2] at hm
    obtain ⟨hd, hst⟩ := readable_of_whole h q m hm ref href
    refine ⟨hd, ?_⟩
    rw [hnet]
    exact hst.mono fun id => hkeep.holds id _ trivial hd

/-- A delete on another path. -/
theorem delete_isolated (hr : srv.Writable) (hinj : Set.InjOn H.hex S) (h : Whole H S srv w)
    (hcounts : srv.CountsShow w p) {delete get metadata : HttpRequest} (hdelete : delete.path = p.path)
    (hget : get.path = q.path)
    (hmeta : metadata.path = q.metadataPath) :
    (srv.getObject H hash64 {} get (srv.deleteObject H hash64 {} delete w).2).1 = (srv.getObject H hash64 {} get w).1 ∧
      (srv.getMetadata metadata (srv.deleteObject H hash64 {} delete w).2).1 = (srv.getMetadata metadata w).1 := by
  rcases deleteObject_steady hash64 hr.reachable h.steady delete with ⟨status, -, hrefused⟩ | ⟨m, file, db, hread,
    heq, hidle, hrows⟩
  · rw [hrefused]
    exact ⟨rfl, rfl⟩
  · rw [heq]
    rw [hdelete] at hread hrows
    have hdigest : ∀ ref ∈ m.chunks, Digest ref.checksum :=
      fun ref href => h.steady.rows.digests _ (MetadataStore.lists_of_get hread href)
    have hkeep := removeParts_spec hash64 hr.reachable {} db m.chunks 0 h.steady.sound hdigest
    have hdb : (srv.deleted hash64 w m.chunks file db).metadata srv.me = db := World.setMetadata_self _ _ _
    have hsame : db.get_object q.bucket q.key = (w.metadata srv.me).get_object q.bucket q.key := by
      refine MetadataStore.get_object_congr ?_ ?_
      · rw [hrows]
        exact Tables.object_erase_other (other_name hne) _
      · rw [hrows]
        exact Tables.parts_erase_other (other_name hne) _
    have hsteady := deleted_steady hash64 hr.reachable h.steady hdigest file hidle (hrows ▸ h.steady.rows.erase _ _)
    refine reads_same hr hinj h.steady hsteady hkeep.token (by rw [hdb]; exact hsame) (readable_of_whole h q) ?_ hget hmeta
    intro mq hmq ref href
    rw [hdb] at hmq
    have hmq' := hmq
    rw [hsame] at hmq'
    obtain ⟨hd, hst⟩ := readable_of_whole h q mq hmq' ref href
    refine ⟨hd, hst.mono fun id => hkeep.holds id _ ?_ hd⟩
    -- a chunk of `q` is still listed, so the delete finds it referenced
    rintro ⟨-, ref', href', hsum, hcount⟩
    obtain ⟨r', hmem', hc'⟩ := (MetadataStore.read_chunks_iff hread).1 ⟨ref', href', rfl⟩
    have hlisted := MetadataStore.lists_of_get hmq href
    rw [MetadataStore.chunk_ref_count, cstr_digest hd] at hcount
    have hpos := Tables.lists_iff.1 hlisted
    rw [hrows] at hcount hpos
    have hshow : ((w.metadata srv.me).tables.erase (cstr (object_path p.path).1)
      (cstr (object_path p.path).2)).count r'.checksum = 0 ∨
        0 < int32 (((w.metadata srv.me).tables.erase (cstr (object_path p.path).1) (cstr (object_path p.path).2)).count r'.checksum) :=
      hcounts r' hmem'
    rw [hc', hsum] at hshow
    rcases hshow with hzero | hshow
    · exact absurd hzero (by omega)
    · exact absurd hcount (by omega)

theorem isolated_of_ne (hr : srv.Writable) (hinj : Set.InjOn H.hex S) (h : Whole H S srv w) (hcounts : srv.CountsShow w p) :
    srv.Isolated H hash64 S w p q := by
  intro get metadata hget hmeta
  exact ⟨fun put hput hS => put_isolated hne hr hinj h hput hS hget hmeta,
    fun delete hdelete => delete_isolated hne hr hinj h hcounts hdelete hget hmeta⟩

end Other

/-! ## Paths with one name -/

/-- A request with the token of the cluster. -/
def requestOf (method : String) (token path : Str) : HttpRequest where
  method := lit method
  path := path
  headers := (∅ : AList fun _ : Str => Str).insert (lit "authorization") (lit "Bearer " ++ token)

theorem authorized_requestOf (method : String) (token path : Str) (perm : Permission) :
    authorized token (requestOf method token path) perm = .ok () :=
  authorized_of_header _ (AList.lookup_insert _)

/-- A metadata request finds the object by its row. -/
theorem getMetadata_found_iff (srv : Server) (w : World) (q : ObjectPath) :
    (srv.getMetadata (requestOf "GET" w.net.token q.metadataPath) w).1.status = 200 ↔
      (w.metadata srv.me).tables.object q.rowName.1 q.rowName.2 ≠ [] := by
  have hpath := q.object_path_metadataPath (requestOf "GET" w.net.token q.metadataPath) rfl
  rw [getMetadata, authorized_requestOf]
  simp only [hpath]
  cases hm : (w.metadata srv.me).get_object q.bucket q.key with
  | error status =>
    have hge := status_response_ge status
    have hnone := (MetadataStore.get_object_error hm).1
    constructor
    · intro hok
      rw [show (status_response status).status = 200 from hok] at hge
      exact absurd hge (by decide)
    · intro hsome
      exact absurd hnone hsome
  | ok m =>
    refine ⟨fun _ hnone => ?_, fun _ => rfl⟩
    rw [MetadataStore.get_object_missing hnone] at hm
    cases hm

section Same
variable {p q : ObjectPath} (hsame : p.rowName = q.rowName)
include hsame

/-- An upload on a path with the same name makes the object appear. -/
theorem put_appears (hr : srv.Writable) (h : Steady H S srv w) (hS : ([] : Bytes) ∈ S) :
    ((srv.putObject H hash64 {} (requestOf "PUT" w.net.token p.path) w).2.metadata srv.me).tables.object q.rowName.1 q.rowName.2 ≠ [] ∧
      (srv.putObject H hash64 {} (requestOf "PUT" w.net.token p.path) w).2.net.token = w.net.token := by
  have hparts : chunk_bytes (requestOf "PUT" w.net.token p.path).body srv.chunk_size = [[]] := by
    simp [requestOf, chunk_bytes, chunkLoop]
  have hbody : ∀ part ∈ chunk_bytes (requestOf "PUT" w.net.token p.path).body srv.chunk_size, part ∈ S := by
    intro part hpart
    rw [hparts, List.mem_singleton] at hpart
    exact hpart ▸ hS
  rcases putObject_steady hr h (requestOf "PUT" w.net.token p.path) hbody with
    ⟨status, hwhy, -⟩ | ⟨-, -, -, file, db, hw, -, ⟨-, hrows⟩ | ⟨-, -, hlen⟩⟩
  · rw [authorized_requestOf] at hwhy
    rcases hwhy with hauth | hb | hk
    · cases hauth
    · exact absurd hb p.bucket_ne
    · exact absurd hk p.key_ne
  · obtain ⟨net', hput, hkeep, -⟩ :=
      putParts_spec hash64 hr (chunk_bytes (requestOf "PUT" w.net.token p.path).body srv.chunk_size) 0 []
      h.sound hbody
    rw [hw, uploaded, World.setMetadata_self, World.setMetadata_net, World.setNet_net, hput, hrows, ← hsame]
    refine ⟨?_, hkeep.token⟩
    have hself := Tables.object_upload_self (w.metadata srv.me).tables
      (srv.metadataOf H p.bucket p.key (requestOf "PUT" w.net.token p.path).body)
    exact fun hnone => List.cons_ne_nil _ _ (hself.symm.trans hnone)
  · rw [hparts] at hlen
    exact absurd hlen (by decide)

/-- A delete on a path with the same name makes it disappear. -/
theorem delete_disappears (hash64 : Str → Nat) (hreach : srv.chunks.Reachable) (h : Steady H S srv w)
    (hfound : (w.metadata srv.me).tables.object q.rowName.1 q.rowName.2 ≠ []) :
    ((srv.deleteObject H hash64 {} (requestOf "DELETE" w.net.token p.path) w).2.metadata srv.me).tables.object q.rowName.1 q.rowName.2 = [] ∧
      (srv.deleteObject H hash64 {} (requestOf "DELETE" w.net.token p.path) w).2.net.token = w.net.token := by
  rcases deleteObject_steady hash64 hreach h (requestOf "DELETE" w.net.token p.path) with
    ⟨status, hwhy, -⟩ | ⟨m, file, db, hread, heq, -, hrows⟩
  · rw [authorized_requestOf] at hwhy
    rcases hwhy with hauth | hmissing
    · cases hauth
    · rw [← hsame] at hfound
      exact absurd (MetadataStore.get_object_error hmissing).1 hfound
  · have hdigest : ∀ ref ∈ m.chunks, Digest ref.checksum :=
      fun ref href => h.rows.digests _ (MetadataStore.lists_of_get hread href)
    have hkeep := removeParts_spec hash64 hreach {} db m.chunks 0 h.sound hdigest
    rw [heq]
    refine ⟨?_, hkeep.token⟩
    show ((srv.deleted hash64 w m.chunks file db).metadata srv.me).tables.object _ _ = []
    rw [deleted, World.setNet_metadata, World.setMetadata_self, hrows, ← hsame]
    exact Tables.object_erase_self _ _ _

/-- One of the two requests is seen. -/
theorem not_isolated (hr : srv.Writable) (hempty : ([] : Bytes) ∈ S) (h : Whole H S srv w) :
    ¬ srv.Isolated H hash64 S w p q := by
  intro hiso
  obtain ⟨hput, hdelete⟩ := hiso (requestOf "GET" w.net.token q.path) (requestOf "GET" w.net.token q.metadataPath) rfl rfl
  have hbefore := getMetadata_found_iff srv w q
  by_cases hfound : (w.metadata srv.me).tables.object q.rowName.1 q.rowName.2 = []
  · obtain ⟨happears, htoken⟩ := put_appears hsame hr h.steady hempty
    have hafter := (getMetadata_found_iff srv _ q).2 happears
    rw [htoken, (hput (requestOf "PUT" w.net.token p.path) rfl ?_).2, hbefore] at hafter
    · exact hafter hfound
    · simpa [requestOf, chunk_bytes, chunkLoop] using hempty
  · obtain ⟨hgone, htoken⟩ := delete_disappears hsame hash64 hr.reachable h.steady hfound
    have hafter := (getMetadata_found_iff srv (srv.deleteObject H hash64 {} (requestOf "DELETE" w.net.token p.path) w).2 q).1
    rw [htoken, (hdelete (requestOf "DELETE" w.net.token p.path) rfl).2] at hafter
    exact hafter (hbefore.2 hfound) hgone

end Same

/-- What is written under one path is not seen under another, as long as the
names of the two differ before their first NUL byte; different paths without
NUL bytes always do. -/
theorem paths_isolated_iff (H : HexHash) (hash64 : Str → Nat) (S : Set Bytes) (hinj : Set.InjOn H.hex S)
    (hempty : ([] : Bytes) ∈ S)
    (srv : Server) (hr : srv.Writable) (w : World) (hw : Whole H S srv w) (p q : ObjectPath)
    (hcounts : srv.CountsShow w p) :
    (srv.Isolated H hash64 S w p q ↔ p.rowName ≠ q.rowName) ∧
      (p.path ≠ q.path → (0 : UInt8) ∉ p.path → (0 : UInt8) ∉ q.path → srv.Isolated H hash64 S w p q) := by
  have hiff : srv.Isolated H hash64 S w p q ↔ p.rowName ≠ q.rowName :=
    ⟨fun hiso hsame => not_isolated hsame hr hempty hw hiso, fun hne => isolated_of_ne hne hr hinj hw hcounts⟩
  exact ⟨hiff, fun hne hp hq => hiff.2 fun hsame => hne (ObjectPath.rowName_injective hp hq hsame)⟩

/-- Node A alone, after an upload to `b/y`. -/
def storedY : World := (aloneA.handle Sha256.hexHash sixthByte (World.start [aloneA]) (.put objectY (lit "ab"))).2

theorem storedY_whole : Whole Sha256.hexHash { [], lit "ab" } aloneA storedY := by
  have hfresh : Fresh Sha256.hexHash { [], lit "ab" } [aloneA] (World.start [aloneA]) := fresh_start (List.nodup_singleton _)
  have hcan : aloneA.CanStore { [], lit "ab" } (lit "ab") := ⟨by decide, by decide, by decide⟩
  exact (hfresh.consistent.put sixthByte aloneA_alone.working (List.mem_singleton_self _) aloneA_alone.ready objectY hcan).2.whole (List.mem_singleton_self _)

def pathY : ObjectPath := ⟨lit "/v1/objects/b/y", by decide, by decide +kernel, by decide, by decide⟩

/-- A key with a slash. -/
def pathYZ : ObjectPath := ⟨lit "/v1/objects/b/y/z", by decide, by decide +kernel, by decide, by decide⟩

/-- A key with a NUL byte. -/
def pathNul : ObjectPath := ⟨lit "/v1/objects/b/y\x00z", by decide, by decide +kernel, by decide, by decide⟩

instance (srv : Server) (w : World) (p : ObjectPath) : Decidable (srv.CountsShow w p) :=
  inferInstanceAs (Decidable (∀ r ∈ (w.metadata srv.me).tables.parts p.rowName.1 p.rowName.2, _))

theorem paths_isolated_slash : aloneA.Isolated Sha256.hexHash sixthByte { [], lit "ab" } storedY pathY pathYZ := by
  have hinj : Set.InjOn Sha256.hexHash.hex { [], lit "ab" } := by
    rw [Set.injOn_pair]
    intro h
    exact absurd h (by decide +kernel)
  have hcounts : aloneA.CountsShow storedY pathY := by
    rw [storedY, Sha256.hexHash_eq]
    decide +kernel
  exact (paths_isolated_iff Sha256.hexHash sixthByte _ hinj (.inl rfl) aloneA
    aloneA_alone.ready.toWritable storedY storedY_whole pathY pathYZ hcounts).1.2 (by decide)

/-- A delete of `b/y\0z` takes `b/y` away. -/
theorem nul_paths_collide :
    Whole Sha256.hexHash { [], lit "ab" } aloneA storedY ∧ pathNul.path ≠ pathY.path ∧
      (aloneA.getObject Sha256.hexHash sixthByte {} (requestOf "GET" storedY.net.token pathY.path) storedY).1.status = 200 ∧
      (aloneA.getObject Sha256.hexHash sixthByte {} (requestOf "GET" storedY.net.token pathY.path)
        (aloneA.deleteObject Sha256.hexHash sixthByte {} (requestOf "DELETE" storedY.net.token pathNul.path) storedY).2).1.status =
          404 ∧
      ¬ aloneA.Isolated Sha256.hexHash sixthByte { [], lit "ab" } storedY pathNul pathY := by
  have hbefore : (aloneA.getObject Sha256.hexHash sixthByte {} (requestOf "GET" storedY.net.token pathY.path) storedY).1.status =
      200 := by
    rw [storedY, Sha256.hexHash_eq]
    decide +kernel
  have hafter : (aloneA.getObject Sha256.hexHash sixthByte {} (requestOf "GET" storedY.net.token pathY.path)
      (aloneA.deleteObject Sha256.hexHash sixthByte {} (requestOf "DELETE" storedY.net.token pathNul.path) storedY).2).1.status =
        404 := by
    rw [storedY, Sha256.hexHash_eq]
    decide +kernel
  refine ⟨storedY_whole, by decide, hbefore, hafter, fun hiso => ?_⟩
  obtain ⟨hget, -⟩ := (hiso (requestOf "GET" storedY.net.token pathY.path)
    (requestOf "GET" storedY.net.token pathY.metadataPath)
    rfl rfl).2 (requestOf "DELETE" storedY.net.token pathNul.path) rfl
  rw [hget, hbefore] at hafter
  exact absurd hafter (by decide)

end Server

end Dstore
