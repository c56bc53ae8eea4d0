import Dstore.Server.ObjectStore
/-!
# What a request changes

The PUT and DELETE handlers on any request, with every node in reach and no
faults. `Steady` is what they rely on and keep: the process has started, its
log and its database work, and its rows name chunks. A request then leaves
everything as it is, or it does what `putObject_steady` and
`deleteObject_steady` say to the rows and the chunks.

SQLite ends a text at its first NUL byte, so the rows of a request are those of
its truncated names.
-/
open Dstore.Lib

namespace Dstore

/-- The primary key of the table `objects`, and what the rows of `chunks` hold. -/
structure Tables.WellFormed (t : Tables) : Prop where
  keys : ∀ b k, (t.object b k).length ≤ 1
  digests : ∀ c, t.Lists c → Digest c

namespace Tables.WellFormed

variable {t : Tables}

theorem empty : ({} : Tables).WellFormed := by
  refine ⟨fun b k => Nat.zero_le _, fun c hl => ?_⟩
  obtain ⟨r, hr, -⟩ := hl
  cases hr

theorem upload (h : t.WellFormed) {m : ObjectMetadata} (hm : ∀ ref ∈ m.chunks, Digest ref.checksum) :
    (t.upload m).WellFormed := by
  refine ⟨fun b k => ?_, fun c hl => ?_⟩
  · by_cases hbk : b = cstr m.bucket ∧ k = cstr m.key
    · rw [hbk.1, hbk.2, Tables.object_upload_self]
      exact Nat.le_refl _
    · rw [Tables.object_upload_other _ _ hbk]
      exact h.keys b k
  · rcases hl.of_upload with hl | ⟨ref, href, rfl⟩
    · exact h.digests c hl
    · rw [cstr_digest (hm ref href)]
      exact hm ref href

theorem erase (h : t.WellFormed) (bucket key : Str) : (t.erase bucket key).WellFormed := by
  refine ⟨fun b k => ?_, fun c hl => h.digests c hl.of_erase⟩
  by_cases hbk : b = bucket ∧ k = key
  · rw [hbk.1, hbk.2, Tables.object_erase_self]
    exact Nat.zero_le _
  · rw [Tables.object_erase_other hbk]
    exact h.keys b k

end Tables.WellFormed

/-- A node on which nothing has failed. -/
structure Steady (H : HexHash) (S : Set Bytes) (srv : Server) (w : World) : Prop where
  sound : w.net.Sound H S
  started : (w.net.views srv.me).Started
  log : (w.wal srv.me).good = true
  idle : (w.metadata srv.me).saved = none
  rows : (w.metadata srv.me).tables.WellFormed

namespace Server

variable {H : HexHash} {hash64 : Str → Nat} {S : Set Bytes} {srv : Server} {w : World}

/-- What a served upload makes of the world: the record, the parts, the rows. -/
def uploaded (H : HexHash) (hash64 : Str → Nat) (srv : Server) (w : World) (body : Bytes) (file : Str)
    (db : MetadataStore) : World :=
  ((w.setWal srv.me ⟨file, true⟩).setNet
    (srv.putParts H hash64 (fun _ => {}) 0 (chunk_bytes body srv.chunk_size) [] w.net).2).setMetadata srv.me db

/-- What a served delete makes of it. -/
def deleted (hash64 : Str → Nat) (srv : Server) (w : World) (chunks : List ChunkRef) (file : Str)
    (db : MetadataStore) : World :=
  ((w.setWal srv.me ⟨file, true⟩).setMetadata srv.me db).setNet (srv.removeParts hash64 {} db 0 chunks w.net).2

/-- An upload is refused, or it stores the parts and then the rows; too many
rows are refused by their primary key. -/
theorem putObject_steady (hr : srv.Writable) (h : Steady H S srv w) (req : HttpRequest)
    (hS : ∀ p ∈ chunk_bytes req.body srv.chunk_size, p ∈ S) :
    (∃ status, (authorized w.net.token req .kWrite = .error status ∨ (object_path req.path).1 = [] ∨
      (object_path req.path).2 = []) ∧
      srv.putObject H hash64 {} req w = (status_response status, w)) ∨
    ((object_path req.path).1 ≠ [] ∧ (object_path req.path).2 ≠ [] ∧ authorized w.net.token req .kWrite = .ok () ∧
      ∃ file db, (srv.putObject H hash64 {} req w).2 = srv.uploaded H hash64 w req.body file db ∧ db.saved = none ∧
        ((srv.putObject H hash64 {} req w).1.status = 201 ∧ db.tables = (w.metadata srv.me).tables.upload
            (srv.metadataOf H (object_path req.path).1 (object_path req.path).2 req.body) ∨
          300 ≤ (srv.putObject H hash64 {} req w).1.status ∧ db.tables = (w.metadata srv.me).tables ∧
            2 ^ 32 < (chunk_bytes req.body srv.chunk_size).length)) := by
  cases hauth : authorized w.net.token req .kWrite with
  | error status => exact .inl ⟨status, .inl rfl, by simp only [putObject, hauth]⟩
  | ok u =>
    generalize hpath : object_path req.path = path
    obtain ⟨bucket, key⟩ := path
    by_cases hname : bucket = [] ∨ key = []
    · refine .inl ⟨.Invalid (lit "expected /v1/objects/\x7bbucket\x7d/\x7bkey\x7d"), .inr hname, ?_⟩
      simp only [putObject, hauth, hpath, if_pos hname]
    · obtain ⟨hb, hk⟩ := not_or.1 hname
      obtain ⟨file, happend⟩ := WriteAheadLog.append_good H h.log ⟨.kPutObject, objectName bucket key, H.hex req.body⟩
      obtain ⟨net', hput, -, -⟩ := putParts_spec hash64 hr (chunk_bytes req.body srv.chunk_size) 0 [] h.sound hS
      rw [List.nil_append] at hput
      have hm : (⟨bucket, key, req.body.length % 2 ^ 64, H.hex req.body, (chunk_bytes req.body srv.chunk_size).map (refOf H)⟩ :
          ObjectMetadata) = srv.metadataOf H bucket key req.body := rfl
      refine .inr ⟨hb, hk, rfl, ?_⟩
      rcases MetadataStore.put_object_cases h.idle (srv.metadataOf H bucket key req.body) with ⟨n, hok⟩ | ⟨hlen,
        status, n, hfail⟩
      · have heq : srv.putObject H hash64 {} req w =
            (⟨201, lit "application/json", putAnswer (srv.metadataOf H bucket key req.body)⟩,
              srv.uploaded H hash64 w req.body file
                ⟨(w.metadata srv.me).tables.upload (srv.metadataOf H bucket key req.body), none, n⟩) := by
          simp only [putObject, hauth, hpath, if_neg hname, happend, World.setWal_net, hput, World.setNet_metadata,
            World.setWal_metadata, hm, hok, uploaded]
        rw [heq]
        exact ⟨file, _, rfl, rfl, .inl ⟨rfl, rfl⟩⟩
      · have heq : srv.putObject H hash64 {} req w =
            (status_response status, srv.uploaded H hash64 w req.body file ⟨(w.metadata srv.me).tables, none, n⟩) := by
          simp only [putObject, hauth, hpath, if_neg hname, happend, World.setWal_net, hput, World.setNet_metadata,
            World.setWal_metadata, hm, hfail, uploaded]
        rw [heq]
        refine ⟨file, _, rfl, rfl, .inr ⟨status_response_ge status, rfl, ?_⟩⟩
        rwa [metadataOf, List.length_map] at hlen

/-- A delete is refused, or it removes the rows and then the chunks that it
finds unreferenced. -/
theorem deleteObject_steady (hash64 : Str → Nat) (hreach : srv.chunks.Reachable) (h : Steady H S srv w) (req : HttpRequest) :
    (∃ status, (authorized w.net.token req .kDelete = .error status ∨
        (w.metadata srv.me).get_object (object_path req.path).1 (object_path req.path).2 = .error status) ∧
      srv.deleteObject H hash64 {} req w = (status_response status, w)) ∨
    ∃ m file db, (w.metadata srv.me).get_object (object_path req.path).1 (object_path req.path).2 = .ok m ∧
      srv.deleteObject H hash64 {} req w = (⟨204, lit "application/json", []⟩, srv.deleted hash64 w m.chunks file db) ∧
      db.saved = none ∧ db.tables = (w.metadata srv.me).tables.erase (cstr (object_path req.path).1)
        (cstr (object_path req.path).2) := by
  cases hauth : authorized w.net.token req .kDelete with
  | error status => exact .inl ⟨status, .inl rfl, by simp only [deleteObject, hauth]⟩
  | ok u =>
    generalize hpath : object_path req.path = path
    obtain ⟨bucket, key⟩ := path
    cases hread : (w.metadata srv.me).get_object bucket key with
    | error status => exact .inl ⟨status, .inr rfl, by simp only [deleteObject, hauth, hpath, hread]⟩
    | ok m =>
      obtain ⟨file, happend⟩ := WriteAheadLog.append_good H h.log ⟨.kDeleteObject, objectName bucket key, lit "delete"⟩
      obtain ⟨htables, hresult⟩ := (w.metadata srv.me).delete_object_eq bucket key
      -- the object has one row
      have hone : ((w.metadata srv.me).tables.object (cstr bucket) (cstr key)).length = 1 := by
        have hle := h.rows.keys (cstr bucket) (cstr key)
        cases hrow : (w.metadata srv.me).tables.object (cstr bucket) (cstr key) with
        | nil =>
          rw [MetadataStore.get_object_missing hrow] at hread
          cases hread
        | cons row rest =>
          rw [hrow, List.length_cons] at hle
          rw [List.length_cons]
          omega
      rw [hone, int32_eq (by decide), if_neg (by decide)] at hresult
      rw [hone] at htables
      refine .inr ⟨m, file, ⟨(w.metadata srv.me).tables.erase (cstr bucket) (cstr key), (w.metadata srv.me).saved, 1⟩, rfl, ?_,
        h.idle, rfl⟩
      simp only [deleteObject, hauth, hpath, hread, happend, World.setWal_metadata]
      rw [← Prod.eta ((w.metadata srv.me).delete_object {} bucket key), hresult, htables]
      dsimp only
      rw [← Prod.eta (srv.removeParts hash64 {} _ 0 _ _), removeParts_ok hreach]
      rfl

/-! ## A steady node stays steady -/

theorem uploaded_steady (hash64 : Str → Nat) (hr : srv.Writable) (h : Steady H S srv w) {body : Bytes}
    (hS : ∀ p ∈ chunk_bytes body srv.chunk_size, p ∈ S) (file : Str) {db : MetadataStore} (hdb : db.saved = none)
    (hrows : db.tables.WellFormed) : Steady H S srv (srv.uploaded H hash64 w body file db) := by
  obtain ⟨net', hput, hkeep, -⟩ := putParts_spec hash64 hr (chunk_bytes body srv.chunk_size) 0 [] h.sound hS
  have hnet : (srv.uploaded H hash64 w body file db).net = net' := by
    show (srv.putParts H hash64 (fun _ => {}) 0 (chunk_bytes body srv.chunk_size) [] w.net).2 = net'
    rw [hput]
  refine ⟨hnet ▸ hkeep.sound, hnet ▸ hkeep.started h.started, ?_, ?_, ?_⟩
  · simp [uploaded]
  · simpa [uploaded] using hdb
  · simpa [uploaded] using hrows

theorem deleted_steady (hash64 : Str → Nat) (hreach : srv.chunks.Reachable) (h : Steady H S srv w) {chunks : List ChunkRef}
    (hd : ∀ ref ∈ chunks, Digest ref.checksum) (file : Str) {db : MetadataStore} (hdb : db.saved = none)
    (hrows : db.tables.WellFormed) : Steady H S srv (srv.deleted hash64 w chunks file db) := by
  have hkeep := removeParts_spec hash64 hreach {} db chunks 0 h.sound hd
  refine ⟨hkeep.sound, hkeep.started h.started, ?_, ?_, ?_⟩
  · simp [deleted]
  · simpa [deleted] using hdb
  · simpa [deleted] using hrows

end Server

end Dstore
