import Dstore.Durability.Replay
import Dstore.Server.Concurrency
import Dstore.Server.SharedChunks
/-!
# Log before commit

The handlers of a node that crashes and is started again. A handler logs what
it is about to do before it changes a row, so every object has its put record
in the log, and an object that is gone has a delete record behind it
(`logged_before_commit`). This holds at every step of every run, whichever
calls fail, unless the process is started on a log whose last line has lost its
newline: `replay` accepts it, and the next record joins that line
(`record_lost_after_restart`).

The metadata of a process is seen in two ways: by the process itself, whose
open transaction shows, and by the one started after a crash.
-/
open Dstore.Lib

namespace Dstore

/-! ## Records -/

namespace WriteAheadLog

def IsPut (name : Str) (r : WalRecord) : Prop := r.type = .kPutObject ∧ r.key = name

def IsDelete (name : Str) (r : WalRecord) : Prop := r.type = .kDeleteObject ∧ r.key = name

instance (name : Str) (r : WalRecord) : Decidable (IsPut name r) := inferInstanceAs (Decidable (_ ∧ _))

/-- A delete record stands after the first put record of the name. -/
def DeletedAfterPut (records : List WalRecord) (name : Str) : Prop :=
  ∃ before put after, records = before ++ put :: after ∧ IsPut name put ∧ (∀ r ∈ before, ¬ IsPut name r) ∧
    ∃ delete ∈ after, IsDelete name delete

variable {records records' : List WalRecord} {name : Str}

/-- Later records change nothing about it. -/
theorem DeletedAfterPut.mono (h : DeletedAfterPut records name) (hp : records <+: records') :
    DeletedAfterPut records' name := by
  obtain ⟨before, put, after, rfl, hput, hbefore, delete, hmem, hdelete⟩ := h
  obtain ⟨rest, rfl⟩ := hp
  refine ⟨before, put, after ++ rest, ?_, hput, hbefore, delete, List.mem_append_left _ hmem, hdelete⟩
  rw [List.append_assoc, List.cons_append]

/-- A delete record is appended to a log that has a put. -/
theorem deletedAfterPut_append {put delete : WalRecord} (hmem : put ∈ records) (hput : IsPut name put)
    (hdelete : IsDelete name delete) : DeletedAfterPut (records ++ [delete]) name := by
  have hsome : (records.find? fun r => decide (IsPut name r)).isSome = true :=
    List.find?_isSome.2 ⟨put, hmem, decide_eq_true hput⟩
  obtain ⟨first, hfirst⟩ := Option.isSome_iff_exists.1 hsome
  obtain ⟨hp, before, after, rfl, hbefore⟩ := List.find?_eq_some_iff_append.1 hfirst
  refine ⟨before, first, after ++ [delete], ?_, of_decide_eq_true hp, fun r hr => ?_, delete, by simp, hdelete⟩
  · rw [List.append_assoc, List.cons_append]
  · simpa using hbefore r hr

end WriteAheadLog

open WriteAheadLog (records Ended DeletedAfterPut)

/-! ## Rows -/

/-- There is a row of the name. -/
def Tables.Has (t : Tables) (bucket key : Str) : Prop := ∃ row ∈ t.objects, row.bucket = bucket ∧ row.key = key

namespace MetadataStore

/-- A row that the process sees, or that is committed. -/
def Shows (db : MetadataStore) (row : ObjectRow) : Prop := row ∈ db.tables.objects ∨ row ∈ db.committed.objects

instance (db : MetadataStore) (row : ObjectRow) : Decidable (db.Shows row) := inferInstanceAs (Decidable (_ ∨ _))

theorem mem_withRow {rows : List ObjectRow} {row r : ObjectRow} (h : r ∈ withRow rows row) : r ∈ rows ∨ r = row := by
  rcases List.mem_append.1 h with h | h
  · exact .inl (List.mem_of_mem_filter h)
  · exact .inr (List.mem_singleton.1 h)

/-- A row that is replaced leaves one of its name. -/
theorem withRow_has {rows : List ObjectRow} (row : ObjectRow) {r : ObjectRow} (h : r ∈ rows) :
    ∃ r' ∈ withRow rows row, r'.bucket = r.bucket ∧ r'.key = r.key := by
  by_cases hof : r.isOf row.bucket row.key = true
  · have hname : r.bucket = row.bucket ∧ r.key = row.key := of_decide_eq_true hof
    exact ⟨row, by simp [withRow], hname.1.symm, hname.2.symm⟩
  · refine ⟨r, List.mem_append_left _ (List.mem_filter.2 ⟨h, ?_⟩), rfl, rfl⟩
    simpa using hof

/-- A row that a delete leaves out has the deleted name. -/
theorem mem_filter_or {rows : List ObjectRow} (bucket key : Str) {r : ObjectRow} (h : r ∈ rows) :
    r ∈ rows.filter (!·.isOf bucket key) ∨ r.bucket = bucket ∧ r.key = key := by
  by_cases hof : r.isOf bucket key = true
  · exact .inr (of_decide_eq_true hof)
  · refine .inl (List.mem_filter.2 ⟨h, ?_⟩)
    simpa using hof

end MetadataStore

/-- Each row that shows has its put record, and a committed object that the
process does not see any more has a delete record. -/
structure Covered (db : MetadataStore) (log : List WalRecord) : Prop where
  logged : ∀ row, db.Shows row → ⟨.kPutObject, Server.objectName row.bucket row.key, row.checksum⟩ ∈ log
  seen : ∀ bucket key, db.committed.Has bucket key →
    db.tables.Has bucket key ∨ DeletedAfterPut log (Server.objectName bucket key)

/-- What a step does to the database and the log: the log only grows, and an
object that goes has a delete record. -/
structure Advances (db : MetadataStore) (log : List WalRecord) (db' : MetadataStore) (log' : List WalRecord) : Prop where
  grows : log <+: log'
  gone : ∀ bucket key, db.committed.Has bucket key →
    db'.committed.Has bucket key ∨ DeletedAfterPut log' (Server.objectName bucket key)

section Covered
variable {db db' db'' : MetadataStore} {log log' log'' : List WalRecord}

theorem Advances.refl (db : MetadataStore) (log : List WalRecord) : Advances db log db log :=
  ⟨List.prefix_rfl, fun _ _ h => .inl h⟩

theorem Advances.trans (h : Advances db log db' log') (h' : Advances db' log' db'' log'') : Advances db log db'' log'' where
  grows := h.grows.trans h'.grows
  gone bucket key hhas := by
    rcases h.gone bucket key hhas with hhas | hdel
    · exact h'.gone bucket key hhas
    · exact .inr (hdel.mono h'.grows)

theorem Advances.of_log (db : MetadataStore) (h : log <+: log') : Advances db log db log' :=
  ⟨h, fun _ _ h => .inl h⟩

theorem Covered.of_log (h : Covered db log) (hp : log <+: log') : Covered db log' :=
  ⟨fun row hrow => hp.subset (h.logged row hrow), fun bucket key hhas => (h.seen bucket key hhas).imp_right (·.mono hp)⟩

/-- A crash loses the view of the process. -/
theorem Covered.reopen (h : Covered db log) : Covered db.reopen log :=
  ⟨fun row hrow => h.logged row (.inr (hrow.elim id id)), fun _ _ hhas => .inl hhas⟩

/-- The objects are as they were. -/
theorem Covered.same (h : Covered db log) (ht : db'.tables.objects = db.tables.objects)
    (hc : db'.committed.objects = db.committed.objects) : Covered db' log ∧ Advances db log db' log := by
  have hhas : ∀ bucket key, db'.committed.Has bucket key ↔ db.committed.Has bucket key := by simp [Tables.Has, hc]
  refine ⟨⟨fun row hrow => h.logged row ?_, fun bucket key hcom => ?_⟩, List.prefix_rfl, fun bucket key hcom =>
    .inl ((hhas bucket key).2 hcom)⟩
  · simpa only [MetadataStore.Shows, ht, hc] using hrow
  · simpa only [Tables.Has, ht] using h.seen bucket key ((hhas bucket key).1 hcom)

/-- A logged upload. -/
theorem Covered.put_object (h : Covered db log) (fails : MetadataStore.PutFaults) (m : ObjectMetadata)
    (hlog : ⟨.kPutObject, Server.objectName (cstr m.bucket) (cstr m.key), cstr m.checksum⟩ ∈ log) :
    Covered (db.put_object fails m).2 log ∧ Advances db log (db.put_object fails m).2 log := by
  rcases db.put_object_objects fails m with ⟨ht, hc⟩ | ⟨hidle, ht, hc⟩
  · exact h.same ht hc
  · generalize (db.put_object fails m).2 = db' at ht hc
    have hold : db.committed = db.tables := by rw [MetadataStore.committed, hidle]; rfl
    -- the rows on disk are those before or those the process sees
    have hnew : ∀ row ∈ MetadataStore.withRow db.tables.objects (MetadataStore.objectRow m),
        ⟨.kPutObject, Server.objectName row.bucket row.key, row.checksum⟩ ∈ log := by
      intro row hrow
      rcases MetadataStore.mem_withRow hrow with hrow | rfl
      · exact h.logged row (.inl hrow)
      · exact hlog
    have hkeep : ∀ bucket key, db.tables.Has bucket key → db'.tables.Has bucket key := by
      rintro bucket key ⟨row, hrow, rfl, rfl⟩
      obtain ⟨row', hrow', hname⟩ := MetadataStore.withRow_has (MetadataStore.objectRow m) hrow
      exact ⟨row', ht ▸ hrow', hname⟩
    rcases hc with hc | hc
    · have hcom : ∀ bucket key, db'.committed.Has bucket key ↔ db.tables.Has bucket key := by simp [Tables.Has, hc]
      refine ⟨⟨fun row hrow => ?_, fun bucket key hhas => ?_⟩, List.prefix_rfl, fun bucket key hhas => .inl ?_⟩
      · rcases hrow with hrow | hrow
        · exact hnew row (ht ▸ hrow)
        · exact h.logged row (.inl (hc ▸ hrow))
      · exact .inl (hkeep bucket key ((hcom bucket key).1 hhas))
      · rw [hold] at hhas
        exact (hcom bucket key).2 hhas
    · have hcom : ∀ bucket key, db'.committed.Has bucket key ↔ db'.tables.Has bucket key := by simp [Tables.Has, hc, ht]
      refine ⟨⟨fun row hrow => ?_, fun bucket key hhas => ?_⟩, List.prefix_rfl, fun bucket key hhas => .inl ?_⟩
      · exact hnew row (hrow.elim (ht ▸ ·) (hc ▸ ·))
      · exact .inl ((hcom bucket key).1 hhas)
      · rw [hold] at hhas
        exact (hcom bucket key).2 (hkeep bucket key hhas)

/-- A logged delete. -/
theorem Covered.delete_object (h : Covered db log) (fails : MetadataStore.DeleteFaults) (bucket key : Str)
    (hlog : DeletedAfterPut log (Server.objectName (cstr bucket) (cstr key))) :
    Covered (db.delete_object fails bucket key).2 log ∧ Advances db log (db.delete_object fails bucket key).2 log := by
  rcases db.delete_object_objects fails bucket key with ⟨ht, hc⟩ | ⟨ht, hc⟩
  · exact h.same ht hc
  · generalize (db.delete_object fails bucket key).2 = db' at ht hc
    have hview : ∀ b k, db.tables.Has b k → db'.tables.Has b k ∨ DeletedAfterPut log (Server.objectName b k) := by
      rintro b k ⟨row, hrow, rfl, rfl⟩
      rcases MetadataStore.mem_filter_or (cstr bucket) (cstr key) hrow with hrow | ⟨hb, hk⟩
      · exact .inl ⟨row, ht ▸ hrow, rfl, rfl⟩
      · rw [hb, hk]
        exact .inr hlog
    have hdisk : ∀ b k, db.committed.Has b k → db'.committed.Has b k ∨ DeletedAfterPut log (Server.objectName b k) := by
      rintro b k ⟨row, hrow, rfl, rfl⟩
      rcases hc with hc | hc
      · exact .inl ⟨row, hc ▸ hrow, rfl, rfl⟩
      · rcases MetadataStore.mem_filter_or (cstr bucket) (cstr key) hrow with hrow | ⟨hb, hk⟩
        · exact .inl ⟨row, hc ▸ hrow, rfl, rfl⟩
        · rw [hb, hk]
          exact .inr hlog
    have hcom : ∀ row ∈ db'.committed.objects, row ∈ db.committed.objects := by
      intro row hrow
      rcases hc with hc | hc
      · exact hc ▸ hrow
      · rw [hc] at hrow
        exact List.mem_of_mem_filter hrow
    refine ⟨⟨fun row hrow => h.logged row ?_, fun b k hhas => ?_⟩, List.prefix_rfl, hdisk⟩
    · rcases hrow with hrow | hrow
      · rw [ht] at hrow
        exact .inl (List.mem_of_mem_filter hrow)
      · exact .inr (hcom row hrow)
    · obtain ⟨row, hrow, hname⟩ := hhas
      rcases h.seen b k ⟨row, hcom row hrow, hname⟩ with hhas | hdel
      · exact hview b k hhas
      · exact .inr hdel

end Covered

/-! ## Names -/

/-- A request whose path is one word without a NUL byte. -/
abbrev PlainRequest := { req : HttpRequest // ∀ c ∈ req.path, c ≠ 0 ∧ isspace c = false }

/-- A bucket and a key out of such a path. -/
structure PlainName (bucket key : Str) : Prop where
  bucket : ∀ c ∈ bucket, c ≠ 0 ∧ isspace c = false
  key : ∀ c ∈ key, c ≠ 0 ∧ isspace c = false

theorem PlainRequest.name (req : PlainRequest) :
    PlainName (Server.object_path req.val.path).1 (Server.object_path req.val.path).2 := by
  have hrest : ∀ c ∈ req.val.path.drop (lit "/v1/objects/").length, c ≠ 0 ∧ isspace c = false :=
    fun c hc => req.property c (List.mem_of_mem_drop hc)
  unfold Server.object_path
  simp only
  split
  · exact ⟨by simp, by simp⟩
  · exact ⟨fun c hc => hrest c (List.takeWhile_sublist _ |>.subset hc), fun c hc => hrest c (List.mem_of_mem_drop hc)⟩

namespace PlainName

variable {bucket key : Str} (h : PlainName bucket key)
include h

theorem cstr_bucket : cstr bucket = bucket := cstr_eq fun h0 => (h.bucket 0 h0).1 rfl

theorem cstr_key : cstr key = key := cstr_eq fun h0 => (h.key 0 h0).1 rfl

/-- Nothing in the name is a separator of the log. -/
theorem not_mem {c : UInt8} (hs : isspace c = true) : c ∉ Server.objectName bucket key := by
  intro hc
  rcases List.mem_append.1 hc with hc | hc
  · rw [(h.bucket c hc).2] at hs
    cases hs
  · rcases List.mem_cons.1 hc with rfl | hc
    · exact absurd hs (by decide)
    · rw [(h.key c hc).2] at hs
      cases hs

theorem clean_put (H : HexHash) (body : Bytes) :
    WriteAheadLog.Clean ⟨.kPutObject, Server.objectName bucket key, H.hex body⟩ :=
  ⟨h.not_mem (by decide), h.not_mem (by decide), not_mem_digest (H.digest body) (by decide),
    not_mem_digest (H.digest body) (by decide)⟩

theorem clean_delete : WriteAheadLog.Clean ⟨.kDeleteObject, Server.objectName bucket key, lit "delete"⟩ :=
  ⟨h.not_mem (by decide), h.not_mem (by decide), show tab ∉ lit "delete" by decide, show newline ∉ lit "delete" by decide⟩

end PlainName

/-! ## One step of a handler -/

namespace Thread

/-- What a handler has logged before its next step. -/
def Logged (H : HexHash) (log : List WalRecord) : Thread → Prop
  | .putLog bucket key _ | .deleteRead bucket key => PlainName bucket key
  | .putChunks bucket key body _ _ =>
    PlainName bucket key ∧ ⟨.kPutObject, Server.objectName bucket key, H.hex body⟩ ∈ log
  | .deleteLog bucket key _ => PlainName bucket key ∧ ∃ r ∈ log, WriteAheadLog.IsPut (Server.objectName bucket key) r
  | .deleteRows bucket key _ => PlainName bucket key ∧ DeletedAfterPut log (Server.objectName bucket key)
  | .deleteCount _ | .deleteRemove _ _ _ | .done _ => True

variable {H : HexHash} {hash64 : Str → Nat} {srv : Server} {w : World} {log log' : List WalRecord}

theorem Logged.mono {t : Thread} (h : t.Logged H log) (hp : log <+: log') : t.Logged H log' := by
  cases t with
  | putChunks bucket key body refs parts => exact ⟨h.1, hp.subset h.2⟩
  | deleteLog bucket key chunks =>
    obtain ⟨hname, r, hr, hput⟩ := h
    exact ⟨hname, r, hp.subset hr, hput⟩
  | deleteRows bucket key chunks => exact ⟨h.1, h.2.mono hp⟩
  | _ => exact h

theorem logged_put (token : Str) (req : PlainRequest) : (put token req.val).Logged H log := by
  have hname := req.name
  unfold put
  split
  · trivial
  · generalize Server.object_path req.val.path = name at hname
    obtain ⟨bucket, key⟩ := name
    simp only
    split
    · trivial
    · exact hname

theorem logged_delete (token : Str) (req : PlainRequest) : (delete token req.val).Logged H log := by
  have hname := req.name
  unfold delete
  split
  · trivial
  · exact hname

end Thread

/-- The log and the rows of a node agree. -/
structure Tracked (H : HexHash) (srv : Server) (w : World) : Prop where
  ended : (w.wal srv.me).good = true → Ended (w.wal srv.me).file
  covered : Covered (w.metadata srv.me) (records H (w.wal srv.me).file)

/-- What a step does to the log and the rows of its node. -/
structure Thread.Tracks (H : HexHash) (srv : Server) (w : World) (next : Thread × World) : Prop where
  tracked : Tracked H srv next.2
  advances : Advances (w.metadata srv.me) (records H (w.wal srv.me).file) (next.2.metadata srv.me)
    (records H (next.2.wal srv.me).file)
  logged : next.1.Logged H (records H (next.2.wal srv.me).file)

namespace Thread

variable {H : HexHash} {hash64 : Str → Nat} {srv : Server} {w : World}

/-- A step that leaves the world as it is. -/
theorem Tracks.of_read (hw : Tracked H srv w) {t : Thread} (ht : t.Logged H (records H (w.wal srv.me).file)) :
    Tracks H srv w (t, w) :=
  ⟨hw, .refl _ _, ht⟩

/-- A step on the chunks. -/
theorem Tracks.of_net (hw : Tracked H srv w) (net : Net) {t : Thread} (ht : t.Logged H (records H (w.wal srv.me).file)) :
    Tracks H srv w (t, w.setNet net) :=
  ⟨⟨hw.ended, hw.covered⟩, .refl _ _, ht⟩

/-- A step that logs a record. -/
theorem Tracks.of_append (hw : Tracked H srv w) (fault : Option Nat) {r : WalRecord} (hr : WriteAheadLog.Clean r)
    {t : Thread}
    (ht : ((w.wal srv.me).append H fault r).1 = .ok () →
      t.Logged H (records H (w.wal srv.me).file ++ [r])) (hfail : ((w.wal srv.me).append H fault r).1 ≠ .ok () →
      ∃ response, t = .done response) :
    Tracks H srv w (t, w.setWal srv.me ((w.wal srv.me).append H fault r).2) := by
  obtain ⟨hgrows, hended, hadded⟩ := WriteAheadLog.append_records (H := H) hw.ended fault hr
  generalize (w.wal srv.me).append H fault r = call at hgrows hended hadded ht hfail
  obtain ⟨result, log⟩ := call
  refine ⟨⟨?_, ?_⟩, ?_, ?_⟩
  · rw [World.setWal_self]
    exact hended
  · rw [World.setWal_self, World.setWal_metadata]
    exact hw.covered.of_log hgrows
  · rw [World.setWal_self, World.setWal_metadata]
    exact .of_log _ hgrows
  · rw [World.setWal_self]
    by_cases hok : result = .ok ()
    · rw [hadded hok]
      exact ht hok
    · obtain ⟨response, rfl⟩ := hfail hok
      trivial

/-- A step on the rows. -/
theorem Tracks.of_rows (hw : Tracked H srv w) {db : MetadataStore} {t : Thread}
    (h : Covered db (records H (w.wal srv.me).file) ∧
      Advances (w.metadata srv.me) (records H (w.wal srv.me).file) db (records H (w.wal srv.me).file))
    (ht : t.Logged H (records H (w.wal srv.me).file)) : Tracks H srv w (t, w.setMetadata srv.me db) := by
  refine ⟨⟨?_, ?_⟩, ?_, ?_⟩
  · rw [World.setMetadata_wal]; exact hw.ended
  · rw [World.setMetadata_wal, World.setMetadata_self]; exact h.1
  · rw [World.setMetadata_wal, World.setMetadata_self]; exact h.2
  · rw [World.setMetadata_wal]; exact ht

variable (cond : StepConditions)

theorem track_putLog (hw : Tracked H srv w) {bucket key : Str} (body : Bytes) (hname : PlainName bucket key) :
    Tracks H srv w (step H hash64 srv cond (.putLog bucket key body) w) := by
  have h := fun t ht hf => Tracks.of_append hw cond.wal (hname.clean_put H body) (t := t) ht hf
  rw [step]
  generalize (w.wal srv.me).append H cond.wal ⟨.kPutObject, Server.objectName bucket key, H.hex body⟩ = call at h
  obtain ⟨r, log⟩ := call
  cases r with
  | error status => exact h _ (fun hok => by cases hok) fun _ => ⟨_, rfl⟩
  | ok u => exact h _ (fun _ => ⟨hname, by simp⟩) fun hf => absurd rfl hf

theorem track_putChunk (hw : Tracked H srv w) {bucket key : Str} {body : Bytes} {refs : List ChunkRef} (part : Bytes)
    (rest : List Bytes) (ht : Logged H (records H (w.wal srv.me).file) (.putChunks bucket key body refs (part :: rest))) :
    Tracks H srv w (step H hash64 srv cond (.putChunks bucket key body refs (part :: rest)) w) := by
  rw [step]
  generalize srv.chunks.put H hash64 cond.chunk w.net part = call
  obtain ⟨r, net⟩ := call
  cases r with
  | error status => exact .of_net hw net trivial
  | ok ref => exact .of_net hw net ht

/-- The commit: its put record is in the log. -/
theorem track_putRows (hw : Tracked H srv w) {bucket key : Str} {body : Bytes} (refs : List ChunkRef)
    (ht : Logged H (records H (w.wal srv.me).file) (.putChunks bucket key body refs [])) :
    Tracks H srv w (step H hash64 srv cond (.putChunks bucket key body refs []) w) := by
  obtain ⟨hname, hlog⟩ := ht
  have h := hw.covered.put_object cond.put ⟨bucket, key, body.length % 2 ^ 64, H.hex body, refs⟩ (by
    rw [hname.cstr_bucket, hname.cstr_key, cstr_digest (H.digest body)]
    exact hlog)
  rw [step]
  generalize (w.metadata srv.me).put_object cond.put ⟨bucket, key, body.length % 2 ^ 64, H.hex body, refs⟩ = call at h
  obtain ⟨r, db⟩ := call
  cases r with
  | error status => exact .of_rows hw h trivial
  | ok u => exact .of_rows hw h trivial

/-- An object that a delete finds has a put record. -/
theorem track_deleteRead (hw : Tracked H srv w) {bucket key : Str} (hname : PlainName bucket key) :
    Tracks H srv w (step H hash64 srv cond (.deleteRead bucket key) w) := by
  rw [step]
  cases hread : (w.metadata srv.me).get_object bucket key with
  | error status => exact .of_read hw trivial
  | ok m =>
    refine .of_read hw ⟨hname, ?_⟩
    rw [MetadataStore.get_object, hname.cstr_bucket, hname.cstr_key] at hread
    split at hread
    · cases hread
    · rename_i row rest hrow
      have hmem : row ∈ (w.metadata srv.me).tables.object bucket key := by rw [hrow]; exact List.mem_cons_self
      obtain ⟨hrow, hof⟩ := List.mem_filter.1 hmem
      obtain ⟨hb, hk⟩ : row.bucket = bucket ∧ row.key = key := of_decide_eq_true hof
      exact ⟨_, hw.covered.logged row (.inl hrow), rfl, by rw [hb, hk]⟩

theorem track_deleteLog (hw : Tracked H srv w) {bucket key : Str} (chunks : List ChunkRef)
    (ht : Logged H (records H (w.wal srv.me).file) (.deleteLog bucket key chunks)) :
    Tracks H srv w (step H hash64 srv cond (.deleteLog bucket key chunks) w) := by
  obtain ⟨hname, r, hr, hput⟩ := ht
  have h := fun t ht hf => Tracks.of_append hw cond.wal hname.clean_delete (t := t) ht hf
  rw [step]
  generalize (w.wal srv.me).append H cond.wal ⟨.kDeleteObject, Server.objectName bucket key, lit "delete"⟩ = call at h
  obtain ⟨result, log⟩ := call
  cases result with
  | error status => exact h _ (fun hok => by cases hok) fun _ => ⟨_, rfl⟩
  | ok u =>
    refine h _ (fun _ => ⟨hname, ?_⟩) fun hf => absurd rfl hf
    exact WriteAheadLog.deletedAfterPut_append hr hput ⟨rfl, rfl⟩

theorem track_deleteRows (hw : Tracked H srv w) {bucket key : Str} (chunks : List ChunkRef)
    (ht : Logged H (records H (w.wal srv.me).file) (.deleteRows bucket key chunks)) :
    Tracks H srv w (step H hash64 srv cond (.deleteRows bucket key chunks) w) := by
  obtain ⟨hname, hlog⟩ := ht
  have h := hw.covered.delete_object cond.delete bucket key (by
    rw [hname.cstr_bucket, hname.cstr_key]
    exact hlog)
  rw [step]
  generalize (w.metadata srv.me).delete_object cond.delete bucket key = call at h
  obtain ⟨r, db⟩ := call
  cases r with
  | error status => exact .of_rows hw h trivial
  | ok u => exact .of_rows hw h trivial

theorem track_step (hw : Tracked H srv w) {t : Thread} (ht : t.Logged H (records H (w.wal srv.me).file)) :
    Tracks H srv w (step H hash64 srv cond t w) := by
  cases t with
  | putLog bucket key body => exact track_putLog cond hw body ht
  | putChunks bucket key body refs parts =>
    cases parts with
    | nil => exact track_putRows cond hw refs ht
    | cons part rest => exact track_putChunk cond hw part rest ht
  | deleteRead bucket key => exact track_deleteRead cond hw ht
  | deleteLog bucket key chunks => exact track_deleteLog cond hw chunks ht
  | deleteRows bucket key chunks => exact track_deleteRows cond hw chunks ht
  | deleteCount chunks =>
    cases chunks with
    | nil => exact .of_read hw trivial
    | cons ref rest => exact .of_read hw trivial
  | deleteRemove c references rest =>
    rw [step]
    rcases srv.chunks.remove hash64 cond.disk cond.deliver w.net c references with ⟨(status | -) | u, net⟩
    · exact .of_net hw net trivial
    · exact .of_net hw net trivial
    · exact .of_net hw net trivial
  | done r => exact .of_read hw trivial

end Thread

/-! ## Crashes and restarts -/

/-- The process is gone: an open transaction is undone, the stream is closed. -/
def World.crash (w : World) (srv : Server) : World :=
  (w.setMetadata srv.me (w.metadata srv.me).reopen).setWal srv.me ⟨(w.wal srv.me).file, false⟩

/-- A node whose process runs, or is down. -/
structure Process where
  pool : Pool
  running : Bool := true

inductive ProcessMove where
  | put (req : PlainRequest)
  | delete (req : PlainRequest)
  | step (i : Nat) (cond : StepConditions := {})
  | crash
  | start

namespace Process

section Defs
variable (H : HexHash) (hash64 : Str → Nat) (srv : Server)

abbrev db (s : Process) : MetadataStore := s.pool.world.metadata srv.me

/-- The file of the log. -/
abbrev file (s : Process) : Str := (s.pool.world.wal srv.me).file

/-- `main` goes on after `wal.replay()`. -/
def replays (s : Process) : Bool :=
  match WriteAheadLog.replay H (some (s.file srv)) with
  | some (.ok _) => true
  | _ => false

/-- A process that is down serves nothing. -/
def serve (s : Process) (m : Move) : Process := if s.running then { s with pool := s.pool.exec H hash64 srv m } else s

def exec (s : Process) : ProcessMove → Process
  | .put req => s.serve H hash64 srv (.put req.val)
  | .delete req => s.serve H hash64 srv (.delete req.val)
  | .step i cond => s.serve H hash64 srv (.step i cond)
  | .crash => ⟨⟨s.pool.world.crash srv, []⟩, false⟩
  | .start => if s.running = false ∧ s.replays H srv = true then ⟨⟨s.pool.world.restart srv, []⟩, true⟩ else s

/-- A log that a start accepts has its last newline. -/
def Legal (s : Process) : ProcessMove → Prop
  | .put _ | .delete _ | .step _ _ | .crash => True
  | .start => s.replays H srv = true → Ended (s.file srv)

instance (s : Process) : ∀ m, Decidable (s.Legal H srv m)
  | .put _ | .delete _ | .step _ _ | .crash => inferInstanceAs (Decidable True)
  | .start => inferInstanceAs (Decidable (_ → _))

/-- The log and the rows agree, and each handler has logged what it is about to
do. -/
structure Inv (s : Process) : Prop where
  tracked : Tracked H srv s.pool.world
  threads : ∀ t ∈ s.pool.threads, t.Logged H (records H (s.file srv))

/-- What happens between two states of a node. -/
def Advanced (s s' : Process) : Prop :=
  Advances (s.db srv) (records H (s.file srv)) (s'.db srv) (records H (s'.file srv))

end Defs

variable {H : HexHash} {hash64 : Str → Nat} {srv : Server} {s : Process}

/-- A handler starts. -/
theorem Inv.append (h : s.Inv H srv) {t : Thread} (ht : t.Logged H (records H (s.file srv))) :
    Inv H srv { s with pool := { s.pool with threads := s.pool.threads ++ [t] } } := by
  refine ⟨h.tracked, fun t' ht' => ?_⟩
  rcases List.mem_append.1 ht' with ht' | ht'
  · exact h.threads t' ht'
  · rw [List.mem_singleton.1 ht']
    exact ht

/-- A step of one handler leaves what the others have logged. -/
theorem Inv.step (h : s.Inv H srv) (i : Nat) (cond : StepConditions) :
    Inv H srv { s with pool := s.pool.exec H hash64 srv (.step i cond) } ∧
      s.Advanced H srv { s with pool := s.pool.exec H hash64 srv (.step i cond) } := by
  rw [Pool.exec]
  cases hi : s.pool.threads[i]? with
  | none => exact ⟨h, .refl _ _⟩
  | some t =>
    have ht := h.threads t (List.mem_of_getElem? hi)
    have hstep : Thread.Tracks H srv s.pool.world (t.step H hash64 srv cond s.pool.world) :=
      Thread.track_step cond h.tracked ht
    refine ⟨⟨hstep.tracked, fun t' ht' => ?_⟩, hstep.advances⟩
    rcases List.mem_or_eq_of_mem_set ht' with ht' | rfl
    · exact (h.threads t' ht').mono hstep.advances.grows
    · exact hstep.logged

/-- The handlers are gone and the database is opened again. -/
theorem Inv.reopened (h : s.Inv H srv) {w : World} {running good : Bool} (hdb : w.metadata srv.me = (s.db srv).reopen)
    (hwal : w.wal srv.me = ⟨s.file srv, good⟩) (hended : good = true → Ended (s.file srv)) :
    Inv H srv ⟨⟨w, []⟩, running⟩ ∧ s.Advanced H srv ⟨⟨w, []⟩, running⟩ := by
  refine ⟨⟨⟨?_, ?_⟩, by simp⟩, ?_⟩
  · show (w.wal srv.me).good = true → Ended (w.wal srv.me).file
    rw [hwal]
    exact hended
  · show Covered (w.metadata srv.me) (records H (w.wal srv.me).file)
    rw [hwal, hdb]
    exact h.tracked.covered.reopen
  · show Advances (s.db srv) (records H (s.file srv)) (w.metadata srv.me) (records H (w.wal srv.me).file)
    rw [hwal, hdb]
    exact ⟨List.prefix_rfl, fun _ _ hhas => .inl hhas⟩

theorem Inv.exec (h : s.Inv H srv) {m : ProcessMove} (hm : s.Legal H srv m) :
    (s.exec H hash64 srv m).Inv H srv ∧ s.Advanced H srv (s.exec H hash64 srv m) := by
  cases m with
  | put req =>
    rw [Process.exec, serve]
    split
    · exact ⟨h.append (Thread.logged_put _ req), .refl _ _⟩
    · exact ⟨h, .refl _ _⟩
  | delete req =>
    rw [Process.exec, serve]
    split
    · exact ⟨h.append (Thread.logged_delete _ req), .refl _ _⟩
    · exact ⟨h, .refl _ _⟩
  | step i cond =>
    rw [Process.exec, serve]
    split
    · exact h.step i cond
    · exact ⟨h, .refl _ _⟩
  | crash => exact h.reopened (World.setMetadata_self _ _ _) (World.setWal_self _ _ _) fun hgood => by cases hgood
  | start =>
    rw [Process.exec]
    split
    · rename_i hstart
      exact h.reopened (if_pos rfl) (if_pos rfl) fun _ => hm hstart.2
    · exact ⟨h, .refl _ _⟩

/-- A node that has never stored anything. -/
theorem inv_new {w : World} (hdb : w.metadata srv.me = {}) (hlog : w.wal srv.me = {}) : Inv H srv ⟨⟨w, []⟩, true⟩ := by
  refine ⟨⟨fun _ => .inl ?_, ?_⟩, by simp⟩
  · show (w.wal srv.me).file = []
    rw [hlog]
  · show Covered (w.metadata srv.me) _
    rw [hdb]
    refine ⟨fun row hrow => ?_, fun bucket key hhas => ?_⟩
    · cases hrow with
      | inl h => cases h
      | inr h => cases h
    · obtain ⟨row, hrow, -⟩ := hhas
      cases hrow

end Process

/-- In every run of handlers, failures, crashes and restarts that starts no
process on an unfinished line, the log is ahead of the rows. -/
theorem logged_before_commit (H : HexHash) (hash64 : Str → Nat) (srv : Server) (w : World) (hdb : w.metadata srv.me = {})
    (hlog : w.wal srv.me = {})
    (r : Run (Guarded (Process.Legal H srv) fun s m s' => s' = s.exec H hash64 srv m) ⟨⟨w, []⟩, true⟩) (t : Nat) :
    (∀ row, ((r.state t).db srv).Shows row →
      ⟨.kPutObject, Server.objectName row.bucket row.key, row.checksum⟩ ∈ records H ((r.state t).file srv)) ∧
    ∀ t' ≤ t, ∀ bucket key, ((r.state t').db srv).committed.Has bucket key →
      ¬ ((r.state t).db srv).committed.Has bucket key ∨ ¬ ((r.state t).db srv).tables.Has bucket key →
      DeletedAfterPut (records H ((r.state t).file srv)) (Server.objectName bucket key) := by
  have hinv : ∀ t, (r.state t).Inv H srv := by
    refine r.inv (Process.Inv H srv) (Process.inv_new hdb hlog) ?_
    rintro s m s' hs ⟨hm, rfl⟩
    exact (hs.exec hm).1
  have hadv : ∀ t t', t ≤ t' → (r.state t).Advanced H srv (r.state t') := by
    refine r.mono (Process.Advanced H srv) (fun s => .refl _ _) (fun a b c hab hbc => Advances.trans hab hbc) ?_
    rintro t m ⟨hm, hs⟩
    rw [hs]
    exact ((hinv t).exec hm).2
  refine ⟨(hinv t).tracked.covered.logged, fun t' ht' bucket key hhas habsent => ?_⟩
  rcases (hadv t' t ht').gone bucket key hhas with hcom | hdel
  · rcases (hinv t).tracked.covered.seen bucket key hcom with hview | hdel
    · exact absurd hview (habsent.resolve_left fun h => h hcom)
    · exact hdel
  · exact hdel

/-! ## Node A alone -/

namespace Server

def putPlain (name : ObjectName) (body : Bytes) (h : ∀ c ∈ name.path, c ≠ 0 ∧ isspace c = false) : ProcessMove :=
  .put ⟨objectRequest "PUT" freshNet.token name body, h⟩

def deletePlain (name : ObjectName) (h : ∀ c ∈ name.path, c ≠ 0 ∧ isspace c = false) : ProcessMove :=
  .delete ⟨objectRequest "DELETE" freshNet.token name [], h⟩

theorem plain_X : ∀ c ∈ objectX.path, c ≠ 0 ∧ isspace c = false := by decide +kernel

theorem plain_Y : ∀ c ∈ objectY.path, c ≠ 0 ∧ isspace c = false := by decide +kernel

/-- An upload, a crash, and a delete after the restart. -/
def crashTurns : List ProcessMove :=
  [putPlain objectX (lit "ab") plain_X, .step 0, .step 0, .step 0, .crash, .start, deletePlain objectX plain_X, .step 0,
    .step 0, .step 0]

/-- The state of the node after the first moves of a list. -/
def processAfter (moves : List ProcessMove) (t : Nat) : Process :=
  Run.stateAfter (Process.exec Sha256.hexHash sixthByte aloneA) ⟨⟨World.start [aloneA], []⟩, true⟩ moves t

theorem processAfter_eq (moves : List ProcessMove) (t : Nat) : processAfter moves t =
    Run.stateAfter (Process.exec Sha256.hashKnown sixthByte aloneA) ⟨⟨World.start [aloneA], []⟩, true⟩ moves t := by
  rw [processAfter, Sha256.hexHash_eq]

theorem crashTurns_legal : Run.Legal (Process.Legal Sha256.hexHash aloneA) (Process.exec Sha256.hexHash sixthByte aloneA)
    ⟨⟨World.start [aloneA], []⟩, true⟩ crashTurns := by
  have hended : Ended ((processAfter crashTurns 5).file aloneA) := by
    rw [processAfter_eq]
    decide +kernel
  exact ⟨trivial, trivial, trivial, trivial, trivial, fun _ => hended, trivial, trivial, trivial, trivial, trivial⟩

/-- The object is committed before the crash and absent in the end. -/
theorem crashTurns_rows :
    ⟨lit "b", lit "x", 2, Sha256.hex (lit "ab")⟩ ∈ ((processAfter crashTurns 4).db aloneA).committed.objects ∧
    ((processAfter crashTurns 10).db aloneA).committed.objects = [] := by
  rw [processAfter_eq, processAfter_eq, Sha256.hex_eq]
  decide +kernel

/-- The delete record is in the log, behind the put. -/
theorem crashTurns_logged :
    Run.Legal (Process.Legal Sha256.hexHash aloneA) (Process.exec Sha256.hexHash sixthByte aloneA)
      ⟨⟨World.start [aloneA], []⟩, true⟩ crashTurns ∧
    DeletedAfterPut (records Sha256.hexHash ((processAfter crashTurns 10).file aloneA))
      (objectName (lit "b") (lit "x")) := by
  obtain ⟨hbefore, hafter⟩ := crashTurns_rows
  have hlog := (logged_before_commit Sha256.hexHash sixthByte aloneA (World.start [aloneA]) rfl rfl
    (Run.ofEvents _ _ crashTurns crashTurns_legal) 10).2 4 (by decide) (lit "b") (lit "x")
  rw [Run.ofEvents_state, Run.ofEvents_state, ← processAfter, ← processAfter] at hlog
  refine ⟨crashTurns_legal, hlog ⟨_, hbefore, rfl, rfl⟩ (.inl ?_)⟩
  rintro ⟨row, hrow, -⟩
  rw [hafter] at hrow
  cases hrow

/-- The record of an upload is written without its newline, the process
crashes and is started again, and another upload is served. -/
def tornRestart : List ProcessMove :=
  [putPlain objectX (lit "ab") plain_X, .step 0 { wal := some 135 }, .crash, .start, putPlain objectY (lit "cd") plain_Y,
    .step 0, .step 0, .step 0]

/-- The second upload is committed and the log has no record of it. -/
theorem record_lost_after_restart :
    (World.start [aloneA]).metadata aloneA.me = {} ∧ (World.start [aloneA]).wal aloneA.me = {} ∧
    ((processAfter tornRestart 8).db aloneA).Shows ⟨lit "b", lit "y", 2, Sha256.hex (lit "cd")⟩ ∧
    ⟨.kPutObject, lit "b/y", Sha256.hex (lit "cd")⟩ ∉ records Sha256.hexHash ((processAfter tornRestart 8).file aloneA) ∧
    (processAfter tornRestart 8).replays Sha256.hexHash aloneA = false := by
  refine ⟨rfl, rfl, ?_⟩
  rw [processAfter_eq, Sha256.hexHash_eq, Sha256.hex_eq]
  decide +kernel

end Server

end Dstore
