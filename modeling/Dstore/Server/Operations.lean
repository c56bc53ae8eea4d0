import Dstore.Metadata.Atomicity
import Dstore.Server.ObjectStore
import Dstore.Server.Readers
/-!
# Operations on objects, step by step

What one step of a handler does to the object store that the rows of a node
show (`Shown`). An operation knows its `OperationOutcome` from the step on that reads or
writes the rows of its object; a step that changes an object is one of these
(`Operation.Advances`).

A call to the metadata store is one step here; `Metadata.Linearizable` is about
calls that overlap. A `COMMIT`, a `ROLLBACK` and the DELETE of an object's row
must not fail (`Metadata.Atomicity` says what happens then).
-/
open Dstore.Lib

namespace Dstore

/-! ## The object store behind the rows -/

def Objects.at (o : Objects) (name : Str × Str) : Option Bytes := o name.1 name.2

def Objects.write (o : Objects) (name : Str × Str) (content : Option Bytes) : Objects :=
  fun b k => if b = name.1 ∧ k = name.2 then content else o b k

/-- No transaction is open, and the rows have the checksums of the objects. -/
structure Shown (H : HexHash) (db : MetadataStore) (o : Objects) : Prop where
  idle : db.saved = none
  rows : ∀ b k, (db.tables.object b k).map (·.checksum) = ((o b k).map H.hex).toList

/-- What a `delete_object` whose second statement works does to the rows of
objects, and what it returns. -/
theorem MetadataStore.delete_object_row (db : MetadataStore) {fails : DeleteFaults} (hf : fails.object = none)
    (bucket key : Str) :
    ∃ db' : MetadataStore, db'.saved = db.saved ∧
      db'.tables.objects = db.tables.objects.filter (!·.isOf (cstr bucket) (cstr key)) ∧
      db.delete_object fails bucket key = if int32 (db.tables.object (cstr bucket) (cstr key)).length = 0
        then (.error (.NotFound (lit "object not found")), db') else (.ok (), db') := by
  unfold delete_object
  rw [hf]
  refine ⟨((db.step fails.chunks (Tables.delete_chunks (cstr bucket) (cstr key))).2.step none
    (Tables.delete_object_row (cstr bucket) (cstr key))).2, ?_⟩
  cases fails.chunks with
  | none => exact ⟨rfl, rfl, rfl⟩
  | some message => exact ⟨rfl, rfl, rfl⟩

namespace Shown

variable {H : HexHash} {db : MetadataStore} {o : Objects}

theorem empty : Shown H {} Objects.empty := ⟨rfl, fun _ _ => rfl⟩

theorem reopen (h : Shown H db o) : Shown H db.reopen o := by
  refine ⟨rfl, fun b k => ?_⟩
  rw [MetadataStore.reopen, MetadataStore.committed, h.idle]
  exact h.rows b k

/-- What the rows of a name say about its object. -/
theorem absent_iff (h : Shown H db o) (b k : Str) : db.tables.object b k = [] ↔ o b k = none := by
  rw [← List.map_eq_nil_iff (f := ObjectRow.checksum), h.rows, Option.toList_eq_nil_iff, Option.map_eq_none_iff]

theorem get_object (h : Shown H db o) (bucket key : Str) :
    (∃ message, db.get_object bucket key = .error (.NotFound message) ∧ o.at (cstr bucket, cstr key) = none) ∨
      ∃ m body, db.get_object bucket key = .ok m ∧ o.at (cstr bucket, cstr key) = some body ∧ H.hex body = m.checksum := by
  have hrows := h.rows (cstr bucket) (cstr key)
  rcases hrow : db.tables.object (cstr bucket) (cstr key) with - | ⟨row, rest⟩
  · exact .inl ⟨_, MetadataStore.get_object_missing hrow, (h.absent_iff _ _).1 hrow⟩
  · rcases ho : o (cstr bucket) (cstr key) with - | body
    · simp [hrow, ho] at hrows
    · rw [hrow, ho] at hrows
      rw [MetadataStore.get_object, hrow]
      exact .inr ⟨_, body, rfl, ho, (List.cons.inj hrows).1.symm⟩

/-- A row is put in place of those of its name. -/
theorem withRow (h : Shown H db o) {m : ObjectMetadata} {body : Bytes} (hm : m.checksum = H.hex body) {t : Tables}
    (ht : t.objects = (db.tables.upload m).objects) (n : Nat) :
    Shown H ⟨t, none, n⟩ (o.write (cstr m.bucket, cstr m.key) (some body)) := by
  refine ⟨rfl, fun b k => ?_⟩
  have hobject : t.object b k = (db.tables.upload m).object b k := by rw [Tables.object, Tables.object, ht]
  rw [hobject, Objects.write]
  by_cases hbk : b = cstr m.bucket ∧ k = cstr m.key
  · obtain ⟨rfl, rfl⟩ := hbk
    rw [Tables.object_upload_self, if_pos ⟨rfl, rfl⟩]
    simp [MetadataStore.objectRow, hm, cstr_digest (H.digest body)]
  · rw [Tables.object_upload_other _ _ hbk, if_neg hbk]
    exact h.rows b k

theorem put_object (h : Shown H db o) {fails : MetadataStore.PutFaults} (hc : fails.commit = none)
    (hr : fails.rollback = none)
    {m : ObjectMetadata} {body : Bytes} (hm : m.checksum = H.hex body) :
    (∃ status, (db.put_object fails m).1 = .error status ∧ Shown H (db.put_object fails m).2 o) ∨
      ((db.put_object fails m).1 = .ok () ∧
        Shown H (db.put_object fails m).2 (o.write (cstr m.bucket, cstr m.key) (some body))) := by
  rcases MetadataStore.put_object_faulty (m := m) h.idle hr with ⟨-, status, n, hput⟩ | ⟨-, n, hput⟩
  · rw [hput]
    exact .inl ⟨status, rfl, rfl, h.rows⟩
  · rw [hput, hc]
    exact .inr ⟨rfl, h.withRow (t := MetadataStore.written db fails m) hm rfl n⟩

theorem delete_object (h : Shown H db o) {fails : MetadataStore.DeleteFaults} (hf : fails.object = none) (bucket key : Str) :
    (∃ message, (db.delete_object fails bucket key).1 = .error (.NotFound message) ∧ o.at (cstr bucket, cstr key) = none ∧
        Shown H (db.delete_object fails bucket key).2 o) ∨
      ((db.delete_object fails bucket key).1 = .ok () ∧ o.at (cstr bucket, cstr key) ≠ none ∧
        Shown H (db.delete_object fails bucket key).2 (o.write (cstr bucket, cstr key) none)) := by
  obtain ⟨db', hsaved, hobjects, hdelete⟩ := db.delete_object_row hf bucket key
  have herase : ∀ b k, db'.tables.object b k = (db.tables.erase (cstr bucket) (cstr key)).object b k := by
    intro b k
    rw [Tables.object, Tables.object, hobjects, Tables.erase]
  rw [hdelete]
  rcases ho : o (cstr bucket) (cstr key) with - | body
  · have hnone := (h.absent_iff _ _).2 ho
    rw [hnone, List.length_nil, if_pos (show int32 0 = 0 from int32_eq (by decide))]
    refine .inl ⟨_, rfl, ho, hsaved.trans h.idle, fun b k => ?_⟩
    rw [herase, ← h.rows b k]
    by_cases hbk : b = cstr bucket ∧ k = cstr key
    · obtain ⟨rfl, rfl⟩ := hbk
      rw [Tables.object_erase_self, hnone]
    · rw [Tables.object_erase_other hbk]
  · have hone : (db.tables.object (cstr bucket) (cstr key)).length = 1 := by
      rw [← List.length_map (f := ObjectRow.checksum), h.rows, ho]
      rfl
    rw [hone, int32_eq (by decide), if_neg (by decide)]
    refine .inr ⟨rfl, ?_, hsaved.trans h.idle, fun b k => ?_⟩
    · rw [Objects.at, ho]
      exact Option.some_ne_none body
    · rw [herase, Objects.write]
      by_cases hbk : b = cstr bucket ∧ k = cstr key
      · obtain ⟨rfl, rfl⟩ := hbk
        rw [Tables.object_erase_self, if_pos ⟨rfl, rfl⟩]
        rfl
      · rw [Tables.object_erase_other hbk, if_neg hbk]
        exact h.rows b k

end Shown

/-! ## Operations and their handlers -/

/-- A request under `/v1/objects/`. -/
inductive Operation where
  | put (req : HttpRequest)
  | get (req : HttpRequest)
  | delete (req : HttpRequest)

inductive Handler where
  | writing (t : Thread)
  | reading (t : Reader)
  /-- The process was gone before the answer. -/
  | lost

/-- What an operation has found or done. -/
inductive OperationOutcome where
  | stored
  | removed
  | found (checksum : Str)
  | missing
  deriving DecidableEq

namespace Handler

variable (H : HexHash) (hash64 : Str → Nat) (srv : Server)

def step (writes : StepConditions) (reads : ReadConditions) : Handler → World → Handler × World
  | .writing t, w =>
    let (t, w) := t.step H hash64 srv writes w
    (.writing t, w)
  | .reading t, w =>
    let (t, w) := t.step H hash64 srv reads w
    (.reading t, w)
  | .lost, w => (.lost, w)

/-- The answer, once there is one; a handler that has thrown sends none. -/
def response : Handler → Option HttpResponse
  | .writing (.done response) | .reading (.done response) => if response = .unsent then none else some response
  | _ => none

/-- The process is gone; an answer has been sent by then. -/
def crash (h : Handler) : Handler := if h.response.isSome then h else .lost

end Handler

namespace Operation

def request : Operation → HttpRequest
  | .put req | .get req | .delete req => req

/-- The name in the rows. -/
def name (op : Operation) : Str × Str :=
  (cstr (Server.object_path op.request.path).1, cstr (Server.object_path op.request.path).2)

/-- The handler up to its first step. -/
def start (token : Str) : Operation → Handler
  | .put req => .writing (.put token req)
  | .get req => .reading (.get token req)
  | .delete req => .writing (.delete token req)

/-- What a step of the handler makes of the object store. -/
def effect (op : Operation) : Handler → Handler → Objects → Objects
  | .writing (.putChunks _ _ _ _ []), .writing (.done response), o =>
    if response.status = 201 then o.write op.name (some op.request.body) else o
  | .writing (.deleteRows _ _ _), .writing (.deleteCount _), o => o.write op.name none
  | _, _, o => o

/-- What the client learns from the answer. -/
def answered (H : HexHash) (response : HttpResponse) : Operation → Option OperationOutcome
  | .put _ => if response.status = 201 then some .stored else none
  | .get _ =>
    if response.status = 200 then some (.found (H.hex response.body))
    else if response.status = 404 then some .missing else none
  | .delete _ =>
    if response.status = 204 then some .removed else if response.status = 404 then some .missing else none

/-- What the handler already knows. -/
def outcome (H : HexHash) (op : Operation) : Handler → Option OperationOutcome
  | .reading (.chunks m _ _) => some (.found m.checksum)
  | .writing (.deleteCount _) | .writing (.deleteRemove _ _ _) => some .removed
  | .writing (.done response) | .reading (.done response) => op.answered H response
  | _ => none

/-- The operation of an object store that ends so, and its states before and
after. -/
def Does (H : HexHash) (op : Operation) (o o' : Objects) : OperationOutcome → Prop
  | .stored => o' = o.write op.name (some op.request.body)
  | .removed => o.at op.name ≠ none ∧ o' = o.write op.name none
  | .found checksum => (∃ body, o.at op.name = some body ∧ H.hex body = checksum) ∧ o' = o
  | .missing => o.at op.name = none ∧ o' = o

/-- The handler is one of the operation. -/
def Runs : Operation → Handler → Prop
  | .put req, .writing (.putLog bucket key body) | .put req, .writing (.putChunks bucket key body _ _) =>
    Server.object_path req.path = (bucket, key) ∧ body = req.body
  | .delete req, .writing (.deleteRead bucket key) | .delete req, .writing (.deleteLog bucket key _)
  | .delete req, .writing (.deleteRows bucket key _) | .get req, .reading (.lookup bucket key) =>
    Server.object_path req.path = (bucket, key)
  | .delete _, .writing (.deleteCount _) | .delete _, .writing (.deleteRemove _ _ _) => True
  | .get _, .reading (.chunks _ _ _) => True
  | .put _, .writing (.done _) | .delete _, .writing (.done _) | .get _, .reading (.done _) => True
  | _, .lost => True
  | _, _ => False

/-- What one step of a handler does, to it and to the object store. -/
structure Advances (H : HexHash) (srv : Server) (op : Operation) (h : Handler) (o : Objects)
    (next : Handler × World) : Prop where
  shown : Shown H (next.2.metadata srv.me) (op.effect h next.1 o)
  runs : op.Runs next.1
  does : ∀ out, op.outcome H next.1 = some out → op.outcome H h ≠ some out → op.Does H o (op.effect h next.1 o) out
  commits : op.effect h next.1 o ≠ o → op.outcome H next.1 = some .stored ∨ op.outcome H next.1 = some .removed

section Steps
variable {H : HexHash} {hash64 : Str → Nat} {srv : Server} {w : World} {o : Objects} {req : HttpRequest} {h : Handler}

/-- A step on which the rows and what is known stay. -/
theorem Advances.quiet {op : Operation} {next : Handler × World} (hs : Shown H (w.metadata srv.me) o)
    (hmeta : next.2.metadata srv.me = w.metadata srv.me) (heffect : op.effect h next.1 o = o) (hruns : op.Runs next.1)
    (hout : ∀ out, op.outcome H next.1 = some out → op.outcome H h = some out) : Advances H srv op h o next := by
  refine ⟨?_, hruns, fun out hnext hbefore => absurd (hout out hnext) hbefore, fun hne => absurd heffect hne⟩
  rw [hmeta, heffect]
  exact hs

theorem answered_put_error (H : HexHash) (req : HttpRequest) (status : Status) :
    (put req).answered H (Server.status_response status) = none := if_neg (Server.status_response_ne status).2.1

/-- A client that gets no answer learns nothing. -/
theorem answered_unsent (H : HexHash) (op : Operation) : op.answered H .unsent = none := by
  cases op <;> rfl

theorem answered_delete_error (H : HexHash) (req : HttpRequest) {status : Status} (h : status.code ≠ .kNotFound) :
    (delete req).answered H (Server.status_response status) = none := by
  have hmissing := mt (Server.status_response_missing status).1 h
  rw [answered, if_neg (Server.status_response_ne status).2.2, if_neg hmissing]

theorem answered_get_error (H : HexHash) (req : HttpRequest) {status : Status} (h : status.code ≠ .kNotFound) :
    (get req).answered H (Server.status_response status) = none := by
  have hmissing := mt (Server.status_response_missing status).1 h
  rw [answered, if_neg (Server.status_response_ne status).1, if_neg hmissing]

theorem append_code {log : WriteAheadLog} {fault : Option Nat} {record : WalRecord} {status : Status} {log' : WriteAheadLog}
    (h : log.append H fault record = (.error status, log')) : status.code = .kInternal := by
  unfold WriteAheadLog.append at h
  split at h
  · cases fault with
    | some written => rw [← Except.error.inj (congrArg Prod.fst h)]; rfl
    | none => cases h
  · rw [← Except.error.inj (congrArg Prod.fst h)]
    rfl

/-- A step of a writer or a reader, by what it comes to. -/
theorem Advances.writing {op : Operation} {t : Thread} {writes : StepConditions} {reads : ReadConditions}
    (next : Thread × World)
    (hstep : t.step H hash64 srv writes w = next) (h : Advances H srv op (.writing t) o (.writing next.1, next.2)) :
    Advances H srv op (.writing t) o (Handler.step H hash64 srv writes reads (.writing t) w) := by
  rw [Handler.step, hstep]
  exact h

theorem Advances.reading {op : Operation} {t : Reader} {writes : StepConditions} {reads : ReadConditions}
    (next : Reader × World)
    (hstep : t.step H hash64 srv reads w = next) (h : Advances H srv op (.reading t) o (.reading next.1, next.2)) :
    Advances H srv op (.reading t) o (Handler.step H hash64 srv writes reads (.reading t) w) := by
  rw [Handler.step, hstep]
  exact h

variable (writes : StepConditions) (reads : ReadConditions)

theorem advances_put (hcommit : writes.put.commit = none) (hrollback : writes.put.rollback = none)
    (hs : Shown H (w.metadata srv.me) o) {t : Thread} (ht : (put req).Runs (.writing t)) :
    Advances H srv (put req) (.writing t) o (Handler.step H hash64 srv writes reads (.writing t) w) := by
  -- an error tells the client nothing
  have herror : ∀ status out, (put req).outcome H (.writing (.done (Server.status_response status))) ≠ some out := by
    intro status out
    rw [outcome, answered_put_error]
    exact (Option.some_ne_none out).symm
  cases t with
  | putLog bucket key body =>
    rcases hlog : (w.wal srv.me).append H writes.wal ⟨.kPutObject, Server.objectName bucket key,
      H.hex body⟩ with ⟨status | ⟨⟩, log⟩
    · refine .writing (.done (Server.status_response status), w.setWal srv.me log) (by simp only [Thread.step, hlog])
        (.quiet hs rfl rfl trivial fun out hout => ?_)
      exact absurd hout (herror status out)
    · exact .writing (.putChunks bucket key body [] (chunk_bytes body srv.chunk_size), w.setWal srv.me log)
        (by simp only [Thread.step, hlog]) (.quiet hs rfl rfl ht fun out hout => by cases hout)
  | putChunks bucket key body refs parts =>
    cases parts with
    | cons part rest =>
      rcases hput : srv.chunks.put H hash64 writes.chunk w.net part with ⟨failure | ref, net⟩
      · refine .writing (.done (Server.failure_response failure), w.setNet net) (by simp only [Thread.step, hput])
          (.quiet hs rfl rfl trivial fun out hout => ?_)
        cases failure with
        | status status => exact absurd hout (herror status out)
        | exception => cases hout.symm.trans (answered_unsent H (put req))
      · exact .writing (.putChunks bucket key body (refs ++ [ref]) rest, w.setNet net) (by simp only [Thread.step, hput])
          (.quiet hs rfl rfl ht fun out hout => by cases hout)
    | nil =>
      obtain ⟨hpath, rfl⟩ := ht
      have hname : (put req).name = (cstr bucket, cstr key) := by rw [name, request, hpath]
      have hrows := hs.put_object (m := ⟨bucket, key, req.body.length % 2 ^ 64, H.hex req.body, refs⟩) hcommit hrollback rfl
      rcases hput : (w.metadata srv.me).put_object writes.put ⟨bucket, key, req.body.length % 2 ^ 64, H.hex req.body, refs⟩
        with ⟨status | ⟨⟩, db⟩
      · obtain ⟨-, -, hshown⟩ | ⟨hok, -⟩ := hput ▸ hrows
        · have heffect : (put req).effect (.writing (.putChunks bucket key req.body refs []))
              (.writing (.done (Server.status_response status))) o = o := if_neg (Server.status_response_ne status).2.1
          refine .writing (.done (Server.status_response status), w.setMetadata srv.me db) (by simp only [Thread.step, hput])
            ⟨?_, trivial, fun out hout => absurd hout (herror status out), fun hne => absurd heffect hne⟩
          rw [World.setMetadata_self, heffect]
          exact hshown
        · cases hok
      · obtain ⟨status, herr, -⟩ | ⟨-, hshown⟩ := hput ▸ hrows
        · cases herr
        · obtain ⟨answer, hstep⟩ : ∃ answer, (Thread.putChunks bucket key req.body refs []).step H hash64 srv writes w =
              (.done ⟨201, lit "application/json", answer⟩, w.setMetadata srv.me db) := by
            simp only [Thread.step, hput]
            exact ⟨_, rfl⟩
          refine .writing _ hstep ⟨?_, trivial, fun out hout _ => ?_, fun _ => .inl rfl⟩
          · rw [World.setMetadata_self]
            show Shown H db (o.write (put req).name (some req.body))
            rw [hname]
            exact hshown
          · obtain rfl : OperationOutcome.stored = out := Option.some.inj hout
            rfl
  | done r => exact .writing _ rfl (.quiet hs rfl rfl trivial fun out hout => hout)
  | deleteRead _ _ => cases ht
  | deleteLog _ _ _ => cases ht
  | deleteRows _ _ _ => cases ht
  | deleteCount _ => cases ht
  | deleteRemove _ _ _ => cases ht

theorem advances_delete (hobject : writes.delete.object = none) (hs : Shown H (w.metadata srv.me) o) {t : Thread}
    (ht : (delete req).Runs (.writing t)) :
    Advances H srv (delete req) (.writing t) o (Handler.step H hash64 srv writes reads (.writing t) w) := by
  have herror : ∀ status : Status, status.code ≠ .kNotFound → ∀ out,
      (delete req).outcome H (.writing (.done (Server.status_response status))) ≠ some out := by
    intro status hcode out
    rw [outcome, answered_delete_error H req hcode]
    exact (Option.some_ne_none out).symm
  -- what is not there is answered with 404
  have hmissing : ∀ message, (delete req).outcome H
    (.writing (.done (Server.status_response (.NotFound message)))) = some .missing :=
    fun message => rfl
  cases t with
  | deleteRead bucket key =>
    have hname : (delete req).name = (cstr bucket, cstr key) := by rw [name, request,
      show Server.object_path req.path = _ from ht]
    rcases hs.get_object bucket key with ⟨message, hread, hnone⟩ | ⟨m, body, hread, -, -⟩
    · refine .writing (.done (Server.status_response (.NotFound message)), w) (by simp only [Thread.step, hread])
        ⟨hs, trivial, fun out hout _ => ?_, fun hne => absurd rfl hne⟩
      obtain rfl : OperationOutcome.missing = out := Option.some.inj ((hmissing message).symm.trans hout)
      exact ⟨hname ▸ hnone, rfl⟩
    · exact .writing (.deleteLog bucket key m.chunks, w) (by simp only [Thread.step, hread])
        (.quiet hs rfl rfl ht fun out hout => by cases hout)
  | deleteLog bucket key chunks =>
    rcases hlog : (w.wal srv.me).append H writes.wal ⟨.kDeleteObject, Server.objectName bucket key, lit "delete"⟩ with
      ⟨status | ⟨⟩, log⟩
    · refine .writing (.done (Server.status_response status), w.setWal srv.me log) (by simp only [Thread.step, hlog])
        (.quiet hs rfl rfl trivial fun out hout => ?_)
      exact absurd hout (herror status (by rw [append_code hlog]; exact Code.noConfusion) out)
    · exact .writing (.deleteRows bucket key chunks, w.setWal srv.me log) (by simp only [Thread.step, hlog])
        (.quiet hs rfl rfl ht fun out hout => by cases hout)
  | deleteRows bucket key chunks =>
    have hname : (delete req).name = (cstr bucket, cstr key) := by rw [name, request,
      show Server.object_path req.path = _ from ht]
    have hrows := hs.delete_object hobject bucket key
    rcases hdelete : (w.metadata srv.me).delete_object writes.delete bucket key with ⟨status | ⟨⟩, db⟩
    · obtain ⟨message, herr, hnone, hshown⟩ | ⟨hok, -⟩ := hdelete ▸ hrows
      · obtain rfl := Except.error.inj herr
        refine .writing (.done (Server.status_response (.NotFound message)), w.setMetadata srv.me db)
          (by simp only [Thread.step, hdelete]) ⟨?_, trivial, fun out hout _ => ?_, fun hne => absurd rfl hne⟩
        · rw [World.setMetadata_self]
          exact hshown
        · obtain rfl : OperationOutcome.missing = out := Option.some.inj ((hmissing message).symm.trans hout)
          exact ⟨hname ▸ hnone, rfl⟩
      · cases hok
    · obtain ⟨message, herr, -⟩ | ⟨-, hsome, hshown⟩ := hdelete ▸ hrows
      · cases herr
      · refine .writing (.deleteCount chunks, w.setMetadata srv.me db) (by simp only [Thread.step, hdelete])
          ⟨?_, trivial, fun out hout _ => ?_, fun _ => .inr rfl⟩
        · rw [World.setMetadata_self]
          show Shown H db (o.write (delete req).name none)
          rw [hname]
          exact hshown
        · obtain rfl : OperationOutcome.removed = out := Option.some.inj hout
          exact ⟨hname ▸ hsome, rfl⟩
  | deleteCount chunks =>
    cases chunks with
    | nil => exact .writing _ rfl (.quiet hs rfl rfl trivial fun out hout => hout)
    | cons ref rest => exact .writing _ rfl (.quiet hs rfl rfl trivial fun out hout => hout)
  | deleteRemove c references rest =>
    rcases hremove : srv.chunks.remove hash64 writes.disk writes.deliver w.net c references with ⟨(status | -) | u, net⟩
    · exact .writing (.deleteCount rest, w.setNet net) (by simp only [Thread.step, hremove])
        (.quiet hs rfl rfl trivial fun out hout => hout)
    · refine .writing (.done .unsent, w.setNet net) (by simp only [Thread.step, hremove]; rfl)
        (.quiet hs rfl rfl trivial fun out hout => ?_)
      cases hout.symm.trans (answered_unsent H (delete req))
    · exact .writing (.deleteCount rest, w.setNet net) (by simp only [Thread.step, hremove])
        (.quiet hs rfl rfl trivial fun out hout => hout)
  | done r => exact .writing _ rfl (.quiet hs rfl rfl trivial fun out hout => hout)
  | putLog _ _ _ => cases ht
  | putChunks _ _ _ _ _ => cases ht

theorem advances_get (hs : Shown H (w.metadata srv.me) o) {t : Reader} (ht : (get req).Runs (.reading t)) :
    Advances H srv (get req) (.reading t) o (Handler.step H hash64 srv writes reads (.reading t) w) := by
  have herror : ∀ status : Status, status.code ≠ .kNotFound → ∀ out,
      (get req).outcome H (.reading (.done (Server.status_response status))) ≠ some out := by
    intro status hcode out
    rw [outcome, answered_get_error H req hcode]
    exact (Option.some_ne_none out).symm
  cases t with
  | lookup bucket key =>
    have hname : (get req).name = (cstr bucket, cstr key) := by rw [name, request,
      show Server.object_path req.path = _ from ht]
    rcases hs.get_object bucket key with ⟨message, hread, hnone⟩ | ⟨m, body, hread, hsome, hhash⟩
    · refine .reading (.done (Server.status_response (.NotFound message)), w) (by simp only [Reader.step, hread])
        ⟨hs, trivial, fun out hout _ => ?_, fun hne => absurd rfl hne⟩
      obtain rfl : OperationOutcome.missing = out := Option.some.inj hout
      exact ⟨hname ▸ hnone, rfl⟩
    · refine .reading (.chunks m [] m.chunks, w) (by simp only [Reader.step, hread]) ⟨hs, trivial, fun out hout _ =>
        ?_, fun hne => absurd rfl hne⟩
      obtain rfl : OperationOutcome.found m.checksum = out := Option.some.inj hout
      exact ⟨⟨body, hname ▸ hsome, hhash⟩, rfl⟩
  | chunks m out rest =>
    cases rest with
    | nil =>
      by_cases hhash : H.hex out = m.checksum
      · refine .reading (.done ⟨200, lit "application/octet-stream", out⟩, w) (if_neg (not_not.2 hhash))
          (.quiet hs rfl rfl trivial fun known hknown => ?_)
        obtain rfl : OperationOutcome.found (H.hex out) = known := Option.some.inj hknown
        rw [hhash]
        rfl
      · refine .reading _ (if_pos hhash) (.quiet hs rfl rfl trivial fun known hknown => ?_)
        exact absurd hknown (herror _ Code.noConfusion known)
    | cons ref rest =>
      by_cases hplan : (((w.net.views srv.me).read_plan hash64 ref.checksum srv.chunks.replication_factor
          srv.chunks.read_quorum).targets.length : Int) < min srv.chunks.read_quorum srv.chunks.replication_factor
      · refine .reading _ (if_pos hplan) (.quiet hs rfl rfl trivial fun known hknown => ?_)
        exact absurd hknown (herror _ Code.noConfusion known)
      · rcases hget : srv.chunks.get H hash64 reads.reads reads.repairs w.net ref.checksum with ⟨failure | data, net⟩
        · refine .reading (.done (Server.failure_response failure), w.setNet net)
            (by simp only [Reader.step, if_neg hplan, hget]) (.quiet hs rfl rfl trivial fun known hknown => ?_)
          cases failure with
          | status status =>
            have hcode := DistributedChunkService.readLoop_not_missing _ _ _ _ _ _ _ _ (congrArg Prod.fst hget)
            exact absurd hknown (herror status hcode known)
          | exception => cases hknown.symm.trans (answered_unsent H (get req))
        · exact .reading (.chunks m (out ++ data) rest, w.setNet net) (by simp only [Reader.step, if_neg hplan, hget])
            (.quiet hs rfl rfl trivial fun known hknown => hknown)
  | done r => exact .reading _ rfl (.quiet hs rfl rfl trivial fun out hout => hout)

end Steps

end Operation

end Dstore
