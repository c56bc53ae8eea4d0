import Dstore.Lib.Runs
import Dstore.Metadata.MetadataStore
/-!
# Calls that share the connection

The handlers of a server run on a thread pool, and the `MetadataStore` they
share has one SQLite connection and no lock. A `Thread` is a `put_object` or a
`delete_object` between two of its SQLite calls; the threads make their calls
in any order. A transaction, the last error and the number of changed rows
belong to the connection, not to the thread. A thread that runs alone does
what the operation does (`run_finish`, `finish_start`).
-/
open Dstore.Lib

namespace Dstore.Metadata

open MetadataStore (PutFaults DeleteFaults objectRow chunkRow insertLoop)

/-! ## Threads -/

structure Connection where
  db : MetadataStore
  /-- `sqlite3_errmsg`. -/
  errmsg : Str := lit "not an error"

namespace Connection

/-- `exec` of a transaction statement. -/
def exec (call : Result Unit × MetadataStore) : Result Unit × Connection :=
  (call.1, ⟨call.2, match call.1 with
    | .ok () => lit "not an error"
    | .error status => status.message⟩)

/-- A statement that is prepared, bound and stepped; whether it is done. -/
def step (conn : Connection) (fault : Option Str) (stmt : Tables.Statement) : Bool × Connection :=
  match conn.db.step fault stmt with
  | (.error message, db) => (false, ⟨db, message⟩)
  | (.ok (), db) => (true, ⟨db, lit "not an error"⟩)

end Connection

/-- A call, and which of its statements fail. -/
inductive Call where
  | put_object (m : ObjectMetadata) (fails : PutFaults)
  | delete_object (bucket key : Str) (fails : DeleteFaults)

/-- The call as one step. -/
def Call.run (db : MetadataStore) : Call → Result Unit × MetadataStore
  | .put_object m fails => db.put_object fails m
  | .delete_object bucket key fails => db.delete_object fails bucket key

/-- A call between two SQLite calls. -/
inductive Thread where
  | putBegin (m : ObjectMetadata) (fails : PutFaults)
  | putObject (m : ObjectMetadata) (fails : PutFaults)
  | putClear (m : ObjectMetadata) (fails : PutFaults)
  /-- These chunks are left; then comes `COMMIT`. -/
  | putChunks (m : ObjectMetadata) (fails : PutFaults) (pos : Nat) (rest : List ChunkRef)
  /-- A statement has failed, and its message is still to be read. -/
  | putMessage (fails : PutFaults)
  | putRollback (fails : PutFaults) (msg : Str)
  | deleteChunks (bucket key : Str) (fails : DeleteFaults)
  | deleteRow (bucket key : Str) (fails : DeleteFaults)
  | deleteChanges
  | done (result : Result Unit)

def Call.start : Call → Thread
  | .put_object m fails => .putBegin m fails
  | .delete_object bucket key fails => .deleteChunks bucket key fails

/-- What `delete_object` makes of `sqlite3_changes`. -/
def deleted (changed : Nat) : Result Unit :=
  if int32 changed = 0 then .error (.NotFound (lit "object not found")) else .ok ()

namespace Thread

def step : Thread → Connection → Thread × Connection
  | .putBegin m fails, conn =>
    match Connection.exec (conn.db.begin_immediate fails.start) with
    | (.error status, conn) => (.done (.error status), conn)
    | (.ok (), conn) => (.putObject m fails, conn)
  | .putObject m fails, conn =>
    match conn.step fails.object (Tables.replace_object (objectRow m)) with
    | (false, conn) => (.putMessage fails, conn)
    | (true, conn) => (.putClear m fails, conn)
  | .putClear m fails, conn =>
    (.putChunks m fails 0 m.chunks, (conn.step fails.clear (Tables.delete_chunks (cstr m.bucket) (cstr m.key))).2)
  | .putChunks m fails pos (c :: rest), conn =>
    match conn.step (fails.chunk pos) (Tables.insert_chunk (chunkRow m.bucket m.key pos c)) with
    | (false, conn) => (.putMessage fails, conn)
    | (true, conn) => (.putChunks m fails (pos + 1) rest, conn)
  | .putChunks _ fails _ [], conn =>
    let (committed, conn) := Connection.exec (conn.db.commit fails.commit)
    (.done committed, conn)
  | .putMessage fails, conn => (.putRollback fails conn.errmsg, conn)
  | .putRollback fails msg, conn =>
    (.done (.error (.Internal msg)), (Connection.exec (conn.db.rollback fails.rollback)).2)
  | .deleteChunks bucket key fails, conn =>
    (.deleteRow bucket key fails, (conn.step fails.chunks (Tables.delete_chunks (cstr bucket) (cstr key))).2)
  | .deleteRow bucket key fails, conn =>
    (.deleteChanges, (conn.step fails.object (Tables.delete_object_row (cstr bucket) (cstr key))).2)
  | .deleteChanges, conn => (.done (deleted conn.db.changes), conn)
  | .done result, conn => (.done result, conn)

/-! ## A thread that runs alone -/

/-- The loop of `put_object` and what follows it. -/
def storeChunks (m : ObjectMetadata) (fails : PutFaults) (pos : Nat) (rest : List ChunkRef) (db : MetadataStore) :
    Result Unit × MetadataStore :=
  match insertLoop fails.chunk m.bucket m.key pos rest db with
  | (.error message, db) => (.error (.Internal message), (db.rollback fails.rollback).2)
  | (.ok (), db) => db.commit fails.commit

/-- Where a thread ends when no other makes a call any more. -/
def finish : Thread → Connection → Result Unit × MetadataStore
  | .putBegin m fails, conn => conn.db.put_object fails m
  | .putObject m fails, conn =>
    match conn.db.step fails.object (Tables.replace_object (objectRow m)) with
    | (.error message, db) => (.error (.Internal message), (db.rollback fails.rollback).2)
    | (.ok (), db) =>
      storeChunks m fails 0 m.chunks (db.step fails.clear (Tables.delete_chunks (cstr m.bucket) (cstr m.key))).2
  | .putClear m fails, conn =>
    storeChunks m fails 0 m.chunks (conn.db.step fails.clear (Tables.delete_chunks (cstr m.bucket) (cstr m.key))).2
  | .putChunks m fails pos rest, conn => storeChunks m fails pos rest conn.db
  | .putMessage fails, conn => (.error (.Internal conn.errmsg), (conn.db.rollback fails.rollback).2)
  | .putRollback fails msg, conn => (.error (.Internal msg), (conn.db.rollback fails.rollback).2)
  | .deleteChunks bucket key fails, conn => conn.db.delete_object fails bucket key
  | .deleteRow bucket key fails, conn =>
    let db := (conn.db.step fails.object (Tables.delete_object_row (cstr bucket) (cstr key))).2
    (deleted db.changes, db)
  | .deleteChanges, conn => (deleted conn.db.changes, conn.db)
  | .done result, conn => (result, conn.db)

theorem step_db (conn : Connection) (fault : Option Str) (stmt : Tables.Statement) :
    (conn.step fault stmt).2.db = (conn.db.step fault stmt).2 := by
  unfold Connection.step
  split
  · rename_i heq
    rw [heq]
  · rename_i heq
    rw [heq]

theorem delete_object_eq (db : MetadataStore) (fails : DeleteFaults) (bucket key : Str) :
    db.delete_object fails bucket key =
      (deleted ((db.step fails.chunks (Tables.delete_chunks (cstr bucket) (cstr key))).2.step fails.object
        (Tables.delete_object_row (cstr bucket) (cstr key))).2.changes,
      ((db.step fails.chunks (Tables.delete_chunks (cstr bucket) (cstr key))).2.step fails.object
        (Tables.delete_object_row (cstr bucket) (cstr key))).2) := by
  simp only [MetadataStore.delete_object, deleted]
  split <;> rfl

/-- A step of the thread does not change where it ends. -/
theorem finish_step (th : Thread) (conn : Connection) :
    finish (th.step conn).1 (th.step conn).2 = th.finish conn := by
  cases th with
  | putBegin m fails =>
    simp only [step, finish, MetadataStore.put_object, Connection.exec]
    rcases conn.db.begin_immediate fails.start with ⟨r, db⟩
    cases r with
    | error status => rfl
    | ok u => rfl
  | putObject m fails =>
    simp only [step, finish, Connection.step]
    rcases conn.db.step fails.object (Tables.replace_object (objectRow m)) with ⟨r, db⟩
    cases r with
    | error message => rfl
    | ok u => rfl
  | putClear m fails =>
    simp only [step, finish]
    rw [step_db]
  | putChunks m fails pos rest =>
    cases rest with
    | nil => simp only [step, finish, storeChunks, insertLoop, Connection.exec]
    | cons c rest =>
      simp only [step, finish, storeChunks, insertLoop, Connection.step]
      rcases conn.db.step (fails.chunk pos) (Tables.insert_chunk (chunkRow m.bucket m.key pos c)) with ⟨r, db⟩
      cases r with
      | error message => rfl
      | ok u => rfl
  | putMessage fails => rfl
  | putRollback fails msg => rfl
  | deleteChunks bucket key fails =>
    simp only [step, finish]
    rw [step_db, delete_object_eq]
  | deleteRow bucket key fails =>
    simp only [step, finish]
    rw [step_db]
  | deleteChanges => rfl
  | done result => rfl

/-- The SQLite calls a thread still makes, at most. -/
def left : Thread → Nat
  | .putBegin m _ => m.chunks.length + 6
  | .putObject m _ => m.chunks.length + 5
  | .putClear m _ => m.chunks.length + 4
  | .putChunks _ _ _ rest => rest.length + 3
  | .putMessage _ => 2
  | .putRollback _ _ => 1
  | .deleteChunks _ _ _ => 3
  | .deleteRow _ _ _ => 2
  | .deleteChanges => 1
  | .done _ => 0

def run : Nat → Thread → Connection → Thread × Connection
  | 0, th, conn => (th, conn)
  | n + 1, th, conn => run n (th.step conn).1 (th.step conn).2

theorem left_step (th : Thread) (conn : Connection) (h : th.left ≠ 0) : (th.step conn).1.left < th.left := by
  cases th with
  | putBegin m fails => simp only [step]; split <;> simp [left]
  | putObject m fails => simp only [step]; split <;> simp [left]
  | putChunks m fails pos rest =>
    cases rest with
    | nil => simp [step, left]
    | cons c rest => simp only [step]; split <;> simp [left]
  | done result => exact absurd rfl h
  | _ => simp [step, left]

/-- A thread that runs alone ends where `finish` says. -/
theorem run_finish (th : Thread) (conn : Connection) :
    ∃ n, (run n th conn).1 = .done (th.finish conn).1 ∧ (run n th conn).2.db = (th.finish conn).2 := by
  induction hn : th.left using Nat.strong_induction_on generalizing th conn with
  | _ n ih =>
    by_cases h0 : th.left = 0
    · cases th with
      | done result => exact ⟨0, rfl, rfl⟩
      | _ => simp [left] at h0
    · obtain ⟨k, hdone, hdb⟩ := ih _ (hn ▸ left_step th conn h0) (th.step conn).1 (th.step conn).2 rfl
      rw [finish_step] at hdone hdb
      exact ⟨k + 1, hdone, hdb⟩

end Thread

/-- A call that runs alone is the operation. -/
theorem finish_start (c : Call) (conn : Connection) : c.start.finish conn = c.run conn.db := by
  cases c <;> rfl

/-! ## All threads -/

/-- The connection, and every call that was made with the thread it runs on. -/
structure World where
  conn : Connection
  threads : List (Call × Thread) := []

inductive Event where
  | call (c : Call)
  /-- Thread `i` makes its next SQLite call. -/
  | step (i : Nat)

def exec (w : World) : Event → World
  | .call c => { w with threads := w.threads ++ [(c, c.start)] }
  | .step i =>
    match w.threads[i]? with
    | none => w
    | some (c, th) => ⟨(th.step w.conn).2, w.threads.set i (c, (th.step w.conn).1)⟩

/-- The calls one after another, with their results. -/
def serially : MetadataStore → List Call → List (Result Unit) × MetadataStore
  | db, [] => ([], db)
  | db, c :: cs => ((c.run db).1 :: (serially (c.run db).2 cs).1, (serially (c.run db).2 cs).2)

/-- All calls have returned, and in some serial order they return the same and
leave the same tables, committed and not. -/
def Linearizable (db : MetadataStore) (w : World) : Prop :=
  ∃ order : List (Call × Result Unit), (order.map fun x => (x.1, Thread.done x.2)).Perm w.threads ∧
    (serially db (order.map Prod.fst)).1 = order.map Prod.snd ∧
    (serially db (order.map Prod.fst)).2.tables = w.conn.db.tables ∧
    (serially db (order.map Prod.fst)).2.saved = w.conn.db.saved

namespace Thread

/-- The result is fixed, or will be if no other thread interferes. -/
def decided : Thread → Bool
  | .putBegin _ _ | .deleteChunks _ _ _ => false
  | .deleteRow _ _ fails => fails.object.isSome
  | _ => true

/-- A put after its `BEGIN`, a delete before its `sqlite3_changes`, and a delete
whose second statement is to fail. -/
def exclusive : Thread → Bool
  | .done _ => false
  | th => th.decided

/-- Any other delete between its two statements, with the object it deletes. -/
def waiting : Thread → Option (Str × Str)
  | .deleteRow bucket key fails => if fails.object.isSome then none else some (cstr bucket, cstr key)
  | _ => none

/-- What may begin while a delete of the object waits: a put of another object
that ends its transaction, and a delete whose second statement succeeds. -/
def BeginsBeside (object : Str × Str) : Thread → Prop
  | .putBegin m fails => (cstr m.bucket, cstr m.key) ≠ object ∧ fails.commit = none ∧ fails.rollback = none
  | .deleteChunks _ _ fails => fails.object = none
  | _ => True

instance (object : Str × Str) : ∀ th : Thread, Decidable (th.BeginsBeside object)
  | .putBegin m fails => inferInstanceAs (Decidable ((cstr m.bucket, cstr m.key) ≠ object ∧ fails.commit = none ∧
      fails.rollback = none))
  | .deleteChunks _ _ fails => inferInstanceAs (Decidable (fails.object = none))
  | .putObject _ _ | .putClear _ _ | .putChunks _ _ _ _ | .putMessage _ | .putRollback _ _ | .deleteRow _ _ _
  | .deleteChanges | .done _ => isTrue trivial

end Thread

/-- No other thread is where nobody may interfere, and none waits whom the
thread would meet. -/
def Apart (w : World) : Event → Prop
  | .call _ => True
  | .step i => ∀ x ∈ w.threads[i]?, ∀ y ∈ w.threads.eraseIdx i,
      y.2.exclusive = false ∧ ∀ object ∈ y.2.waiting, x.2.BeginsBeside object

instance (w : World) : ∀ e, Decidable (Apart w e)
  | .call _ => isTrue trivial
  | .step i => inferInstanceAs (Decidable (∀ x ∈ w.threads[i]?, ∀ y ∈ w.threads.eraseIdx i,
      y.2.exclusive = false ∧ ∀ object ∈ y.2.waiting, x.2.BeginsBeside object))

end Dstore.Metadata
