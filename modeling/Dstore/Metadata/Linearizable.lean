import Dstore.Metadata.Connection
/-!
# Calls that count in a serial order

A `BEGIN` inside the transaction of another put fails (`overlapping_puts_fail`),
and a delete inside it is undone by its `ROLLBACK`. Calls that overlap only
where they do not meet (`Apart`), deletes with deletes and with puts of other
objects, have the results and leave the tables of some serial order
(`calls_apart_linearizable`).

A put counts from its `BEGIN`, since nobody interferes with it from there, and a
delete from its second statement. The chunk rows that a delete has removed
before that are still in the serial tables; no call that may overlap with it
sees the difference (`Thinned`).
-/
open Dstore.Lib

namespace Dstore.Metadata

open MetadataStore (PutFaults DeleteFaults objectRow chunkRow insertLoop)

/-! ## Tables without the rows of waiting deletes -/

/-- The same tables but for chunk rows that are not kept. -/
structure Thinned (keep : ChunkRow → Bool) (t t' : Tables) : Prop where
  objects : t.objects = t'.objects
  chunks : t.chunks = t'.chunks.filter keep

section Thinned
variable {keep : ChunkRow → Bool} {t t' : Tables}

/-- The rows of an object that is kept. -/
theorem Thinned.parts (h : Thinned keep t t') {bucket key : Str} (hk : ∀ r, ChunkRow.isOf bucket key r = true →
    keep r = true) :
    t.parts bucket key = t'.parts bucket key := by
  rw [Tables.parts, Tables.parts, h.chunks, List.filter_filter]
  refine List.filter_congr fun r _ => ?_
  cases hr : r.isOf bucket key with
  | false => rfl
  | true => rw [hk r hr, Bool.and_self]

/-- Both statements end alike. -/
inductive Agree (keep : ChunkRow → Bool) : Except Str (Tables × Nat) → Except Str (Tables × Nat) → Prop
  | error (message) : Agree keep (.error message) (.error message)
  | ok {u u'} (n) (h : Thinned keep u u') : Agree keep (.ok (u, n)) (.ok (u', n))

theorem Thinned.replace_object (h : Thinned keep t t') (row : ObjectRow) :
    Agree keep (Tables.replace_object row t) (Tables.replace_object row t') := by
  refine .ok 1 ⟨?_, h.chunks⟩
  rw [h.objects]

theorem Thinned.delete_chunks (h : Thinned keep t t') {bucket key : Str}
    (hk : ∀ r, ChunkRow.isOf bucket key r = true → keep r = true) :
    Agree keep (Tables.delete_chunks bucket key t) (Tables.delete_chunks bucket key t') := by
  unfold Tables.delete_chunks
  rw [h.parts hk]
  refine .ok _ ⟨h.objects, ?_⟩
  rw [h.chunks, List.filter_filter, List.filter_filter]
  refine List.filter_congr fun r _ => Bool.and_comm _ _

theorem Thinned.insert_chunk (h : Thinned keep t t') (row : ChunkRow)
    (hk : ∀ r, ChunkRow.isOf row.bucket row.key r = true → keep r = true) :
    Agree keep (Tables.insert_chunk row t) (Tables.insert_chunk row t') := by
  have hrow : keep row = true := hk row (by simp [ChunkRow.isOf])
  unfold Tables.insert_chunk
  rw [h.parts hk]
  split
  · exact .error _
  · refine .ok 1 ⟨h.objects, ?_⟩
    rw [h.chunks, List.filter_append, List.filter_cons_of_pos hrow, List.filter_nil]

/-- The same of databases, transactions included. -/
structure ThinnedDb (keep : ChunkRow → Bool) (db db' : MetadataStore) : Prop where
  tables : Thinned keep db.tables db'.tables
  saved : Option.Rel (Thinned keep) db.saved db'.saved

variable {db db' : MetadataStore}

theorem ThinnedDb.step (h : ThinnedDb keep db db') (fault : Option Str) {stmt : Tables.Statement}
    (hs : Agree keep (stmt db.tables) (stmt db'.tables)) :
    (db.step fault stmt).1 = (db'.step fault stmt).1 ∧ ThinnedDb keep (db.step fault stmt).2 (db'.step fault stmt).2 := by
  cases fault with
  | some message => exact ⟨rfl, h⟩
  | none =>
    simp only [MetadataStore.step]
    generalize stmt db.tables = x at hs
    generalize stmt db'.tables = y at hs
    cases hs with
    | error message => exact ⟨rfl, h⟩
    | ok n ht => exact ⟨rfl, ht, h.saved⟩

theorem ThinnedDb.insertLoop (fails : Nat → Option Str) {bucket key : Str}
    (hk : ∀ r, ChunkRow.isOf (cstr bucket) (cstr key) r = true → keep r = true) (i : Nat) (refs : List ChunkRef)
    (h : ThinnedDb keep db db') :
    (insertLoop fails bucket key i refs db).1 = (insertLoop fails bucket key i refs db').1 ∧
      ThinnedDb keep (insertLoop fails bucket key i refs db).2 (insertLoop fails bucket key i refs db').2 := by
  induction refs generalizing i db db' with
  | nil => exact ⟨rfl, h⟩
  | cons c refs ih =>
    obtain ⟨hresult, hthin⟩ := h.step (fails i) (h.tables.insert_chunk (chunkRow bucket key i c) hk)
    rw [MetadataStore.insertLoop, MetadataStore.insertLoop]
    generalize db.step (fails i) (Tables.insert_chunk (chunkRow bucket key i c)) = x at hresult hthin
    generalize db'.step (fails i) (Tables.insert_chunk (chunkRow bucket key i c)) = y at hresult hthin
    obtain ⟨r, x⟩ := x
    obtain ⟨r', y⟩ := y
    obtain rfl : r = r' := hresult
    cases r with
    | error message => exact ⟨rfl, hthin⟩
    | ok u => exact ih (i + 1) hthin

/-- A transaction that is ended. -/
theorem ThinnedDb.commit (h : ThinnedDb keep db db') (hopen : db.saved ≠ none) :
    (db.commit none).1 = (db'.commit none).1 ∧ Thinned keep (db.commit none).2.tables (db'.commit none).2.tables ∧
      (db.commit none).2.saved = (db'.commit none).2.saved := by
  obtain ⟨ht, hs⟩ := h
  unfold MetadataStore.commit
  generalize hx : db.saved = x at hs hopen
  generalize hy : db'.saved = y at hs
  cases hs with
  | none => exact absurd rfl hopen
  | some _ => exact ⟨rfl, ht, rfl⟩

theorem ThinnedDb.rollback (h : ThinnedDb keep db db') (hopen : db.saved ≠ none) :
    Thinned keep (db.rollback none).2.tables (db'.rollback none).2.tables ∧
      (db.rollback none).2.saved = (db'.rollback none).2.saved := by
  obtain ⟨-, hs⟩ := h
  unfold MetadataStore.rollback
  generalize hx : db.saved = x at hs hopen
  generalize hy : db'.saved = y at hs
  cases hs with
  | none => exact absurd rfl hopen
  | some ht => exact ⟨ht, rfl⟩

theorem step_saved (db : MetadataStore) (fault : Option Str) (stmt : Tables.Statement) :
    (db.step fault stmt).2.saved = db.saved := by
  unfold MetadataStore.step
  split
  · rfl
  · split <;> rfl

/-- The end of a put, inside its transaction. -/
theorem ThinnedDb.storeChunks {m : ObjectMetadata} {fails : PutFaults}
    (hk : ∀ r, ChunkRow.isOf (cstr m.bucket) (cstr m.key) r = true → keep r = true) (hc : fails.commit = none)
    (hr : fails.rollback = none) (h : ThinnedDb keep db db') (hopen : db.saved ≠ none) :
    (Thread.storeChunks m fails 0 m.chunks db).1 = (Thread.storeChunks m fails 0 m.chunks db').1 ∧
      Thinned keep (Thread.storeChunks m fails 0 m.chunks db).2.tables (Thread.storeChunks m fails 0 m.chunks db').2.tables ∧
      (Thread.storeChunks m fails 0 m.chunks db).2.saved = (Thread.storeChunks m fails 0 m.chunks db').2.saved := by
  obtain ⟨hresult, hthin⟩ := h.insertLoop fails.chunk hk 0 m.chunks
  have hsaved := (MetadataStore.insertLoop_objects fails.chunk m.bucket m.key 0 m.chunks db).1
  unfold Thread.storeChunks
  generalize MetadataStore.insertLoop fails.chunk m.bucket m.key 0 m.chunks db = x at hresult hthin hsaved
  generalize MetadataStore.insertLoop fails.chunk m.bucket m.key 0 m.chunks db' = y at hresult hthin
  obtain ⟨r, x⟩ := x
  obtain ⟨r', y⟩ := y
  obtain rfl : r = r' := hresult
  have hopen' : x.saved ≠ none := by
    rw [show x.saved = db.saved from hsaved]
    exact hopen
  cases r with
  | error message =>
    simp only [hr, true_and]
    exact hthin.rollback hopen'
  | ok u =>
    simp only [hc]
    exact hthin.commit hopen'

theorem put_object_eq (db : MetadataStore) (fails : PutFaults) (m : ObjectMetadata) :
    db.put_object fails m =
      match db.begin_immediate fails.start with
      | (.error status, db) => (.error status, db)
      | (.ok (), db) => (Thread.putObject m fails).finish ⟨db, []⟩ := rfl

/-- A put of an object that is kept, and that ends its transaction, does not see
the difference. -/
theorem Thinned.put_object (h : Thinned keep db.tables db'.tables) (hs : db.saved = db'.saved) {m : ObjectMetadata}
    {fails : PutFaults} (hk : ∀ r, ChunkRow.isOf (cstr m.bucket) (cstr m.key) r = true → keep r = true)
    (hc : fails.commit = none) (hr : fails.rollback = none) :
    (db.put_object fails m).1 = (db'.put_object fails m).1 ∧
      Thinned keep (db.put_object fails m).2.tables (db'.put_object fails m).2.tables ∧
      (db.put_object fails m).2.saved = (db'.put_object fails m).2.saved := by
  rw [put_object_eq, put_object_eq]
  unfold MetadataStore.begin_immediate
  rw [← hs]
  cases fails.start with
  | some message => exact ⟨rfl, h, hs⟩
  | none =>
    cases hsaved : db.saved with
    | some tables => exact ⟨rfl, h, hs⟩
    | none =>
      have hbegun : ThinnedDb keep { db with saved := some db.tables } { db' with saved := some db'.tables } :=
        ⟨h, .some h⟩
      obtain ⟨hresult, hthin⟩ := hbegun.step fails.object (hbegun.tables.replace_object (objectRow m))
      have hopen := step_saved { db with saved := some db.tables } fails.object (Tables.replace_object (objectRow m))
      simp only [Thread.finish]
      generalize MetadataStore.step { db with saved := some db.tables } fails.object
        (Tables.replace_object (objectRow m)) = x
        at hresult hthin hopen
      generalize MetadataStore.step { db' with saved := some db'.tables } fails.object
        (Tables.replace_object (objectRow m)) = y
        at hresult hthin
      obtain ⟨r, x⟩ := x
      obtain ⟨r', y⟩ := y
      obtain rfl : r = r' := hresult
      have hopen : x.saved = some db.tables := hopen
      cases r with
      | error message =>
        simp only [hr, true_and]
        exact hthin.rollback (by rw [hopen]; exact Option.some_ne_none _)
      | ok u =>
        obtain ⟨-, hcleared⟩ := ThinnedDb.step hthin fails.clear (hthin.tables.delete_chunks hk)
        refine hcleared.storeChunks hk hc hr ?_
        rw [step_saved, show x.saved = _ from hopen]
        exact Option.some_ne_none _

end Thinned

/-! ## The serial order -/

/-- The row is gone already, though the delete counts only from its second
statement. -/
def Thread.erases : Thread → ChunkRow → Bool
  | .deleteRow bucket key fails, r => fails.object.isNone && fails.chunks.isNone && r.isOf (cstr bucket) (cstr key)
  | _, _ => false

/-- No waiting delete has removed the row. -/
def keeps (threads : List (Call × Thread)) (r : ChunkRow) : Bool := threads.all fun x => !x.2.erases r

/-- The result of a call that counts. -/
def settled (conn : Connection) (x : Call × Thread) : Option (Call × Result Unit) :=
  if x.2.decided then some (x.1, (x.2.finish conn).1) else none

/-- The database when the thread that nobody may interfere with is done. -/
def World.settle (w : World) : MetadataStore :=
  match w.threads.find? (·.2.exclusive) with
  | some x => (x.2.finish w.conn).2
  | none => w.conn.db

/-- The thread runs the call. -/
def Thread.Runs (c : Call) : Thread → Prop
  | .putBegin m fails => c = .put_object m fails
  | .deleteChunks bucket key fails | .deleteRow bucket key fails => c = .delete_object bucket key fails
  | _ => True

/-- The database `db` is the serial one without what waiting deletes have
removed. -/
structure Reflects (threads : List (Call × Thread)) (db serial : MetadataStore) : Prop where
  tables : Thinned (keeps threads) db.tables serial.tables
  saved : db.saved = serial.saved
  changes : (∀ x ∈ threads, x.2.waiting = none) → db.changes = serial.changes

def Inv (db : MetadataStore) (w : World) : Prop :=
  ∃ (order : List (Call × Result Unit)) (serial : MetadataStore), serially db (order.map Prod.fst) =
    (order.map Prod.snd, serial) ∧
    order.Perm (w.threads.filterMap (settled w.conn)) ∧ Reflects w.threads w.settle serial ∧
    ∀ x ∈ w.threads, x.2.Runs x.1

section Invariant

theorem serially_concat (db : MetadataStore) (cs : List Call) (c : Call) :
    serially db (cs ++ [c]) =
      ((serially db cs).1 ++ [(c.run (serially db cs).2).1], (c.run (serially db cs).2).2) := by
  induction cs generalizing db with
  | nil => rfl
  | cons x cs ih => simp only [List.cons_append, serially, ih]

namespace Thread

theorem waiting_of_erases {th : Thread} {r : ChunkRow} (h : th.erases r = true) :
    th.waiting = some (r.bucket, r.key) := by
  cases th with
  | deleteRow bucket key fails =>
    simp only [erases, Bool.and_eq_true, Option.isNone_iff_eq_none, ChunkRow.isOf, decide_eq_true_eq] at h
    obtain ⟨⟨hobject, -⟩, hb, hk⟩ := h
    simp [waiting, hobject, hb, hk]
  | _ => cases h

theorem eq_done {th : Thread} (h : th.decided = true) (he : th.exclusive = false) : ∃ result, th = .done result := by
  cases th with
  | done result => exact ⟨result, rfl⟩
  | _ => exact absurd (he.symm.trans h) (by decide)

theorem waiting_of_decided {th : Thread} (h : th.decided = true) : th.waiting = none := by
  cases th with
  | deleteRow bucket key fails => exact if_pos h
  | _ => rfl

theorem erases_of_not_waiting {th : Thread} (h : th.waiting = none) (r : ChunkRow) : th.erases r = false := by
  cases he : th.erases r with
  | false => rfl
  | true =>
    rw [waiting_of_erases he] at h
    cases h

/-- A call that counts goes on counting. -/
theorem decided_step {th : Thread} (h : th.decided = true) (conn : Connection) : (th.step conn).1.decided = true := by
  cases th with
  | putBegin m fails => cases h
  | putObject m fails => simp only [step]; split <;> rfl
  | putChunks m fails pos rest =>
    cases rest with
    | nil => rfl
    | cons c rest => simp only [step]; split <;> rfl
  | deleteChunks bucket key fails => cases h
  | _ => rfl

theorem runs_of_decided {c : Call} {th : Thread} (h : th.decided = true) (hr : th.Runs c) (conn : Connection) :
    (th.step conn).1.Runs c := by
  cases th with
  | putBegin m fails => cases h
  | putObject m fails => simp only [step]; split <;> trivial
  | putChunks m fails pos rest =>
    cases rest with
    | nil => trivial
    | cons c rest => simp only [step]; split <;> trivial
  | deleteChunks bucket key fails => cases h
  | _ => trivial

end Thread

variable {conn : Connection} {pre post : List (Call × Thread)} {x : Call × Thread}

theorem settle_eq (ho : ∀ y ∈ pre ++ post, y.2.exclusive = false) :
    World.settle ⟨conn, pre ++ x :: post⟩ = if x.2.exclusive then (x.2.finish conn).2 else conn.db := by
  have hnone : ∀ l : List (Call × Thread), (∀ y ∈ l, y ∈ pre ++ post) → l.find? (fun y => y.2.exclusive) = none := by
    intro l hl
    refine List.find?_eq_none.2 fun y hy => ?_
    rw [ho y (hl y hy)]
    exact Bool.false_ne_true
  unfold World.settle
  rw [List.find?_append, hnone pre fun y hy => List.mem_append_left _ hy, Option.none_or, List.find?_cons]
  cases x.2.exclusive with
  | true => rfl
  | false => rw [hnone post fun y hy => List.mem_append_right _ hy]; rfl

theorem settle_of_decided (ho : ∀ y ∈ pre ++ post, y.2.exclusive = false) (h : x.2.decided = true) :
    World.settle ⟨conn, pre ++ x :: post⟩ = (x.2.finish conn).2 := by
  rw [settle_eq ho]
  obtain ⟨c, th⟩ := x
  cases th with
  | done result => rfl
  | _ => exact if_pos h

theorem settle_of_undecided (ho : ∀ y ∈ pre ++ post, y.2.exclusive = false) (h : x.2.decided = false) :
    World.settle ⟨conn, pre ++ x :: post⟩ = conn.db := by
  rw [settle_eq ho]
  refine if_neg ?_
  obtain ⟨c, th⟩ := x
  cases th with
  | done result => cases h
  | _ =>
    intro he
    exact absurd (he.symm.trans h) (by decide)

/-- The results of the other calls do not depend on the connection. -/
theorem settled_others {l : List (Call × Thread)} (ho : ∀ y ∈ l, y.2.exclusive = false) (conn' : Connection) :
    l.filterMap (settled conn) = l.filterMap (settled conn') := by
  refine List.filterMap_congr fun y hy => ?_
  unfold settled
  cases hd : y.2.decided with
  | false => rfl
  | true =>
    obtain ⟨result, hdone⟩ := Thread.eq_done hd (ho y hy)
    rw [hdone]
    rfl

/-- The calls that count, when the connection has changed under one thread. -/
theorem settled_split (ho : ∀ y ∈ pre ++ post, y.2.exclusive = false) (conn conn' : Connection) :
    (pre ++ x :: post).filterMap (settled conn') =
      pre.filterMap (settled conn) ++ ((settled conn' x).toList ++ post.filterMap (settled conn)) := by
  rw [List.filterMap_append, List.filterMap_cons, settled_others (fun y hy => ho y (List.mem_append_left _ hy)) conn,
    settled_others (fun y hy => ho y (List.mem_append_right _ hy)) conn]
  cases settled conn' x <;> rfl

/-- With no waiting delete the database is the serial one. -/
theorem Reflects.eq {threads : List (Call × Thread)} {db serial : MetadataStore} (h : Reflects threads db serial)
    (hw : ∀ y ∈ threads, y.2.waiting = none) : db = serial := by
  have hkeep : ∀ r, keeps threads r = true := by
    intro r
    refine List.all_eq_true.2 fun y hy => ?_
    rw [Thread.erases_of_not_waiting (hw y hy)]
    rfl
  have hc := h.tables.chunks
  rw [List.filter_eq_self.2 fun r _ => hkeep r] at hc
  obtain ⟨⟨o, c⟩, s, n⟩ := db
  obtain ⟨⟨o', c'⟩, s', n'⟩ := serial
  obtain rfl : o = o' := h.tables.objects
  obtain rfl : c = c' := hc
  obtain rfl : s = s' := h.saved
  obtain rfl : n = n' := h.changes hw
  rfl

theorem Reflects.refl {threads : List (Call × Thread)} (hw : ∀ y ∈ threads, y.2.waiting = none) (db : MetadataStore) :
    Reflects threads db db := by
  refine ⟨⟨rfl, ?_⟩, rfl, fun _ => rfl⟩
  refine (List.filter_eq_self.2 fun r _ => List.all_eq_true.2 fun y hy => ?_).symm
  rw [Thread.erases_of_not_waiting (hw y hy)]
  rfl

theorem keeps_split (r : ChunkRow) : keeps (pre ++ x :: post) r = (keeps (pre ++ post) r && !x.2.erases r) := by
  unfold keeps
  rw [List.all_append, List.all_cons, List.all_append]
  cases x.2.erases r <;> simp

/-- Another thread in the place of one changes nothing when both remove
nothing. -/
theorem keeps_congr {x' : Call × Thread} (h : x.2.waiting = none) (h' : x'.2.waiting = none) :
    keeps (pre ++ x' :: post) = keeps (pre ++ x :: post) := by
  funext r
  rw [keeps_split, keeps_split, Thread.erases_of_not_waiting h, Thread.erases_of_not_waiting h']

theorem mem_split {y : Call × Thread} : y ∈ pre ++ x :: post ↔ y = x ∨ y ∈ pre ++ post := by
  rw [List.mem_append, List.mem_cons, List.mem_append]
  tauto

theorem Reflects.congr {x' : Call × Thread} {db serial : MetadataStore} (h : Reflects (pre ++ x :: post) db serial)
    (hx : x.2.waiting = none) (hx' : x'.2.waiting = none) : Reflects (pre ++ x' :: post) db serial where
  tables := by
    rw [keeps_congr hx hx']
    exact h.tables
  saved := h.saved
  changes hw := by
    refine h.changes fun y hy => ?_
    rcases mem_split.1 hy with rfl | hy
    · exact hx
    · exact hw y (mem_split.2 (.inr hy))

theorem runs_split {x' : Call × Thread} (h : ∀ y ∈ pre ++ x :: post, y.2.Runs y.1) (hx' : x'.2.Runs x'.1) :
    ∀ y ∈ pre ++ x' :: post, y.2.Runs y.1 := by
  intro y hy
  rcases mem_split.1 hy with rfl | hy
  · exact hx'
  · exact h y (mem_split.2 (.inr hy))

/-! ### One SQLite call -/

variable {db₀ : MetadataStore} {c : Call} {th : Thread}

/-- A call that counts already goes on. -/
theorem Inv.advance (h : Inv db₀ ⟨conn, pre ++ (c, th) :: post⟩) (ho : ∀ y ∈ pre ++ post, y.2.exclusive = false)
    (hd : th.decided = true) : Inv db₀ ⟨(th.step conn).2, pre ++ (c, (th.step conn).1) :: post⟩ := by
  obtain ⟨order, serial, hserial, hperm, hreflects, hruns⟩ := h
  have hd' := Thread.decided_step hd conn
  refine ⟨order, serial, hserial, ?_, ?_, ?_⟩
  · have hsame : settled (th.step conn).2 (c, (th.step conn).1) = settled conn (c, th) := by
      simp only [settled, hd, hd', if_true, Thread.finish_step]
    rw [settled_split ho conn] at hperm
    rw [settled_split ho conn, hsame]
    exact hperm
  · rw [settle_of_decided ho hd, ← Thread.finish_step] at hreflects
    rw [settle_of_decided ho hd']
    exact hreflects.congr (Thread.waiting_of_decided hd) (Thread.waiting_of_decided hd')
  · exact runs_split hruns (Thread.runs_of_decided hd (hruns _ (mem_split.2 (.inl rfl))) conn)

/-- From this SQLite call on the call counts, as the last one so far. -/
theorem Inv.decide (ho : ∀ y ∈ pre ++ post, y.2.exclusive = false) (hd : th.decided = false)
    (hd' : (th.step conn).1.decided = true) {order : List (Call × Result Unit)} {serial : MetadataStore}
    (hserial : serially db₀ (order.map Prod.fst) = (order.map Prod.snd, serial))
    (hperm : order.Perm ((pre ++ (c, th) :: post).filterMap (settled conn)))
    (hruns : ∀ y ∈ pre ++ (c, th) :: post, y.2.Runs y.1) (hruns' : (th.step conn).1.Runs c)
    (hresult : (c.run serial).1 = (th.finish conn).1)
    (hreflects : Reflects (pre ++ (c, (th.step conn).1) :: post) (th.finish conn).2 (c.run serial).2) :
    Inv db₀ ⟨(th.step conn).2, pre ++ (c, (th.step conn).1) :: post⟩ := by
  refine ⟨order ++ [(c, (th.finish conn).1)], (c.run serial).2, ?_, ?_, ?_, ?_⟩
  · rw [List.map_append, List.map_append, List.map_singleton, List.map_singleton, serially_concat, hserial, hresult]
  · have hnew : settled (th.step conn).2 (c, (th.step conn).1) = some (c, (th.finish conn).1) := by
      simp only [settled, hd', if_true, Thread.finish_step]
    have hold : settled conn (c, th) = none := by simp only [settled, hd, Bool.false_eq_true, if_false]
    rw [settled_split ho conn, hold] at hperm
    rw [settled_split ho conn, hnew]
    exact (List.perm_append_singleton _ _).trans ((hperm.cons _).trans List.perm_middle.symm)
  · rw [settle_of_decided ho hd', Thread.finish_step]
    exact hreflects
  · exact runs_split hruns hruns'

theorem no_waiting (hx : x.2.waiting = none) (hw : ∀ y ∈ pre ++ post, y.2.waiting = none) :
    ∀ y ∈ pre ++ x :: post, y.2.waiting = none := by
  intro y hy
  rcases mem_split.1 hy with rfl | hy
  · exact hx
  · exact hw y hy

/-- A call that begins when no delete waits. -/
theorem Inv.begin_alone (h : Inv db₀ ⟨conn, pre ++ (c, c.start) :: post⟩) (ho : ∀ y ∈ pre ++ post, y.2.exclusive = false)
    (hw : ∀ y ∈ pre ++ post, y.2.waiting = none) (hd' : (c.start.step conn).1.decided = true)
    (hruns' : (c.start.step conn).1.Runs c) :
      Inv db₀ ⟨(c.start.step conn).2, pre ++ (c, (c.start.step conn).1) :: post⟩ := by
  obtain ⟨order, serial, hserial, hperm, hreflects, hruns⟩ := h
  have hd : c.start.decided = false := by cases c <;> rfl
  have hx : c.start.waiting = none := by cases c <;> rfl
  rw [settle_of_undecided ho hd] at hreflects
  have hsame : conn.db = serial := hreflects.eq (no_waiting hx hw)
  refine Inv.decide ho hd hd' hserial hperm hruns hruns' ?_ ?_
  · rw [finish_start, hsame]
  · rw [finish_start, hsame]
    exact Reflects.refl (no_waiting (Thread.waiting_of_decided hd') hw) _

theorem Inv.begin_put {m : ObjectMetadata} {fails : PutFaults}
    (h : Inv db₀ ⟨conn, pre ++ (c, .putBegin m fails) :: post⟩)
    (ho : ∀ y ∈ pre ++ post, y.2.exclusive = false ∧ ∀ object ∈ y.2.waiting, (Thread.putBegin m fails).BeginsBeside object) :
    Inv db₀ ⟨((Thread.putBegin m fails).step conn).2, pre ++ (c, ((Thread.putBegin m fails).step conn).1) :: post⟩ := by
  have hex := fun y hy => (ho y hy).1
  obtain rfl : c = .put_object m fails := by
    obtain ⟨-, -, -, -, -, hruns⟩ := h
    exact hruns _ (mem_split.2 (.inl rfl))
  have hd' : ((Thread.putBegin m fails).step conn).1.decided = true := by
    simp only [Thread.step]
    split <;> rfl
  have hruns' : ((Thread.putBegin m fails).step conn).1.Runs (.put_object m fails) := by
    simp only [Thread.step]
    split <;> trivial
  by_cases hw : ∀ y ∈ pre ++ post, y.2.waiting = none
  · exact Inv.begin_alone h hex hw hd' hruns'
  · -- some delete waits: the put ends its transaction, and its rows are not those removed
    obtain ⟨order, serial, hserial, hperm, hreflects, hruns⟩ := h
    obtain ⟨y, hy, hwaits⟩ : ∃ y ∈ pre ++ post, y.2.waiting ≠ none := by
      simpa only [not_forall, exists_prop] using hw
    obtain ⟨object, hobject⟩ := Option.ne_none_iff_exists'.1 hwaits
    obtain ⟨-, hcommit, hrollback⟩ := (ho y hy).2 object hobject
    have hx' := Thread.waiting_of_decided hd'
    rw [settle_of_undecided hex rfl] at hreflects
    have hreflects : Reflects (pre ++ (.put_object m fails, ((Thread.putBegin m fails).step conn).1) :: post) conn.db serial :=
      hreflects.congr rfl hx'
    have hk : ∀ r, ChunkRow.isOf (cstr m.bucket) (cstr m.key) r = true →
        keeps (pre ++ (.put_object m fails, ((Thread.putBegin m fails).step conn).1) :: post) r = true := by
      intro r hr
      obtain ⟨hb, hkey⟩ : r.bucket = cstr m.bucket ∧ r.key = cstr m.key := by simpa [ChunkRow.isOf] using hr
      rw [keeps_split, Thread.erases_of_not_waiting hx', Bool.not_false, Bool.and_true]
      refine List.all_eq_true.2 fun z hz => ?_
      cases he : z.2.erases r with
      | false => rfl
      | true =>
        have hne := ((ho z hz).2 _ (Thread.waiting_of_erases he)).1
        rw [hb, hkey] at hne
        exact absurd rfl hne
    obtain ⟨hresult, htables, hsaved⟩ := hreflects.tables.put_object hreflects.saved hk hcommit hrollback
    refine Inv.decide hex rfl hd' hserial hperm hruns hruns' hresult.symm
      ⟨htables, hsaved, fun hnone => ?_⟩
    exact absurd (hnone y (mem_split.2 (.inr hy))) hwaits

/-- What a first statement of a delete does to the chunk rows. -/
theorem delete_chunks_step (db : MetadataStore) (fault : Option Str) (bucket key : Str) :
    (db.step fault (Tables.delete_chunks bucket key)).2.tables.objects = db.tables.objects ∧
      (db.step fault (Tables.delete_chunks bucket key)).2.tables.chunks =
        db.tables.chunks.filter (fun r => !(fault.isNone && r.isOf bucket key)) ∧
      (db.step fault (Tables.delete_chunks bucket key)).2.saved = db.saved := by
  cases fault with
  | some message => exact ⟨rfl, by simp [MetadataStore.step], rfl⟩
  | none => exact ⟨rfl, by simp [MetadataStore.step, Tables.delete_chunks], rfl⟩

theorem Inv.begin_delete {bucket key : Str} {fails : DeleteFaults}
    (h : Inv db₀ ⟨conn, pre ++ (c, .deleteChunks bucket key fails) :: post⟩)
    (ho : ∀ y ∈ pre ++ post, y.2.exclusive = false ∧
      ∀ object ∈ y.2.waiting, (Thread.deleteChunks bucket key fails).BeginsBeside object) :
    Inv db₀ ⟨((Thread.deleteChunks bucket key fails).step conn).2,
      pre ++ (c, ((Thread.deleteChunks bucket key fails).step conn).1) :: post⟩ := by
  have hex := fun y hy => (ho y hy).1
  obtain rfl : c = .delete_object bucket key fails := by
    obtain ⟨-, -, -, -, -, hruns⟩ := h
    exact hruns _ (mem_split.2 (.inl rfl))
  cases hf : fails.object with
  | some message =>
    have hd' : ((Thread.deleteChunks bucket key fails).step conn).1.decided = true := by
      simp only [Thread.step, Thread.decided, hf, Option.isSome_some]
    refine Inv.begin_alone h hex (fun y hy => ?_) hd' rfl
    cases hwaits : y.2.waiting with
    | none => rfl
    | some object =>
      have hnone : fails.object = none := (ho y hy).2 object hwaits
      rw [hf] at hnone
      cases hnone
  | none =>
    -- the rows go, and the delete waits
    obtain ⟨order, serial, hserial, hperm, hreflects, hruns⟩ := h
    obtain ⟨hobjects, hchunks, hsaved⟩ := delete_chunks_step conn.db fails.chunks (cstr bucket) (cstr key)
    have hd' : (Thread.deleteRow bucket key fails).decided = false := by simp only [Thread.decided, hf, Option.isSome_none]
    rw [settle_of_undecided hex rfl] at hreflects
    refine ⟨order, serial, hserial, ?_, ?_, ?_⟩
    · have hnew : ∀ conn', settled conn' (.delete_object bucket key fails, .deleteRow bucket key fails) = none := by
        intro conn'
        simp only [settled, hd', Bool.false_eq_true, if_false]
      have hold : settled conn (.delete_object bucket key fails, .deleteChunks bucket key fails) = none := rfl
      rw [settled_split hex conn, hold] at hperm
      rw [settled_split hex conn, Thread.step, hnew]
      exact hperm
    · simp only [Thread.step]
      rw [settle_of_undecided hex hd', Thread.step_db]
      refine ⟨⟨hobjects.trans hreflects.tables.objects, ?_⟩, hsaved.trans hreflects.saved, fun hnone => ?_⟩
      · rw [hchunks, hreflects.tables.chunks, List.filter_filter]
        refine List.filter_congr fun r _ => ?_
        rw [keeps_split, keeps_split, Bool.and_comm]
        simp [Thread.erases, hf]
      · have := hnone _ (mem_split.2 (.inl rfl))
        simp [Thread.waiting, hf] at this
    · exact runs_split hruns rfl

/-- The second statement of a delete that waits. -/
theorem Inv.end_wait {bucket key : Str} {fails : DeleteFaults} (hf : fails.object = none)
    (h : Inv db₀ ⟨conn, pre ++ (c, .deleteRow bucket key fails) :: post⟩) (hex : ∀ y ∈ pre ++ post, y.2.exclusive = false) :
    Inv db₀ ⟨((Thread.deleteRow bucket key fails).step conn).2,
      pre ++ (c, ((Thread.deleteRow bucket key fails).step conn).1) :: post⟩ := by
  obtain ⟨order, serial, hserial, hperm, hreflects, hruns⟩ := h
  obtain rfl : c = .delete_object bucket key fails := hruns _ (mem_split.2 (.inl rfl))
  have hd : (Thread.deleteRow bucket key fails).decided = false := by simp only [Thread.decided, hf, Option.isSome_none]
  rw [settle_of_undecided hex hd] at hreflects
  obtain ⟨hobjects, hchunks, hsaved⟩ := delete_chunks_step serial fails.chunks (cstr bucket) (cstr key)
  have hrun : (Call.delete_object bucket key fails).run serial =
      (deleted ((serial.step fails.chunks (Tables.delete_chunks (cstr bucket) (cstr key))).2.step none
        (Tables.delete_object_row (cstr bucket) (cstr key))).2.changes,
      ((serial.step fails.chunks (Tables.delete_chunks (cstr bucket) (cstr key))).2.step none
        (Tables.delete_object_row (cstr bucket) (cstr key))).2) := by
    rw [Call.run, Thread.delete_object_eq, hf]
  generalize (serial.step fails.chunks (Tables.delete_chunks (cstr bucket) (cstr key))).2 = cleared
    at hobjects hchunks hsaved hrun
  have hcount : (cleared.tables.object (cstr bucket) (cstr key)).length =
      (conn.db.tables.object (cstr bucket) (cstr key)).length := by
    rw [Tables.object, Tables.object, hobjects, hreflects.tables.objects]
  refine Inv.decide hex hd rfl hserial hperm hruns trivial ?_ ?_
  · rw [hrun]
    simp only [Thread.finish, hf, MetadataStore.step, Tables.delete_object_row, hcount]
  · rw [hrun]
    simp only [Thread.finish, Thread.step, hf, MetadataStore.step, Tables.delete_object_row]
    refine ⟨⟨?_, ?_⟩, ?_, fun _ => ?_⟩
    · rw [hobjects, hreflects.tables.objects]
    · -- what the delete has removed before is now removed from the serial tables too
      rw [hreflects.tables.chunks, hchunks, List.filter_filter]
      refine List.filter_congr fun r _ => ?_
      rw [keeps_split, keeps_split]
      simp [Thread.erases, hf]
    · exact hreflects.saved.trans hsaved.symm
    · exact hcount.symm

/-- An SQLite call of a thread that is apart from the others. -/
theorem Inv.step_split (h : Inv db₀ ⟨conn, pre ++ (c, th) :: post⟩)
    (ho : ∀ y ∈ pre ++ post, y.2.exclusive = false ∧ ∀ object ∈ y.2.waiting, th.BeginsBeside object) :
    Inv db₀ ⟨(th.step conn).2, pre ++ (c, (th.step conn).1) :: post⟩ := by
  have hex := fun y hy => (ho y hy).1
  cases th with
  | putBegin m fails => exact h.begin_put ho
  | deleteChunks bucket key fails => exact h.begin_delete ho
  | deleteRow bucket key fails =>
    cases hf : fails.object with
    | none => exact Inv.end_wait hf h hex
    | some message =>
      refine h.advance hex ?_
      simp only [Thread.decided, hf, Option.isSome_some]
  | _ => exact h.advance hex rfl

theorem Inv.step {w : World} (h : Inv db₀ w) {i : Nat} (ha : Apart w (.step i)) (hi : w.threads[i]? = some (c, th)) :
    Inv db₀ ⟨(th.step w.conn).2, w.threads.set i (c, (th.step w.conn).1)⟩ := by
  obtain ⟨hlt, hget⟩ := List.getElem?_eq_some_iff.1 hi
  have hsplit : w.threads = w.threads.take i ++ (c, th) :: w.threads.drop (i + 1) := by
    rw [← hget, ← List.drop_eq_getElem_cons hlt, List.take_append_drop]
  have hset := List.set_eq_take_append_cons_drop (l := w.threads) (i := i) (a := (c, (th.step w.conn).1))
  rw [if_pos hlt] at hset
  rw [hset]
  refine Inv.step_split ?_ fun y hy => ha _ hi y ?_
  · rw [← hsplit]
    exact h
  · rw [List.eraseIdx_eq_take_drop_succ]
    exact hy

theorem Inv.call {w : World} (h : Inv db₀ w) (c : Call) : Inv db₀ { w with threads := w.threads ++ [(c, c.start)] } := by
  obtain ⟨order, serial, hserial, hperm, hreflects, hruns⟩ := h
  have hd : c.start.decided = false := by cases c <;> rfl
  have hx : c.start.waiting = none := by cases c <;> rfl
  have hne : c.start.exclusive = false := by cases c <;> rfl
  have hsettle : World.settle { w with threads := w.threads ++ [(c, c.start)] } = w.settle := by
    unfold World.settle
    have hlast : [(c, c.start)].find? (fun y => y.2.exclusive) = none := by
      rw [List.find?_singleton, hne]
      rfl
    simp only [List.find?_append, hlast, Option.or_none]
  have hkeeps : keeps (w.threads ++ [(c, c.start)]) = keeps w.threads := by
    funext r
    have hsplit : keeps (w.threads ++ (c, c.start) :: []) r = _ := keeps_split r
    rw [Thread.erases_of_not_waiting hx, List.append_nil, Bool.not_false, Bool.and_true] at hsplit
    exact hsplit
  refine ⟨order, serial, hserial, ?_, ?_, ?_⟩
  · have hnew : settled w.conn (c, c.start) = none := by simp only [settled, hd, Bool.false_eq_true, if_false]
    simp only [List.filterMap_append, List.filterMap_cons, hnew, List.filterMap_nil, List.append_nil]
    exact hperm
  · rw [hsettle]
    refine ⟨?_, hreflects.saved, fun hw => hreflects.changes fun y hy => hw y (List.mem_append_left _ hy)⟩
    rw [hkeeps]
    exact hreflects.tables
  · intro y hy
    rcases List.mem_append.1 hy with hy | hy
    · exact hruns y hy
    · rw [List.mem_singleton.1 hy]
      cases c <;> rfl

theorem Inv.exec {w : World} (h : Inv db₀ w) {e : Event} (ha : Apart w e) : Inv db₀ (exec w e) := by
  cases e with
  | call c => exact h.call c
  | step i =>
    unfold Metadata.exec
    cases hi : w.threads[i]? with
    | none => simpa only [hi] using h
    | some x =>
      obtain ⟨c, th⟩ := x
      simp only [hi]
      exact h.step ha hi

/-- When all calls have returned, the order is a serial one. -/
theorem Inv.linearizable {w : World} (h : Inv db₀ w) (hdone : ∀ x ∈ w.threads, ∃ result, x.2 = .done result) :
    Linearizable db₀ w := by
  obtain ⟨order, serial, hserial, hperm, hreflects, -⟩ := h
  have hsettle : w.settle = w.conn.db := by
    unfold World.settle
    rw [List.find?_eq_none.2]
    intro x hx
    obtain ⟨result, hresult⟩ := hdone x hx
    rw [hresult]
    exact Bool.false_ne_true
  have hsame : w.conn.db = serial := by
    rw [← hsettle]
    refine hreflects.eq fun x hx => ?_
    obtain ⟨result, hresult⟩ := hdone x hx
    rw [hresult]
    rfl
  refine ⟨order, ?_, by rw [hserial], by rw [hserial, hsame], by rw [hserial, hsame]⟩
  have hback : (w.threads.filterMap (settled w.conn)).map (fun x => (x.1, Thread.done x.2)) = w.threads := by
    rw [List.map_filterMap]
    refine (List.filterMap_congr fun x hx => ?_).trans List.filterMap_some
    obtain ⟨result, hresult⟩ := hdone x hx
    obtain ⟨c, th⟩ := x
    obtain rfl : th = .done result := hresult
    rfl
  have := hperm.map fun x => (x.1, Thread.done x.2)
  rw [hback] at this
  exact this

end Invariant

/-- In every run whose SQLite calls are apart, once all calls have returned
they have the results, and leave the tables, of some serial order. -/
theorem calls_apart_linearizable (conn : Connection)
    (r : Run (Guarded Apart fun w e w' => w' = exec w e) ⟨conn, []⟩) (t : Nat)
    (hdone : ∀ x ∈ (r.state t).threads, ∃ result, x.2 = .done result) : Linearizable conn.db (r.state t) := by
  have hinit : Inv conn.db ⟨conn, []⟩ := by
    refine ⟨[], conn.db, rfl, .nil, ?_, by simp⟩
    exact Reflects.refl (by simp) _
  refine Inv.linearizable (r.inv (Inv conn.db) hinit ?_ t) hdone
  rintro w e w' hw ⟨ha, rfl⟩
  exact hw.exec ha

instance decidableDone : ∀ th : Thread, Decidable (∃ result, th = .done result)
  | .done result => isTrue ⟨result, rfl⟩
  | .putBegin _ _ | .putObject _ _ | .putClear _ _ | .putChunks _ _ _ _ | .putMessage _ | .putRollback _ _
  | .deleteChunks _ _ _ | .deleteRow _ _ _ | .deleteChanges => isFalse (by rintro ⟨_, ⟨⟩⟩)

def photo (key : String) : ObjectMetadata := ⟨lit "photos", lit key, 3, lit "abc", [⟨lit "abc", 3⟩]⟩

/-- A connection to a database with one object. -/
def onePhoto : Connection := ⟨(MetadataStore.put_object {} {} (photo "cat")).2, lit "not an error"⟩

/-- A delete waits while another object is put. -/
def deleteAroundPut : List Event :=
  [.call (.delete_object (lit "photos") (lit "cat") {}), .call (.put_object (photo "dog") {}),
    .step 0, .step 1, .step 1, .step 1, .step 1, .step 1, .step 0, .step 0]

theorem deleteAroundPut_apart : Run.Legal Apart exec ⟨onePhoto, []⟩ deleteAroundPut := by decide +kernel

/-- Both calls return ok, and leave what they leave one after the other. -/
theorem delete_around_put :
    ∃ r : Run (Guarded Apart fun w e w' => w' = exec w e) ⟨onePhoto, []⟩,
      (r.state 10).conn.db.tables = ({} : Tables).upload (photo "dog") ∧ Linearizable onePhoto.db (r.state 10) := by
  refine ⟨Run.ofEvents _ _ _ deleteAroundPut_apart, by decide +kernel, ?_⟩
  exact calls_apart_linearizable onePhoto _ 10 (by decide +kernel)

/-- Outside a transaction, puts one after another that nothing fails all
return ok. -/
theorem serially_puts_ok {db : MetadataStore} (hidle : db.saved = none) {cs : List Call}
    (hcs : ∀ c ∈ cs, ∃ m : ObjectMetadata, c = .put_object m {} ∧ m.chunks.length ≤ 2 ^ 32) :
    ∀ result ∈ (serially db cs).1, result = .ok () := by
  induction cs generalizing db with
  | nil => intro result h; cases h
  | cons c cs ih =>
    obtain ⟨m, rfl, hlen⟩ := hcs c List.mem_cons_self
    obtain ⟨n, hput⟩ := MetadataStore.put_object_ok hidle hlen
    intro result h
    simp only [serially, Call.run, hput] at h
    rcases List.mem_cons.1 h with rfl | h
    · rfl
    · exact ih rfl (fun c hc => hcs c (List.mem_cons_of_mem _ hc)) result h

/-- Two puts, the second of which begins inside the transaction of the first. -/
def putInsidePut : List Event :=
  [.call (.put_object (photo "cat") {}), .call (.put_object (photo "dog") {}),
    .step 0, .step 1, .step 0, .step 0, .step 0, .step 0]

def insideWorld : World := Run.stateAfter exec ⟨⟨{}, lit "not an error"⟩, []⟩ putInsidePut 8

theorem insideWorld_threads : insideWorld.threads =
    [(.put_object (photo "cat") {}, .done (.ok ())),
      (.put_object (photo "dog") {},
        .done (.error (.Internal (lit "cannot start a transaction within a transaction"))))] := rfl

/-- The second put fails only because the first is in progress. -/
theorem overlapping_puts_fail :
    ∃ r : Run (fun w e w' => w' = exec w e) ⟨⟨{}, lit "not an error"⟩, []⟩,
      (∀ x ∈ (r.state 8).threads, ∃ result, x.2 = .done result) ∧ ¬ Linearizable {} (r.state 8) := by
  have hstate : Run.stateAfter exec ⟨⟨{}, lit "not an error"⟩, []⟩ putInsidePut 8 = insideWorld := rfl
  refine ⟨Run.ofList _ _ putInsidePut, ?_, ?_⟩
  · rw [Run.ofList_state, hstate, insideWorld_threads]
    decide
  · rw [Run.ofList_state, hstate]
    rintro ⟨order, hperm, hresults, -⟩
    rw [insideWorld_threads] at hperm
    have hcalls : ∀ c ∈ order.map Prod.fst, ∃ m : ObjectMetadata, c = .put_object m {} ∧ m.chunks.length ≤ 2 ^ 32 := by
      intro c hc
      obtain ⟨x, hx, rfl⟩ := List.mem_map.1 hc
      have hmem := hperm.mem_iff.1 (List.mem_map_of_mem hx)
      simp only [List.mem_cons, List.not_mem_nil, or_false, Prod.mk.injEq] at hmem
      rcases hmem with ⟨hcat, -⟩ | ⟨hdog, -⟩
      · exact ⟨photo "cat", hcat, by decide⟩
      · exact ⟨photo "dog", hdog, by decide⟩
    have hok : ∀ result ∈ (serially {} (order.map Prod.fst)).1, result = .ok () := serially_puts_ok rfl hcalls
    rw [hresults] at hok
    -- but the second put is in the order with its error
    obtain ⟨x, hx, heq⟩ := List.mem_map.1 (hperm.mem_iff.2 (List.mem_cons_of_mem _ List.mem_cons_self))
    have herror := hok x.2 (List.mem_map_of_mem hx)
    have hdone := congrArg Prod.snd heq
    rw [show x = (x.1, x.2) from rfl] at hdone
    simp only [herror, Thread.done.injEq] at hdone
    cases hdone

end Dstore.Metadata
