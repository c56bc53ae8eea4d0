import Mathlib.Algebra.Order.Ring.Int
import Dstore.Metadata.MetadataStore
/-!
# All or nothing

What `put_object` and `delete_object` leave when SQLite calls fail.

`put_object` rolls back whenever an INSERT fails, but neither when the COMMIT
fails, and then the transaction stays open, nor when the DELETE of the old
chunk rows fails, and then these may stay (`put_object_atomic_iff`).

`delete_object` has no transaction. When one of its statements fails, or the
process stops between them, one of the two tables still has the object; and
what it returns goes by a counter that a failed statement leaves as it was
(`delete_object_atomic_iff`).
-/

namespace Dstore

namespace MetadataStore

/-! ## Storing an object -/

section Put
variable (db : MetadataStore) (fails : PutFaults) (m : ObjectMetadata)

/-- The object is stored and the transaction over, or nothing has changed. -/
structure PutAtomic : Prop where
  done : (db.put_object fails m).1 = .ok () →
    (db.put_object fails m).2.tables = db.tables.upload m ∧ (db.put_object fails m).2.saved = none
  undone : ∀ status, (db.put_object fails m).1 = .error status →
    (db.put_object fails m).2.tables = db.tables ∧ (db.put_object fails m).2.saved = none

/-- Every call before the COMMIT that is looked at succeeds: none fails, and no
chunk row is in the place of another one. -/
structure ReachesCommit : Prop where
  start : fails.start = none
  object : fails.object = none
  chunk : ∀ i < m.chunks.length, fails.chunk i = none
  positions : m.chunks.length ≤ 2 ^ 32
  free : fails.clear ≠ none →
    ∀ i < m.chunks.length, ∀ r ∈ db.tables.parts (cstr m.bucket) (cstr m.key), r.position ≠ int32 i

/-- The tables before the COMMIT. -/
def written : Tables where
  objects := withRow db.tables.objects (objectRow m)
  chunks := (if fails.clear = none then db.tables.chunks.filter
    (!·.isOf (cstr m.bucket) (cstr m.key)) else db.tables.chunks) ++
    chunkRows m.bucket m.key 0 m.chunks

variable {db fails m}

/-- Outside a transaction, with a ROLLBACK that works, `put_object` is undone,
or all is up to the COMMIT. -/
theorem put_object_faulty (hs : db.saved = none) (hr : fails.rollback = none) :
    (¬ ReachesCommit db fails m ∧ ∃ status n, db.put_object fails m = (.error status, ⟨db.tables, none, n⟩)) ∨
      (ReachesCommit db fails m ∧ ∃ n,
        db.put_object fails m = MetadataStore.commit ⟨written db fails m, some db.tables, n⟩ fails.commit) := by
  obtain ⟨tables, saved, changes⟩ := db
  obtain rfl : saved = none := hs
  rw [put_object]
  cases hstart : fails.start with
  | some message => exact .inl ⟨fun h => absurd h.start (by simp [hstart]), _, changes, rfl⟩
  | none =>
    simp only [begin_immediate]
    cases hobject : fails.object with
    | some message =>
      refine .inl ⟨fun h => absurd h.object (by simp [hobject]), .Internal message, changes, ?_⟩
      simp only [step, rollback, hr]
    | none =>
      -- the base is what the DELETE leaves of the object's chunk rows
      obtain ⟨cleared, base, n₀, hclear, hbase, hwritten⟩ : ∃ cleared base n₀,
          (step ⟨⟨withRow tables.objects (objectRow m), tables.chunks⟩, some tables, 1⟩ fails.clear
            (Tables.delete_chunks (cstr m.bucket) (cstr m.key))).2 =
              ⟨⟨withRow tables.objects (objectRow m), cleared⟩, some tables, n₀⟩ ∧
          (cleared.filter (·.isOf (cstr m.bucket) (cstr m.key)) = base ∧
            ∀ r ∈ base, fails.clear ≠ none ∧ r ∈ tables.parts (cstr m.bucket) (cstr m.key)) ∧
          (fails.clear ≠ none → base = tables.parts (cstr m.bucket) (cstr m.key)) ∧
          written ⟨tables, none, changes⟩ fails m =
            ⟨withRow tables.objects (objectRow m), cleared ++ chunkRows m.bucket m.key 0 m.chunks⟩ := by
        cases hc : fails.clear with
        | none =>
          refine ⟨_, [], _, rfl, ⟨Tables.filter_filter_not _ _, by simp⟩, by simp, ?_⟩
          rw [written, if_pos hc]
        | some message =>
          refine ⟨_, _, _, rfl, ⟨rfl, fun r hr => ⟨by simp, hr⟩⟩, fun _ => rfl, ?_⟩
          rw [written, if_neg (by simp [hc])]
      obtain ⟨hfilter, hsub⟩ := hbase
      have hrow : step ⟨tables, some tables, changes⟩ none (Tables.replace_object (objectRow m)) =
          (.ok (), ⟨⟨withRow tables.objects (objectRow m), tables.chunks⟩, some tables, 1⟩) := rfl
      simp only [hrow, hclear]
      have hok : (insertLoop fails.chunk m.bucket m.key 0 m.chunks
          ⟨⟨withRow tables.objects (objectRow m), cleared⟩, some tables, n₀⟩).1 = .ok () ↔
          0 + m.chunks.length ≤ 2 ^ 32 ∧ ∀ j, 0 ≤ j → j < 0 + m.chunks.length →
            fails.chunk j = none ∧ ∀ r ∈ base, r.position ≠ int32 j :=
        insertLoop_isOk_iff fails.chunk m.bucket m.key (Nat.zero_le _) fun p => by
          rw [Tables.parts, hfilter]
          simp
      have hreaches : (insertLoop fails.chunk m.bucket m.key 0 m.chunks
          ⟨⟨withRow tables.objects (objectRow m), cleared⟩, some tables, n₀⟩).1 = .ok () ↔
          ReachesCommit ⟨tables, none, changes⟩ fails m := by
        rw [hok, Nat.zero_add]
        constructor
        · rintro ⟨hlen, hall⟩
          refine ⟨hstart, hobject, fun i hi => (hall i (Nat.zero_le i) hi).1, hlen, fun hc i hi r hr => ?_⟩
          rw [← hwritten.1 hc] at hr
          exact (hall i (Nat.zero_le i) hi).2 r hr
        · intro h
          exact ⟨h.positions, fun j _ hj => ⟨h.chunk j hj, fun r hr => h.free (hsub r hr).1 j hj r (hsub r hr).2⟩⟩
      rcases insertLoop_ends fails.chunk m.bucket m.key 0 m.chunks
        ⟨⟨withRow tables.objects (objectRow m), cleared⟩, some tables, n₀⟩ with ⟨n, h⟩ | ⟨message, db', h, hs⟩
      · rw [h] at hreaches
        rw [h, hwritten.2]
        exact .inr ⟨hreaches.1 rfl, n, rfl⟩
      · rw [h] at hreaches
        rw [h]
        refine .inl ⟨fun hr => (by cases hreaches.2 hr), .Internal message, db'.changes, ?_⟩
        simp only [rollback, hr, hs]

/-- Nothing is left of the old chunk rows when the DELETE did its work, or there
were none. -/
theorem written_eq_upload_iff : written db fails m = db.tables.upload m ↔
    fails.clear = none ∨ db.tables.parts (cstr m.bucket) (cstr m.key) = [] := by
  by_cases hc : fails.clear = none
  · rw [written, if_pos hc]
    exact ⟨fun _ => .inl hc, fun _ => rfl⟩
  · rw [written, if_neg hc, Tables.upload, Tables.mk.injEq, List.append_cancel_right_eq, or_iff_right hc, Tables.parts]
    constructor
    · rintro ⟨-, h⟩
      rw [h]
      exact Tables.filter_filter_not _ _
    · intro h
      refine ⟨rfl, (List.filter_eq_self.2 fun r hr => ?_).symm⟩
      rw [List.filter_eq_nil_iff.1 h r hr |> eq_false_of_ne_true]
      rfl

/-- `put_object` does all or nothing exactly when, once it gets to its COMMIT,
that does not fail, and no chunk row of the old object is left. -/
theorem put_object_atomic_iff (db : MetadataStore) (fails : PutFaults) (m : ObjectMetadata) (hs : db.saved = none)
    (hr : fails.rollback = none) : PutAtomic db fails m ↔
      (ReachesCommit db fails m →
        fails.commit = none ∧ (fails.clear = none ∨ db.tables.parts (cstr m.bucket) (cstr m.key) = [])) := by
  rcases put_object_faulty (m := m) hs hr with ⟨hno, status, n, h⟩ | ⟨hreaches, n, h⟩
  · refine ⟨fun _ hreaches => absurd hreaches hno, fun _ => ⟨fun hok => ?_, fun status' _ => ?_⟩⟩
    · rw [h] at hok
      cases hok
    · rw [h]
      exact ⟨rfl, rfl⟩
  · rw [← written_eq_upload_iff]
    cases hcommit : fails.commit with
    | none =>
      rw [hcommit] at h
      constructor
      · intro hatomic _
        obtain ⟨htables, -⟩ := hatomic.done (by rw [h]; rfl)
        rw [h] at htables
        exact ⟨rfl, htables⟩
      · intro hcond
        refine ⟨fun _ => ?_, fun status herr => ?_⟩
        · rw [h]
          exact ⟨(hcond hreaches).2, rfl⟩
        · rw [h] at herr
          cases herr
    | some message =>
      rw [hcommit] at h
      constructor
      · intro hatomic _
        obtain ⟨-, hopen⟩ := hatomic.undone (.Internal message) (by rw [h]; rfl)
        rw [h] at hopen
        cases hopen
      · intro hcond
        exact absurd (hcond hreaches).1 (by simp)

/-- An object of two chunks, as it is put. -/
def twoChunks : ObjectMetadata := ⟨lit "b", lit "x", 5, lit "s", [⟨lit "c1", 4⟩, ⟨lit "c2", 1⟩]⟩

/-- The INSERT of the second chunk row fails. -/
theorem twoChunks_undone : ({} : MetadataStore).saved = none ∧
    PutAtomic {} { chunk := fun i => if i = 1 then some (lit "disk I/O error") else none } twoChunks :=
  ⟨rfl, (put_object_atomic_iff {} { chunk := fun i => if i = 1 then some (lit "disk I/O error") else none } twoChunks rfl rfl).2
    fun h => absurd (h.chunk 1 (by decide)) (by decide)⟩

/-- The COMMIT fails: the process sees the object, in a transaction that no one
will end. -/
theorem busy_commit_stays_open : ¬ PutAtomic {} { commit := some (lit "database is locked") } twoChunks := by
  intro h
  have hopen := (h.undone (.Internal (lit "database is locked")) (by decide +kernel)).2
  exact absurd hopen (by decide +kernel)

end Put

/-! ## Deleting an object -/

/-- How a `delete_object` ends: it returns, or the process stops between its two
statements. -/
inductive DeleteEnd where
  | returns (fails : DeleteFaults)
  | stops (chunks : Option Str)

end MetadataStore

/-- The rows of an object are all as they were, or all gone. -/
def Tables.AllOrNone (t t' : Tables) (bucket key : Str) : Prop :=
  (t'.object bucket key = t.object bucket key ∧ t'.parts bucket key = t.parts bucket key) ∨
    (t'.object bucket key = [] ∧ t'.parts bucket key = [])

namespace MetadataStore

section Delete
variable (db : MetadataStore) (bucket key : Str)

/-- A success leaves no row of the object, anything else all of them or none. -/
def DeleteAtomic : DeleteEnd → Prop
  | .returns fails =>
    ((db.delete_object fails bucket key).1 = .ok () →
      (db.delete_object fails bucket key).2.tables.object (cstr bucket) (cstr key) = [] ∧
        (db.delete_object fails bucket key).2.tables.parts (cstr bucket) (cstr key) = []) ∧
      ∀ status, (db.delete_object fails bucket key).1 = .error status →
        db.tables.AllOrNone (db.delete_object fails bucket key).2.tables (cstr bucket) (cstr key)
  | .stops chunks => db.committed.AllOrNone
      (db.step chunks (Tables.delete_chunks (cstr bucket) (cstr key))).2.reopen.tables (cstr bucket) (cstr key)

/-- The object has no row, or no rows of chunks. -/
def OneSided : Prop :=
  db.tables.object (cstr bucket) (cstr key) = [] ∨ db.tables.parts (cstr bucket) (cstr key) = []

/-- One statement that fails finds the object in one table only; two that fail
find `sqlite3_changes` at zero, or no rows at all. A process that stops between
them has deleted no chunk rows, or a transaction is open, or the object is in
one table only. -/
def DeleteSafe : DeleteEnd → Prop
  | .returns fails =>
    (fails.chunks.isSome ≠ fails.object.isSome → db.OneSided bucket key) ∧
      (fails.chunks.isSome = true → fails.object.isSome = true → int32 db.changes = 0 ∨
        (db.tables.object (cstr bucket) (cstr key) = [] ∧ db.tables.parts (cstr bucket) (cstr key) = []))
  | .stops chunks => chunks = none → db.saved = none → db.OneSided bucket key

variable {db bucket key}

/-- The rows of the object after the two statements, and what is returned. -/
theorem delete_object_faulty (db : MetadataStore) (fails : DeleteFaults) (bucket key : Str) :
    (db.delete_object fails bucket key).2.tables.object (cstr bucket) (cstr key) =
        (if fails.object = none then [] else db.tables.object (cstr bucket) (cstr key)) ∧
      (db.delete_object fails bucket key).2.tables.parts (cstr bucket) (cstr key) =
        (if fails.chunks = none then [] else db.tables.parts (cstr bucket) (cstr key)) ∧
      ((db.delete_object fails bucket key).1 = .ok () ↔ int32 (if fails.object = none then
        (db.tables.object (cstr bucket) (cstr key)).length else if fails.chunks = none then
        (db.tables.parts (cstr bucket) (cstr key)).length else db.changes) ≠ 0) := by
  have hres : ∀ db' : MetadataStore,
    (if int32 db'.changes = 0 then ((.error (.NotFound (lit "object not found")), db') : Result Unit × MetadataStore)
      else (.ok (), db')).2 = db' ∧ ((if int32 db'.changes = 0 then ((.error (.NotFound (lit "object not found")), db') : Result Unit × MetadataStore)
      else (.ok (), db')).1 = .ok () ↔ int32 db'.changes ≠ 0) := by
    intro db'
    split
    · rename_i h
      exact ⟨rfl, fun hok => (by cases hok), fun hne => absurd h hne⟩
    · rename_i h
      exact ⟨rfl, fun _ => h, fun _ => rfl⟩
  unfold delete_object
  simp only
  rw [(hres _).1, (hres _).2]
  cases fails.chunks with
  | none =>
    cases fails.object with
    | none => exact ⟨Tables.filter_filter_not _ _, Tables.filter_filter_not _ _, Iff.rfl⟩
    | some message => exact ⟨rfl, Tables.filter_filter_not _ _, Iff.rfl⟩
  | some message =>
    cases fails.object with
    | none => exact ⟨Tables.filter_filter_not _ _, rfl, Iff.rfl⟩
    | some message => exact ⟨rfl, rfl, Iff.rfl⟩

theorem returns_atomic_iff (fails : DeleteFaults) :
    DeleteAtomic db bucket key (.returns fails) ↔ DeleteSafe db bucket key (.returns fails) := by
  have hzero : int32 0 = 0 := int32_eq (by decide)
  obtain ⟨hobject, hparts, hok⟩ := delete_object_faulty db fails bucket key
  simp only [DeleteAtomic, DeleteSafe, Tables.AllOrNone, OneSided, hobject, hparts]
  generalize db.tables.object (cstr bucket) (cstr key) = O at hok ⊢
  generalize db.tables.parts (cstr bucket) (cstr key) = P at hok ⊢
  have hend : (db.delete_object fails bucket key).1 = .ok () ∨
      ∃ status, (db.delete_object fails bucket key).1 = .error status := by
    rcases (db.delete_object fails bucket key).1 with status | ⟨⟩
    · exact .inr ⟨status, rfl⟩
    · exact .inl rfl
  have hnot : ∀ status, (db.delete_object fails bucket key).1 = .error status →
    ¬ (db.delete_object fails bucket key).1 = .ok () := by
    intro status h
    rw [h]
    exact fun h => (by cases h)
  cases hc : fails.chunks with
  | none =>
    cases ho : fails.object with
    | none => simp
    | some message =>
      -- the chunk rows go, the row of the object stays
      simp only [hc, ho, reduceCtorEq, if_true, if_false] at hok ⊢
      constructor
      · rintro ⟨hdone, hundone⟩
        refine ⟨fun _ => ?_, fun h => (by cases h)⟩
        rcases hend with h | ⟨status, h⟩
        · exact .inl (hdone h).1
        · rcases hundone status h with ⟨-, hP⟩ | ⟨hO, -⟩
          · exact .inr hP.symm
          · exact .inl hO
      · rintro ⟨hone, -⟩
        rcases hone (by simp) with rfl | rfl
        · exact ⟨fun _ => by simp, fun _ _ => by simp⟩
        · exact ⟨fun h => absurd hzero (hok.1 h), fun _ _ => by simp⟩
  | some message =>
    cases ho : fails.object with
    | none =>
      simp only [hc, ho, reduceCtorEq, if_true, if_false] at hok ⊢
      constructor
      · rintro ⟨hdone, hundone⟩
        refine ⟨fun _ => ?_, fun _ h => (by cases h)⟩
        rcases hend with h | ⟨status, h⟩
        · exact .inr (hdone h).2
        · rcases hundone status h with ⟨hO, -⟩ | ⟨-, hP⟩
          · exact .inl hO.symm
          · exact .inr hP
      · rintro ⟨hone, -⟩
        rcases hone (by simp) with rfl | rfl
        · exact ⟨fun h => absurd hzero (hok.1 h), fun _ _ => by simp⟩
        · exact ⟨fun _ => by simp, fun _ _ => by simp⟩
    | some message' =>
      -- the counter is that of an earlier statement
      simp only [hc, ho, reduceCtorEq, if_false] at hok ⊢
      constructor
      · rintro ⟨hdone, -⟩
        refine ⟨fun h => absurd rfl h, fun _ _ => ?_⟩
        by_cases hch : int32 db.changes = 0
        · exact .inl hch
        · exact .inr (hdone (hok.2 hch))
      · rintro ⟨-, hboth⟩
        refine ⟨fun h => ?_, fun _ _ => by simp⟩
        exact (hboth rfl rfl).resolve_left (hok.1 h)

theorem stops_atomic_iff (chunks : Option Str) :
    DeleteAtomic db bucket key (.stops chunks) ↔ DeleteSafe db bucket key (.stops chunks) := by
  obtain ⟨tables, saved, changes⟩ := db
  cases chunks with
  | some message => exact ⟨fun _ h => (by cases h), fun _ => .inl ⟨rfl, rfl⟩⟩
  | none =>
    cases saved with
    | some before => exact ⟨fun _ _ h => (by cases h), fun _ => .inl ⟨rfl, rfl⟩⟩
    | none =>
      have hgone : (tables.chunks.filter (!·.isOf (cstr bucket) (cstr key))).filter (·.isOf (cstr bucket) (cstr key)) = [] :=
        Tables.filter_filter_not _ _
      constructor
      · rintro (⟨-, hparts⟩ | ⟨hobject, -⟩) _ _
        · exact .inr (hparts.symm.trans hgone)
        · exact .inl hobject
      · intro h
        rcases h rfl rfl with hobject | hparts
        · exact .inr ⟨hobject, hgone⟩
        · exact .inl ⟨rfl, hgone.trans hparts.symm⟩

/-- `delete_object` does all or nothing exactly when what goes wrong is safe. -/
theorem delete_object_atomic_iff (db : MetadataStore) (bucket key : Str) (ending : DeleteEnd) :
    DeleteAtomic db bucket key ending ↔ DeleteSafe db bucket key ending := by
  cases ending with
  | returns fails => exact returns_atomic_iff fails
  | stops chunks => exact stops_atomic_iff chunks

/-- A store with the object of two chunks. -/
def holdsTwoChunks : MetadataStore := { tables := ({} : Tables).upload twoChunks }

/-- The first DELETE fails, the second works: the object is gone and its chunk
rows stay, and the answer is that all went well. -/
theorem chunk_rows_stay : ¬ DeleteAtomic holdsTwoChunks (lit "b") (lit "x")
    (.returns { chunks := some (lit "disk I/O error") }) := by
  intro h
  have hparts := (h.1 (by decide +kernel)).2
  exact absurd hparts (by decide +kernel)

end Delete

end MetadataStore

end Dstore
