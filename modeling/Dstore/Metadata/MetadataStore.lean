import Mathlib.Algebra.Order.Ring.Int
import Mathlib.Data.List.Sort
import Mathlib.Data.List.TakeWhile
import Dstore.Storage.ChunkStore
/-!
# The metadata store

`MetadataStore` of `metadata_store.cpp` on its one SQLite connection. The
tables are lists of rows, a statement is a function on them, and a transaction
keeps the tables it started from, to which `ROLLBACK` returns. Every call that
writes can fail; the faults of one operation say which do.

Strings reach SQLite as C strings, so a text ends at its first NUL byte
(`cstr`). Sizes are bound as 64-bit integers, positions as 32-bit ones, and
`chunk_ref_count` reads a count back as a 32-bit one, as does
`sqlite3_changes`. `created_at` is never
read and is left out.
-/

namespace Dstore

/-- What SQLite is given of a string. -/
def cstr (s : Str) : Str := s.takeWhile (· ≠ 0)

theorem cstr_eq {s : Str} (h : (0 : UInt8) ∉ s) : cstr s = s :=
  List.takeWhile_eq_self_iff.2 fun c hc => by
    simp only [ne_eq, decide_not, Bool.not_eq_true', decide_eq_false_iff_not]
    exact fun h0 => h (h0 ▸ hc)

theorem zero_not_mem_cstr (s : Str) : (0 : UInt8) ∉ cstr s := fun h => by
  simpa using List.mem_takeWhile_imp h

@[simp] theorem cstr_cstr (s : Str) : cstr (cstr s) = cstr s := cstr_eq (zero_not_mem_cstr s)

/-- A checksum has no NUL byte. -/
theorem cstr_digest {c : Str} (h : Digest c) : cstr c = c := cstr_eq fun h0 => absurd (h.2 0 h0) (by decide)

/-- The signed value of the low `w + 1` bits. -/
def signed (w n : Nat) : Int :=
  if n % 2 ^ (w + 1) < 2 ^ w then (n % 2 ^ (w + 1) : Nat) else (n % 2 ^ (w + 1) : Nat) - (2 ^ (w + 1) : Nat)

/-- A count as an `int`. -/
@[irreducible] def int32 (n : Nat) : Int := signed 31 n

/-- A size as an `sqlite3_int64`. -/
@[irreducible] def int64 (n : Nat) : Int := signed 63 n

/-- A 64-bit column read as an unsigned value. -/
def unsigned (n : Int) : Nat := (n % 2 ^ 64).toNat

theorem signed_inj {w i j : Nat} (hi : i < 2 ^ (w + 1)) (hj : j < 2 ^ (w + 1)) (h : signed w i = signed w j) : i = j := by
  unfold signed at h
  rw [Nat.mod_eq_of_lt hi, Nat.mod_eq_of_lt hj] at h
  split at h <;> split at h <;> omega

theorem int32_inj {i j : Nat} (hi : i < 2 ^ 32) (hj : j < 2 ^ 32) (h : int32 i = int32 j) : i = j := by
  unfold int32 at h
  exact signed_inj hi hj h

theorem int32_eq {i : Nat} (h : i < 2 ^ 31) : int32 i = i := by
  unfold int32 signed
  rw [Nat.mod_eq_of_lt (by omega), if_pos h]

theorem int32_lt (i : Nat) : int32 i < 2 ^ 31 := by
  unfold int32 signed
  split <;> omega

theorem unsigned_int64 {n : Nat} (h : n < 2 ^ 64) : unsigned (int64 n) = n := by
  unfold int64 signed unsigned
  rw [Nat.mod_eq_of_lt h]
  split <;> omega

structure ObjectMetadata where
  bucket : Str
  key : Str
  size : Nat := 0
  checksum : Str
  chunks : List ChunkRef := []
  deriving DecidableEq, Repr

/-! ## Tables -/

structure ObjectRow where
  bucket : Str
  key : Str
  size : Int
  checksum : Str
  deriving DecidableEq, Repr

structure ChunkRow where
  bucket : Str
  key : Str
  position : Int
  checksum : Str
  size : Int
  deriving DecidableEq, Repr

/-- `bucket=? AND key=?`. -/
def ObjectRow.isOf (bucket key : Str) (r : ObjectRow) : Bool := r.bucket = bucket ∧ r.key = key

def ChunkRow.isOf (bucket key : Str) (r : ChunkRow) : Bool := r.bucket = bucket ∧ r.key = key

structure Tables where
  objects : List ObjectRow := []
  chunks : List ChunkRow := []
  deriving DecidableEq, Repr

namespace Tables

/-- The row of an object. -/
def object (t : Tables) (bucket key : Str) : List ObjectRow := t.objects.filter (·.isOf bucket key)

/-- The chunk rows of an object. -/
def parts (t : Tables) (bucket key : Str) : List ChunkRow := t.chunks.filter (·.isOf bucket key)

/-- The rows that list a chunk. -/
def count (t : Tables) (checksum : Str) : Nat := t.chunks.countP (·.checksum = checksum)

/-! ### Statements

What a statement makes of the tables and how many rows it changes, or the
message of the constraint that it breaks. -/

abbrev Statement := Tables → Except Str (Tables × Nat)

/-- `INSERT OR REPLACE INTO objects`. -/
def replace_object (row : ObjectRow) : Statement := fun t =>
  .ok ({ t with objects := t.objects.filter (!·.isOf row.bucket row.key) ++ [row] }, 1)

/-- `DELETE FROM chunks WHERE bucket=? AND key=?`. -/
def delete_chunks (bucket key : Str) : Statement := fun t =>
  .ok ({ t with chunks := t.chunks.filter (!·.isOf bucket key) }, (t.parts bucket key).length)

/-- `INSERT INTO chunks`, with its primary key. -/
def insert_chunk (row : ChunkRow) : Statement := fun t =>
  if (t.parts row.bucket row.key).any (·.position = row.position)
  then .error (lit "UNIQUE constraint failed: chunks.bucket, chunks.key, chunks.position")
  else .ok ({ t with chunks := t.chunks ++ [row] }, 1)

/-- `DELETE FROM objects WHERE bucket=? AND key=?`. -/
def delete_object_row (bucket key : Str) : Statement := fun t =>
  .ok ({ t with objects := t.objects.filter (!·.isOf bucket key) }, (t.object bucket key).length)

end Tables

/-! ## The connection -/

structure MetadataStore where
  tables : Tables := {}
  /-- The tables before the transaction, while one is open. -/
  saved : Option Tables := none
  /-- `sqlite3_changes`. -/
  changes : Nat := 0
  deriving DecidableEq, Repr

namespace MetadataStore

/-- The SQLite calls of a `put_object` that fail, with their messages. -/
structure PutFaults where
  start : Option Str := none
  object : Option Str := none
  clear : Option Str := none
  chunk : Nat → Option Str := fun _ => none
  rollback : Option Str := none
  commit : Option Str := none

structure DeleteFaults where
  chunks : Option Str := none
  object : Option Str := none

/-- What other connections see. -/
def committed (db : MetadataStore) : Tables := db.saved.getD db.tables

/-- The database as a new process finds it. -/
def reopen (db : MetadataStore) : MetadataStore := { tables := db.committed }

def begin_immediate (db : MetadataStore) (fault : Option Str) : Result Unit × MetadataStore :=
  match fault, db.saved with
  | some message, _ => (.error (.Internal message), db)
  | none, some _ => (.error (.Internal (lit "cannot start a transaction within a transaction")), db)
  | none, none => (.ok (), { db with saved := some db.tables })

def commit (db : MetadataStore) (fault : Option Str) : Result Unit × MetadataStore :=
  match fault, db.saved with
  | some message, _ => (.error (.Internal message), db)
  | none, none => (.error (.Internal (lit "cannot commit - no transaction is active")), db)
  | none, some _ => (.ok (), { db with saved := none })

def rollback (db : MetadataStore) (fault : Option Str) : Result Unit × MetadataStore :=
  match fault, db.saved with
  | some message, _ => (.error (.Internal message), db)
  | none, none => (.error (.Internal (lit "cannot rollback - no transaction is active")), db)
  | none, some tables => (.ok (), { db with tables := tables, saved := none })

/-- `sqlite3_step` of a statement that writes. One that fails changes nothing
here: that SQLite may then roll the whole transaction back by itself, and that
`sqlite3_changes` is 0 after a `DELETE` that failed half way, are assumed away. -/
def step (db : MetadataStore) (fault : Option Str) (stmt : Tables.Statement) : Except Str Unit × MetadataStore :=
  match fault with
  | some message => (.error message, db)
  | none =>
    match stmt db.tables with
    | .error message => (.error message, db)
    | .ok (tables, changed) => (.ok (), { db with tables := tables, changes := changed })

/-- The row of the chunk at index `i`; the position is an `int` that counts up
from zero, and wraps around. -/
def chunkRow (bucket key : Str) (i : Nat) (c : ChunkRef) : ChunkRow :=
  ⟨cstr bucket, cstr key, int32 i, cstr c.checksum, int64 c.size⟩

def objectRow (m : ObjectMetadata) : ObjectRow := ⟨cstr m.bucket, cstr m.key, int64 m.size, cstr m.checksum⟩

/-- The loop of `put_object` over the chunks. -/
def insertLoop (fails : Nat → Option Str) (bucket key : Str) :
    Nat → List ChunkRef → MetadataStore → Except Str Unit × MetadataStore
  | _, [], db => (.ok (), db)
  | i, c :: rest, db =>
    match db.step (fails i) (Tables.insert_chunk (chunkRow bucket key i c)) with
    | (.error message, db) => (.error message, db)
    | (.ok (), db) => insertLoop fails bucket key (i + 1) rest db

def put_object (db : MetadataStore) (fails : PutFaults) (m : ObjectMetadata) : Result Unit × MetadataStore :=
  match db.begin_immediate fails.start with
  | (.error status, db) => (.error status, db)
  | (.ok (), db) =>
    match db.step fails.object (Tables.replace_object (objectRow m)) with
    | (.error message, db) => (.error (.Internal message), (db.rollback fails.rollback).2)
    | (.ok (), db) =>
      let db := (db.step fails.clear (Tables.delete_chunks (cstr m.bucket) (cstr m.key))).2
      match insertLoop fails.chunk m.bucket m.key 0 m.chunks db with
      | (.error message, db) => (.error (.Internal message), (db.rollback fails.rollback).2)
      | (.ok (), db) => db.commit fails.commit

/-- `ORDER BY position`. -/
def byPosition (rows : List ChunkRow) : List ChunkRow := rows.insertionSort fun r r' => r.position ≤ r'.position

def get_object (db : MetadataStore) (bucket key : Str) : Result ObjectMetadata :=
  match db.tables.object (cstr bucket) (cstr key) with
  | [] => .error (.NotFound (lit "object not found"))
  | row :: _ => .ok {
      bucket := bucket
      key := key
      size := unsigned row.size
      checksum := row.checksum
      chunks := (byPosition (db.tables.parts (cstr bucket) (cstr key))).map fun r => ⟨r.checksum, unsigned r.size⟩ }

def delete_object (db : MetadataStore) (fails : DeleteFaults) (bucket key : Str) : Result Unit × MetadataStore :=
  let db := (db.step fails.chunks (Tables.delete_chunks (cstr bucket) (cstr key))).2
  let db := (db.step fails.object (Tables.delete_object_row (cstr bucket) (cstr key))).2
  if int32 db.changes = 0 then (.error (.NotFound (lit "object not found")), db) else (.ok (), db)

/-- `chunk_ref_count`, read with `sqlite3_column_int`. -/
def chunk_ref_count (db : MetadataStore) (checksum : Str) : Int := int32 (db.tables.count (cstr checksum))

/-- `ORDER BY key`, byte by byte. -/
def byKey (rows : List ObjectRow) : List ObjectRow := rows.insertionSort fun r r' => r.key ≤ r'.key

/-- `list_objects`; the chunks are left empty. -/
def list_objects (db : MetadataStore) (bucket : Str) : Result (List ObjectMetadata) :=
  .ok ((byKey (db.tables.objects.filter fun r => r.bucket = cstr bucket)).map fun row =>
    { bucket := bucket, key := row.key, size := unsigned row.size, checksum := row.checksum })

/-! ## What the operations do -/

/-- The rows of the chunks from index `i` on. -/
def chunkRows (bucket key : Str) : Nat → List ChunkRef → List ChunkRow
  | _, [] => []
  | i, c :: rest => chunkRow bucket key i c :: chunkRows bucket key (i + 1) rest

end MetadataStore

namespace Tables

/-- The tables after an object is stored. -/
def upload (t : Tables) (m : ObjectMetadata) : Tables where
  objects := t.objects.filter (!·.isOf (cstr m.bucket) (cstr m.key)) ++ [MetadataStore.objectRow m]
  chunks := t.chunks.filter (!·.isOf (cstr m.bucket) (cstr m.key)) ++
    MetadataStore.chunkRows m.bucket m.key 0 m.chunks

/-- The tables after an object is deleted. -/
def erase (t : Tables) (bucket key : Str) : Tables where
  objects := t.objects.filter (!·.isOf bucket key)
  chunks := t.chunks.filter (!·.isOf bucket key)

/-- Some row lists the chunk. -/
def Lists (t : Tables) (checksum : Str) : Prop := ∃ r ∈ t.chunks, r.checksum = checksum

instance (t : Tables) (c : Str) : Decidable (t.Lists c) := inferInstanceAs (Decidable (∃ r ∈ t.chunks, r.checksum = c))

end Tables

namespace MetadataStore

theorem mem_chunkRows {bucket key : Str} {i : Nat} {refs : List ChunkRef} {r : ChunkRow}
    (h : r ∈ chunkRows bucket key i refs) :
    r.isOf (cstr bucket) (cstr key) = true ∧ ∃ c ∈ refs, r.checksum = cstr c.checksum := by
  induction refs generalizing i with
  | nil => cases h
  | cons c refs ih =>
    rcases List.mem_cons.1 h with rfl | h
    · exact ⟨by simp [ChunkRow.isOf, chunkRow], c, List.mem_cons_self, rfl⟩
    · obtain ⟨h1, c', hc', h2⟩ := ih h
      exact ⟨h1, c', List.mem_cons_of_mem _ hc', h2⟩

theorem step_insert_taken (db : MetadataStore) (row : ChunkRow)
    (h : (db.tables.parts row.bucket row.key).any (·.position = row.position) = true) :
    db.step none (Tables.insert_chunk row) =
      (.error (lit "UNIQUE constraint failed: chunks.bucket, chunks.key, chunks.position"), db) := by
  rw [step, Tables.insert_chunk, if_pos h]

theorem step_insert_free (db : MetadataStore) (row : ChunkRow)
    (h : ¬ (db.tables.parts row.bucket row.key).any (·.position = row.position) = true) :
    db.step none (Tables.insert_chunk row) =
      (.ok (), ⟨⟨db.tables.objects, db.tables.chunks ++ [row]⟩, db.saved, 1⟩) := by
  rw [step, Tables.insert_chunk, if_neg h]

theorem countP_chunkRows (bucket key : Str) (i : Nat) (refs : List ChunkRef) (c : Str) :
    (chunkRows bucket key i refs).countP (·.checksum = c) = refs.countP (fun ref => cstr ref.checksum = c) := by
  induction refs generalizing i with
  | nil => rfl
  | cons ref refs ih =>
    rw [chunkRows, List.countP_cons, List.countP_cons, ih]
    rfl

section Loop
variable (fails : Nat → Option Str) (bucket key : Str)

/-- One round of the loop. -/
theorem insertLoop_round (i : Nat) (c : ChunkRef) (refs : List ChunkRef) (db : MetadataStore) :
    (∃ message, insertLoop fails bucket key i (c :: refs) db = (.error message, db) ∧
        (fails i ≠ none ∨ (db.tables.parts (cstr bucket) (cstr key)).any (·.position = int32 i) = true)) ∨
      (fails i = none ∧ ¬ (db.tables.parts (cstr bucket) (cstr key)).any (·.position = int32 i) = true ∧
        insertLoop fails bucket key i (c :: refs) db = insertLoop fails bucket key (i + 1) refs
          ⟨⟨db.tables.objects, db.tables.chunks ++ [chunkRow bucket key i c]⟩, db.saved, 1⟩) := by
  rw [insertLoop]
  cases hfail : fails i with
  | some message => exact .inl ⟨message, rfl, .inl (by simp)⟩
  | none =>
    by_cases h : (db.tables.parts (cstr bucket) (cstr key)).any (·.position = int32 i) = true
    · rw [step_insert_taken db (chunkRow bucket key i c) h]
      exact .inl ⟨_, rfl, .inr h⟩
    · rw [step_insert_free db (chunkRow bucket key i c) h]
      exact .inr ⟨rfl, h, rfl⟩

/-- The loop adds all rows, or it stops inside the transaction. -/
theorem insertLoop_ends (i : Nat) (refs : List ChunkRef) (db : MetadataStore) :
    (∃ n, insertLoop fails bucket key i refs db =
        (.ok (), ⟨⟨db.tables.objects, db.tables.chunks ++ chunkRows bucket key i refs⟩, db.saved, n⟩)) ∨
      ∃ message db', insertLoop fails bucket key i refs db = (.error message, db') ∧ db'.saved = db.saved := by
  induction refs generalizing i db with
  | nil => exact .inl ⟨db.changes, by simp [insertLoop, chunkRows]⟩
  | cons c refs ih =>
    rcases insertLoop_round fails bucket key i c refs db with ⟨message, h, -⟩ | ⟨-, -, h⟩
    · exact .inr ⟨message, db, h, rfl⟩
    · rw [h]
      rcases ih (i + 1) ⟨⟨db.tables.objects, db.tables.chunks ++ [chunkRow bucket key i c]⟩, db.saved, 1⟩ with
        ⟨n, h⟩ | ⟨message, db', h, hs⟩
      · exact .inl ⟨n, by rw [h]; simp only [chunkRows, List.append_assoc, List.singleton_append]⟩
      · exact .inr ⟨message, db', h, hs⟩

theorem int32_wraps : int32 (2 ^ 32) = int32 0 := by
  unfold int32 signed
  rfl

/-- The loop adds all rows when no INSERT fails and no position is taken, by a
row that was there before or, after `2^32` rounds, by its own first one. -/
theorem insertLoop_isOk_iff {base : List ChunkRow} {i : Nat} (hi : i ≤ 2 ^ 32) {refs : List ChunkRef} {db : MetadataStore}
    (hrows : ∀ p, (∃ r ∈ db.tables.parts (cstr bucket) (cstr key), r.position = p) ↔
      (∃ r ∈ base, r.position = p) ∨ ∃ j < i, int32 j = p) :
    (insertLoop fails bucket key i refs db).1 = .ok () ↔
      i + refs.length ≤ 2 ^ 32 ∧ ∀ j, i ≤ j → j < i + refs.length → fails j = none ∧ ∀ r ∈ base, r.position ≠ int32 j := by
  induction refs generalizing i db with
  | nil =>
    refine ⟨fun _ => ⟨hi, fun j h h' => ?_⟩, fun _ => rfl⟩
    rw [List.length_nil] at h'
    omega
  | cons c refs ih =>
    have htaken : (db.tables.parts (cstr bucket) (cstr key)).any (·.position = int32 i) = true ↔
        (∃ r ∈ base, r.position = int32 i) ∨ ∃ j < i, int32 j = int32 i := by
      rw [← hrows, List.any_eq_true]
      simp only [decide_eq_true_eq]
    rw [List.length_cons]
    rcases insertLoop_round fails bucket key i c refs db with ⟨message, h, hwhy⟩ | ⟨hnone, hfree, h⟩
    · rw [h]
      refine ⟨fun hok => (by cases hok), fun ⟨hlen, hall⟩ => ?_⟩
      obtain ⟨hnone, hbase⟩ := hall i (Nat.le_refl i) (by omega)
      rcases hwhy with hfail | htake
      · exact absurd hnone hfail
      · rcases htaken.1 htake with ⟨r, hr, hp⟩ | ⟨j, hj, hp⟩
        · exact absurd hp (hbase r hr)
        · exact absurd (int32_inj (by omega) (by omega) hp) (by omega)
    · rw [htaken, not_or] at hfree
      have hlt : i < 2 ^ 32 := by
        refine Nat.lt_of_le_of_ne hi fun heq => hfree.2 ⟨0, by omega, ?_⟩
        rw [heq, int32_wraps]
      rw [h, ih hlt fun p => ?_]
      · constructor
        · rintro ⟨hlen, hall⟩
          refine ⟨by omega, fun j hij hj => ?_⟩
          rcases Nat.eq_or_lt_of_le hij with rfl | hij
          · exact ⟨hnone, fun r hr hp => hfree.1 ⟨r, hr, hp⟩⟩
          · exact hall j hij (by omega)
        · rintro ⟨hlen, hall⟩
          exact ⟨by omega, fun j hij hj => hall j (by omega) (by omega)⟩
      · -- the new row is at position `i`
        have hparts : Tables.parts ⟨db.tables.objects, db.tables.chunks ++ [chunkRow bucket key i c]⟩ (cstr bucket)
          (cstr key) =
            db.tables.parts (cstr bucket) (cstr key) ++ [chunkRow bucket key i c] := by
          rw [Tables.parts, List.filter_append, List.filter_singleton]
          simp [Tables.parts, ChunkRow.isOf, chunkRow]
        rw [hparts]
        constructor
        · rintro ⟨r, hr, rfl⟩
          rcases List.mem_append.1 hr with hr | hr
          · rcases (hrows _).1 ⟨r, hr, rfl⟩ with h | ⟨j, hj, hp⟩
            · exact .inl h
            · exact .inr ⟨j, by omega, hp⟩
          · rw [List.mem_singleton.1 hr]
            exact .inr ⟨i, by omega, rfl⟩
        · rintro (h | ⟨j, hj, rfl⟩)
          · obtain ⟨r, hr, hp⟩ := (hrows p).2 (.inl h)
            exact ⟨r, List.mem_append_left _ hr, hp⟩
          · rcases Nat.eq_or_lt_of_le (Nat.le_of_lt_succ hj) with rfl | hj
            · exact ⟨_, List.mem_append_right _ (List.mem_singleton_self _), rfl⟩
            · obtain ⟨r, hr, hp⟩ := (hrows _).2 (.inr ⟨j, hj, rfl⟩)
              exact ⟨r, List.mem_append_left _ hr, hp⟩

end Loop

/-- Without faults and outside a transaction `put_object` stores the object,
or it fails and leaves the tables as they were. -/
theorem put_object_cases {db : MetadataStore} (h : db.saved = none) (m : ObjectMetadata) :
    (∃ n, db.put_object {} m = (.ok (), ⟨db.tables.upload m, none, n⟩)) ∨
      (2 ^ 32 < m.chunks.length ∧ ∃ status n, db.put_object {} m = (.error status, ⟨db.tables, none, n⟩)) := by
  obtain ⟨tables, saved, changes⟩ := db
  obtain rfl : saved = none := h
  let db' : MetadataStore := ⟨⟨tables.objects.filter (!·.isOf (cstr m.bucket) (cstr m.key)) ++ [objectRow m],
    tables.chunks.filter (!·.isOf (cstr m.bucket) (cstr m.key))⟩, some tables,
      (tables.parts (cstr m.bucket) (cstr m.key)).length⟩
  have heq : put_object ⟨tables, none, changes⟩ {} m =
      match insertLoop (fun _ => none) m.bucket m.key 0 m.chunks db' with
      | (.error message, db) => (.error (.Internal message), (db.rollback none).2)
      | (.ok (), db) => db.commit none := rfl
  rw [heq]
  rcases insertLoop_ends (fun _ => none) m.bucket m.key 0 m.chunks db' with ⟨n, hl⟩ | ⟨message, db'', hl, hs⟩
  · rw [hl]
    exact .inl ⟨n, rfl⟩
  · refine .inr ⟨?_, .Internal message, db''.changes, ?_⟩
    · -- the table has no rows of the object when the loop starts
      by_contra hlen
      have hok : (insertLoop (fun _ => none) m.bucket m.key 0 m.chunks db').1 = .ok () :=
        (insertLoop_isOk_iff (fun _ => none) m.bucket m.key (Nat.zero_le _) fun p => by simp [db', Tables.parts]).2
          ⟨by omega, fun j _ _ => ⟨rfl, fun r hr => absurd hr List.not_mem_nil⟩⟩
      rw [hl] at hok
      cases hok
    · rw [hl]
      simp only [rollback, hs, db']

theorem put_object_ok {db : MetadataStore} (h : db.saved = none) {m : ObjectMetadata} (hlen : m.chunks.length ≤ 2 ^ 32) :
    ∃ n, db.put_object {} m = (.ok (), ⟨db.tables.upload m, none, n⟩) := by
  rcases put_object_cases h m with h | ⟨hlt, -⟩
  · exact h
  · omega

/-- Without faults `delete_object` removes all rows of the object. -/
theorem delete_object_eq (db : MetadataStore) (bucket key : Str) :
    (db.delete_object {} bucket key).2 =
      { db with tables := db.tables.erase (cstr bucket) (cstr key),
                changes := (db.tables.object (cstr bucket) (cstr key)).length } ∧
    (db.delete_object {} bucket key).1 =
      if int32 (db.tables.object (cstr bucket) (cstr key)).length = 0
      then .error (.NotFound (lit "object not found")) else .ok () := by
  unfold delete_object
  simp only
  split
  · rename_i hz
    exact ⟨rfl, (if_pos hz).symm⟩
  · rename_i hz
    exact ⟨rfl, (if_neg hz).symm⟩

/-! ### Reading an object back -/

/-- Metadata that SQLite stores without loss. -/
structure Fits (m : ObjectMetadata) : Prop where
  size : m.size < 2 ^ 64
  checksum : cstr m.checksum = m.checksum
  chunks : ∀ c ∈ m.chunks, cstr c.checksum = c.checksum ∧ c.size < 2 ^ 64
  /-- The positions are those of the list. -/
  length : m.chunks.length ≤ 2 ^ 31

theorem position_of_mem {bucket key : Str} {i : Nat} {refs : List ChunkRef} (h : i + refs.length ≤ 2 ^ 31) {r : ChunkRow}
    (hr : r ∈ chunkRows bucket key i refs) : (i : Int) ≤ r.position := by
  induction refs generalizing i with
  | nil => cases hr
  | cons c refs ih =>
    rw [List.length_cons] at h
    rcases List.mem_cons.1 hr with rfl | hr
    · rw [chunkRow, int32_eq (by omega)]
    · have := ih (by omega) hr
      omega

theorem byPosition_chunkRows {bucket key : Str} {i : Nat} {refs : List ChunkRef} (h : i + refs.length ≤ 2 ^ 31) :
    byPosition (chunkRows bucket key i refs) = chunkRows bucket key i refs := by
  refine List.Pairwise.insertionSort_eq ?_
  induction refs generalizing i with
  | nil => exact .nil
  | cons c refs ih =>
    rw [List.length_cons] at h
    refine List.pairwise_cons.2 ⟨fun r hr => ?_, ih (by omega)⟩
    have hle := position_of_mem (by omega) hr
    show int32 i ≤ r.position
    rw [int32_eq (by omega)]
    omega

theorem map_chunkRows {refs : List ChunkRef} (h : ∀ c ∈ refs, cstr c.checksum = c.checksum ∧ c.size < 2 ^ 64)
    (bucket key : Str) (i : Nat) :
    (chunkRows bucket key i refs).map (fun r => (⟨r.checksum, unsigned r.size⟩ : ChunkRef)) = refs := by
  induction refs generalizing i with
  | nil => rfl
  | cons c refs ih =>
    obtain ⟨hc, hs⟩ := h c List.mem_cons_self
    rw [chunkRows, List.map_cons, ih fun c hc => h c (List.mem_cons_of_mem _ hc), chunkRow]
    simp only [hc, unsigned_int64 hs]

/-- An object whose rows are those of `m` is read as `m`. -/
theorem get_object_eq {db : MetadataStore} {bucket key : Str} {m : ObjectMetadata} (hm : Fits m)
    (hobject : db.tables.object (cstr bucket) (cstr key) = [objectRow m])
    (hparts : db.tables.parts (cstr bucket) (cstr key) = chunkRows m.bucket m.key 0 m.chunks) :
    db.get_object bucket key = .ok { m with bucket := bucket, key := key } := by
  rw [get_object, hobject, hparts, byPosition_chunkRows (by have := hm.length; omega), map_chunkRows hm.chunks, objectRow]
  simp only [unsigned_int64 hm.size, hm.checksum]

theorem get_object_missing {db : MetadataStore} {bucket key : Str}
    (hobject : db.tables.object (cstr bucket) (cstr key) = []) :
    db.get_object bucket key = .error (.NotFound (lit "object not found")) := by
  rw [get_object, hobject]

/-- The chunks of an object that is read are those of its rows. -/
theorem read_chunks_iff {db : MetadataStore} {bucket key : Str} {m : ObjectMetadata} (h : db.get_object bucket key = .ok m)
    {c : Str} : (∃ ref ∈ m.chunks, ref.checksum = c) ↔ ∃ r ∈ db.tables.parts (cstr bucket) (cstr key), r.checksum = c := by
  rw [get_object] at h
  split at h
  · cases h
  · obtain rfl := Except.ok.inj h
    have hmem := fun r => (List.perm_insertionSort (fun r r' : ChunkRow => r.position ≤ r'.position)
      (db.tables.parts (cstr bucket) (cstr key))).mem_iff (a := r)
    constructor
    · rintro ⟨ref, href, rfl⟩
      obtain ⟨r, hr, rfl⟩ := List.mem_map.1 href
      exact ⟨r, (hmem r).1 hr, rfl⟩
    · rintro ⟨r, hr, rfl⟩
      exact ⟨⟨r.checksum, unsigned r.size⟩, List.mem_map.2 ⟨r, (hmem r).2 hr, rfl⟩, rfl⟩

theorem lists_of_get {db : MetadataStore} {bucket key : Str} {m : ObjectMetadata} (h : db.get_object bucket key = .ok m)
    {ref : ChunkRef} (href : ref ∈ m.chunks) : db.tables.Lists ref.checksum := by
  obtain ⟨r, hr, hc⟩ := (read_chunks_iff h).1 ⟨ref, href, rfl⟩
  exact ⟨r, List.mem_of_mem_filter hr, hc⟩

end MetadataStore

/-! ### The rows of one object -/

namespace Tables

theorem filter_filter_not {α : Type} (p : α → Bool) (l : List α) : (l.filter (!p ·)).filter p = [] := by
  simp [List.filter_filter]

theorem filter_filter_other {α : Type} {p q : α → Bool} (h : ∀ x, p x = true → q x = false) (l : List α) :
    (l.filter (!q ·)).filter p = l.filter p := by
  rw [List.filter_filter]
  refine List.filter_congr fun x _ => ?_
  cases hp : p x with
  | true => rw [h x hp]; rfl
  | false => rfl

section Rows
variable {bucket key b k : Str} (hne : ¬ (b = bucket ∧ k = key))
include hne

theorem objectRow_other (r : ObjectRow) (h : r.isOf b k = true) : r.isOf bucket key = false := by
  simp only [ObjectRow.isOf, decide_eq_true_eq, decide_eq_false_iff_not] at h ⊢
  exact fun h' => hne ⟨h.1.symm.trans h'.1, h.2.symm.trans h'.2⟩

theorem chunkRow_other (r : ChunkRow) (h : r.isOf b k = true) : r.isOf bucket key = false := by
  simp only [ChunkRow.isOf, decide_eq_true_eq, decide_eq_false_iff_not] at h ⊢
  exact fun h' => hne ⟨h.1.symm.trans h'.1, h.2.symm.trans h'.2⟩

theorem object_erase_other (t : Tables) : (t.erase bucket key).object b k = t.object b k :=
  filter_filter_other (objectRow_other hne) _

theorem parts_erase_other (t : Tables) : (t.erase bucket key).parts b k = t.parts b k :=
  filter_filter_other (chunkRow_other hne) _

end Rows

theorem object_erase_self (t : Tables) (bucket key : Str) : (t.erase bucket key).object bucket key = [] :=
  filter_filter_not _ _

theorem parts_erase_self (t : Tables) (bucket key : Str) : (t.erase bucket key).parts bucket key = [] :=
  filter_filter_not _ _

variable (t : Tables) (m : ObjectMetadata)

theorem object_upload_self : (t.upload m).object (cstr m.bucket) (cstr m.key) = [MetadataStore.objectRow m] := by
  rw [object, upload, List.filter_append, filter_filter_not]
  simp [ObjectRow.isOf, MetadataStore.objectRow]

theorem parts_upload_self :
    (t.upload m).parts (cstr m.bucket) (cstr m.key) = MetadataStore.chunkRows m.bucket m.key 0 m.chunks := by
  rw [parts, upload, List.filter_append, filter_filter_not, List.nil_append]
  exact List.filter_eq_self.2 fun r hr => (MetadataStore.mem_chunkRows hr).1

theorem object_upload_other {b k : Str} (hne : ¬ (b = cstr m.bucket ∧ k = cstr m.key)) :
    (t.upload m).object b k = t.object b k := by
  have hrow : (MetadataStore.objectRow m).isOf b k = false := by
    refine decide_eq_false fun h => hne ?_
    exact ⟨h.1.symm, h.2.symm⟩
  rw [object, upload, List.filter_append, filter_filter_other (objectRow_other hne)]
  simp [hrow, object]

theorem parts_upload_other {b k : Str} (hne : ¬ (b = cstr m.bucket ∧ k = cstr m.key)) :
    (t.upload m).parts b k = t.parts b k := by
  have hrows : (MetadataStore.chunkRows m.bucket m.key 0 m.chunks).filter (·.isOf b k) = [] := by
    refine List.filter_eq_nil_iff.2 fun r hr h => ?_
    have := chunkRow_other hne r h
    rw [(MetadataStore.mem_chunkRows hr).1] at this
    cases this
  rw [parts, upload, List.filter_append, filter_filter_other (chunkRow_other hne), hrows, List.append_nil]
  rfl

theorem count_erase_upload (c : Str) :
    ((t.upload m).erase (cstr m.bucket) (cstr m.key)).count c = (t.erase (cstr m.bucket) (cstr m.key)).count c := by
  have hrows : (MetadataStore.chunkRows m.bucket m.key 0 m.chunks).filter (!·.isOf (cstr m.bucket) (cstr m.key)) = [] :=
    List.filter_eq_nil_iff.2 fun r hr => by simp [(MetadataStore.mem_chunkRows hr).1]
  simp only [count, erase, upload, List.filter_append, hrows, List.append_nil, List.filter_filter, Bool.and_self]

/-- An upload into empty tables, seen from another object. -/
theorem count_erase_first {b k : Str} (hne : ¬ (b = cstr m.bucket ∧ k = cstr m.key)) (c : Str) :
    ((({} : Tables).upload m).erase b k).count c = m.chunks.countP (fun ref => cstr ref.checksum = c) := by
  have hrows : (MetadataStore.chunkRows m.bucket m.key 0 m.chunks).filter (!·.isOf b k) =
      MetadataStore.chunkRows m.bucket m.key 0 m.chunks := by
    refine List.filter_eq_self.2 fun r hr => ?_
    cases hof : r.isOf b k with
    | false => rfl
    | true =>
      have := chunkRow_other hne r hof
      rw [(MetadataStore.mem_chunkRows hr).1] at this
      cases this
  rw [count, erase, upload, ← MetadataStore.countP_chunkRows m.bucket m.key 0]
  simp only [List.filter_nil, List.nil_append, hrows]

theorem Lists.of_upload {t : Tables} {m : ObjectMetadata} {c : Str} (h : (t.upload m).Lists c) :
    t.Lists c ∨ ∃ ref ∈ m.chunks, c = cstr ref.checksum := by
  obtain ⟨r, hr, rfl⟩ := h
  rcases List.mem_append.1 hr with hr | hr
  · exact .inl ⟨r, List.mem_of_mem_filter hr, rfl⟩
  · exact .inr (MetadataStore.mem_chunkRows hr).2

theorem lists_iff {t : Tables} {c : Str} : t.Lists c ↔ 0 < t.count c := by
  simp [Lists, count, List.countP_pos_iff]

theorem Lists.of_erase {t : Tables} {bucket key c : Str} (h : (t.erase bucket key).Lists c) : t.Lists c := by
  obtain ⟨r, hr, rfl⟩ := h
  exact ⟨r, List.mem_of_mem_filter hr, rfl⟩

end Tables

namespace MetadataStore

/-! ### Under faults -/

variable {db : MetadataStore} {c : Str}

/-- A row lists the chunk, in the tables or in what is committed of them. -/
def Mentions (db : MetadataStore) (c : Str) : Prop := db.tables.Lists c ∨ db.committed.Lists c

instance (db : MetadataStore) (c : Str) : Decidable (db.Mentions c) := inferInstanceAs (Decidable (db.tables.Lists c ∨ _))

theorem Mentions.of_begin {fault : Option Str} (h : (db.begin_immediate fault).2.Mentions c) : db.Mentions c := by
  unfold begin_immediate at h
  split at h
  · exact h
  · exact h
  · exact .inl (h.elim id id)

theorem Mentions.of_commit {fault : Option Str} (h : (db.commit fault).2.Mentions c) : db.Mentions c := by
  unfold commit at h
  split at h
  · exact h
  · exact h
  · exact .inl (h.elim id id)

theorem Mentions.of_rollback {fault : Option Str} (h : (db.rollback fault).2.Mentions c) : db.Mentions c := by
  unfold rollback at h
  split at h
  · exact h
  · exact h
  · rename_i tables hsaved
    refine .inr ?_
    rw [committed, hsaved]
    exact h.elim id id

/-- A statement that adds no row but for a chunk of `P`. -/
theorem Mentions.of_step {fault : Option Str} {stmt : Tables.Statement} {P : Prop}
    (hstmt : ∀ t t' n, stmt t = .ok (t', n) → t'.Lists c → t.Lists c ∨ P) (h : (db.step fault stmt).2.Mentions c) :
    db.Mentions c ∨ P := by
  unfold step at h
  split at h
  · exact .inl h
  · split at h
    · exact .inl h
    · rename_i tables changed hok
      have hnew : tables.Lists c → db.Mentions c ∨ P := fun hl => (hstmt _ _ _ hok hl).imp_left .inl
      rcases h with h | h
      · exact hnew h
      · -- outside a transaction the new tables are committed at once
        cases hs : db.saved with
        | none =>
          refine hnew ?_
          simpa [committed, hs] using h
        | some t =>
          refine .inl (.inr ?_)
          simpa [committed, hs] using h

theorem Mentions.of_replace {fault : Option Str} {row : ObjectRow}
    (h : (db.step fault (Tables.replace_object row)).2.Mentions c) : db.Mentions c :=
  (h.of_step (P := False) fun t t' n hok hl => by
    obtain ⟨rfl, -⟩ := Prod.mk.inj (Except.ok.inj hok)
    exact .inl hl).resolve_right id

theorem Mentions.of_delete_chunks {fault : Option Str} {bucket key : Str}
    (h : (db.step fault (Tables.delete_chunks bucket key)).2.Mentions c) : db.Mentions c :=
  (h.of_step (P := False) fun t t' n hok hl => by
    obtain ⟨rfl, -⟩ := Prod.mk.inj (Except.ok.inj hok)
    obtain ⟨r, hr, hc⟩ := hl
    exact .inl ⟨r, List.mem_of_mem_filter hr, hc⟩).resolve_right id

theorem Mentions.of_delete_row {fault : Option Str} {bucket key : Str}
    (h : (db.step fault (Tables.delete_object_row bucket key)).2.Mentions c) : db.Mentions c :=
  (h.of_step (P := False) fun t t' n hok hl => by
    obtain ⟨rfl, -⟩ := Prod.mk.inj (Except.ok.inj hok)
    exact .inl hl).resolve_right id

theorem Mentions.of_insert {fault : Option Str} {row : ChunkRow}
    (h : (db.step fault (Tables.insert_chunk row)).2.Mentions c) : db.Mentions c ∨ c = row.checksum := by
  refine h.of_step fun t t' n hok hl => ?_
  unfold Tables.insert_chunk at hok
  split at hok
  · cases hok
  · obtain ⟨rfl, -⟩ := Prod.mk.inj (Except.ok.inj hok)
    obtain ⟨r, hr, rfl⟩ := hl
    rcases List.mem_append.1 hr with hr | hr
    · exact .inl ⟨r, hr, rfl⟩
    · exact .inr (by rw [List.mem_singleton.1 hr])

theorem Mentions.of_insertLoop {fails : Nat → Option Str} {bucket key : Str} {i : Nat} {refs : List ChunkRef}
    (h : (insertLoop fails bucket key i refs db).2.Mentions c) :
    db.Mentions c ∨ ∃ ref ∈ refs, c = cstr ref.checksum := by
  induction refs generalizing i db with
  | nil => exact .inl h
  | cons ref refs ih =>
    have hrow : (db.step (fails i) (Tables.insert_chunk (chunkRow bucket key i ref))).2.Mentions c →
        db.Mentions c ∨ ∃ ref' ∈ ref :: refs, c = cstr ref'.checksum :=
      fun h => h.of_insert.imp_right fun hc => ⟨ref, List.mem_cons_self, hc⟩
    rw [insertLoop] at h
    generalize db.step (fails i) (Tables.insert_chunk (chunkRow bucket key i ref)) = call at h hrow
    obtain ⟨r, db'⟩ := call
    cases r with
    | error message => exact hrow h
    | ok u =>
      rcases ih h with h | ⟨ref', href', hc⟩
      · exact hrow h
      · exact .inr ⟨ref', List.mem_cons_of_mem _ href', hc⟩

/-! #### The rows of the objects

What a call that may fail makes of the table `objects`, as the process sees it
and as it is committed. -/

/-- A statement that leaves the table `objects` alone. -/
theorem step_objects {fault : Option Str} {stmt : Tables.Statement}
    (hstmt : ∀ t t' n, stmt t = .ok (t', n) → t'.objects = t.objects) :
    (db.step fault stmt).2.saved = db.saved ∧ (db.step fault stmt).2.tables.objects = db.tables.objects := by
  unfold step
  split
  · exact ⟨rfl, rfl⟩
  · split
    · exact ⟨rfl, rfl⟩
    · rename_i hok
      exact ⟨rfl, hstmt _ _ _ hok⟩

theorem step_delete_chunks_objects (db : MetadataStore) (fault : Option Str) (bucket key : Str) :
    (db.step fault (Tables.delete_chunks bucket key)).2.saved = db.saved ∧
      (db.step fault (Tables.delete_chunks bucket key)).2.tables.objects = db.tables.objects := by
  refine step_objects fun t t' n hok => ?_
  obtain ⟨rfl, -⟩ := Prod.mk.inj (Except.ok.inj hok)
  rfl

theorem step_insert_objects (db : MetadataStore) (fault : Option Str) (row : ChunkRow) :
    (db.step fault (Tables.insert_chunk row)).2.saved = db.saved ∧
      (db.step fault (Tables.insert_chunk row)).2.tables.objects = db.tables.objects := by
  refine step_objects fun t t' n hok => ?_
  unfold Tables.insert_chunk at hok
  split at hok
  · cases hok
  · obtain ⟨rfl, -⟩ := Prod.mk.inj (Except.ok.inj hok)
    rfl

theorem insertLoop_objects (fails : Nat → Option Str) (bucket key : Str) (i : Nat) (refs : List ChunkRef)
    (db : MetadataStore) :
    (insertLoop fails bucket key i refs db).2.saved = db.saved ∧
      (insertLoop fails bucket key i refs db).2.tables.objects = db.tables.objects := by
  induction refs generalizing i db with
  | nil => exact ⟨rfl, rfl⟩
  | cons c refs ih =>
    have hrow := step_insert_objects db (fails i) (chunkRow bucket key i c)
    rw [insertLoop]
    generalize db.step (fails i) (Tables.insert_chunk (chunkRow bucket key i c)) = call at hrow
    obtain ⟨r, db'⟩ := call
    cases r with
    | error message => exact hrow
    | ok u =>
      obtain ⟨hsaved, hobjects⟩ := ih (i + 1) db'
      exact ⟨hsaved.trans hrow.1, hobjects.trans hrow.2⟩

/-- `INSERT OR REPLACE INTO objects` on the rows. -/
def withRow (rows : List ObjectRow) (row : ObjectRow) : List ObjectRow :=
  rows.filter (!·.isOf row.bucket row.key) ++ [row]

/-- The end of a transaction that began with the tables `before` and has put
`row` in place: it is rolled back, left open or committed. -/
theorem end_objects {before : Tables} {row : ObjectRow} (hsaved : db.saved = some before)
    (hobjects : db.tables.objects = withRow before.objects row) (fault : Option Str) :
    ((db.rollback fault).2.tables.objects = before.objects ∧ (db.rollback fault).2.committed.objects = before.objects ∨
      (db.rollback fault).2.tables.objects = withRow before.objects row ∧
        (db.rollback fault).2.committed.objects = before.objects) ∧
    (db.commit fault).2.tables.objects = withRow before.objects row ∧
      ((db.commit fault).2.committed.objects = before.objects ∨
        (db.commit fault).2.committed.objects = withRow before.objects row) := by
  obtain ⟨tables, saved, changes⟩ := db
  obtain rfl : saved = some before := hsaved
  cases fault with
  | none => exact ⟨.inl ⟨rfl, rfl⟩, hobjects, .inr hobjects⟩
  | some message => exact ⟨.inr ⟨hobjects, rfl⟩, hobjects, .inl rfl⟩

/-- Whatever fails, `put_object` leaves the objects as they were or puts the
row of the new one in place, in the view of the process and perhaps on disk. -/
theorem put_object_objects (db : MetadataStore) (fails : PutFaults) (m : ObjectMetadata) :
    ((db.put_object fails m).2.tables.objects = db.tables.objects ∧
      (db.put_object fails m).2.committed.objects = db.committed.objects) ∨
    (db.saved = none ∧ (db.put_object fails m).2.tables.objects = withRow db.tables.objects (objectRow m) ∧
      ((db.put_object fails m).2.committed.objects = db.tables.objects ∨
        (db.put_object fails m).2.committed.objects = withRow db.tables.objects (objectRow m))) := by
  obtain ⟨tables, saved, changes⟩ := db
  rw [put_object]
  cases hstart : fails.start with
  | some message => exact .inl ⟨rfl, rfl⟩
  | none =>
    cases saved with
    | some before => exact .inl ⟨rfl, rfl⟩
    | none =>
      simp only [begin_immediate]
      cases hobject : fails.object with
      | some message =>
        simp only [step]
        cases fails.rollback with
        | none => exact .inl ⟨rfl, rfl⟩
        | some e => exact .inl ⟨rfl, rfl⟩
      | none =>
        have hrow : step ⟨tables, some tables, changes⟩ none (Tables.replace_object (objectRow m)) =
            (.ok (), ⟨⟨withRow tables.objects (objectRow m), tables.chunks⟩, some tables, 1⟩) := rfl
        simp only [hrow]
        -- the statements after the first leave the objects alone
        have hclear := step_delete_chunks_objects ⟨⟨withRow tables.objects (objectRow m), tables.chunks⟩,
          some tables, 1⟩ fails.clear (cstr m.bucket) (cstr m.key)
        generalize (step ⟨⟨withRow tables.objects (objectRow m), tables.chunks⟩, some tables, 1⟩ fails.clear
          (Tables.delete_chunks (cstr m.bucket) (cstr m.key))).2 = db₁ at hclear
        have hloop := insertLoop_objects fails.chunk m.bucket m.key 0 m.chunks db₁
        generalize insertLoop fails.chunk m.bucket m.key 0 m.chunks db₁ = call at hloop
        obtain ⟨r, db₂⟩ := call
        have hend := end_objects (hloop.1.trans hclear.1) (hloop.2.trans hclear.2)
        cases r with
        | error message =>
          rcases (hend fails.rollback).1 with ⟨h1, h2⟩ | ⟨h1, h2⟩
          · exact .inl ⟨h1, h2⟩
          · exact .inr ⟨trivial, h1, .inl h2⟩
        | ok u => exact .inr ⟨trivial, (hend fails.commit).2⟩

/-- Whatever fails, `put_object` lists no chunk but those it is given. -/
theorem Mentions.of_put_object {fails : PutFaults} {m : ObjectMetadata} (h : (db.put_object fails m).2.Mentions c) :
    db.Mentions c ∨ ∃ ref ∈ m.chunks, c = cstr ref.checksum := by
  have hstart : (db.begin_immediate fails.start).2.Mentions c → db.Mentions c := .of_begin
  rw [put_object] at h
  generalize db.begin_immediate fails.start = call at h hstart
  obtain ⟨r, db₁⟩ := call
  cases r with
  | error status => exact .inl (hstart h)
  | ok u =>
    have hobject : (db₁.step fails.object (Tables.replace_object (objectRow m))).2.Mentions c → db₁.Mentions c := .of_replace
    simp only at h
    generalize db₁.step fails.object (Tables.replace_object (objectRow m)) = call at h hobject
    obtain ⟨r, db₂⟩ := call
    cases r with
    | error message => exact .inl (hstart (hobject (Mentions.of_rollback h)))
    | ok u =>
      have hloop : (insertLoop fails.chunk m.bucket m.key 0 m.chunks
          (db₂.step fails.clear (Tables.delete_chunks (cstr m.bucket) (cstr m.key))).2).2.Mentions c →
          db.Mentions c ∨ ∃ ref ∈ m.chunks, c = cstr ref.checksum :=
        fun h => h.of_insertLoop.imp_left fun h => hstart (hobject h.of_delete_chunks)
      simp only at h
      generalize insertLoop fails.chunk m.bucket m.key 0 m.chunks
        (db₂.step fails.clear (Tables.delete_chunks (cstr m.bucket) (cstr m.key))).2 = call at h hloop
      obtain ⟨r, db₃⟩ := call
      cases r with
      | error message => exact hloop (Mentions.of_rollback h)
      | ok u => exact hloop (Mentions.of_commit h)

/-- Whatever fails, `delete_object` lists no further chunk. -/
theorem Mentions.of_delete_object {fails : DeleteFaults} {bucket key : Str}
    (h : (db.delete_object fails bucket key).2.Mentions c) : db.Mentions c := by
  rw [delete_object] at h
  split at h
  · exact h.of_delete_row.of_delete_chunks
  · exact h.of_delete_row.of_delete_chunks

/-- Whatever fails, `delete_object` leaves the objects as they were or takes the
row of the one away, in the view of the process and perhaps on disk. -/
theorem delete_object_objects (db : MetadataStore) (fails : DeleteFaults) (bucket key : Str) :
    (db.delete_object fails bucket key).2.tables.objects = db.tables.objects ∧
        (db.delete_object fails bucket key).2.committed.objects = db.committed.objects ∨
      (db.delete_object fails bucket key).2.tables.objects = db.tables.objects.filter (!·.isOf (cstr bucket) (cstr key)) ∧
        ((db.delete_object fails bucket key).2.committed.objects = db.committed.objects ∨
          (db.delete_object fails bucket key).2.committed.objects =
            db.committed.objects.filter (!·.isOf (cstr bucket) (cstr key))) := by
  have hend : (db.delete_object fails bucket key).2 = ((db.step fails.chunks (Tables.delete_chunks (cstr bucket)
      (cstr key))).2.step fails.object (Tables.delete_object_row (cstr bucket) (cstr key))).2 := by
    rw [delete_object]
    split <;> rfl
  rw [hend]
  have hchunks := step_delete_chunks_objects db fails.chunks (cstr bucket) (cstr key)
  have hcommitted : (db.step fails.chunks (Tables.delete_chunks (cstr bucket) (cstr key))).2.committed.objects =
      db.committed.objects := by
    rw [committed, committed, hchunks.1]
    cases db.saved with
    | none => exact hchunks.2
    | some before => rfl
  generalize (db.step fails.chunks (Tables.delete_chunks (cstr bucket) (cstr key))).2 = db₁ at hchunks hcommitted
  rw [← hchunks.2, ← hcommitted]
  obtain ⟨tables, saved, changes⟩ := db₁
  cases hobject : fails.object with
  | some message => exact .inl ⟨rfl, rfl⟩
  | none =>
    refine .inr ⟨rfl, ?_⟩
    cases saved with
    | none => exact .inr rfl
    | some before => exact .inl rfl

end MetadataStore

end Dstore
