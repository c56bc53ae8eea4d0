import Mathlib.Algebra.BigOperators.Group.Finset.Basic
import Mathlib.Algebra.Order.Ring.Int
import Mathlib.Data.Finset.Dedup
import Mathlib.Logic.Function.Basic
import Dstore.Lib.Counting
import Dstore.Lib.Lists
import Dstore.Lib.Runs
import Dstore.Metadata.MetadataStore
/-!
# The directory that a metadata store is

A directory gives the metadata last put under each name. The tables represent
it: one row of `objects` for each object, and the rows of its chunks, in order.
Writes that SQLite takes as they are keep it so, and every read is then a
question about the directory (`metadata_refines_directory`).
-/
open Dstore.Lib

namespace Dstore

/-- A call that writes. -/
inductive MetadataCall where
  | put (m : ObjectMetadata)
  | delete (bucket key : Str)

/-- A text that SQLite gets whole. -/
def NulFree (s : Str) : Prop := (0 : UInt8) ∉ s

instance (s : Str) : Decidable (NulFree s) := inferInstanceAs (Decidable (_ ∉ _))

theorem NulFree.cstr {s : Str} (h : NulFree s) : cstr s = s := cstr_eq h

/-! ## Directories -/

/-- The object under each bucket and key. -/
abbrev Directory := Str × Str → Option ObjectMetadata

namespace Directory

def call (d : Directory) : MetadataCall → Directory
  | .put m => Function.update d (m.bucket, m.key) (some m)
  | .delete bucket key => Function.update d (bucket, key) none

/-- After calls on an empty directory. -/
def after (calls : List MetadataCall) : Directory := calls.foldl call fun _ => none

end Directory

def MetadataCall.name : MetadataCall → Str × Str
  | .put m => (m.bucket, m.key)
  | .delete bucket key => (bucket, key)

namespace Directory

variable {calls : List MetadataCall} {name : Str × Str} {m : ObjectMetadata}

theorem call_other (d : Directory) {c : MetadataCall} (h : c.name ≠ name) : d.call c name = d name := by
  cases c with
  | put m => exact Function.update_of_ne (Ne.symm h) _ _
  | delete bucket key => exact Function.update_of_ne (Ne.symm h) _ _

/-- An object is there when it was put last and nothing of its name came after. -/
theorem after_eq_some_iff : after calls name = some m ↔
    ∃ before rest, calls = before ++ .put m :: rest ∧ (m.bucket, m.key) = name ∧ ∀ c ∈ rest, c.name ≠ name := by
  induction calls using List.reverseRecOn with
  | nil => simp [after]
  | append_singleton calls c ih =>
    have hstep : after (calls ++ [c]) = (after calls).call c := List.foldl_concat ..
    have hsplit : (∃ before rest, calls ++ [c] = before ++ .put m :: rest ∧ (m.bucket, m.key) = name ∧
        ∀ x ∈ rest, x.name ≠ name) ↔ (c = .put m ∧ (m.bucket, m.key) = name) ∨
          (c.name ≠ name ∧ after calls name = some m) := by
      rw [ih]
      constructor
      · rintro ⟨before, rest, heq, hname, hrest⟩
        rcases concat_eq_append_cons.1 heq with ⟨rfl, rfl, rfl⟩ | ⟨r, rfl, rfl⟩
        · exact .inl ⟨rfl, hname⟩
        · exact .inr ⟨hrest c (by simp), before, r, rfl, hname, fun x hx => hrest x (by simp [hx])⟩
      · rintro (⟨rfl, hname⟩ | ⟨hc, before, r, rfl, hname, hrest⟩)
        · exact ⟨calls, [], rfl, hname, by simp⟩
        · refine ⟨before, r ++ [c], by simp, hname, fun x hx => ?_⟩
          rcases List.mem_append.1 hx with hx | hx
          · exact hrest x hx
          · rwa [List.mem_singleton.1 hx]
    rw [hstep, hsplit]
    by_cases hc : c.name = name
    · -- the last call decides
      subst hc
      cases c with
      | put m' =>
        have hself : (after calls).call (.put m') (MetadataCall.put m').name = some m' := Function.update_self _ _ _
        rw [hself]
        constructor
        · intro h
          obtain rfl := Option.some.inj h
          exact .inl ⟨rfl, rfl⟩
        · rintro (⟨h, -⟩ | ⟨h, -⟩)
          · rw [MetadataCall.put.inj h]
          · exact absurd rfl h
      | delete bucket key =>
        have hself : (after calls).call (.delete bucket key) (MetadataCall.delete bucket key).name = none :=
          Function.update_self _ _ _
        rw [hself]
        constructor
        · intro h
          cases h
        · rintro (⟨h, -⟩ | ⟨h, -⟩)
          · cases h
          · exact absurd rfl h
    · rw [call_other _ hc]
      constructor
      · intro h
        exact .inr ⟨hc, h⟩
      · rintro (⟨rfl, h⟩ | ⟨-, h⟩)
        · exact absurd h hc
        · exact h

/-- The names that calls mention. -/
def names (calls : List MetadataCall) : Finset (Str × Str) := (calls.map (·.name)).toFinset

theorem mem_names_of_some (h : after calls name = some m) : name ∈ names calls := by
  obtain ⟨before, rest, rfl, hname, -⟩ := after_eq_some_iff.1 h
  simp only [names, List.mem_toFinset, List.mem_map]
  exact ⟨.put m, by simp, hname⟩

/-- How often an object that may be there lists a chunk. -/
def occurrences (c : Str) (m : Option ObjectMetadata) : Nat :=
  m.elim 0 fun m => m.chunks.countP fun ref => ref.checksum = c

/-- How often all objects together list a chunk. -/
def references (calls : List MetadataCall) (c : Str) : Nat :=
  (names calls).sum fun name => occurrences c (after calls name)

end Directory

/-! ## What the tables represent -/

/-- The tables hold the objects of a directory, each under its own name and
without loss, and nothing else. -/
structure Tables.Represents (t : Tables) (d : Directory) : Prop where
  object : ∀ b k, NulFree b → NulFree k → t.object b k = ((d (b, k)).map MetadataStore.objectRow).toList
  parts : ∀ b k, NulFree b → NulFree k →
    t.parts b k = (d (b, k)).elim [] fun m => MetadataStore.chunkRows m.bucket m.key 0 m.chunks
  stored : ∀ name m, d name = some m →
    (m.bucket, m.key) = name ∧ NulFree m.bucket ∧ NulFree m.key ∧ MetadataStore.Fits m
  objectRows : ∀ r ∈ t.objects, NulFree r.bucket ∧ NulFree r.key
  chunkRows : ∀ r ∈ t.chunks, NulFree r.bucket ∧ NulFree r.key

/-- Metadata as SQLite takes it, for its texts and sizes. -/
structure ObjectMetadata.Plain (m : ObjectMetadata) : Prop where
  bucket : NulFree m.bucket
  key : NulFree m.key
  checksum : NulFree m.checksum
  size : m.size < 2 ^ 64
  chunks : ∀ ref ∈ m.chunks, NulFree ref.checksum ∧ ref.size < 2 ^ 64

instance (m : ObjectMetadata) : Decidable m.Plain :=
  decidable_of_iff (NulFree m.bucket ∧ NulFree m.key ∧ NulFree m.checksum ∧ m.size < 2 ^ 64 ∧
      ∀ ref ∈ m.chunks, NulFree ref.checksum ∧ ref.size < 2 ^ 64)
    ⟨fun ⟨h1, h2, h3, h4, h5⟩ => ⟨h1, h2, h3, h4, h5⟩, fun ⟨h1, h2, h3, h4, h5⟩ => ⟨h1, h2, h3, h4, h5⟩⟩

namespace Tables

variable {t : Tables} {d : Directory}

theorem Represents.empty : ({} : Tables).Represents fun _ => none :=
  ⟨fun _ _ _ _ => rfl, fun _ _ _ _ => rfl, fun _ _ h => (by cases h), fun _ h => (by cases h), fun _ h => (by cases h)⟩

theorem length_chunkRows (bucket key : Str) (i : Nat) (refs : List ChunkRef) :
    (MetadataStore.chunkRows bucket key i refs).length = refs.length := by
  induction refs generalizing i with
  | nil => rfl
  | cons c refs ih => rw [MetadataStore.chunkRows, List.length_cons, ih, List.length_cons]

theorem length_le_upload (t : Tables) (m : ObjectMetadata) : m.chunks.length ≤ (t.upload m).chunks.length := by
  rw [upload, List.length_append, length_chunkRows]
  exact Nat.le_add_left _ _

theorem fits_of_plain {m : ObjectMetadata} (h : m.Plain) (hrows : (t.upload m).chunks.length < 2 ^ 31) :
    MetadataStore.Fits m where
  size := h.size
  checksum := h.checksum.cstr
  chunks ref href := ⟨(h.chunks ref href).1.cstr, (h.chunks ref href).2⟩
  length := ((t.length_le_upload m).trans_lt hrows).le

theorem Represents.upload (h : t.Represents d) {m : ObjectMetadata} (hm : m.Plain)
    (hrows : (t.upload m).chunks.length < 2 ^ 31) : (t.upload m).Represents (d.call (.put m)) := by
  have hself : d.call (.put m) (m.bucket, m.key) = some m := Function.update_self _ _ _
  have hb := hm.bucket.cstr
  have hk := hm.key.cstr
  refine ⟨fun b k hb' hk' => ?_, fun b k hb' hk' => ?_, fun name m' hm' => ?_, fun r hr => ?_, fun r hr => ?_⟩
  · by_cases hname : b = m.bucket ∧ k = m.key
    · rw [hname.1, hname.2, hself]
      have hrow := t.object_upload_self m
      rw [hb, hk] at hrow
      exact hrow
    · rw [t.object_upload_other m (by rwa [hb, hk]), d.call_other (c := .put m) fun he => hname (Prod.mk.inj he.symm)]
      exact h.object b k hb' hk'
  · by_cases hname : b = m.bucket ∧ k = m.key
    · rw [hname.1, hname.2, hself]
      have hrows := t.parts_upload_self m
      rw [hb, hk] at hrows
      exact hrows
    · rw [t.parts_upload_other m (by rwa [hb, hk]), d.call_other (c := .put m) fun he => hname (Prod.mk.inj he.symm)]
      exact h.parts b k hb' hk'
  · by_cases hname : (m.bucket, m.key) = name
    · rw [← hname, hself] at hm'
      obtain rfl := Option.some.inj hm'
      exact ⟨hname, hm.bucket, hm.key, fits_of_plain hm hrows⟩
    · rw [d.call_other (c := .put m) hname] at hm'
      exact h.stored name m' hm'
  · rcases List.mem_append.1 hr with hr | hr
    · exact h.objectRows r (List.mem_of_mem_filter hr)
    · rw [List.mem_singleton.1 hr]
      exact ⟨zero_not_mem_cstr _, zero_not_mem_cstr _⟩
  · rcases List.mem_append.1 hr with hr | hr
    · exact h.chunkRows r (List.mem_of_mem_filter hr)
    · have hof := (MetadataStore.mem_chunkRows hr).1
      rw [ChunkRow.isOf, decide_eq_true_eq] at hof
      rw [hof.1, hof.2]
      exact ⟨zero_not_mem_cstr _, zero_not_mem_cstr _⟩

theorem Represents.erase (h : t.Represents d) (bucket key : Str) :
    (t.erase bucket key).Represents (d.call (.delete bucket key)) := by
  have hself : d.call (.delete bucket key) (bucket, key) = none := Function.update_self _ _ _
  refine ⟨fun b k hb hk => ?_, fun b k hb hk => ?_, fun name m hm => ?_, fun r hr => ?_, fun r hr => ?_⟩
  · by_cases hname : b = bucket ∧ k = key
    · rw [hname.1, hname.2, hself]
      exact t.object_erase_self bucket key
    · rw [t.object_erase_other hname, d.call_other (c := .delete bucket key) fun he => hname (Prod.mk.inj he.symm)]
      exact h.object b k hb hk
  · by_cases hname : b = bucket ∧ k = key
    · rw [hname.1, hname.2, hself]
      exact t.parts_erase_self bucket key
    · rw [t.parts_erase_other hname, d.call_other (c := .delete bucket key) fun he => hname (Prod.mk.inj he.symm)]
      exact h.parts b k hb hk
  · by_cases hname : (bucket, key) = name
    · rw [← hname, hself] at hm
      cases hm
    · rw [d.call_other (c := .delete bucket key) hname] at hm
      exact h.stored name m hm
  · exact h.objectRows r (List.mem_of_mem_filter hr)
  · exact h.chunkRows r (List.mem_of_mem_filter hr)

end Tables

namespace MetadataStore

/-- A call that does not fail. -/
def call (db : MetadataStore) : MetadataCall → MetadataStore
  | .put m => (db.put_object {} m).2
  | .delete bucket key => (db.delete_object {} bucket key).2

def after (calls : List MetadataCall) : MetadataStore := calls.foldl call {}

/-- SQLite takes the call as it is, and there are fewer than `2^31` rows of
chunks after it. -/
def Takes (db : MetadataStore) : MetadataCall → Prop
  | .put m => m.Plain ∧ (db.tables.upload m).chunks.length < 2 ^ 31
  | .delete bucket key => NulFree bucket ∧ NulFree key

instance (db : MetadataStore) : ∀ c, Decidable (db.Takes c)
  | .put m => inferInstanceAs (Decidable (m.Plain ∧ _))
  | .delete _ _ => inferInstanceAs (Decidable (_ ∧ _))

variable {db : MetadataStore} {d : Directory}

/-- Outside of a transaction, with few rows, and with the objects of `d`. -/
structure Serves (db : MetadataStore) (d : Directory) : Prop where
  closed : db.saved = none
  rows : db.tables.chunks.length < 2 ^ 31
  tables : db.tables.Represents d

theorem Serves.call (h : db.Serves d) {c : MetadataCall} (hc : db.Takes c) : (db.call c).Serves (d.call c) := by
  cases c with
  | put m =>
    obtain ⟨hm, hrows⟩ := hc
    have hlen := (db.tables.length_le_upload m).trans_lt hrows
    obtain ⟨n, hput⟩ := put_object_ok h.closed (show m.chunks.length ≤ 2 ^ 32 by omega)
    have hcall : db.call (.put m) = ⟨db.tables.upload m, none, n⟩ := congrArg Prod.snd hput
    rw [hcall]
    exact ⟨rfl, hrows, h.tables.upload hm hrows⟩
  | delete bucket key =>
    have hcall : db.call (.delete bucket key) = _ := (db.delete_object_eq bucket key).1
    rw [hcall, hc.1.cstr, hc.2.cstr]
    exact ⟨h.closed, (List.length_filter_le _ _).trans_lt h.rows, h.tables.erase bucket key⟩

theorem Serves.run (h : db.Serves d) {calls : List MetadataCall} (hc : Run.Legal Takes MetadataStore.call db calls) :
    (calls.foldl MetadataStore.call db).Serves (calls.foldl Directory.call d) := by
  induction calls generalizing db d with
  | nil => exact h
  | cons c calls ih => exact ih (h.call hc.1) hc.2

theorem serves_after {calls : List MetadataCall} (hc : Run.Legal Takes call {} calls) :
    (after calls).Serves (Directory.after calls) :=
  Serves.run ⟨rfl, by decide, .empty⟩ hc

/-! ### Reading -/

theorem Serves.get_object (h : db.Serves d) {b k : Str} (hb : NulFree b) (hk : NulFree k) :
    db.get_object b k = (d (b, k)).elim (.error (.NotFound (lit "object not found"))) .ok := by
  have hobject := h.tables.object b k hb hk
  have hparts := h.tables.parts b k hb hk
  cases hd : d (b, k) with
  | none =>
    rw [hd] at hobject
    exact get_object_missing (by rw [hb.cstr, hk.cstr]; exact hobject)
  | some m =>
    rw [hd] at hobject hparts
    obtain ⟨hname, -, -, hfits⟩ := h.tables.stored _ _ hd
    rw [get_object_eq hfits (by rw [hb.cstr, hk.cstr]; exact hobject) (by rw [hb.cstr, hk.cstr]; exact hparts)]
    obtain ⟨rfl, rfl⟩ := Prod.mk.inj hname
    rfl

theorem Serves.delete_isOk (h : db.Serves d) {b k : Str} (hb : NulFree b) (hk : NulFree k) :
    (db.delete_object {} b k).1.isOk = true ↔ (d (b, k)).isSome = true := by
  have hzero : int32 0 = 0 := int32_eq (by decide)
  have hone : int32 1 = 1 := int32_eq (by decide)
  rw [(db.delete_object_eq b k).2, hb.cstr, hk.cstr, h.tables.object b k hb hk]
  cases d (b, k) with
  | none =>
    rw [Option.map_none, Option.toList_none, List.length_nil, if_pos hzero]
    exact ⟨fun hok => (by cases hok), fun hno => (by cases hno)⟩
  | some m =>
    rw [Option.map_some, Option.toList_some, List.length_singleton, if_neg (by rw [hone]; decide)]
    exact ⟨fun _ => rfl, fun _ => rfl⟩

/-- The rows of a bucket have different keys. -/
theorem Serves.nodup_keys (h : db.Serves d) {b : Str} (hb : NulFree b) :
    ((db.tables.objects.filter fun r => r.bucket = b).map (·.key)).Nodup := by
  refine List.nodup_iff_count_le_one.2 fun k => ?_
  rw [List.count_eq_countP, List.countP_map, List.countP_filter]
  by_cases hk : NulFree k
  · have hone : (db.tables.object b k).length ≤ 1 := by
      rw [h.tables.object b k hb hk]
      cases d (b, k) <;> simp
    rw [Tables.object, ← List.countP_eq_length_filter] at hone
    refine le_of_eq_of_le (List.countP_congr fun r _ => ?_) hone
    simp [ObjectRow.isOf, and_comm]
  · rw [Nat.le_one_iff_eq_zero_or_eq_one]
    refine .inl (List.countP_eq_zero.2 fun r hr hr' => hk ?_)
    simp only [Function.comp, Bool.and_eq_true, beq_iff_eq] at hr'
    rw [← hr'.1]
    exact (h.tables.objectRows r hr).2

theorem Serves.list_objects (h : db.Serves d) {b : Str} (hb : NulFree b) :
    ∃ l, db.list_objects b = .ok l ∧ (l.map (·.key)).Pairwise (· < ·) ∧
      ∀ x, x ∈ l ↔ ∃ k m, d (b, k) = some m ∧ x = { m with chunks := [] } := by
  refine ⟨_, rfl, ?_, fun x => ?_⟩
  · rw [List.map_map, hb.cstr]
    have hsorted : (byKey (db.tables.objects.filter fun r => r.bucket = b)).Pairwise fun r r' => r.key ≤ r'.key :=
      List.pairwise_insertionSort _ _
    have hnodup : ((byKey (db.tables.objects.filter fun r => r.bucket = b)).map (·.key)).Nodup :=
      ((List.perm_insertionSort _ _).map _).nodup_iff.2 (h.nodup_keys hb)
    refine List.pairwise_map.2 ((hsorted.and (List.pairwise_map.1 hnodup)).imp fun hrr' => ?_)
    exact Std.lt_of_le_of_ne hrr'.1 hrr'.2
  · have hrow : ∀ row k m, d (b, k) = some m → row = objectRow m →
        (⟨b, row.key, unsigned row.size, row.checksum, []⟩ : ObjectMetadata) = { m with chunks := [] } := by
      rintro _ k m hm rfl
      obtain ⟨hname, -, hkey, hfits⟩ := h.tables.stored _ _ hm
      obtain ⟨rfl, rfl⟩ := Prod.mk.inj hname
      simp only [objectRow, hkey.cstr, unsigned_int64 hfits.size, hfits.checksum]
    rw [List.mem_map, hb.cstr]
    constructor
    · rintro ⟨row, hmem, rfl⟩
      have hmem := (List.perm_insertionSort _ _).mem_iff.1 hmem
      obtain ⟨hrows, hbucket⟩ := List.mem_filter.1 hmem
      have hbucket := of_decide_eq_true hbucket
      have hof : row ∈ db.tables.object b row.key :=
        List.mem_filter.2 ⟨hrows, decide_eq_true ⟨hbucket, rfl⟩⟩
      rw [h.tables.object b row.key hb (h.tables.objectRows row hrows).2, Option.mem_toList] at hof
      obtain ⟨m, hm, rfl⟩ := Option.map_eq_some_iff.1 hof
      exact ⟨_, m, hm, hrow _ _ m hm rfl⟩
    · rintro ⟨k, m, hm, rfl⟩
      obtain ⟨hname, -, hkey, -⟩ := h.tables.stored _ _ hm
      have hof : objectRow m ∈ db.tables.object b k := by
        rw [h.tables.object b k hb ((Prod.mk.inj hname).2 ▸ hkey), hm]
        exact List.mem_singleton_self _
      obtain ⟨hrows, hbucket⟩ := List.mem_filter.1 hof
      refine ⟨objectRow m, (List.perm_insertionSort _ _).mem_iff.2 (List.mem_filter.2 ⟨hrows, ?_⟩), hrow _ k m hm rfl⟩
      exact decide_eq_true (of_decide_eq_true hbucket).1

/-- The rows of one name list a chunk as often as the object does. -/
theorem Serves.count_parts (h : db.Serves d) {c : Str} (name : Str × Str) :
    (db.tables.chunks.filter fun r => (r.bucket, r.key) = name).countP (·.checksum = c) = Directory.occurrences c
      (d name) := by
  have hrows : db.tables.chunks.filter (fun r => (r.bucket, r.key) = name) = db.tables.parts name.1 name.2 := by
    refine List.filter_congr fun r _ => ?_
    simp [ChunkRow.isOf, Prod.ext_iff]
  rw [hrows]
  cases hd : d name with
  | none =>
    refine List.countP_eq_zero.2 fun r hr => ?_
    obtain ⟨hr', hof⟩ := List.mem_filter.1 hr
    obtain ⟨hbucket, hkey⟩ : r.bucket = name.1 ∧ r.key = name.2 := of_decide_eq_true hof
    obtain ⟨hb, hk⟩ := h.tables.chunkRows r hr'
    rw [hbucket] at hb
    rw [hkey] at hk
    rw [h.tables.parts _ _ hb hk, hd] at hr
    cases hr
  | some m =>
    obtain ⟨rfl, hb, hk, hfits⟩ := h.tables.stored _ _ hd
    rw [h.tables.parts _ _ hb hk, hd]
    show (chunkRows m.bucket m.key 0 m.chunks).countP _ = _
    rw [countP_chunkRows]
    exact List.countP_congr fun ref href => by rw [(hfits.chunks ref href).1]

theorem count_references {calls : List MetadataCall} (hc : Run.Legal Takes call {} calls) {c : Str} (hnul : NulFree c) :
    (after calls).chunk_ref_count c = Directory.references calls c := by
  have h := serves_after hc
  have hnames : ∀ r ∈ (after calls).tables.chunks, (r.bucket, r.key) ∈ Directory.names calls := by
    intro r hr
    obtain ⟨hb, hk⟩ := h.tables.chunkRows r hr
    have hof : r ∈ (after calls).tables.parts r.bucket r.key := List.mem_filter.2 ⟨hr, decide_eq_true ⟨rfl, rfl⟩⟩
    rw [h.tables.parts _ _ hb hk] at hof
    cases hd : Directory.after calls (r.bucket, r.key) with
    | none =>
      rw [hd] at hof
      cases hof
    | some m => exact Directory.mem_names_of_some hd
  have hcount : (after calls).tables.count c = Directory.references calls c := by
    rw [Tables.count, countP_eq_sum_filter (fun r : ChunkRow => (r.bucket, r.key)) _ hnames]
    exact Finset.sum_congr rfl fun name _ => h.count_parts name
  have hlt : (after calls).tables.count c < 2 ^ 31 := List.countP_le_length.trans_lt h.rows
  rw [chunk_ref_count, hnul.cstr, int32_eq hlt, hcount]

/-- After any calls a metadata store answers like the directory of what was put
last under each name. -/
theorem metadata_refines_directory (calls : List MetadataCall) (hc : Run.Legal Takes call {} calls) :
    (∀ b k, NulFree b → NulFree k → (after calls).get_object b k =
      (Directory.after calls (b, k)).elim (.error (.NotFound (lit "object not found"))) .ok) ∧
    (∀ b k, NulFree b → NulFree k →
      (((after calls).delete_object {} b k).1.isOk = true ↔ (Directory.after calls (b, k)).isSome = true)) ∧
    (∀ b, NulFree b → ∃ l, (after calls).list_objects b = .ok l ∧ (l.map (·.key)).Pairwise (· < ·) ∧
      ∀ x, x ∈ l ↔ ∃ k m, Directory.after calls (b, k) = some m ∧ x = { m with chunks := [] }) ∧
    ∀ c, NulFree c → (after calls).chunk_ref_count c = Directory.references calls c :=
  ⟨fun _ _ hb hk => (serves_after hc).get_object hb hk, fun _ _ hb hk => (serves_after hc).delete_isOk hb hk,
    fun _ hb => (serves_after hc).list_objects hb, fun _ hnul => count_references hc hnul⟩

/-- An object that is put again with fewer chunks, and one that is deleted. -/
def overwritten : List MetadataCall :=
  [.put ⟨lit "b", lit "x", 9, lit "s", [⟨lit "c1", 4⟩, ⟨lit "c2", 4⟩, ⟨lit "c1", 1⟩]⟩,
    .put ⟨lit "b", lit "y", 4, lit "t", [⟨lit "c1", 4⟩]⟩,
    .put ⟨lit "b", lit "x", 4, lit "u", [⟨lit "c2", 4⟩]⟩, .delete (lit "b") (lit "y")]

theorem overwritten_represented : Run.Legal Takes call {} overwritten ∧
    (after overwritten).get_object (lit "b") (lit "x") = .ok ⟨lit "b", lit "x", 4, lit "u", [⟨lit "c2", 4⟩]⟩ ∧
    (after overwritten).chunk_ref_count (lit "c1") = Directory.references overwritten (lit "c1") := by
  have htakes : Run.Legal Takes call {} overwritten := by decide +kernel
  have h := metadata_refines_directory overwritten htakes
  exact ⟨htakes, h.1 _ _ (by decide) (by decide), h.2.2.2 _ (by decide)⟩

end MetadataStore

end Dstore
