import Dstore.Server.ObjectEffects
import Dstore.Server.SingleNode
/-!
# Chunks that no object lists

A node without peers serves uploads and deletes one after another. A delete
takes away the chunks whose last reference went. An upload that replaces an
object drops the rows of the old content and looks at its chunks no more, so a
chunk that only the old content had stays on disk for good (`overwrite_leaks`).

`no_chunk_leak_iff`: after each of a sequence of served requests every chunk
file is listed by some object, if and only if no upload of the sequence drops
the last reference to a chunk that is on disk.
-/
open Dstore.Lib

namespace Dstore

/-! ## Which chunks are listed -/

namespace Tables

variable (t : Tables) {c : Str}

theorem lists_erase_or {bucket key : Str} :
    t.Lists c ↔ (t.erase bucket key).Lists c ∨ ∃ r ∈ t.parts bucket key, r.checksum = c := by
  constructor
  · rintro ⟨r, hr, hc⟩
    by_cases hof : r.isOf bucket key = true
    · exact .inr ⟨r, List.mem_filter.2 ⟨hr, hof⟩, hc⟩
    · exact .inl ⟨r, List.mem_filter.2 ⟨hr, by simpa using hof⟩, hc⟩
  · rintro (hl | ⟨r, hr, hc⟩)
    · exact hl.of_erase
    · exact ⟨r, List.mem_of_mem_filter hr, hc⟩

theorem lists_upload {m : ObjectMetadata} :
    (t.upload m).Lists c ↔ (t.erase (cstr m.bucket) (cstr m.key)).Lists c ∨ ∃ ref ∈ m.chunks, cstr ref.checksum = c := by
  have hcount : (t.upload m).count c =
      (t.erase (cstr m.bucket) (cstr m.key)).count c + m.chunks.countP (fun ref => cstr ref.checksum = c) := by
    rw [count, upload, List.countP_append, MetadataStore.countP_chunkRows]
    rfl
  have hrefs : 0 < m.chunks.countP (fun ref => cstr ref.checksum = c) ↔ ∃ ref ∈ m.chunks, cstr ref.checksum = c := by
    simp [List.countP_pos_iff]
  rw [lists_iff, lists_iff, hcount, ← hrefs]
  omega

/-- Every chunk row is a row of an object, under a name without a NUL byte. -/
structure Owned : Prop where
  object : ∀ r ∈ t.chunks, ∃ o ∈ t.objects, o.bucket = r.bucket ∧ o.key = r.key
  plain : ∀ r ∈ t.chunks, cstr r.bucket = r.bucket ∧ cstr r.key = r.key

variable {t}

theorem Owned.empty : ({} : Tables).Owned := ⟨by simp, by simp⟩

theorem Owned.upload (h : t.Owned) (m : ObjectMetadata) : (t.upload m).Owned := by
  refine ⟨fun r hr => ?_, fun r hr => ?_⟩
  · rcases List.mem_append.1 hr with hr | hr
    · obtain ⟨hmem, hof⟩ := List.mem_filter.1 hr
      obtain ⟨o, ho, hb, hk⟩ := h.object r hmem
      refine ⟨o, List.mem_append_left _ (List.mem_filter.2 ⟨ho, ?_⟩), hb, hk⟩
      simpa [ChunkRow.isOf, ObjectRow.isOf, hb, hk] using hof
    · have hname : r.bucket = cstr m.bucket ∧ r.key = cstr m.key := of_decide_eq_true (MetadataStore.mem_chunkRows hr).1
      exact ⟨MetadataStore.objectRow m, by simp [Tables.upload], hname.1.symm, hname.2.symm⟩
  · rcases List.mem_append.1 hr with hr | hr
    · exact h.plain r (List.mem_of_mem_filter hr)
    · have hname : r.bucket = cstr m.bucket ∧ r.key = cstr m.key := of_decide_eq_true (MetadataStore.mem_chunkRows hr).1
      rw [hname.1, hname.2, cstr_cstr, cstr_cstr]
      exact ⟨rfl, rfl⟩

theorem Owned.erase (h : t.Owned) (bucket key : Str) : (t.erase bucket key).Owned := by
  refine ⟨fun r hr => ?_, fun r hr => h.plain r (List.mem_of_mem_filter hr)⟩
  obtain ⟨hmem, hof⟩ := List.mem_filter.1 hr
  obtain ⟨o, ho, hb, hk⟩ := h.object r hmem
  refine ⟨o, List.mem_filter.2 ⟨ho, ?_⟩, hb, hk⟩
  simpa [ChunkRow.isOf, ObjectRow.isOf, hb, hk] using hof

end Tables

/-- The chunk list of some object names the chunk. -/
def MetadataStore.Referenced (db : MetadataStore) (c : Str) : Prop :=
  ∃ bucket key m, db.get_object bucket key = .ok m ∧ ∃ ref ∈ m.chunks, ref.checksum = c

theorem MetadataStore.referenced_iff {db : MetadataStore} (h : db.tables.Owned) {c : Str} :
    db.Referenced c ↔ db.tables.Lists c := by
  constructor
  · rintro ⟨bucket, key, m, hread, ref, href, rfl⟩
    exact MetadataStore.lists_of_get hread href
  · rintro ⟨r, hr, rfl⟩
    obtain ⟨hb, hk⟩ := h.plain r hr
    obtain ⟨o, ho, hob, hok⟩ := h.object r hr
    have hrow : o ∈ db.tables.object (cstr r.bucket) (cstr r.key) := by
      rw [hb, hk]
      exact List.mem_filter.2 ⟨ho, decide_eq_true ⟨hob, hok⟩⟩
    have hpart : r ∈ db.tables.parts (cstr r.bucket) (cstr r.key) := by
      rw [hb, hk]
      exact List.mem_filter.2 ⟨hr, decide_eq_true ⟨rfl, rfl⟩⟩
    cases hread : db.get_object r.bucket r.key with
    | error status =>
      rw [MetadataStore.get_object] at hread
      split at hread
      · rename_i hnone
        rw [hnone] at hrow
        cases hrow
      · cases hread
    | ok m => exact ⟨r.bucket, r.key, m, hread, (MetadataStore.read_chunks_iff hread).2 ⟨r, hpart, rfl⟩⟩

/-! ## The files of a single node -/

namespace Server

section Alone
variable {H : HexHash} {hash64 : Str → Nat} {S : Set Bytes} {srv : Server} (hs : srv.Alone) {net : Net}
include hs

/-- An upload stores its parts and no other file. -/
theorem Alone.putParts_files (parts : List Bytes) (i : Nat) (refs : List ChunkRef) (hsound : net.Sound H S)
    (hS : ∀ p ∈ parts, p ∈ S) {c : Str} (hc : Digest c) :
    ((srv.putParts H hash64 (fun _ => {}) i parts refs net).2.stores srv.me).exists_ c = true ↔
      (net.stores srv.me).exists_ c = true ∨ c ∈ parts.map H.hex := by
  induction parts generalizing i refs net with
  | nil => simp [putParts]
  | cons p parts ih =>
    obtain ⟨net', hput, hstore, hsound'⟩ := hs.put_store hash64 hsound (hS p List.mem_cons_self)
    have hfile : (net'.stores srv.me).exists_ c = true ↔ (net.stores srv.me).exists_ c = true ∨ c = H.hex p := by
      rcases (net.stores srv.me).put_cases H none p with ⟨-, s', heq, -, -, hfile⟩ | ⟨-, hstop, -⟩
      · rw [hstore, heq]
        show (s'.file c).isSome = true ↔ ((net.stores srv.me).file c).isSome = true ∨ c = H.hex p
        rw [hfile c hc]
        by_cases hcp : c = H.hex p <;> simp [hcp]
      · cases hstop
    rw [Server.putParts, hput]
    simp only
    rw [ih _ _ hsound' fun q hq => hS q (List.mem_cons_of_mem _ hq), hfile, List.map_cons, List.mem_cons, or_assoc]

/-- A delete adds no file, and takes away those of its chunks that it finds
unreferenced. -/
theorem Alone.removeParts_files (hash64 : Str → Nat) (db : MetadataStore) (refs : List ChunkRef)
    (hd : ∀ ref ∈ refs, Digest ref.checksum) {c : Str} (hc : Digest c)
    (hfile : ((srv.removeParts hash64 {} db 0 refs net).2.stores srv.me).exists_ c = true) :
    (net.stores srv.me).exists_ c = true ∧ ∀ ref ∈ refs, ref.checksum = c → 0 < db.chunk_ref_count c := by
  obtain ⟨-, hgone⟩ := removeParts_gone hash64 hs.ready.reachable db refs 0 hd hc net srv.me
  rw [hs.homes] at hgone
  have hsome : ((srv.removeParts hash64 {} db 0 refs net).2.stores srv.me).file c ≠ none := by
    intro hnone
    have hfile : (((srv.removeParts hash64 {} db 0 refs net).2.stores srv.me).file c).isSome = true := hfile
    rw [hnone] at hfile
    cases hfile
  refine ⟨?_, fun ref href hrc => ?_⟩
  · by_contra hnot
    refine hsome (hgone (.inl ?_))
    have hnot : ¬ ((net.stores srv.me).file c).isSome = true := hnot
    simpa using hnot
  · by_contra hle
    exact hsome (hgone (.inr ⟨List.mem_singleton_self _, ref, href, hrc, by omega⟩))

end Alone

/-! ## Sequences of requests -/

end Server

inductive ObjectCall where
  | put (req : HttpRequest)
  | delete (req : HttpRequest)

namespace Server

section Calls
variable (H : HexHash) (hash64 : Str → Nat) (srv : Server)

/-- One request, with no faults. -/
def call : Machine World ObjectCall HttpResponse
  | w, .put req => srv.putObject H hash64 {} req w
  | w, .delete req => srv.deleteObject H hash64 {} req w

/-- Every chunk file of the node is listed by an object. -/
def NoLeak (w : World) : Prop :=
  ∀ c, Digest c → (w.net.stores srv.me).exists_ c = true → (w.metadata srv.me).Referenced c

/-- Every chunk of the object that an upload replaces is not on disk, or a part
of the new content, or listed by another object. -/
def FreesNothing (w : World) (req : HttpRequest) : Prop :=
  ∀ r ∈ (w.metadata srv.me).tables.parts (cstr (object_path req.path).1) (cstr (object_path req.path).2),
    (w.net.stores srv.me).exists_ r.checksum = true → r.checksum ∈ (chunk_bytes req.body srv.chunk_size).map H.hex ∨
      ((w.metadata srv.me).tables.erase (cstr (object_path req.path).1) (cstr (object_path req.path).2)).Lists r.checksum

instance (w : World) (req : HttpRequest) : Decidable (srv.FreesNothing H w req) :=
  inferInstanceAs (Decidable (∀ r ∈ (w.metadata srv.me).tables.parts _ _, _ → _))

/-- An upload that frees no chunk, or a delete. -/
def Frugal (w : World) : ObjectCall → Prop
  | .put req => srv.FreesNothing H w req
  | .delete _ => True

instance (w : World) : ∀ q, Decidable (srv.Frugal H w q)
  | .put req => inferInstanceAs (Decidable (srv.FreesNothing H w req))
  | .delete _ => inferInstanceAs (Decidable True)

/-- A node that has just started, with nothing on disk. -/
structure New (w : World) : Prop where
  fresh : Fresh H Set.univ [srv] w
  files : ∀ c, Digest c → (w.net.stores srv.me).exists_ c = false

end Calls

/-- The response of a request that was served. -/
def Served (r : HttpResponse) : Prop := r.status = 201 ∨ r.status = 204

instance (r : HttpResponse) : Decidable (Served r) := inferInstanceAs (Decidable (_ ∨ _))

theorem not_served (status : Status) : ¬ Served (status_response status) := by
  intro h
  have hge := status_response_ge status
  rcases h with h | h <;> rw [h] at hge <;> exact absurd hge (by decide)

/-- What a single node keeps. -/
structure Tidy (H : HexHash) (srv : Server) (w : World) : Prop where
  steady : Steady H Set.univ srv w
  owned : (w.metadata srv.me).tables.Owned

variable {H : HexHash} {hash64 : Str → Nat} {srv : Server} {w : World}

theorem New.tidy (h : srv.New H w) : Tidy H srv w := by
  have hmem : srv ∈ [srv] := List.mem_singleton_self srv
  refine ⟨⟨h.fresh.sound, h.fresh.started srv hmem, h.fresh.logs srv hmem, ?_, ?_⟩, ?_⟩
  · rw [h.fresh.empty srv hmem]
  · rw [h.fresh.empty srv hmem]
    exact .empty
  · rw [h.fresh.empty srv hmem]
    exact .empty

/-- The chunks that an upload lists. -/
theorem lists_metadataOf (H : HexHash) (srv : Server) (t : Tables) (bucket key : Str) (body : Bytes) (c : Str) :
    (t.upload (srv.metadataOf H bucket key body)).Lists c ↔
      (t.erase (cstr bucket) (cstr key)).Lists c ∨ c ∈ (chunk_bytes body srv.chunk_size).map H.hex := by
  rw [t.lists_upload]
  refine or_congr_right ?_
  constructor
  · rintro ⟨ref, href, rfl⟩
    obtain ⟨p, hp, rfl⟩ := List.mem_map.1 href
    rw [refOf, cstr_digest (H.digest p)]
    exact List.mem_map_of_mem hp
  · intro hc
    obtain ⟨p, hp, rfl⟩ := List.mem_map.1 hc
    exact ⟨refOf H p, List.mem_map_of_mem hp, cstr_digest (H.digest p)⟩

/-- An upload that is served leaves no unlisted file exactly when it frees none. -/
theorem Tidy.put (hs : srv.Alone) (h : Tidy H srv w) (hleak : srv.NoLeak w) (req : HttpRequest)
    (hserved : Served (srv.putObject H hash64 {} req w).1) :
    Tidy H srv (srv.putObject H hash64 {} req w).2 ∧
      (srv.NoLeak (srv.putObject H hash64 {} req w).2 ↔ srv.FreesNothing H w req) := by
  rcases putObject_steady hs.ready.toWritable h.steady req (fun p _ => Set.mem_univ p) with ⟨status, -,
    hrefused⟩ | ⟨-, -, -, file, db, hw, hidle,
    ⟨-, hrows⟩ | ⟨hge, -⟩⟩
  · rw [hrefused] at hserved
    exact absurd hserved (not_served status)
  · rw [hw]
    have hdigest : ∀ ref ∈ (srv.metadataOf H (object_path req.path).1 (object_path req.path).2 req.body).chunks,
        Digest ref.checksum := by
      intro ref href
      obtain ⟨p, -, rfl⟩ := List.mem_map.1 href
      exact H.digest p
    have howned : db.tables.Owned := hrows ▸ h.owned.upload _
    have hsteady : Steady H Set.univ srv (srv.uploaded H hash64 w req.body file db) :=
      uploaded_steady hash64 hs.ready.toWritable h.steady (fun p _ => Set.mem_univ p) file hidle
        (hrows ▸ h.steady.rows.upload hdigest)
    have hdb : (srv.uploaded H hash64 w req.body file db).metadata srv.me = db := World.setMetadata_self _ _ _
    have hfiles : ∀ c, Digest c → (((srv.uploaded H hash64 w req.body file db).net.stores srv.me).exists_ c = true ↔
        (w.net.stores srv.me).exists_ c = true ∨ c ∈ (chunk_bytes req.body srv.chunk_size).map H.hex) :=
      fun c hc => hs.putParts_files _ 0 [] h.steady.sound (fun p _ => Set.mem_univ p) hc
    have hlists := fun c => lists_metadataOf H srv (w.metadata srv.me).tables (object_path req.path).1
      (object_path req.path).2 req.body c
    refine ⟨⟨hsteady, by rw [hdb]; exact howned⟩, ?_⟩
    constructor
    · intro hnone r hr hexists
      have hd := h.steady.rows.digests r.checksum ⟨r, List.mem_of_mem_filter hr, rfl⟩
      have hlisted := hnone r.checksum hd ((hfiles _ hd).2 (.inl hexists))
      rw [hdb, MetadataStore.referenced_iff howned, hrows, hlists] at hlisted
      exact hlisted.symm
    · intro hfrees c hd hexists
      rw [hdb, MetadataStore.referenced_iff howned, hrows, hlists]
      rcases (hfiles c hd).1 hexists with hbefore | hnew
      · have hlisted := (MetadataStore.referenced_iff h.owned).1 (hleak c hd hbefore)
        rcases (Tables.lists_erase_or _).1 hlisted with hother | ⟨r, hr, rfl⟩
        · exact .inl hother
        · exact (hfrees r hr hbefore).symm
      · exact .inr hnew
  · exact absurd hserved (by rintro (h | h) <;> rw [h] at hge <;> exact absurd hge (by decide))

/-- A delete that is served leaves no unlisted file. -/
theorem Tidy.delete (hs : srv.Alone) (h : Tidy H srv w) (hleak : srv.NoLeak w) (req : HttpRequest)
    (hserved : Served (srv.deleteObject H hash64 {} req w).1) :
    Tidy H srv (srv.deleteObject H hash64 {} req w).2 ∧ srv.NoLeak (srv.deleteObject H hash64 {} req w).2 := by
  rcases deleteObject_steady hash64 hs.ready.reachable h.steady req with ⟨status, -, hrefused⟩ | ⟨m, file, db,
    hread, heq, hidle, hrows⟩
  · rw [hrefused] at hserved
    exact absurd hserved (not_served status)
  · rw [heq]
    have hdigest : ∀ ref ∈ m.chunks, Digest ref.checksum :=
      fun ref href => h.steady.rows.digests _ (MetadataStore.lists_of_get hread href)
    have howned : db.tables.Owned := hrows ▸ h.owned.erase _ _
    have hsteady : Steady H Set.univ srv (srv.deleted hash64 w m.chunks file db) :=
      deleted_steady hash64 hs.ready.reachable h.steady hdigest file hidle (hrows ▸ h.steady.rows.erase _ _)
    have hdb : (srv.deleted hash64 w m.chunks file db).metadata srv.me = db := World.setMetadata_self _ _ _
    refine ⟨⟨hsteady, by rw [hdb]; exact howned⟩, fun c hd hexists => ?_⟩
    obtain ⟨hbefore, hcount⟩ := hs.removeParts_files hash64 db m.chunks hdigest hd hexists
    have hlisted := (MetadataStore.referenced_iff h.owned).1 (hleak c hd hbefore)
    rw [hdb, MetadataStore.referenced_iff howned, hrows]
    rcases (Tables.lists_erase_or _).1 hlisted with hother | ⟨r, hr, rfl⟩
    · exact hother
    · -- the file of a chunk of the object is still there, so the count was positive
      obtain ⟨ref, href, hrc⟩ := (MetadataStore.read_chunks_iff hread).2 ⟨r, hr, rfl⟩
      have hpos := hcount ref href hrc
      rw [MetadataStore.chunk_ref_count, cstr_digest hd, hrows] at hpos
      refine Tables.lists_iff.2 (Nat.pos_of_ne_zero fun hzero => ?_)
      rw [hzero, int32_eq (by decide)] at hpos
      exact absurd hpos (by decide)

theorem Tidy.call (hs : srv.Alone) (h : Tidy H srv w) (hleak : srv.NoLeak w) (q : ObjectCall)
    (hserved : Served (srv.call H hash64 w q).1) :
    Tidy H srv (srv.call H hash64 w q).2 ∧ (srv.NoLeak (srv.call H hash64 w q).2 ↔ srv.Frugal H w q) := by
  cases q with
  | put req => exact h.put hs hleak req hserved
  | delete req =>
    obtain ⟨htidy, hnone⟩ := h.delete hs hleak req hserved
    exact ⟨htidy, fun _ => trivial, fun _ => hnone⟩

/-- From a tidy node without unlisted files. -/
theorem Tidy.calls (hs : srv.Alone) (h : Tidy H srv w) (hleak : srv.NoLeak w) (qs : List ObjectCall)
    (hserved : ∀ r ∈ (srv.call H hash64).responses w qs, Served r) :
    (∀ t, srv.NoLeak (Run.stateAfter (srv.call H hash64).next w qs t)) ↔
      Run.Legal (srv.Frugal H) (srv.call H hash64).next w qs := by
  induction qs generalizing w with
  | nil => exact ⟨fun _ => trivial, fun _ _ => hleak⟩
  | cons q qs ih =>
    obtain ⟨hfirst, hrest⟩ := List.forall_mem_cons.1 hserved
    obtain ⟨htidy, hiff⟩ := h.call hs hleak q hfirst
    constructor
    · intro hall
      have hnext : srv.NoLeak (srv.call H hash64 w q).2 := by
        have := hall 1
        cases qs <;> exact this
      exact ⟨hiff.1 hnext, (ih htidy hnext hrest).1 fun t => hall (t + 1)⟩
    · rintro ⟨hfrugal, hlegal⟩ t
      cases t with
      | zero => exact hleak
      | succ t => exact (ih htidy (hiff.2 hfrugal) hrest).2 hlegal t

/-- On a new node without peers, after each of a sequence of served requests
every chunk file is listed, exactly when no upload frees a chunk. -/
theorem no_chunk_leak_iff (H : HexHash) (hash64 : Str → Nat) (srv : Server) (hs : srv.Alone) (w : World) (hw : srv.New H w)
    (qs : List ObjectCall) (hserved : ∀ r ∈ (srv.call H hash64).responses w qs, Served r) :
    (∀ t, srv.NoLeak (Run.stateAfter (srv.call H hash64).next w qs t)) ↔
      Run.Legal (srv.Frugal H) (srv.call H hash64).next w qs := by
  refine hw.tidy.calls hs (fun c hc hexists => ?_) qs hserved
  rw [hw.files c hc] at hexists
  cases hexists

theorem aloneA_new : aloneA.New Sha256.hexHash (World.start [aloneA]) where
  fresh := fresh_start (List.nodup_singleton _)
  files _ _ := rfl

def putCall (name : ObjectName) (body : Bytes) : ObjectCall := .put (objectRequest "PUT" freshNet.token name body)

def deleteCall (name : ObjectName) : ObjectCall := .delete (objectRequest "DELETE" freshNet.token name [])

/-- The content of an object is shared, then replaced, and the object deleted. -/
def frugalCalls : List ObjectCall :=
  [putCall objectX (lit "ab"), putCall objectY (lit "ab"), putCall objectX (lit "cd"), deleteCall objectX]

theorem frugalCalls_served :
    ∀ r ∈ (aloneA.call Sha256.hexHash sixthByte).responses (World.start [aloneA]) frugalCalls, Served r := by
  rw [Sha256.hexHash_eq]
  decide +kernel

theorem frugalCalls_legal : Run.Legal (aloneA.Frugal Sha256.hexHash) (aloneA.call Sha256.hexHash sixthByte).next
    (World.start [aloneA]) frugalCalls := by
  rw [Sha256.hexHash_eq]
  decide +kernel

/-- No file is left without an object. -/
theorem frugalCalls_no_leak :
    (∀ r ∈ (aloneA.call Sha256.hexHash sixthByte).responses (World.start [aloneA]) frugalCalls, Served r) ∧
      ∀ t, aloneA.NoLeak (Run.stateAfter (aloneA.call Sha256.hexHash sixthByte).next (World.start [aloneA]) frugalCalls t) :=
  ⟨frugalCalls_served, (no_chunk_leak_iff Sha256.hexHash sixthByte aloneA aloneA_alone (World.start [aloneA]) aloneA_new
    frugalCalls frugalCalls_served).2 frugalCalls_legal⟩

/-- A chunk file that no row lists. -/
theorem leak_of_unlisted {c : Str} (hd : Digest c) (hfile : (w.net.stores srv.me).exists_ c = true)
    (hl : ¬ (w.metadata srv.me).tables.Lists c) : ¬ srv.NoLeak w := by
  intro hnone
  obtain ⟨bucket, key, m, hread, ref, href, rfl⟩ := hnone c hd hfile
  exact hl (MetadataStore.lists_of_get hread href)

/-- An object is replaced by another content. -/
def overwriteCalls : List ObjectCall := [putCall objectX (lit "ab"), putCall objectX (lit "cd")]

/-- The chunk of the old content stays on disk, and no row lists it. -/
theorem overwrite_leaks :
    aloneA.Alone ∧ aloneA.New Sha256.hexHash (World.start [aloneA]) ∧
      (∀ r ∈ (aloneA.call Sha256.hexHash sixthByte).responses (World.start [aloneA]) overwriteCalls, Served r) ∧
      ¬ aloneA.NoLeak (Run.stateAfter (aloneA.call Sha256.hexHash sixthByte).next (World.start [aloneA]) overwriteCalls 2) := by
  refine ⟨aloneA_alone, aloneA_new, ?_, leak_of_unlisted (Sha256.hexHash.digest (lit "ab")) ?_ ?_⟩
  all_goals
    rw [Sha256.hexHash_eq]
    decide +kernel

end Server

end Dstore
