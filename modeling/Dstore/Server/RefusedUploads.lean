import Dstore.Cluster.WriteCalls
import Dstore.Metadata.Atomicity
import Dstore.Server.ObjectSpec
/-!
# Refused uploads

What the two routes that store chunks leave on their node when they answer with
an error, the peers answering anything. Both write a chunk before they know
whether the request will be accepted, and nothing takes it away again. So a
refusal changes nothing when no part was new to the disk up to the point where
the request failed (`refused_upload_iff`). A call to a peer that throws ends the
handler, and no answer is sent.
-/

namespace Dstore

/-- What one node keeps of a `World`. -/
structure OwnWorld where
  net : OwnNet
  metadata : MetadataStore
  wal : WriteAheadLog

def World.own (w : World) (id : Str) : OwnWorld := ⟨w.net.own id, w.metadata id, w.wal id⟩

structure UploadConditions where
  wal : Option Nat := none
  parts : Nat → PeerConditions := fun _ => {}
  metadata : MetadataStore.PutFaults := {}

namespace Server

variable (H : HexHash) (hash64 : Str → Nat) (srv : Server)

/-- The loop of the PUT handler, against peers that answer anything. -/
def putPartsAnswered (cond : Nat → PeerConditions) :
    Nat → List Bytes → List ChunkRef → OwnNet → Outcome (List ChunkRef) × OwnNet
  | _, [], refs, own => (.ok refs, own)
  | i, part :: rest, refs, own =>
    match srv.chunks.putAnswered H hash64 (cond i) own part with
    | (.error failure, own) => (.error failure, own)
    | (.ok ref, own) => putPartsAnswered cond (i + 1) rest (refs ++ [ref]) own

def putObjectAnswered (token : Str) (cond : UploadConditions) (req : HttpRequest) (own : OwnWorld) :
    HttpResponse × OwnWorld :=
  match authorized token req .kWrite with
  | .error status => (status_response status, own)
  | .ok () =>
    let (bucket, key) := object_path req.path
    if bucket = [] ∨ key = [] then (status_response (.Invalid (lit "expected /v1/objects/\x7bbucket\x7d/\x7bkey\x7d")), own)
    else
      match own.wal.append H cond.wal ⟨.kPutObject, objectName bucket key, H.hex req.body⟩ with
      | (.error status, log) => (status_response status, { own with wal := log })
      | (.ok (), log) =>
        let own := { own with wal := log }
        match srv.putPartsAnswered H hash64 cond.parts 0 (chunk_bytes req.body srv.chunk_size) [] own.net with
        | (.error failure, net) => (failure_response failure, { own with net := net })
        | (.ok chunks, net) =>
          let own := { own with net := net }
          let m : ObjectMetadata := ⟨bucket, key, req.body.length % 2 ^ 64, H.hex req.body, chunks⟩
          match own.metadata.put_object cond.metadata m with
          | (.error status, db) => (status_response status, { own with metadata := db })
          | (.ok (), db) => (⟨201, lit "application/json", putAnswer m⟩, { own with metadata := db })

/-! ## In a cluster -/

section Cluster
variable {H}

theorem putPartsAnswered_congr {cond cond' : Nat → PeerConditions} (parts : List Bytes) {i : Nat}
    (h : ∀ j, i ≤ j → cond' j = cond j) (refs : List ChunkRef) (own : OwnNet) :
    srv.putPartsAnswered H hash64 cond' i parts refs own = srv.putPartsAnswered H hash64 cond i parts refs own := by
  induction parts generalizing i refs own with
  | nil => rfl
  | cons part parts ih =>
    rw [putPartsAnswered, putPartsAnswered, h i (Nat.le_refl i)]
    rcases srv.chunks.putAnswered H hash64 (cond i) own part with ⟨e | ref, own'⟩
    · rfl
    · exact ih (fun j hj => h j (by omega)) _ _

theorem putParts_eq_answered (cond : Nat → Conditions) (i : Nat) (parts : List Bytes) (refs : List ChunkRef) (net : Net) :
    ∃ answers : Nat → StorageNode → Outcome Unit,
      srv.putPartsAnswered H hash64 (fun j => ⟨(cond j).disk, (cond j).queue, answers j⟩) i parts refs (net.own srv.me) =
        ((srv.putParts H hash64 cond i parts refs net).1, (srv.putParts H hash64 cond i parts refs net).2.own srv.me) := by
  induction parts generalizing i refs net with
  | nil => exact ⟨fun _ _ => .ok (), rfl⟩
  | cons part parts ih =>
    obtain ⟨first, hfirst⟩ := srv.chunks.put_eq_answered (H := H) hash64 (cond i) net part
    rw [putParts]
    rcases hput : srv.chunks.put H hash64 (cond i) net part with ⟨e | ref, net'⟩
    · rw [hput] at hfirst
      refine ⟨fun _ => first, ?_⟩
      rw [putPartsAnswered, hfirst]
    · rw [hput] at hfirst
      obtain ⟨later, hlater⟩ := ih (i + 1) (refs ++ [ref]) net'
      refine ⟨fun j => if j = i then first else later j, ?_⟩
      rw [putPartsAnswered]
      simp only [if_true, hfirst]
      rw [← hlater]
      refine srv.putPartsAnswered_congr hash64 parts (fun j hj => ?_) _ _
      rw [if_neg (by omega)]

/-- The PUT handler in a cluster answers, and leaves its node, as it does
against the answers that the peers gave. -/
theorem putObject_eq_answered (cond : PutConditions) (req : HttpRequest) (w : World) :
    ∃ answers : Nat → StorageNode → Outcome Unit,
      srv.putObjectAnswered H hash64 w.net.token
          ⟨cond.wal, fun j => ⟨(cond.chunks j).disk, (cond.chunks j).queue, answers j⟩, cond.metadata⟩ req (w.own srv.me) =
        ((srv.putObject H hash64 cond req w).1, (srv.putObject H hash64 cond req w).2.own srv.me) := by
  obtain ⟨answers, h⟩ := srv.putParts_eq_answered hash64 (H := H) cond.chunks 0
    (chunk_bytes req.body srv.chunk_size) [] w.net
  refine ⟨answers, ?_⟩
  have hown : (w.own srv.me).net = w.net.own srv.me := rfl
  have hwal : (w.own srv.me).wal = w.wal srv.me := rfl
  have hdb : (w.own srv.me).metadata = w.metadata srv.me := rfl
  unfold putObject putObjectAnswered
  cases authorized w.net.token req .kWrite with
  | error status => rfl
  | ok u =>
    simp only
    split
    · rfl
    · simp only [hown, hwal, hdb]
      rcases (w.wal srv.me).append H cond.wal _ with ⟨status | u, log⟩
      · simp [World.own]
      · simp only [World.setWal_net, World.setNet_metadata, World.setWal_metadata]
        rw [h]
        rcases srv.putParts H hash64 cond.chunks 0 (chunk_bytes req.body srv.chunk_size) [] w.net with ⟨failure | chunks, net⟩
        · simp [World.own]
        · simp only
          rcases (w.metadata srv.me).put_object cond.metadata _ with ⟨status | u, db⟩
          · simp [World.own]
          · simp [World.own]

end Cluster

/-! ## What the parts leave -/

section Parts
variable (cond : Nat → PeerConditions) (own : OwnNet)

/-- The part is stored, unless its chunk is there or was `seen` before. -/
def Stores (i : Nat) (seen : List Str) (part : Bytes) : Prop :=
  own.store.file (H.hex part) = none → H.hex part ∉ seen → ChunkStore.stopsWrite (cond i).disk = false

/-- Every part is stored and makes its quorum. -/
def Accepted : List Str → Nat → List Bytes → Prop
  | _, _, [] => True
  | seen, i, part :: rest => Stores H cond own i seen part ∧ ¬ srv.chunks.Throws (cond i) ∧ srv.chunks.Quorum (cond i) ∧
      Accepted (H.hex part :: seen) (i + 1) rest

/-- The call to the peer throws for a part that is stored, and those before it
are accepted. -/
def Unanswered : List Str → Nat → List Bytes → Prop
  | _, _, [] => False
  | seen, i, part :: rest => Stores H cond own i seen part ∧
      (srv.chunks.Throws (cond i) ∨ srv.chunks.Quorum (cond i) ∧ Unanswered (H.hex part :: seen) (i + 1) rest)

/-- No part is written: those that are reached, each before it having made its
quorum, are on disk already, or the disk refuses one. -/
def Untouched : Nat → List Bytes → Prop
  | _, [] => True
  | i, part :: rest =>
    (own.store.file (H.hex part) = none → ChunkStore.stopsWrite (cond i).disk = true) ∧
      (own.store.file (H.hex part) ≠ none → ¬ srv.chunks.Throws (cond i) → srv.chunks.Quorum (cond i) →
        Untouched (i + 1) rest)

variable {H}

/-- What the loop returns. -/
theorem putPartsAnswered_result (parts : List Bytes) (i : Nat) (seen : List Str) (refs : List ChunkRef) (own' : OwnNet)
    (hfiles : ∀ c, Digest c → (own'.store.file c = none ↔ own.store.file c = none ∧ c ∉ seen)) :
    (srv.Accepted H cond own seen i parts →
        (srv.putPartsAnswered H hash64 cond i parts refs own').1 = .ok (refs ++ parts.map (refOf H))) ∧
      (srv.Unanswered H cond own seen i parts →
        (srv.putPartsAnswered H hash64 cond i parts refs own').1 = .error .exception) ∧
      (¬ srv.Accepted H cond own seen i parts → ¬ srv.Unanswered H cond own seen i parts →
        ∃ status, (srv.putPartsAnswered H hash64 cond i parts refs own').1 = .error (.status status)) := by
  induction parts generalizing i seen refs own' with
  | nil => exact ⟨fun _ => by simp [putPartsAnswered], fun h => h.elim, fun h => absurd trivial h⟩
  | cons part parts ih =>
    have hcases := srv.chunks.putAnswered_cases hash64 (H := H) (cond i) own' part
    rw [hfiles _ (H.digest part)] at hcases
    rw [putPartsAnswered, Accepted, Unanswered]
    rcases hcases with ⟨hnew, hstop, ⟨status, herr⟩, -⟩ | ⟨hdisk, hthrows, hok, herr, hfile⟩
    · -- the disk refuses the part
      have hno : ¬ Stores H cond own i seen part := by
        intro h
        rw [h hnew.1 hnew.2] at hstop
        cases hstop
      refine ⟨fun h => absurd h.1 hno, fun h => absurd h.1 hno, fun _ _ => ?_⟩
      rw [← Prod.eta (srv.chunks.putAnswered H hash64 (cond i) own' part), herr]
      exact ⟨status, rfl⟩
    · have hstores : Stores H cond own i seen part := fun h1 h2 => hdisk ⟨h1, h2⟩
      by_cases hthrow : srv.chunks.Throws (cond i)
      · rw [← Prod.eta (srv.chunks.putAnswered H hash64 (cond i) own' part), hthrows hthrow]
        exact ⟨fun h => absurd hthrow h.2.1, fun _ => rfl, fun _ h => absurd ⟨hstores, .inl hthrow⟩ h⟩
      · by_cases hq : srv.chunks.Quorum (cond i)
        · obtain ⟨h1, h2, h3⟩ := ih (i + 1) (H.hex part :: seen) (refs ++ [refOf H part])
            (srv.chunks.putAnswered H hash64 (cond i) own' part).2 fun c hc => by
              rw [hfile c hc, List.mem_cons, not_or, ← and_assoc, and_right_comm, ← hfiles c hc]
              split
              · rename_i h
                simp [h]
              · rename_i h
                simp [h]
          rw [← Prod.eta (srv.chunks.putAnswered H hash64 (cond i) own' part), hok hthrow hq]
          simp only
          rw [List.append_assoc, List.singleton_append, ← List.map_cons] at h1
          exact ⟨fun h => h1 h.2.2.2, fun h => h2 (h.2.resolve_left hthrow).2, fun hacc hun =>
            h3 (fun h => hacc ⟨hstores, hthrow, hq, h⟩) fun h => hun ⟨hstores, .inr ⟨hq, h⟩⟩⟩
        · obtain ⟨status, herr⟩ := herr hthrow hq
          rw [← Prod.eta (srv.chunks.putAnswered H hash64 (cond i) own' part), herr]
          exact ⟨fun h => absurd h.2.2.1 hq, fun h => absurd (h.2.resolve_left hthrow).1 hq, fun _ _ => ⟨status, rfl⟩⟩

/-- A part that is there stays. -/
theorem putPartsAnswered_keeps (parts : List Bytes) (i : Nat) (refs : List ChunkRef) {own : OwnNet} {c : Str} (hc : Digest c)
    (h : own.store.file c ≠ none) : (srv.putPartsAnswered H hash64 cond i parts refs own).2.store.file c ≠ none := by
  induction parts generalizing i refs own with
  | nil => exact h
  | cons part parts ih =>
    have hstep : (srv.chunks.putAnswered H hash64 (cond i) own part).2.store.file c ≠ none := by
      rcases srv.chunks.putAnswered_cases hash64 (H := H) (cond i) own part with ⟨-, -, -, hfile⟩ | ⟨-, -, -, -, hfile⟩
      · rwa [hfile c hc]
      · rw [hfile c hc]
        split
        · exact Option.some_ne_none _
        · exact h
    rw [putPartsAnswered]
    rcases hput : srv.chunks.putAnswered H hash64 (cond i) own part with ⟨status | ref, own'⟩
    · rw [hput] at hstep
      exact hstep
    · rw [hput] at hstep
      exact ih (i + 1) _ hstep

/-- The loop changes no chunk file just when no part is written. -/
theorem putPartsAnswered_files_iff (parts : List Bytes) (i : Nat) (refs : List ChunkRef) (own' : OwnNet)
    (hfiles : ∀ c, Digest c → own'.store.file c = own.store.file c) :
    (∀ c, Digest c → (srv.putPartsAnswered H hash64 cond i parts refs own').2.store.file c = own.store.file c) ↔
      srv.Untouched H cond own i parts := by
  induction parts generalizing i refs own' with
  | nil => exact ⟨fun _ => trivial, fun _ => hfiles⟩
  | cons part parts ih =>
    have hd := H.digest part
    have hcases := srv.chunks.putAnswered_cases hash64 (H := H) (cond i) own' part
    rw [hfiles _ hd] at hcases
    rw [putPartsAnswered, Untouched]
    rcases hcases with ⟨hnew, hstop, ⟨status, herr⟩, hfile⟩ | ⟨hdisk, hthrows, hok, herr, hfile⟩
    · rw [← Prod.eta (srv.chunks.putAnswered H hash64 (cond i) own' part), herr]
      exact ⟨fun _ => ⟨fun _ => hstop, fun h => absurd hnew h⟩, fun _ c hc => (hfile c hc).trans (hfiles c hc)⟩
    · by_cases hthere : own.store.file (H.hex part) = none
      · -- the chunk is new and is written
        have hwritten : (srv.chunks.putAnswered H hash64 (cond i) own' part).2.store.file (H.hex part) ≠ none := by
          rw [hfile _ hd, if_pos rfl]
          exact Option.some_ne_none _
        refine ⟨fun h => ?_, fun h => ?_⟩
        · refine absurd hthere ?_
          rw [← h _ hd]
          rcases hput : srv.chunks.putAnswered H hash64 (cond i) own' part with ⟨failure | ref, own''⟩
          · rw [hput] at hwritten
            exact hwritten
          · rw [hput] at hwritten
            exact srv.putPartsAnswered_keeps hash64 cond parts _ _ hd hwritten
        · have hstop := h.1 hthere
          rw [hdisk hthere] at hstop
          cases hstop
      · have hsame : ∀ c, Digest c →
            (srv.chunks.putAnswered H hash64 (cond i) own' part).2.store.file c = own.store.file c := by
          intro c hc
          rw [hfile c hc, hfiles c hc]
          split
          · rename_i h
            obtain ⟨x, hx⟩ := Option.ne_none_iff_exists'.1 hthere
            rw [h, hx]
            rfl
          · rfl
        by_cases hpass : ¬ srv.chunks.Throws (cond i) ∧ srv.chunks.Quorum (cond i)
        · rw [← Prod.eta (srv.chunks.putAnswered H hash64 (cond i) own' part), hok hpass.1 hpass.2]
          simp only
          rw [ih (i + 1) _ _ hsame]
          exact ⟨fun h => ⟨fun h' => absurd h' hthere, fun _ _ _ => h⟩, fun h => h.2 hthere hpass.1 hpass.2⟩
        · -- the handler ends with a part that was there
          have hfails : ∃ failure, (srv.chunks.putAnswered H hash64 (cond i) own' part).1 = .error failure := by
            by_cases hthrow : srv.chunks.Throws (cond i)
            · exact ⟨_, hthrows hthrow⟩
            · obtain ⟨status, h⟩ := herr hthrow fun hq => hpass ⟨hthrow, hq⟩
              exact ⟨_, h⟩
          obtain ⟨failure, herr⟩ := hfails
          rw [← Prod.eta (srv.chunks.putAnswered H hash64 (cond i) own' part), herr]
          exact ⟨fun _ => ⟨fun h' => absurd h' hthere, fun _ h1 h2 => absurd ⟨h1, h2⟩ hpass⟩, fun _ => hsame⟩

end Parts

/-! ## Refusals -/

theorem status_response_refuses (status : Status) : 400 ≤ (status_response status).status := by
  show 400 ≤ status_code status.code
  cases status.code <;> decide

/-- The chunk files and the metadata tables are the same. -/
def SameStorage (own own' : OwnWorld) : Prop :=
  (∀ c, Digest c → own'.net.store.file c = own.net.store.file c) ∧ own'.metadata.tables = own.metadata.tables

/-- What is put into the metadata store for an upload. -/
def uploadMetadata (req : HttpRequest) : ObjectMetadata :=
  ⟨(object_path req.path).1, (object_path req.path).2, req.body.length % 2 ^ 64, H.hex req.body,
    (chunk_bytes req.body srv.chunk_size).map (refOf H)⟩

/-- An upload that gets as far as its parts is accepted, part by part and by the
metadata store, or gets no answer, or writes none of its parts. -/
def UploadSafe (token : Str) (cond : UploadConditions) (req : HttpRequest) (own : OwnWorld) : Prop :=
  authorized token req .kWrite = .ok () → (object_path req.path).1 ≠ [] → (object_path req.path).2 ≠ [] →
    own.wal.good = true → cond.wal = none →
      (srv.Accepted H cond.parts own.net [] 0 (chunk_bytes req.body srv.chunk_size) ∧
          (own.metadata.put_object cond.metadata (srv.uploadMetadata H req)).1 = .ok ()) ∨
        srv.Unanswered H cond.parts own.net [] 0 (chunk_bytes req.body srv.chunk_size) ∨
        srv.Untouched H cond.parts own.net 0 (chunk_bytes req.body srv.chunk_size)

/-- A chunk comes under its own checksum, or is not written. -/
def ChunkUploadSafe (token : Str) (fault : Option DiskFault) (req : HttpRequest) (store : ChunkStore) : Prop :=
  authorized token req .kAdmin = .ok () →
    chunkOf req = H.hex req.body ∨ store.file (H.hex req.body) ≠ none ∨ ChunkStore.stopsWrite fault = true

section Refusal
variable {H} {srv} {token : Str} {req : HttpRequest}

theorem append_isOk_iff (log : WriteAheadLog) (fault : Option Nat) (record : WalRecord) :
    (log.append H fault record).1 = .ok () ↔ log.good = true ∧ fault = none := by
  unfold WriteAheadLog.append
  cases log.good <;> cases fault <;> simp

theorem refused_object_iff {cond : UploadConditions} {own : OwnWorld}
    (hatomic : ∀ m status, (own.metadata.put_object cond.metadata m).1 = .error status →
      (own.metadata.put_object cond.metadata m).2.tables = own.metadata.tables) :
    (400 ≤ (srv.putObjectAnswered H hash64 token cond req own).1.status →
        SameStorage own (srv.putObjectAnswered H hash64 token cond req own).2) ↔
      srv.UploadSafe H token cond req own := by
  have hrefused := status_response_refuses
  have hself : SameStorage own own := ⟨fun _ _ => rfl, rfl⟩
  unfold UploadSafe putObjectAnswered
  cases hauth : authorized token req .kWrite with
  | error status => exact ⟨fun _ h => (by cases h), fun _ _ => hself⟩
  | ok u =>
    simp only
    by_cases hpath : (object_path req.path).1 = [] ∨ (object_path req.path).2 = []
    · rw [if_pos hpath]
      refine ⟨fun _ _ h1 h2 => ?_, fun _ _ => hself⟩
      rcases hpath with h | h
      · exact absurd h h1
      · exact absurd h h2
    rw [if_neg hpath]
    rw [not_or] at hpath
    have hlog := append_isOk_iff (H := H) own.wal cond.wal
      ⟨.kPutObject, objectName (object_path req.path).1 (object_path req.path).2, H.hex req.body⟩
    rcases happend : own.wal.append H cond.wal
      ⟨.kPutObject, objectName (object_path req.path).1 (object_path req.path).2, H.hex req.body⟩ with ⟨status | u, log⟩
    all_goals rw [happend] at hlog
    · refine ⟨fun _ _ _ _ h1 h2 => ?_, fun _ _ => ⟨fun _ _ => rfl, rfl⟩⟩
      cases hlog.2 ⟨h1, h2⟩
    obtain ⟨hgood, hnone⟩ := hlog.1 rfl
    have hsafe : ∀ P : Prop, (True → (object_path req.path).1 ≠ [] → (object_path req.path).2 ≠ [] →
        own.wal.good = true → cond.wal = none → P) ↔ P :=
      fun P => ⟨fun h => h trivial hpath.1 hpath.2 hgood hnone, fun h _ _ _ _ _ => h⟩
    rw [hsafe]
    simp only
    obtain ⟨hok, hunsent, herr⟩ := srv.putPartsAnswered_result hash64 (H := H) cond.parts own.net
      (chunk_bytes req.body srv.chunk_size) 0 [] [] own.net fun c _ => by simp
    have hfiles := srv.putPartsAnswered_files_iff hash64 (H := H) cond.parts own.net
      (chunk_bytes req.body srv.chunk_size) 0 [] own.net fun c _ => rfl
    by_cases hun : srv.Unanswered H cond.parts own.net [] 0 (chunk_bytes req.body srv.chunk_size)
    · rw [← Prod.eta (srv.putPartsAnswered H hash64 cond.parts 0 _ [] own.net), hunsent hun]
      exact ⟨fun _ => .inr (.inl hun), fun _ h => absurd (show (400 : Int32) ≤ 0 from h) (by decide)⟩
    by_cases hacc : srv.Accepted H cond.parts own.net [] 0 (chunk_bytes req.body srv.chunk_size)
    · rw [← Prod.eta (srv.putPartsAnswered H hash64 cond.parts 0 _ [] own.net), hok hacc]
      simp only [List.nil_append]
      have hm := hatomic (srv.uploadMetadata H req)
      unfold uploadMetadata at hm ⊢
      rcases hdb : own.metadata.put_object cond.metadata ⟨(object_path req.path).1, (object_path req.path).2,
        req.body.length % 2 ^ 64, H.hex req.body, (chunk_bytes req.body srv.chunk_size).map (refOf H)⟩ with ⟨status | u, db⟩
      all_goals rw [hdb] at hm
      · -- the metadata store refuses: all parts have gone through
        have htables : db.tables = own.metadata.tables := hm status rfl
        constructor
        · exact fun h => .inr (.inr (hfiles.1 (h (hrefused status)).1))
        · rintro (⟨-, h⟩ | h | h) -
          · cases h
          · exact absurd h hun
          · exact ⟨hfiles.2 h, htables⟩
      · exact ⟨fun _ => .inl ⟨hacc, rfl⟩, fun _ h => absurd (show (400 : Int32) ≤ 201 from h) (by decide)⟩
    · obtain ⟨status, herr⟩ := herr hacc hun
      rw [← Prod.eta (srv.putPartsAnswered H hash64 cond.parts 0 _ [] own.net), herr]
      constructor
      · exact fun h => .inr (.inr (hfiles.1 (h (hrefused status)).1))
      · rintro (⟨h, -⟩ | h | h) -
        · exact absurd h hacc
        · exact absurd h hun
        · exact ⟨hfiles.2 h, rfl⟩

theorem refused_chunk_iff {fault : Option DiskFault} {store : ChunkStore} :
    (400 ≤ (putChunk H token fault req store).1.status →
        ∀ c, Digest c → (putChunk H token fault req store).2.file c = store.file c) ↔
      ChunkUploadSafe H token fault req store := by
  have hrefused := status_response_refuses
  unfold ChunkUploadSafe putChunk
  cases authorized token req .kAdmin with
  | error status => exact ⟨fun _ h => (by cases h), fun _ _ _ _ => rfl⟩
  | ok u =>
    simp only
    rcases store.put_cases H fault req.body with ⟨hok, s', heq, -, -, hfile⟩ | ⟨hno, hstop, e, s', heq, -, -, hfile⟩
    · rw [heq]
      simp only
      by_cases hsum : chunkOf req = H.hex req.body
      · rw [if_neg (not_not.2 hsum.symm)]
        exact ⟨fun _ _ => .inl hsum, fun _ h => absurd (show (400 : Int32) ≤ 201 from h) (by decide)⟩
      · rw [if_pos (Ne.symm hsum)]
        constructor
        · intro h _
          refine .inr (.inl fun hnone => ?_)
          have hsame := h (hrefused _) _ (H.digest req.body)
          rw [hfile _ (H.digest req.body), if_pos rfl, hnone] at hsame
          cases hsame
        · intro h _ c hc
          rw [hfile c hc]
          split
          · rename_i hcb
            rcases h trivial with h | h | h
            · exact absurd h hsum
            · obtain ⟨x, hx⟩ := Option.ne_none_iff_exists'.1 h
              rw [hcb, hx]
              rfl
            · cases hf : store.file (H.hex req.body) with
              | none =>
                rw [hok hf] at h
                cases h
              | some x =>
                rw [hcb, hf]
                rfl
          · rfl
    · rw [heq]
      exact ⟨fun _ _ => .inr (.inr hstop), fun _ _ => hfile⟩

/-- A refused upload leaves the chunk files and the tables as they were exactly
when nothing was written before the refusal. -/
theorem refused_upload_iff (H : HexHash) (hash64 : Str → Nat) (srv : Server) (token : Str) (cond : UploadConditions)
    (fault : Option DiskFault) (req : HttpRequest) (own : OwnWorld)
    (hatomic : ∀ m status, (own.metadata.put_object cond.metadata m).1 = .error status →
      (own.metadata.put_object cond.metadata m).2.tables = own.metadata.tables) :
    ((400 ≤ (srv.putObjectAnswered H hash64 token cond req own).1.status →
        SameStorage own (srv.putObjectAnswered H hash64 token cond req own).2) ↔
      srv.UploadSafe H token cond req own) ∧
    ((400 ≤ (putChunk H token fault req own.net.store).1.status →
        ∀ c, Digest c → (putChunk H token fault req own.net.store).2.file c = own.net.store.file c) ↔
      ChunkUploadSafe H token fault req own.net.store) :=
  ⟨refused_object_iff hash64 hatomic, refused_chunk_iff⟩

/-- A new node of a pair whose other member cannot be reached. -/
def alone : Server where
  chunk_size := 2
  chunks :=
    { self := .of (lit "a") (lit "a:1")
      replication_factor := 2
      write_quorum := 2
      read_quorum := 1
      seed_members := [.of (lit "b") (lit "b:1")] }

def newNode : OwnWorld where
  net := ⟨⟨lit "/data/chunks", fun _ => none, .empty 1⟩, .empty (Lib.Layout.newestFirst _), none, 0⟩
  metadata := {}
  wal := ⟨[], true⟩

def unreachable : PeerConditions := { answers := fun _ => .error (.status (.Unavailable (lit "connect failed"))) }

/-- Without failures the metadata store does all or nothing. -/
theorem metadata_undone {db : MetadataStore} (hs : db.saved = none) (m : ObjectMetadata) (status : Status)
    (h : (db.put_object {} m).1 = .error status) : (db.put_object {} m).2.tables = db.tables := by
  rcases @MetadataStore.put_object_faulty db {} m hs rfl with ⟨-, status', n, hput⟩ | ⟨-, n, hput⟩
  · rw [hput]
  · rw [hput] at h
    cases h

/-- An upload to a new node whose disk is full. -/
def fullDisk : HttpResponse × OwnWorld :=
  alone.putObjectAnswered Sha256.hexHash (fun _ => 0) [] { parts := fun _ => { unreachable with disk := some .cannotOpen } }
    ⟨lit "PUT", lit "/v1/objects/b/x", ∅, lit "ab"⟩ newNode

theorem full_disk_refused : fullDisk.1.status = 500 := by
  decide +kernel

/-- It is refused before anything is written. -/
theorem full_disk_harmless : 400 ≤ fullDisk.1.status ∧ SameStorage newNode fullDisk.2 := by
  have hrefused : 400 ≤ fullDisk.1.status := by
    rw [full_disk_refused]
    decide
  refine ⟨hrefused, (refused_upload_iff Sha256.hexHash (fun _ => 0) alone []
    { parts := fun _ => { unreachable with disk := some .cannotOpen } } none ⟨lit "PUT", lit "/v1/objects/b/x", ∅, lit "ab"⟩
    newNode fun m status h => metadata_undone rfl m status h).1.2 (fun _ _ _ _ _ => ?_) hrefused⟩
  exact .inr (.inr ⟨fun _ => rfl, fun h => absurd rfl h⟩)

/-- A chunk under another checksum than its own, and an upload that misses its
quorum, are both refused and both stored. -/
theorem refused_and_stored :
    ¬ (400 ≤ (putChunk Sha256.hexHash [] none ⟨lit "PUT", lit "/v1/chunks/x", ∅, lit "abc"⟩ newNode.net.store).1.status →
      ∀ c, Digest c → (putChunk Sha256.hexHash [] none ⟨lit "PUT", lit "/v1/chunks/x", ∅, lit "abc"⟩ newNode.net.store).2.file c =
        newNode.net.store.file c) ∧
    ¬ (400 ≤ (alone.putObjectAnswered Sha256.hexHash (fun _ => 0) [] { parts := fun _ => unreachable }
        ⟨lit "PUT", lit "/v1/objects/b/x", ∅, lit "ab"⟩ newNode).1.status →
      SameStorage newNode (alone.putObjectAnswered Sha256.hexHash (fun _ => 0) [] { parts := fun _ => unreachable }
        ⟨lit "PUT", lit "/v1/objects/b/x", ∅, lit "ab"⟩ newNode).2) := by
  constructor
  · rw [refused_chunk_iff]
    intro h
    rcases h (by decide +kernel) with h | h | h
    · have := congrArg List.length h
      rw [(Sha256.hexHash.digest _).1] at this
      exact absurd this (by decide +kernel)
    · exact h rfl
    · cases h
  · rw [refused_object_iff _ fun m status h => metadata_undone rfl m status h]
    intro h
    have hparts : chunk_bytes (lit "ab") alone.chunk_size = [lit "ab"] := by decide +kernel
    -- the quorum is two, and no one else acknowledges
    have hq : ¬ alone.chunks.Quorum unreachable := by decide
    rcases h (by decide +kernel) (by decide +kernel) (by decide +kernel) rfl rfl with ⟨h, -⟩ | h | h
    · rw [hparts] at h
      exact hq h.2.2.1
    · rw [hparts] at h
      rcases h.2 with h | h
      · cases h
      · exact hq h.1
    · rw [hparts] at h
      cases h.1 rfl

end Refusal

end Server

end Dstore
