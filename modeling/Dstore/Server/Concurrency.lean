import Dstore.Server.SingleNode
/-!
# Handlers that run at the same time

The handlers of one node run on a thread pool. A `Thread` is a PUT or DELETE
handler between two of its steps; a step is one call to the log, the chunk
service or the metadata store, and the threads take steps in any order. A
thread that runs alone does what the handler does (`run_put`, `run_delete`).

A delete reads a reference count in one step and removes the chunk in the next.
An upload of the same content in between relies on the file that is about to go
(`removed_under_upload`). `no_dangling_chunk`: in every run in which no chunk is
removed that an object lists or that an unfinished upload has stored, the chunks
of all committed objects are on disk, whatever calls to the disk, the log, the
database or the peers fail.
-/
open Dstore.Lib

namespace Dstore

/-- A handler between two steps. -/
inductive Thread where
  | putLog (bucket key : Str) (body : Bytes)
  /-- The parts up to here are stored; these are left. -/
  | putChunks (bucket key : Str) (body : Bytes) (refs : List ChunkRef) (parts : List Bytes)
  | deleteRead (bucket key : Str)
  | deleteLog (bucket key : Str) (chunks : List ChunkRef)
  | deleteRows (bucket key : Str) (chunks : List ChunkRef)
  | deleteCount (chunks : List ChunkRef)
  /-- The count has been read. -/
  | deleteRemove (checksum : Str) (references : Int) (rest : List ChunkRef)
  | done (response : HttpResponse)

/-- What the outside does to one step. -/
structure StepConditions where
  wal : Option Nat := none
  chunk : Conditions := {}
  put : MetadataStore.PutFaults := {}
  delete : MetadataStore.DeleteFaults := {}
  disk : Option DiskFault := none
  deliver : StorageNode → Delivery := fun _ => .fine

namespace Thread

variable (H : HexHash) (hash64 : Str → Nat) (srv : Server)

/-- The PUT handler up to its first step. -/
def put (token : Str) (req : HttpRequest) : Thread :=
  match Server.authorized token req .kWrite with
  | .error status => .done (Server.status_response status)
  | .ok () =>
    let (bucket, key) := Server.object_path req.path
    if bucket = [] ∨ key = []
    then .done (Server.status_response (.Invalid (lit "expected /v1/objects/\x7bbucket\x7d/\x7bkey\x7d")))
    else .putLog bucket key req.body

/-- The DELETE handler up to its first step. -/
def delete (token : Str) (req : HttpRequest) : Thread :=
  match Server.authorized token req .kDelete with
  | .error status => .done (Server.status_response status)
  | .ok () =>
    let (bucket, key) := Server.object_path req.path
    .deleteRead bucket key

def step (cond : StepConditions) : Thread → World → Thread × World
  | .putLog bucket key body, w =>
    match (w.wal srv.me).append H cond.wal ⟨.kPutObject, Server.objectName bucket key, H.hex body⟩ with
    | (.error status, log) => (.done (Server.status_response status), w.setWal srv.me log)
    | (.ok (), log) => (.putChunks bucket key body [] (chunk_bytes body srv.chunk_size), w.setWal srv.me log)
  | .putChunks bucket key body refs (part :: rest), w =>
    match srv.chunks.put H hash64 cond.chunk w.net part with
    | (.error failure, net) => (.done (Server.failure_response failure), w.setNet net)
    | (.ok ref, net) => (.putChunks bucket key body (refs ++ [ref]) rest, w.setNet net)
  | .putChunks bucket key body refs [], w =>
    let m : ObjectMetadata := ⟨bucket, key, body.length % 2 ^ 64, H.hex body, refs⟩
    match (w.metadata srv.me).put_object cond.put m with
    | (.error status, db) => (.done (Server.status_response status), w.setMetadata srv.me db)
    | (.ok (), db) => (.done ⟨201, lit "application/json", Server.putAnswer m⟩, w.setMetadata srv.me db)
  | .deleteRead bucket key, w =>
    match (w.metadata srv.me).get_object bucket key with
    | .error status => (.done (Server.status_response status), w)
    | .ok m => (.deleteLog bucket key m.chunks, w)
  | .deleteLog bucket key chunks, w =>
    match (w.wal srv.me).append H cond.wal ⟨.kDeleteObject, Server.objectName bucket key, lit "delete"⟩ with
    | (.error status, log) => (.done (Server.status_response status), w.setWal srv.me log)
    | (.ok (), log) => (.deleteRows bucket key chunks, w.setWal srv.me log)
  | .deleteRows bucket key chunks, w =>
    match (w.metadata srv.me).delete_object cond.delete bucket key with
    | (.error status, db) => (.done (Server.status_response status), w.setMetadata srv.me db)
    | (.ok (), db) => (.deleteCount chunks, w.setMetadata srv.me db)
  | .deleteCount [], w => (.done ⟨204, lit "application/json", []⟩, w)
  | .deleteCount (ref :: rest), w => (.deleteRemove ref.checksum ((w.metadata srv.me).chunk_ref_count ref.checksum) rest, w)
  | .deleteRemove checksum references rest, w =>
    match srv.chunks.remove hash64 cond.disk cond.deliver w.net checksum references with
    | (.error .exception, net) => (.done (Server.failure_response .exception), w.setNet net)
    | (_, net) => (.deleteCount rest, w.setNet net)
  | .done response, w => (.done response, w)

/-! ## A thread that runs alone -/

/-- Steps of one thread. -/
def run : Nat → Thread → World → Thread × World
  | 0, t, w => (t, w)
  | n + 1, t, w => run n (t.step H hash64 srv {} w).1 (t.step H hash64 srv {} w).2

variable {H hash64 srv}

theorem run_done (n : Nat) (r : HttpResponse) (w : World) : run H hash64 srv n (.done r) w = (.done r, w) := by
  induction n with
  | zero => rfl
  | succ n ih => exact ih

/-- The end of the PUT handler. -/
theorem run_putChunks (bucket key : Str) (body : Bytes) (parts : List Bytes) (refs : List ChunkRef) (i : Nat) (w : World) :
    run H hash64 srv (parts.length + 1) (.putChunks bucket key body refs parts) w =
      match srv.putParts H hash64 (fun _ => {}) i parts refs w.net with
      | (.error failure, net) => (.done (Server.failure_response failure), w.setNet net)
      | (.ok chunks, net) => step H hash64 srv {} (.putChunks bucket key body chunks []) (w.setNet net) := by
  induction parts generalizing refs i w with
  | nil => rfl
  | cons part parts ih =>
    rcases hput : srv.chunks.put H hash64 {} w.net part with ⟨r, net⟩
    cases r with
    | error status =>
      simp only [List.length_cons, run, step, Server.putParts, hput]
      exact run_done _ _ _
    | ok ref =>
      simp only [List.length_cons, run, step, Server.putParts, hput]
      exact ih (refs ++ [ref]) (i + 1) (w.setNet net)

/-- A PUT thread does what the handler does. -/
theorem run_put (req : HttpRequest) (w : World) : ∃ n, run H hash64 srv n (put w.net.token req) w =
    (.done (srv.putObject H hash64 {} req w).1, (srv.putObject H hash64 {} req w).2) := by
  cases hauth : Server.authorized w.net.token req .kWrite with
  | error status => exact ⟨0, by simp only [put, Server.putObject, hauth, run]⟩
  | ok u =>
    rcases hpath : Server.object_path req.path with ⟨bucket, key⟩
    by_cases hname : bucket = [] ∨ key = []
    · exact ⟨0, by simp only [put, Server.putObject, hauth, hpath, if_pos hname, run]⟩
    · refine ⟨(chunk_bytes req.body srv.chunk_size).length + 2, ?_⟩
      rcases hlog : (w.wal srv.me).append H none ⟨.kPutObject, Server.objectName bucket key, H.hex req.body⟩ with ⟨r, log⟩
      cases r with
      | error status =>
        simp only [put, Server.putObject, hauth, hpath, if_neg hname, hlog]
        rw [run, step]
        simp only [hlog]
        exact run_done _ _ _
      | ok u =>
        simp only [put, Server.putObject, hauth, hpath, if_neg hname, hlog]
        rw [run, step]
        simp only [hlog, run_putChunks bucket key req.body _ [] 0]
        rcases srv.putParts H hash64 (fun _ => {}) 0 (chunk_bytes req.body srv.chunk_size) [] (w.setWal srv.me log).net
          with ⟨r, net⟩
        cases r with
        | error status => rfl
        | ok chunks =>
          simp only [step]
          generalize (((w.setWal srv.me log).setNet net).metadata srv.me).put_object {}
            ⟨bucket, key, req.body.length % 2 ^ 64, H.hex req.body, chunks⟩ = call
          obtain ⟨r, db⟩ := call
          cases r <;> rfl

/-- The end of the DELETE handler. -/
theorem run_deleteCount (chunks : List ChunkRef) (i : Nat) (w : World) :
    run H hash64 srv (2 * chunks.length + 1) (.deleteCount chunks) w =
      match srv.removeParts hash64 {} (w.metadata srv.me) i chunks w.net with
      | (.error failure, net) => (.done (Server.failure_response failure), w.setNet net)
      | (.ok (), net) => (.done ⟨204, lit "application/json", []⟩, w.setNet net) := by
  induction chunks generalizing i w with
  | nil => rfl
  | cons ref chunks ih =>
    rw [List.length_cons, show 2 * (chunks.length + 1) + 1 = (2 * chunks.length + 1) + 1 + 1 by omega, run, run,
      Server.removeParts]
    simp only [step]
    rcases srv.chunks.remove hash64 none (fun _ => .fine) w.net ref.checksum _ with ⟨(status | -) | u, net⟩
    · exact ih (i + 1) (w.setNet net)
    · exact run_done _ _ _
    · exact ih (i + 1) (w.setNet net)

/-- A DELETE thread does what the handler does. -/
theorem run_delete (req : HttpRequest) (w : World) : ∃ n, run H hash64 srv n (delete w.net.token req) w =
    (.done (srv.deleteObject H hash64 {} req w).1, (srv.deleteObject H hash64 {} req w).2) := by
  cases hauth : Server.authorized w.net.token req .kDelete with
  | error status => exact ⟨0, by simp only [delete, Server.deleteObject, hauth, run]⟩
  | ok u =>
    rcases hpath : Server.object_path req.path with ⟨bucket, key⟩
    cases hread : (w.metadata srv.me).get_object bucket key with
    | error status =>
      refine ⟨1, ?_⟩
      simp only [delete, Server.deleteObject, hauth, hpath, hread, run, step]
    | ok m =>
      refine ⟨2 * m.chunks.length + 1 + 1 + 1 + 1, ?_⟩
      rcases hlog : (w.wal srv.me).append H none ⟨.kDeleteObject, Server.objectName bucket key, lit "delete"⟩ with ⟨r, log⟩
      rcases hrows : (w.metadata srv.me).delete_object {} bucket key with ⟨r', db⟩
      cases r with
      | error status =>
        simp only [delete, Server.deleteObject, hauth, hpath, hread, hlog]
        rw [run, run, step]
        simp only [hread, step, hlog]
        exact run_done _ _ _
      | ok u =>
        cases r' with
        | error status =>
          simp only [delete, Server.deleteObject, hauth, hpath, hread, hlog, hrows, World.setWal_metadata]
          rw [run, run, run, step]
          simp only [hread, step, hlog, hrows, World.setWal_metadata]
          exact run_done _ _ _
        | ok u' =>
          simp only [delete, Server.deleteObject, hauth, hpath, hread, hlog, hrows, World.setWal_metadata]
          rw [run, run, run, step]
          simp only [hread, step, hlog, hrows, World.setWal_metadata]
          rw [run_deleteCount m.chunks 0, World.setMetadata_self]
          rcases srv.removeParts hash64 {} db 0 m.chunks _ with ⟨failure | u, net⟩ <;> rfl

/-! ## One step among others -/

/-- The chunks that an unfinished upload has stored. -/
def stored : Thread → List Str
  | .putChunks _ _ _ refs _ => refs.map (·.checksum)
  | _ => []

/-- The checksums that a delete works on. -/
def victims : Thread → List Str
  | .deleteLog _ _ chunks | .deleteRows _ _ chunks | .deleteCount chunks => chunks.map (·.checksum)
  | .deleteRemove checksum _ rest => checksum :: rest.map (·.checksum)
  | _ => []

/-- The chunk that the next step takes from the node's own store. -/
def removal (hash64 : Str → Nat) (srv : Server) (net : Net) : Thread → Option Str
  | .deleteRemove c references _ =>
    if references ≤ 0 ∧ (srv.chunks.targets hash64 net c).any srv.chunks.is_self = true then some c else none
  | _ => none

end Thread

/-- The chunks of all objects are on disk, those of an open transaction
included. -/
def Intact (srv : Server) (w : World) : Prop :=
  ∀ c, (w.metadata srv.me).Mentions c → Digest c ∧ (w.net.stores srv.me).file c ≠ none

/-- What a thread has stored is there, and what it deletes are checksums. -/
structure Thread.Good (srv : Server) (net : Net) (t : Thread) : Prop where
  stored : ∀ c ∈ t.stored, Digest c ∧ (net.stores srv.me).file c ≠ none
  victims : ∀ c ∈ t.victims, Digest c

/-- What a step from `w` to `next` does: it loses no chunk but the one it
removes, and lists no chunk but those it had stored. -/
structure Thread.Steps (hash64 : Str → Nat) (srv : Server) (t : Thread) (w : World) (next : Thread × World) : Prop where
  keeps : ∀ c, Digest c → t.removal hash64 srv w.net ≠ some c → (w.net.stores srv.me).file c ≠ none →
    (next.2.net.stores srv.me).file c ≠ none
  lists : ∀ c, (next.2.metadata srv.me).Mentions c → (w.metadata srv.me).Mentions c ∨ c ∈ t.stored
  good : next.1.Good srv next.2.net

namespace Thread

variable {H : HexHash} {hash64 : Str → Nat} {srv : Server} {w : World} {t : Thread}

theorem good_done (net : Net) (r : HttpResponse) : Good srv net (.done r) :=
    ⟨by simp [Thread.stored], by simp [Thread.victims]⟩

/-- A step that leaves the world as it is. -/
theorem Steps.of_read {t' : Thread} (hg : t'.Good srv w.net) : Steps hash64 srv t w (t', w) :=
  ⟨fun _ _ _ h => h, fun _ h => .inl h, hg⟩

/-- A step that only writes to the log. -/
theorem Steps.of_log {log : WriteAheadLog} {t' : Thread} (hg : t'.Good srv w.net) :
    Steps hash64 srv t w (t', w.setWal srv.me log) :=
  ⟨fun _ _ _ h => h, fun _ h => .inl h, hg⟩

/-- A step on the rows. -/
theorem Steps.of_rows {db : MetadataStore} {t' : Thread}
    (hl : ∀ c, db.Mentions c → (w.metadata srv.me).Mentions c ∨ c ∈ t.stored) (hg : t'.Good srv w.net) :
    Steps hash64 srv t w (t', w.setMetadata srv.me db) where
  keeps _ _ _ h := h
  lists c h := by rw [World.setMetadata_self] at h; exact hl c h
  good := hg

/-- A step on the chunks. -/
theorem Steps.of_net {net : Net} {t' : Thread}
    (hk : ∀ c, Digest c → t.removal hash64 srv w.net ≠ some c → (w.net.stores srv.me).file c ≠ none →
      (net.stores srv.me).file c ≠ none)
    (hg : t'.Good srv net) : Steps hash64 srv t w (t', w.setNet net) :=
  ⟨hk, fun _ h => .inl h, hg⟩

variable (cond : StepConditions)

theorem step_putLog (bucket key : Str) (body : Bytes) :
    Steps hash64 srv (.putLog bucket key body) w (step H hash64 srv cond (.putLog bucket key body) w) := by
  rw [step]
  split
  · exact .of_log (good_done _ _)
  · exact .of_log ⟨by simp [Thread.stored], by simp [Thread.victims]⟩

/-- A part that is put is stored here, whatever the other replicas answer. -/
theorem step_putChunk {bucket key : Str} {body : Bytes} {refs : List ChunkRef} {part : Bytes} {rest : List Bytes}
    (ht : Good srv w.net (.putChunks bucket key body refs (part :: rest))) :
    Steps hash64 srv (.putChunks bucket key body refs (part :: rest)) w
      (step H hash64 srv cond (.putChunks bucket key body refs (part :: rest)) w) := by
  obtain ⟨hadd, -⟩ := srv.chunks.put_adds (H := H) hash64 cond.chunk part w.net
  have hfile : (srv.chunks.put H hash64 cond.chunk w.net part).1.isOk = true →
      ((srv.chunks.put H hash64 cond.chunk w.net part).2.stores srv.me).file (H.hex part) ≠ none :=
    srv.chunks.file_of_put_ok hash64
  have href : ∀ ref, (srv.chunks.put H hash64 cond.chunk w.net part).1 = .ok ref →
      ref = ⟨H.hex part, part.length % 2 ^ 64⟩ := fun _ => srv.chunks.ref_of_put_ok hash64
  rw [step]
  generalize srv.chunks.put H hash64 cond.chunk w.net part = call at hadd hfile href
  obtain ⟨r, net⟩ := call
  have hkeep : ∀ c, Digest c → (w.net.stores srv.me).file c ≠ none → (net.stores srv.me).file c ≠ none :=
    fun c hc hh => hadd.keeps hc hh
  cases r with
  | error failure => exact .of_net (fun c hc _ hh => hkeep c hc hh) (good_done _ _)
  | ok ref =>
    refine .of_net (fun c hc _ hh => hkeep c hc hh) ⟨fun c hc => ?_, by simp [Thread.victims]⟩
    rw [Thread.stored, List.map_append, List.mem_append] at hc
    rcases hc with hc | hc
    · obtain ⟨hd, hh⟩ := ht.stored c hc
      exact ⟨hd, hkeep c hd hh⟩
    · obtain rfl : c = ref.checksum := by simpa using hc
      rw [href ref rfl]
      exact ⟨H.digest part, hfile rfl⟩

/-- The commit lists what the upload has stored. -/
theorem step_putRows {bucket key : Str} {body : Bytes} {refs : List ChunkRef}
    (ht : Good srv w.net (.putChunks bucket key body refs [])) :
    Steps hash64 srv (.putChunks bucket key body refs []) w
      (step H hash64 srv cond (.putChunks bucket key body refs []) w) := by
  have hl : ∀ c, ((w.metadata srv.me).put_object cond.put ⟨bucket, key, body.length % 2 ^ 64, H.hex body, refs⟩).2.Mentions c →
      (w.metadata srv.me).Mentions c ∨ c ∈ refs.map (·.checksum) := by
    intro c hc
    refine hc.of_put_object.imp_right ?_
    rintro ⟨ref, href, rfl⟩
    have hmem : ref.checksum ∈ refs.map (·.checksum) := List.mem_map_of_mem href
    rw [cstr_digest (ht.stored _ hmem).1]
    exact hmem
  rw [step]
  split
  · rename_i heq
    rw [heq] at hl
    exact .of_rows hl (good_done _ _)
  · rename_i heq
    rw [heq] at hl
    exact .of_rows hl (good_done _ _)

theorem step_deleteRead (hw : Intact srv w) (bucket key : Str) :
    Steps hash64 srv (.deleteRead bucket key) w (step H hash64 srv cond (.deleteRead bucket key) w) := by
  rw [step]
  split
  · exact .of_read (good_done _ _)
  · rename_i m hread
    refine .of_read ⟨by simp [Thread.stored], fun c hc => ?_⟩
    obtain ⟨ref, href, rfl⟩ := List.mem_map.1 hc
    exact (hw _ (.inl (MetadataStore.lists_of_get hread href))).1

theorem step_deleteLog {bucket key : Str} {chunks : List ChunkRef} (ht : Good srv w.net (.deleteLog bucket key chunks)) :
    Steps hash64 srv (.deleteLog bucket key chunks) w (step H hash64 srv cond (.deleteLog bucket key chunks) w) := by
  rw [step]
  split
  · exact .of_log (good_done _ _)
  · exact .of_log ⟨by simp [Thread.stored], ht.victims⟩

theorem step_deleteRows {bucket key : Str} {chunks : List ChunkRef} (ht : Good srv w.net (.deleteRows bucket key chunks)) :
    Steps hash64 srv (.deleteRows bucket key chunks) w (step H hash64 srv cond (.deleteRows bucket key chunks) w) := by
  have hl : ∀ c, ((w.metadata srv.me).delete_object cond.delete bucket key).2.Mentions c →
      (w.metadata srv.me).Mentions c ∨ c ∈ stored (.deleteRows bucket key chunks) := fun c hc => .inl hc.of_delete_object
  rw [step]
  split
  · rename_i heq
    rw [heq] at hl
    exact .of_rows hl (good_done _ _)
  · rename_i heq
    rw [heq] at hl
    exact .of_rows hl ⟨by simp [Thread.stored], ht.victims⟩

theorem step_deleteCount {chunks : List ChunkRef} (ht : Good srv w.net (.deleteCount chunks)) :
    Steps hash64 srv (.deleteCount chunks) w (step H hash64 srv cond (.deleteCount chunks) w) := by
  cases chunks with
  | nil => exact .of_read (good_done _ _)
  | cons ref rest => exact .of_read ⟨by simp [Thread.stored], ht.victims⟩

theorem step_deleteRemove {c : Str} {references : Int} {rest : List ChunkRef}
    (ht : Good srv w.net (.deleteRemove c references rest)) :
    Steps hash64 srv (.deleteRemove c references rest) w (step H hash64 srv cond (.deleteRemove c references rest) w) := by
  obtain ⟨-, -, -, -, hfile⟩ := srv.chunks.remove_frame hash64 cond.disk cond.deliver (ht.victims c List.mem_cons_self)
    references w.net
  have hkeep : ∀ c', Digest c' → removal hash64 srv w.net (.deleteRemove c references rest) ≠ some c' →
      (w.net.stores srv.me).file c' ≠ none →
      ((srv.chunks.remove hash64 cond.disk cond.deliver w.net c references).2.stores srv.me).file c' ≠ none := by
    intro c' hc' hno hb
    rw [hfile srv.me c' hc']
    · exact hb
    · rintro ⟨hle, rfl, node, hnode, hid⟩
      exact hno (if_pos ⟨hle, List.any_eq_true.2 ⟨node, hnode, (srv.chunks.is_self_iff node).2 hid⟩⟩)
  have hgood : ∀ net, Good srv net (.deleteCount rest) := fun net =>
    ⟨by simp [Thread.stored], fun c' hc' => ht.victims c' (List.mem_cons_of_mem _ hc')⟩
  rw [step]
  generalize srv.chunks.remove hash64 cond.disk cond.deliver w.net c references = call at hkeep ⊢
  rcases call with ⟨(status | -) | u, net⟩
  · exact .of_net hkeep (hgood net)
  · exact .of_net hkeep (good_done _ _)
  · exact .of_net hkeep (hgood net)

theorem step_spec (hw : Intact srv w) (ht : t.Good srv w.net) : Steps hash64 srv t w (step H hash64 srv cond t w) := by
  cases t with
  | putLog bucket key body => exact step_putLog cond bucket key body
  | putChunks bucket key body refs parts =>
    cases parts with
    | nil => exact step_putRows cond ht
    | cons part rest => exact step_putChunk cond ht
  | deleteRead bucket key => exact step_deleteRead cond hw bucket key
  | deleteLog bucket key chunks => exact step_deleteLog cond ht
  | deleteRows bucket key chunks => exact step_deleteRows cond ht
  | deleteCount chunks => exact step_deleteCount cond ht
  | deleteRemove c references rest => exact step_deleteRemove cond ht
  | done r => exact .of_read ht

end Thread

/-! ## The thread pool -/

/-- A node and the handlers that run on it. -/
structure Pool where
  world : World
  threads : List Thread := []

inductive Move where
  | put (req : HttpRequest)
  | delete (req : HttpRequest)
  /-- The next step of the thread at this place. -/
  | step (i : Nat) (cond : StepConditions := {})

namespace Pool

section Defs
variable (H : HexHash) (hash64 : Str → Nat) (srv : Server)

def exec (s : Pool) : Move → Pool
  | .put req => { s with threads := s.threads ++ [.put s.world.net.token req] }
  | .delete req => { s with threads := s.threads ++ [.delete s.world.net.token req] }
  | .step i cond =>
    match s.threads[i]? with
    | none => s
    | some t =>
      let (t, world) := t.step H hash64 srv cond s.world
      ⟨world, s.threads.set i t⟩

/-- The chunk can go: no object lists it and no unfinished upload has it. -/
def Unused (s : Pool) (c : Str) : Prop := ¬ (s.world.metadata srv.me).Mentions c ∧ ∀ t ∈ s.threads, c ∉ t.stored

instance (s : Pool) (c : Str) : Decidable (s.Unused srv c) := inferInstanceAs (Decidable (_ ∧ _))

/-- A chunk that a step takes from the node's own store is unused. -/
def Legal (s : Pool) : Move → Prop
  | .put _ | .delete _ => True
  | .step i _ => ∀ t ∈ s.threads[i]?, ∀ c ∈ t.removal hash64 srv s.world.net, s.Unused srv c

instance (s : Pool) : ∀ m, Decidable (s.Legal hash64 srv m)
  | .put _ | .delete _ => inferInstanceAs (Decidable True)
  | .step i _ => inferInstanceAs (Decidable (∀ t ∈ s.threads[i]?, ∀ c ∈ t.removal hash64 srv s.world.net, s.Unused srv c))

end Defs

/-- The chunks of all objects are on disk, and so are those of the uploads. -/
structure Inv (srv : Server) (s : Pool) : Prop where
  intact : Intact srv s.world
  threads : ∀ t ∈ s.threads, t.Good srv s.world.net

variable {H : HexHash} {hash64 : Str → Nat} {srv : Server} {s : Pool}

/-- A handler starts without chunks. -/
theorem good_put (net : Net) (token : Str) (req : HttpRequest) : (Thread.put token req).Good srv net := by
  unfold Thread.put
  split
  · exact Thread.good_done _ _
  · split
    split
    · exact Thread.good_done _ _
    · exact ⟨by simp [Thread.stored], by simp [Thread.victims]⟩

theorem good_delete (net : Net) (token : Str) (req : HttpRequest) : (Thread.delete token req).Good srv net := by
  unfold Thread.delete
  split
  · exact Thread.good_done _ _
  · exact ⟨by simp [Thread.stored], by simp [Thread.victims]⟩

theorem Inv.append (h : s.Inv srv) {t : Thread} (ht : t.Good srv s.world.net) :
    Inv srv { s with threads := s.threads ++ [t] } := by
  refine ⟨h.intact, fun t' ht' => ?_⟩
  rcases List.mem_append.1 ht' with ht' | ht'
  · exact h.threads t' ht'
  · rw [List.mem_singleton.1 ht']
    exact ht

/-- A step of one thread leaves what the others rely on. -/
theorem Inv.step (h : s.Inv srv) {i : Nat} {t : Thread} (hi : s.threads[i]? = some t) {next : Thread × World}
    (hstep : t.Steps hash64 srv s.world next) (hsafe : ∀ c ∈ t.removal hash64 srv s.world.net, s.Unused srv c) :
    Inv srv ⟨next.2, s.threads.set i next.1⟩ := by
  have ht := h.threads t (List.mem_of_getElem? hi)
  have hkept : ∀ c, ¬ s.Unused srv c → Digest c → (s.world.net.stores srv.me).file c ≠ none →
      (next.2.net.stores srv.me).file c ≠ none := fun c hused hc hh => hstep.keeps c hc (fun hr => hused (hsafe c hr)) hh
  refine ⟨fun c hc => ?_, fun t' ht' => ?_⟩
  · rcases hstep.lists c hc with hl | hl
    · obtain ⟨hd, hh⟩ := h.intact c hl
      exact ⟨hd, hkept c (fun hu => hu.1 hl) hd hh⟩
    · obtain ⟨hd, hh⟩ := ht.stored c hl
      exact ⟨hd, hkept c (fun hu => hu.2 t (List.mem_of_getElem? hi) hl) hd hh⟩
  · rcases List.mem_or_eq_of_mem_set ht' with ht' | rfl
    · refine ⟨fun c hc => ?_, (h.threads t' ht').victims⟩
      obtain ⟨hd, hh⟩ := (h.threads t' ht').stored c hc
      exact ⟨hd, hkept c (fun hu => hu.2 t' ht' hc) hd hh⟩
    · exact hstep.good

theorem Inv.exec (h : s.Inv srv) {m : Move} (hm : s.Legal hash64 srv m) : (s.exec H hash64 srv m).Inv srv := by
  cases m with
  | put req => exact h.append (good_put _ _ _)
  | delete req => exact h.append (good_delete _ _ _)
  | step i cond =>
    rw [Pool.exec]
    split
    · exact h
    · rename_i t hi
      exact h.step hi (Thread.step_spec cond h.intact (h.threads t (List.mem_of_getElem? hi))) (hm t hi)

end Pool

/-- In every run of handlers in which no step takes a chunk that is in use, the
chunks of all committed objects are on disk. -/
theorem no_dangling_chunk (H : HexHash) (hash64 : Str → Nat) (srv : Server) (w : World) (hw : Intact srv w)
    (r : Run (Guarded (Pool.Legal hash64 srv) fun s m s' => s' = s.exec H hash64 srv m) ⟨w, []⟩) (t : Nat) (c : Str)
    (hc : ((r.state t).world.metadata srv.me).committed.Lists c) :
    ((r.state t).world.net.stores srv.me).exists_ c = true := by
  have hinv : (r.state t).Inv srv := by
    refine r.inv (Pool.Inv srv) ⟨hw, fun t ht => absurd ht List.not_mem_nil⟩ ?_ t
    rintro s m s' hs ⟨hm, rfl⟩
    exact hs.exec hm
  exact Option.isSome_iff_ne_none.2 (hinv.intact c (.inr hc)).2

/-! ## Node A alone -/

namespace Server

theorem aloneA_intact : Intact aloneA (World.start [aloneA]) := by
  intro c hc
  obtain ⟨r, hr, -⟩ := hc.elim id id
  cases hr

def putMove (name : ObjectName) (body : Bytes) : Move := .put (objectRequest "PUT" freshNet.token name body)

def deleteMove (name : ObjectName) : Move := .delete (objectRequest "DELETE" freshNet.token name [])

/-- Two uploads that take turns, and a delete of the first. -/
def turns : List Move :=
  [putMove objectX (lit "ab"), .step 0, putMove objectY (lit "cd"), .step 1, .step 0, .step 1, .step 0,
    deleteMove objectX, .step 2, .step 1, .step 2, .step 2, .step 2, .step 2]

theorem turns_legal : Run.Legal (Pool.Legal sixthByte aloneA) (Pool.exec Sha256.hexHash sixthByte aloneA)
    ⟨World.start [aloneA], []⟩ turns := by
  rw [Sha256.hexHash_eq]
  decide +kernel

theorem turns_lists :
    ((Run.stateAfter (Pool.exec Sha256.hexHash sixthByte aloneA) ⟨World.start [aloneA], []⟩ turns 14).world.metadata
    aloneA.me).committed.Lists (Sha256.hex (lit "cd")) := by
  rw [Sha256.hexHash_eq, Sha256.hex_eq]
  decide +kernel

/-- The chunk of the second upload is there. -/
theorem turns_not_dangling :
    Run.Legal (Pool.Legal sixthByte aloneA) (Pool.exec Sha256.hexHash sixthByte aloneA) ⟨World.start [aloneA], []⟩ turns ∧
    ((Run.stateAfter (Pool.exec Sha256.hexHash sixthByte aloneA) ⟨World.start [aloneA], []⟩ turns 14).world.net.stores
      aloneA.me).exists_ (Sha256.hex (lit "cd")) = true := by
  have hfile := no_dangling_chunk Sha256.hexHash sixthByte aloneA (World.start [aloneA]) aloneA_intact
    (Run.ofEvents _ _ turns turns_legal) 14 (Sha256.hex (lit "cd"))
  rw [Run.ofEvents_state] at hfile
  exact ⟨turns_legal, hfile turns_lists⟩

/-- A delete reads that no row lists the chunk; before it removes the file,
another upload of the same content finds the file in place and commits. -/
def lateRemoval : List Move :=
  [putMove objectX (lit "ab"), .step 0, .step 0, .step 0, deleteMove objectX, .step 1, .step 1, .step 1, .step 1,
    putMove objectY (lit "ab"), .step 2, .step 2, .step 2, .step 1]

/-- The file of a chunk that a committed object lists is gone. -/
theorem removed_under_upload :
    Intact aloneA (World.start [aloneA]) ∧
    ((lateRemoval.foldl (Pool.exec Sha256.hexHash sixthByte aloneA) ⟨World.start [aloneA], []⟩).world.metadata
      aloneA.me).committed.Lists (Sha256.hex (lit "ab")) ∧
    ((lateRemoval.foldl (Pool.exec Sha256.hexHash sixthByte aloneA) ⟨World.start [aloneA], []⟩).world.net.stores
      aloneA.me).exists_ (Sha256.hex (lit "ab")) = false :=
  ⟨aloneA_intact, by rw [Sha256.hexHash_eq, Sha256.hex_eq]; decide +kernel⟩

end Server

end Dstore
