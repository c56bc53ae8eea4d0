import Dstore.Server.Concurrency
/-!
# Reads that run at the same time

`Server.Concurrency` has the PUT and DELETE handlers take steps; here is the GET
handler, whose steps are its call to the metadata store and its reads of the
chunks. A reader that runs alone does what the handler does (`run_get`). Its
answer is an object with the checksum that it found in the metadata, or an
error, and the error is 404 only when there was no such object.
-/
open Dstore.Lib

namespace Dstore

namespace DistributedChunkService

variable {H : HexHash} {svc : DistributedChunkService}

/-- Read repair goes through, or it is left by an exception. -/
theorem repair_result (repairs : StorageNode → Delivery) (c : Str) (value : Bytes) (failed : List StorageNode) (net : Net) :
    (svc.repair H repairs c value failed net).1 = .ok () ∨
      (svc.repair H repairs c value failed net).1 = .error .exception := by
  induction failed generalizing net with
  | nil => exact .inl rfl
  | cons node failed ih =>
    rw [repair]
    split
    · exact ih _
    · rcases NodeClient.put_chunk H (repairs node) net node ⟨c, value.length % 2 ^ 64⟩ value with ⟨(status | -) | u, net'⟩
      · exact ih _
      · exact .inr rfl
      · exact ih _

/-- A read that fails is not reported as a chunk that is not there. -/
theorem readLoop_not_missing (reads repairs : StorageNode → Delivery) (c : Str) (targets : List StorageNode)
    (responses : Int)
    (last : Status) (failed : List StorageNode) (net : Net) {status : Status}
    (h : (svc.readLoop H reads repairs c targets responses last failed net).1 = .error (.status status)) :
    status.code ≠ .kNotFound := by
  induction targets generalizing responses last failed net with
  | nil =>
    have hfailure : (if last.code = .kNotFound then Status.Unavailable
      (lit "quorum read failed") else last).code ≠ .kNotFound := by
      split
      · exact Code.noConfusion
      · assumption
    rw [readLoop] at h
    rcases hget : (net.stores svc.me).get H c with ⟨status' | value, store⟩
    · simp only [hget] at h
      rw [← Failure.status.inj (Except.error.inj h)]
      exact hfailure
    · simp only [hget] at h
      split at h
      · cases h
      · rw [← Failure.status.inj (Except.error.inj h)]
        exact hfailure
  | cons node targets ih =>
    rw [readLoop] at h
    rcases hask : svc.ask H reads c net node with ⟨(status' | -) | value, net'⟩
    · simp only [hask] at h
      exact ih _ _ _ _ h
    · simp only [hask] at h
      cases h
    · simp only [hask] at h
      split at h
      · rcases svc.repair_result repairs c value failed net' with hok | hthrown
        · rw [hok] at h
          cases h
        · rw [hthrown] at h
          cases h
      · exact ih _ _ _ _ h

end DistributedChunkService

namespace Server

theorem status_response_missing (status : Status) : (status_response status).status = 404 ↔ status.code = .kNotFound := by
  rw [show (status_response status).status = status_code status.code from rfl]
  generalize status.code = code
  cases code <;> decide

theorem status_response_ne (status : Status) :
    (status_response status).status ≠ 200 ∧ (status_response status).status ≠ 201 ∧
      (status_response status).status ≠ 204 := by
  rw [show (status_response status).status = status_code status.code from rfl]
  generalize status.code = code
  cases code <;> decide

/-- A refused request is not answered as if the object were not there. -/
theorem authorized_not_missing {token : Str} {req : HttpRequest} {p : Permission} {status : Status}
    (h : authorized token req p = .error status) : (status_response status).status ≠ 404 := by
  rw [Ne, status_response_missing]
  rw [authorized, AuthManager.authorize] at h
  split at h
  · rw [← Except.error.inj h]
    exact Code.noConfusion
  · split at h
    · cases h
    · rw [← Except.error.inj h]
      exact Code.noConfusion

end Server

/-- A GET handler between two steps. -/
inductive Reader where
  | lookup (bucket key : Str)
  /-- The content up to here, and the chunks that are left. -/
  | chunks (m : ObjectMetadata) (out : Bytes) (rest : List ChunkRef)
  | done (response : HttpResponse)

/-- What the peers do while one chunk is read. -/
structure ReadConditions where
  reads : StorageNode → Delivery := fun _ => .fine
  repairs : StorageNode → Delivery := fun _ => .fine

/-- Nothing fails. -/
def ReadConditions.fine : ReadConditions := {}

/-- The conditions of one chunk of a request. -/
def GetConditions.at (cond : GetConditions) (i : Nat) : ReadConditions := ⟨cond.reads i, cond.repairs i⟩

namespace Reader

variable (H : HexHash) (hash64 : Str → Nat) (srv : Server)

/-- The GET handler up to its first step. -/
def get (token : Str) (req : HttpRequest) : Reader :=
  match Server.authorized token req .kRead with
  | .error status => .done (Server.status_response status)
  | .ok () =>
    let (bucket, key) := Server.object_path req.path
    .lookup bucket key

def step (cond : ReadConditions) : Reader → World → Reader × World
  | .lookup bucket key, w =>
    match (w.metadata srv.me).get_object bucket key with
    | .error status => (.done (Server.status_response status), w)
    | .ok m => (.chunks m [] m.chunks, w)
  | .chunks m out (ref :: rest), w =>
    let plan := (w.net.views srv.me).read_plan hash64 ref.checksum srv.chunks.replication_factor srv.chunks.read_quorum
    if (plan.targets.length : Int) < min srv.chunks.read_quorum srv.chunks.replication_factor
    then (.done (Server.status_response (.Unavailable (lit "insufficient healthy replicas for quorum read"))), w)
    else
      match srv.chunks.get H hash64 cond.reads cond.repairs w.net ref.checksum with
      | (.error failure, net) => (.done (Server.failure_response failure), w.setNet net)
      | (.ok data, net) => (.chunks m (out ++ data) rest, w.setNet net)
  | .chunks m out [], w =>
    if H.hex out ≠ m.checksum then (.done (Server.status_response (.Internal (lit "object checksum mismatch"))), w)
    else (.done ⟨200, lit "application/octet-stream", out⟩, w)
  | .done response, w => (.done response, w)

/-- Steps of one reader, under the conditions of each. -/
def run : List ReadConditions → Reader → World → Reader × World
  | [], t, w => (t, w)
  | cond :: rest, t, w => run rest (t.step H hash64 srv cond w).1 (t.step H hash64 srv cond w).2

variable {H hash64 srv}

theorem run_done (conds : List ReadConditions) (r : HttpResponse) (w : World) :
    run H hash64 srv conds (.done r) w = (.done r, w) := by
  induction conds with
  | nil => rfl
  | cons cond conds ih => exact ih

/-- The end of the GET handler. -/
theorem run_chunks (cond : GetConditions) (m : ObjectMetadata) (refs : List ChunkRef) (out : Bytes) (i : Nat) (w : World) :
    run H hash64 srv ((List.range' i refs.length).map cond.at ++ [.fine]) (.chunks m out refs) w =
      match srv.getParts H hash64 cond i refs out w.net with
      | (.error failure, net) => (.done (Server.failure_response failure), w.setNet net)
      | (.ok out, net) => step H hash64 srv .fine (.chunks m out []) (w.setNet net) := by
  induction refs generalizing out i w with
  | nil => rfl
  | cons ref refs ih =>
    rw [List.length_cons, List.range'_succ, List.map_cons, List.cons_append, run, step, Server.getParts]
    split
    · exact run_done _ _ _
    · rcases hget : srv.chunks.get H hash64 (cond.reads i) (cond.repairs i) w.net ref.checksum with ⟨r, net⟩
      cases r with
      | error status =>
        simp only [GetConditions.at, hget]
        exact run_done _ _ _
      | ok data =>
        simp only [GetConditions.at, hget]
        exact ih (out ++ data) (i + 1) (w.setNet net)

/-- A reader does what the handler does. -/
theorem run_get (cond : GetConditions) (req : HttpRequest) (w : World) :
    ∃ conds, run H hash64 srv conds (get w.net.token req) w =
      (.done (srv.getObject H hash64 cond req w).1, (srv.getObject H hash64 cond req w).2) := by
  rcases hauth : Server.authorized w.net.token req .kRead with status | ⟨⟩
  · exact ⟨[], by simp only [get, Server.getObject, hauth, run]⟩
  rcases hpath : Server.object_path req.path with ⟨bucket, key⟩
  rcases hread : (w.metadata srv.me).get_object bucket key with status | m
  · exact ⟨[.fine], by simp only [get, Server.getObject, hauth, hpath, hread, run, step]⟩
  refine ⟨.fine :: ((List.range' 0 m.chunks.length).map cond.at ++ [.fine]), ?_⟩
  simp only [get, Server.getObject, hauth, hpath, hread]
  rw [run, step]
  simp only [hread, run_chunks]
  rcases srv.getParts H hash64 cond 0 m.chunks [] w.net with ⟨status | out, net⟩
  · rfl
  · simp only [step]
    split <;> rfl

end Reader

end Dstore
