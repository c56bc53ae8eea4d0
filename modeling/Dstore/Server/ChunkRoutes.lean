import Dstore.Network.Http
import Dstore.Storage.ChunkStore
/-!
# The chunk routes

The handlers of `main.cpp` under `/v1/chunks/`, through which nodes store,
read and delete chunks on each other. They act on the node's own store.
-/

namespace Dstore.Server

variable (H : HexHash)

/-- The part of the path after the route's prefix. -/
def chunkOf (req : HttpRequest) : Str := req.path.drop (lit "/v1/chunks/").length

def putChunk (token : Str) (fault : Option DiskFault) (req : HttpRequest) (store : ChunkStore) :
    HttpResponse × ChunkStore :=
  match authorized token req .kAdmin with
  | .error status => (status_response status, store)
  | .ok () =>
    match store.put H fault req.body with
    | (.error status, store) => (status_response status, store)
    | (.ok ref, store) =>
      if ref.checksum ≠ chunkOf req then (status_response (.Invalid (lit "chunk checksum mismatch")), store)
      else (⟨201, lit "application/json", lit "\x7b\"ok\":true\x7d\n"⟩, store)

def getChunk (token : Str) (req : HttpRequest) (store : ChunkStore) : HttpResponse × ChunkStore :=
  match authorized token req .kAdmin with
  | .error status => (status_response status, store)
  | .ok () =>
    match store.get H (chunkOf req) with
    | (.error status, store) => (status_response status, store)
    | (.ok data, store) => (⟨200, lit "application/octet-stream", data⟩, store)

def deleteChunk (token : Str) (fault : Option DiskFault) (req : HttpRequest) (store : ChunkStore) :
    HttpResponse × ChunkStore :=
  match authorized token req .kAdmin with
  | .error status => (status_response status, store)
  | .ok () =>
    match store.remove_if_unreferenced fault (chunkOf req) 0 with
    | (.error status, store) => (status_response status, store)
    | (.ok (), store) => (⟨204, lit "application/json", []⟩, store)

theorem status_response_ge (status : Status) : 300 ≤ (status_response status).status := by
  show 300 ≤ status_code status.code
  cases status.code <;> decide

end Dstore.Server
