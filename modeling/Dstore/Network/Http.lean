import Dstore.Common.Auth
/-!
# Requests and responses

The data of `http_server.h` and the helpers of `main.cpp` that every handler
uses. Header names are in lower case, as `parse_request` leaves them.
-/

namespace Dstore

structure HttpRequest where
  method : Str
  path : Str
  headers : AList (fun _ : Str => Str) := ∅
  body : Bytes := []

structure HttpResponse where
  status : Int32 := 200
  content_type : Str := lit "application/json"
  body : Bytes := []
  deriving DecidableEq, Repr

/-- What stands for the answer of a handler that an exception ends: nothing is
sent, and the socket is not closed. No answer has status 0. -/
def HttpResponse.unsent : HttpResponse := ⟨0, [], []⟩

namespace Server

def bearer (req : HttpRequest) : Str :=
  match req.headers.lookup (lit "authorization") with
  | none => []
  | some value => if lit "Bearer " <+: value then value.drop (lit "Bearer ").length else []

def status_code : Code → Int32
  | .kInvalidArgument => 400
  | .kUnauthenticated => 401
  | .kPermissionDenied => 403
  | .kNotFound => 404
  | .kConflict => 409
  | _ => 500

def status_response (status : Status) : HttpResponse :=
  ⟨status_code status.code, lit "application/json", lit "\x7b\"error\":\"" ++ status.message ++ lit "\"\x7d\n"⟩

/-- What a handler makes of a failed call: an exception is not caught. -/
def failure_response : Failure → HttpResponse
  | .status status => status_response status
  | .exception => .unsent

/-- `auth.authorize(bearer(req), permission)`, the first line of every route
under `/v1/`. -/
def authorized (token : Str) (req : HttpRequest) (permission : Permission) : Result Unit :=
  (AuthManager.admin token).authorize (bearer req) permission

theorem bearer_of_header {req : HttpRequest} {token : Str}
    (h : req.headers.lookup (lit "authorization") = some (lit "Bearer " ++ token)) : bearer req = token := by
  unfold bearer
  rw [h]
  simp only [List.prefix_append, if_true]
  exact List.drop_left

theorem authorized_of_header {req : HttpRequest} {token : Str} (p : Permission)
    (h : req.headers.lookup (lit "authorization") = some (lit "Bearer " ++ token)) : authorized token req p = .ok () := by
  rw [authorized, bearer_of_header h, AuthManager.authorize_admin]

end Server

end Dstore
