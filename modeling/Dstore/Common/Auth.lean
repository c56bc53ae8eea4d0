import Mathlib.Algebra.Order.Ring.Int
import Mathlib.Data.List.AList
import Dstore.Common.Result
/-!
# Tokens and permissions
-/

namespace Dstore

inductive Permission where
  | kRead | kWrite | kDelete | kAdmin
  deriving DecidableEq, Repr

structure AuthManager where
  tokens : AList (fun _ : Str => List Permission) := ∅

namespace AuthManager

def add_token (auth : AuthManager) (token : Str) (permissions : List Permission) : AuthManager :=
  ⟨auth.tokens.insert token permissions⟩

def authorize (auth : AuthManager) (token : Str) (permission : Permission) : Result Unit :=
  match auth.tokens.lookup token with
  | none => .error (.Unauthenticated (lit "missing or invalid token"))
  | some perms =>
    if .kAdmin ∈ perms ∨ permission ∈ perms then .ok ()
    else .error (.PermissionDenied (lit "token lacks required permission"))

/-- The manager of a server: its admin token may do everything. -/
def admin (admin_token : Str) : AuthManager := add_token {} admin_token [.kAdmin]

theorem authorize_admin (token : Str) (p : Permission) : (admin token).authorize token p = .ok () := by
  unfold authorize admin add_token
  rw [AList.lookup_insert]
  simp

end AuthManager

end Dstore
