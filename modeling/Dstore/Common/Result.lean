import Mathlib.Algebra.Order.Ring.Int
import Mathlib.Data.List.Basic
/-!
# Strings, bytes and results

`std::string` and `std::vector<std::uint8_t>` are both byte lists, so the
conversions `bytes` and `str` between them are the identity. `Result<T>` is
`Except Status T`; `Result<void>` is `Except Status Unit`. Where the code can
also throw, the outcome is `Except Failure T`.
-/

namespace Dstore

abbrev Bytes := List UInt8

abbrev Str := List UInt8

/-- The bytes of an ASCII string literal. -/
def lit (s : String) : Str := s.toList.map fun c => c.toNat.toUInt8

/-- `std::to_string` of an unsigned value. -/
def to_string (n : Nat) : Str := (Nat.toDigits 10 n).map fun c => c.toNat.toUInt8

/-- The value of a text of decimal digits. -/
def decimal (s : Str) : Nat := s.foldl (fun acc c => 10 * acc + (c.toNat - 48)) 0

theorem toNat_of_mem_toDigits {n : Nat} {d : Char} (h : d ∈ Nat.toDigits 10 n) :
    48 ≤ d.toNat ∧ d.toNat ≤ 57 ∧ d.toNat.toUInt8.toNat = d.toNat := by
  have hd := Nat.isDigit_of_mem_toDigits (by decide) (by decide) h
  simp only [Char.isDigit, Bool.and_eq_true, decide_eq_true_eq, ge_iff_le] at hd
  have h1 : 48 ≤ d.toNat := hd.1
  have h2 : d.toNat ≤ 57 := hd.2
  refine ⟨h1, h2, ?_⟩
  rw [Nat.toUInt8, UInt8.toNat_ofNat']
  omega

theorem digit_of_mem_to_string {n : Nat} {c : UInt8} (h : c ∈ to_string n) : 48 ≤ c.toNat ∧ c.toNat ≤ 57 := by
  obtain ⟨d, hd, rfl⟩ := List.mem_map.1 h
  obtain ⟨h1, h2, h3⟩ := toNat_of_mem_toDigits hd
  omega

theorem to_string_ne_nil (n : Nat) : to_string n ≠ [] := by
  intro h
  exact Nat.toDigits_ne_nil (List.map_eq_nil_iff.1 h)

theorem decimal_to_string (n : Nat) : decimal (to_string n) = n := by
  have h : ∀ (l : List Char) (acc : Nat), (∀ d ∈ l, d.toNat.toUInt8.toNat = d.toNat) →
      (l.map fun c => c.toNat.toUInt8).foldl (fun acc c => 10 * acc + (c.toNat - 48)) acc =
        Nat.ofDigitChars 10 l acc := by
    intro l
    induction l with
    | nil => intro acc _; rw [Nat.ofDigitChars_nil]; rfl
    | cons d l ih =>
      intro acc hl
      rw [Nat.ofDigitChars_cons, List.map_cons, List.foldl_cons, ih _ fun x hx => hl x (List.mem_cons_of_mem _ hx),
        hl d List.mem_cons_self]
      rfl
  rw [decimal, to_string, h _ _ fun d hd => (toNat_of_mem_toDigits hd).2.2, Nat.ofDigitChars_ten_toDigits]

inductive Code where
  | kOk | kInvalidArgument | kUnauthenticated | kPermissionDenied | kNotFound | kConflict | kUnavailable | kInternal
  deriving DecidableEq, Repr

structure Status where
  code : Code
  message : Str
  deriving DecidableEq, Repr

namespace Status

def Invalid (message : Str) : Status := ⟨.kInvalidArgument, message⟩
def Unauthenticated (message : Str) : Status := ⟨.kUnauthenticated, message⟩
def PermissionDenied (message : Str) : Status := ⟨.kPermissionDenied, message⟩
def NotFound (message : Str) : Status := ⟨.kNotFound, message⟩
def Conflict (message : Str) : Status := ⟨.kConflict, message⟩
def Unavailable (message : Str) : Status := ⟨.kUnavailable, message⟩
def Internal (message : Str) : Status := ⟨.kInternal, message⟩

end Status

abbrev Result (α : Type) := Except Status α

/-- How a call that goes to other nodes fails: with a status, or with an
exception that nobody on the way up catches. -/
inductive Failure where
  | status (status : Status)
  | exception
  deriving DecidableEq, Repr

abbrev Outcome (α : Type) := Except Failure α

def Result.lift {α : Type} : Result α → Outcome α
  | .ok a => .ok a
  | .error status => .error (.status status)

/-- `Result::ok`. -/
def Result.isOk {α : Type} : Result α → Bool
  | .ok _ => true
  | .error _ => false

/-- The call has returned, and its result is ok. -/
def Outcome.isOk {α : Type} : Outcome α → Bool
  | .ok _ => true
  | .error _ => false

theorem Result.isOk_iff {α : Type} {r : Result α} : r.isOk = true ↔ ∃ a, r = .ok a := by
  cases r <;> simp [Result.isOk]

theorem Outcome.isOk_iff {α : Type} {r : Outcome α} : r.isOk = true ↔ ∃ a, r = .ok a := by
  cases r <;> simp [Outcome.isOk]

theorem Result.lift_eq_ok {α : Type} {r : Result α} {a : α} : r.lift = .ok a ↔ r = .ok a := by
  cases r <;> simp [Result.lift]

end Dstore
