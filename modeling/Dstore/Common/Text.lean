import Mathlib.Algebra.Order.Ring.Int
import Mathlib.Data.List.TakeWhile
import Dstore.Common.Result
/-!
# Reading text

The parts of `<istream>` and `<string>` that the readers use: `operator>>`,
`std::getline`, `std::stoi`, and splitting a line at a separator. Files and
messages are byte lists.
-/

namespace Dstore

def tab : UInt8 := 9

def newline : UInt8 := 10

/-- `std::isspace` in the C locale. -/
def isspace (c : UInt8) : Bool := c = 32 || (9 ≤ c && c ≤ 13)

/-- `in >> word`: the word and what is left of the text. -/
def readWord (text : Str) : Str × Str :=
  let text := text.dropWhile isspace
  (text.takeWhile fun c => !isspace c, text.dropWhile fun c => !isspace c)

def isDigit (c : UInt8) : Bool := 48 ≤ c && c ≤ 57

/-- `std::to_string` of an `int`. -/
def to_string_int (i : Int) : Str := if i < 0 then 45 :: to_string i.natAbs else to_string i.natAbs

/-- The sign that a number may start with, and what is left. -/
def readSign : Str → Bool × Str
  | 45 :: rest => (true, rest)
  | 43 :: rest => (false, rest)
  | rest => (false, rest)

/-- `std::stoi`; it throws when the text does not start with a number or the
number is not an `int`. -/
def stoi (text : Str) : Option Int32 :=
  let (negative, rest) := readSign (text.dropWhile isspace)
  let digits := rest.takeWhile isDigit
  let value : Int := if negative then -decimal digits else decimal digits
  if digits ≠ [] ∧ -2 ^ 31 ≤ value ∧ value < 2 ^ 31 then some (Int32.ofInt value) else none

/-- The lines `std::getline` returns; `line` is the one being read. -/
def getlines : Str → Str → List Str
  | line, [] => if line = [] then [] else [line]
  | line, c :: rest => if c = newline then line :: getlines [] rest else getlines (line ++ [c]) rest

/-! ## Words and numbers -/

theorem readWord_append {w rest : Str} (hw : w ≠ []) (hs : ∀ c ∈ w, isspace c = false) {c : UInt8} (hc : isspace c = true) :
    readWord (w ++ c :: rest) = (w, c :: rest) := by
  obtain ⟨x, w', rfl⟩ := List.exists_cons_of_ne_nil hw
  have hx : isspace x = false := hs x List.mem_cons_self
  have hall : ∀ y ∈ x :: w', (fun c => !isspace c) y = true := fun y hy => by simp [hs y hy]
  unfold readWord
  simp only [List.cons_append]
  rw [List.dropWhile_cons_of_neg (by simp [hx])]
  rw [← List.cons_append, List.takeWhile_append_of_pos hall, List.dropWhile_append_of_pos hall,
    List.takeWhile_cons_of_neg (by simp [hc]), List.dropWhile_cons_of_neg (by simp [hc]), List.append_nil]

/-- White space before a word is skipped. -/
theorem readWord_space {c : UInt8} (hc : isspace c = true) (text : Str) : readWord (c :: text) = readWord text := by
  unfold readWord
  rw [List.dropWhile_cons_of_pos hc]

theorem isDigit_of_mem_to_string {n : Nat} {x : UInt8} (hx : x ∈ to_string n) :
    isDigit x = true ∧ isspace x = false ∧ x ≠ 45 ∧ x ≠ 43 := by
  obtain ⟨h1, h2⟩ := digit_of_mem_to_string hx
  have hall : ∀ i : Fin 256, 48 ≤ (UInt8.ofFin i).toNat → (UInt8.ofFin i).toNat ≤ 57 →
      isDigit (UInt8.ofFin i) = true ∧ isspace (UInt8.ofFin i) = false ∧ UInt8.ofFin i ≠ 45 ∧ UInt8.ofFin i ≠ 43 := by
    decide +kernel
  exact hall x.toFin h1 h2

theorem takeWhile_to_string (n : Nat) : (to_string n).takeWhile isDigit = to_string n :=
  List.takeWhile_eq_self_iff.2 fun _ hx => (isDigit_of_mem_to_string hx).1

theorem readSign_of_ne {x : UInt8} (h45 : x ≠ 45) (h43 : x ≠ 43) (rest : Str) :
    readSign (x :: rest) = (false, x :: rest) := by
  unfold readSign
  split
  · rename_i h
    exact absurd (List.cons.inj h).1 h45
  · rename_i h
    exact absurd (List.cons.inj h).1 h43
  · rfl

/-- A number starts with a digit: no white space is skipped and no sign read. -/
theorem readSign_to_string (n : Nat) (rest : Str) :
    (to_string n ++ rest).dropWhile isspace = to_string n ++ rest ∧
      readSign (to_string n ++ rest) = (false, to_string n ++ rest) := by
  obtain ⟨x, w, hw⟩ := List.exists_cons_of_ne_nil (to_string_ne_nil n)
  obtain ⟨-, hx, h45, h43⟩ := isDigit_of_mem_to_string (x := x) (n := n) (by rw [hw]; exact List.mem_cons_self)
  rw [hw, List.cons_append]
  exact ⟨List.dropWhile_cons_of_neg (by simp [hx]), readSign_of_ne h45 h43 _⟩

/-- The digits end where something else follows. -/
theorem takeWhile_to_string_append (n : Nat) {c : UInt8} (hc : isDigit c = false) (rest : Str) :
    (to_string n ++ c :: rest).takeWhile isDigit = to_string n := by
  rw [List.takeWhile_append_of_pos fun x hx => (isDigit_of_mem_to_string hx).1, List.takeWhile_cons_of_neg (by simp [hc]),
    List.append_nil]

theorem stoi_to_string (i : Int32) : stoi (to_string_int i.toInt) = some i := by
  have hlo := i.le_toInt
  have hhi := i.toInt_lt
  have hcast : Int32.ofInt i.toInt = i := Int32.toInt.inj (Int32.toInt_ofInt_of_le hlo hhi)
  unfold to_string_int
  split
  · rename_i hneg
    have habs : -(i.toInt.natAbs : Int) = i.toInt := by omega
    unfold stoi
    rw [List.dropWhile_cons_of_neg (by decide)]
    simp only [readSign, takeWhile_to_string, decimal_to_string, if_true, habs, hcast]
    exact if_pos ⟨to_string_ne_nil _, hlo, hhi⟩
  · rename_i hpos
    have habs : (i.toInt.natAbs : Int) = i.toInt := by omega
    obtain ⟨hdrop, hsign⟩ := readSign_to_string i.toInt.natAbs []
    rw [List.append_nil] at hdrop hsign
    unfold stoi
    rw [hdrop, hsign]
    simp only [takeWhile_to_string, decimal_to_string, Bool.false_eq_true, if_false, habs, hcast]
    exact if_pos ⟨to_string_ne_nil _, hlo, hhi⟩

/-- The characters of an `int` are not white space. -/
theorem isspace_of_mem_to_string_int {i : Int} {c : UInt8} (h : c ∈ to_string_int i) : isspace c = false := by
  unfold to_string_int at h
  split at h
  · rcases List.mem_cons.1 h with rfl | h
    · decide
    · exact (isDigit_of_mem_to_string h).2.1
  · exact (isDigit_of_mem_to_string h).2.1

/-! ## Lines -/

theorem getlines_append {line : Str} (hl : newline ∉ line) (acc rest : Str) :
    getlines acc (line ++ newline :: rest) = (acc ++ line) :: getlines [] rest := by
  induction line generalizing acc with
  | nil => simp [getlines, newline]
  | cons c line ih =>
    rw [List.mem_cons, not_or] at hl
    rw [List.cons_append, getlines, if_neg (Ne.symm hl.1), ih hl.2, List.append_assoc]
    rfl

/-- A last line without its newline is a line when it is not empty. -/
theorem getlines_unfinished {line : Str} (hl : newline ∉ line) (acc : Str) :
    getlines acc line = if acc ++ line = [] then [] else [acc ++ line] := by
  induction line generalizing acc with
  | nil => simp [getlines]
  | cons c line ih =>
    rw [List.mem_cons, not_or] at hl
    rw [getlines, if_neg (Ne.symm hl.1), ih hl.2, List.append_assoc]
    rfl

/-- Reading on after a newline reads the rest by itself. -/
theorem getlines_newline (acc text rest : Str) :
    getlines acc (text ++ newline :: rest) = getlines acc (text ++ [newline]) ++ getlines [] rest := by
  induction text generalizing acc with
  | nil => simp [getlines, newline]
  | cons c text ih =>
    rw [List.cons_append, List.cons_append, getlines, getlines]
    split
    · rw [ih, List.cons_append]
    · rw [ih]

theorem newline_not_mem {s : Str} (h : ∀ c ∈ s, isspace c = false) : newline ∉ s := by
  intro hm
  exact absurd (h newline hm) (by decide)

end Dstore
