import Mathlib.Algebra.Order.Ring.Int
import Mathlib.Data.List.TakeWhile
import Dstore.Common.Text
import Dstore.Storage.ChunkStore
import Dstore.Storage.ConsistentHash
/-!
# The hinted handoff queue

`HintedHandoffQueue` of `hinted_handoff.cpp`: a text file with one line for
each chunk that a replica has missed, four fields separated by tabs. `load`
reads the fields with `operator>>`, which splits at any white space, so a hint
survives the file when its texts are non-empty and free of white space
(`load_rows`).
-/

namespace Dstore

structure HandoffHint where
  target_node_id : Str
  target_address : Str
  checksum : Str
  size : Nat := 0
  deriving DecidableEq, Repr

/-- Digits read as a `std::uint64_t`: the largest value when they are too many. -/
def readDigits (text : Str) : Nat := min (decimal (text.takeWhile isDigit)) (2 ^ 64 - 1)

/-- `in >> size` for a `std::uint64_t`; a minus sign negates modulo `2^64`, and
too many digits are the largest value with either sign. -/
def readSize (text : Str) : Nat :=
  match text.dropWhile isspace with
  | 45 :: rest =>
    if decimal (rest.takeWhile isDigit) < 2 ^ 64 then (2 ^ 64 - readDigits rest) % 2 ^ 64 else 2 ^ 64 - 1
  | 43 :: rest => readDigits rest
  | rest => readDigits rest

namespace HintedHandoffQueue

/-- What the queue file can refuse: to be opened, or the text after its first
`written` bytes, while the stream is looked at or when it is destroyed. -/
inductive Fault where
  | cannotOpen
  | cannotAppend (written : Nat)
  | cannotFlush (written : Nat)
  deriving DecidableEq, Repr

def row (hint : HandoffHint) : Str :=
  hint.target_node_id ++ lit "\t" ++ hint.target_address ++ lit "\t" ++ hint.checksum ++ lit "\t" ++
    to_string hint.size ++ lit "\n"

def parseRow (line : Str) : HandoffHint :=
  let (target_node_id, rest) := readWord line
  let (target_address, rest) := readWord rest
  let (checksum, rest) := readWord rest
  ⟨target_node_id, target_address, checksum, readSize rest⟩

/-- The file, or `none` when there is none yet. -/
def enqueue (file : Option Str) (fault : Option Fault) (target : StorageNode) (chunk : ChunkRef) :
    Result Unit × Option Str :=
  let text := file.getD []
  let line := row ⟨target.id, target.address, chunk.checksum, chunk.size⟩
  match fault with
  | some .cannotOpen => (.error (.Internal (lit "failed to open hinted handoff queue")), file)
  | some (.cannotAppend n) =>
    (.error (.Internal (lit "failed to append hinted handoff queue")), some (text ++ line.take n))
  | some (.cannotFlush n) => (.ok (), some (text ++ line.take n))
  | none => (.ok (), some (text ++ line))

def load (file : Option Str) : Result (List HandoffHint) :=
  match file with
  | none => .ok []
  | some text => .ok ((getlines [] text).map parseRow |>.filter fun hint =>
      hint.target_node_id ≠ [] && hint.checksum ≠ [])

/-- Nobody looks at the stream once it is open. -/
def replace (file : Option Str) (fault : Option Fault) (hints : List HandoffHint) : Result Unit × Option Str :=
  match fault with
  | some .cannotOpen => (.error (.Internal (lit "failed to rewrite hinted handoff queue")), file)
  | some (.cannotAppend n) => (.ok (), some ((hints.flatMap row).take n))
  | some (.cannotFlush n) => (.ok (), some ((hints.flatMap row).take n))
  | none => (.ok (), some (hints.flatMap row))

/-! ## Hints survive the file -/

/-- Non-empty and free of white space. -/
def Plain (s : Str) : Prop := s ≠ [] ∧ ∀ c ∈ s, isspace c = false

instance (s : Str) : Decidable (Plain s) := inferInstanceAs (Decidable (_ ∧ _))

structure Plainly (hint : HandoffHint) : Prop where
  id : Plain hint.target_node_id
  address : Plain hint.target_address
  checksum : Plain hint.checksum
  size : hint.size < 2 ^ 64

theorem Plain.of_digest {c : Str} (h : Digest c) : Plain c := by
  refine ⟨fun h0 => by simp [Digest, h0] at h, fun x hx => ?_⟩
  have := h.2 x hx
  have hall : ∀ i : Fin 256, isHex (UInt8.ofFin i) = true → isspace (UInt8.ofFin i) = false := by decide +kernel
  exact hall x.toFin this

theorem readSize_to_string {n : Nat} (hn : n < 2 ^ 64) {c : UInt8} (hc : isspace c = true) :
    readSize (c :: to_string n) = n := by
  have hread : readDigits (to_string n) = n := by
    rw [readDigits, takeWhile_to_string, decimal_to_string]
    omega
  obtain ⟨x, w, hw⟩ := List.exists_cons_of_ne_nil (to_string_ne_nil n)
  obtain ⟨-, hx, h45, h43⟩ := isDigit_of_mem_to_string (x := x) (n := n) (by rw [hw]; exact List.mem_cons_self)
  unfold readSize
  rw [List.dropWhile_cons_of_pos hc, hw, List.dropWhile_cons_of_neg (by simp [hx])]
  split
  · rename_i h
    exact absurd (List.cons.inj h).1 h45
  · rename_i h
    exact absurd (List.cons.inj h).1 h43
  · rw [← hw, hread]

/-- A row without its newline is read back as its hint. -/
theorem parseRow_row {h : HandoffHint} (hh : Plainly h) :
    parseRow (h.target_node_id ++ lit "\t" ++ h.target_address ++ lit "\t" ++ h.checksum ++ lit "\t" ++
      to_string h.size) = h := by
  have htab : lit "\t" = [9] := rfl
  have hsp : isspace 9 = true := by decide
  unfold parseRow
  simp only [htab, List.append_assoc, List.cons_append, List.nil_append]
  rw [readWord_append hh.id.1 hh.id.2 hsp]
  simp only [readWord_space hsp]
  rw [readWord_append hh.address.1 hh.address.2 hsp]
  simp only [readWord_space hsp]
  rw [readWord_append hh.checksum.1 hh.checksum.2 hsp]
  simp only [readSize_to_string hh.size hsp]

/-- The lines of a file of rows are read back as its hints. -/
theorem parse_rows {hints : List HandoffHint} (hh : ∀ h ∈ hints, Plainly h) :
    (getlines [] (hints.flatMap row)).map parseRow = hints := by
  induction hints with
  | nil => rfl
  | cons h hints ih =>
    have hp := hh h List.mem_cons_self
    have hnl : newline ∉ h.target_node_id ++ lit "\t" ++ h.target_address ++ lit "\t" ++ h.checksum ++ lit "\t" ++
        to_string h.size := by
      simp only [List.mem_append, not_or]
      refine ⟨⟨⟨⟨⟨⟨newline_not_mem hp.id.2, by decide⟩, newline_not_mem hp.address.2⟩, by decide⟩,
        newline_not_mem hp.checksum.2⟩, by decide⟩, fun hm => ?_⟩
      exact absurd (digit_of_mem_to_string hm).1 (by decide)
    rw [List.flatMap_cons, row, List.append_assoc, show lit "\n" = [newline] from rfl, List.singleton_append,
      getlines_append hnl, List.nil_append, List.map_cons, parseRow_row hp,
      ih fun x hx => hh x (List.mem_cons_of_mem _ hx)]

theorem load_rows {hints : List HandoffHint} (hh : ∀ h ∈ hints, Plainly h) :
    load (some (hints.flatMap row)) = .ok hints := by
  unfold load
  simp only
  rw [parse_rows hh, List.filter_eq_self.2]
  intro h hmem
  simp [(hh h hmem).id.1, (hh h hmem).checksum.1]

/-- The file holds these hints, in order. -/
def Contains (file : Option Str) (hints : List HandoffHint) : Prop := file.getD [] = hints.flatMap row

theorem Contains.load {file : Option Str} {hints : List HandoffHint} (h : Contains file hints)
    (hh : ∀ x ∈ hints, Plainly x) : HintedHandoffQueue.load file = .ok hints := by
  cases file with
  | none =>
    -- a queue without a file has no hints
    cases hints with
    | nil => rfl
    | cons x xs => simp [Contains, row, lit] at h
  | some text =>
    have ht : text = hints.flatMap row := h
    rw [ht]
    exact load_rows hh

theorem Contains.enqueue {file : Option Str} {hints : List HandoffHint} (h : Contains file hints) (target : StorageNode)
    (chunk : ChunkRef) :
    Contains (enqueue file none target chunk).2 (hints ++ [⟨target.id, target.address, chunk.checksum, chunk.size⟩]) := by
  show _ ++ _ = _
  rw [h, List.flatMap_append, List.flatMap_singleton]

end HintedHandoffQueue

end Dstore
