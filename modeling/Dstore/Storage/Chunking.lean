import Mathlib.Algebra.Order.Ring.Int
import Dstore.Common.Result
import Dstore.Lib.Loops
import Dstore.Lib.Slices
/-!
# Chunking

`chunk_bytes` of `chunk_store.cpp`, which the PUT route cuts a body up with.
`offset` and `end` are `std::size_t`, and a configured chunk size may be near
`2^64`. The offset is always a multiple of the chunk size, so a size that is
close to `2^64` is only ever added to zero, and one that is added to something
else is itself no larger than the vector: no sum wraps around
(`AtSlice.no_wrap`), every round takes the next slice, and the loop ends with
the one way to cut the vector up (`chunk_bytes_lossless`).
-/
open Dstore.Lib
open StateTransition (Reaches eval mem_eval)

namespace Dstore

/-- The loop of `chunk_bytes`; `offset` and `end` are `std::size_t`. -/
def chunkLoop (input : Bytes) (chunk_size : Nat) : Nat → Nat → List Bytes
  | 0, _ => []
  | fuel + 1, offset =>
    if offset < input.length then
      let stop := min input.length ((offset + chunk_size) % 2 ^ 64)
      (input.drop offset).take (stop - offset) :: chunkLoop input chunk_size fuel ((offset + chunk_size) % 2 ^ 64)
    else []

def chunk_bytes (input : Bytes) (chunk_size : UInt64) : List Bytes :=
  let chunk_size := if chunk_size = 0 then 4 * 1024 * 1024 else chunk_size.toNat
  let chunks := chunkLoop input chunk_size input.length 0
  if input = [] then chunks ++ [[]] else chunks

/-! ## Round by round -/

/-- The variables of the loop. -/
structure ChunkLoop where
  offset : Nat
  chunks : List Bytes

/-- The value of the variable `chunk_size` in the loop. -/
def effective_size (chunk_size : UInt64) : Nat := if chunk_size = 0 then 4 * 1024 * 1024 else chunk_size.toNat

namespace ChunkLoop

variable {input : Bytes} {n : Nat} {s s' : ChunkLoop}

/-- What a round takes from the vector; its `end` is `stop` here. -/
def slice (input : Bytes) (chunk_size : Nat) (s : ChunkLoop) : Bytes :=
  let stop := min input.length ((s.offset + chunk_size) % 2 ^ 64)
  (input.drop s.offset).take (stop - s.offset)

/-- The test, and if it holds the body and the step. -/
def round (input : Bytes) (chunk_size : Nat) (s : ChunkLoop) : Option ChunkLoop :=
  if s.offset < input.length then
    some ⟨(s.offset + chunk_size) % 2 ^ 64, s.chunks ++ [s.slice input chunk_size]⟩
  else none

theorem round_cases (input : Bytes) (n : Nat) (s : ChunkLoop) :
    (s.offset < input.length ∧ round input n s = some ⟨(s.offset + n) % 2 ^ 64, s.chunks ++ [slice input n s]⟩) ∨
      (input.length ≤ s.offset ∧ round input n s = none) := by
  by_cases hlt : s.offset < input.length
  · exact .inl ⟨hlt, if_pos hlt⟩
  · exact .inr ⟨Nat.le_of_not_lt hlt, if_neg hlt⟩

/-- The recursion gives what the rounds append. -/
theorem chunks_rounds (input : Bytes) (n fuel : Nat) (s : ChunkLoop) :
    (rounds (round input n) fuel s).chunks = s.chunks ++ chunkLoop input n fuel s.offset := by
  induction fuel generalizing s with
  | zero => simp [rounds, chunkLoop]
  | succ fuel ih =>
    rcases round_cases input n s with ⟨hlt, hround⟩ | ⟨hle, hround⟩
    · rw [rounds_succ hround, ih, chunkLoop, if_pos hlt, List.append_assoc]
      rfl
    · rw [rounds_end hround, chunkLoop, if_neg (Nat.not_lt.2 hle), List.append_nil]

theorem slice_eq (hw : s.offset + n < 2 ^ 64) : slice input n s = (input.drop s.offset).take n := by
  rw [slice, Nat.mod_eq_of_lt hw, List.take_eq_take_iff, List.length_drop]
  omega

/-- The loop has taken some number of slices, the last of which began inside the
vector, and the offset is where they end. -/
def AtSlice (input : Bytes) (n : Nat) (s : ChunkLoop) : Prop :=
  ∃ k, s = ⟨k * n, slices n k input⟩ ∧ ∀ i < k, i * n < input.length

theorem atSlice_start (input : Bytes) (n : Nat) : AtSlice input n ⟨0, []⟩ :=
  ⟨0, by rw [Nat.zero_mul]; rfl, fun i hi => absurd hi (Nat.not_lt_zero i)⟩

/-- After the first slice the size is at most the offset. -/
theorem AtSlice.no_wrap (h : AtSlice input n s) (hlen : input.length < 2 ^ 63) (hn : n < 2 ^ 64)
    (hlt : s.offset < input.length) : s.offset + n < 2 ^ 64 := by
  obtain ⟨k, rfl, -⟩ := h
  have hlt : k * n < input.length := hlt
  show k * n + n < 2 ^ 64
  rcases Nat.eq_zero_or_pos k with rfl | hk
  · omega
  · have hle : n ≤ k * n := Nat.le_mul_of_pos_left n hk
    omega

/-- A round takes the next slice. -/
theorem AtSlice.step (h : AtSlice input n s) (hlen : input.length < 2 ^ 63) (hn : n < 2 ^ 64)
    (hround : round input n s = some s') : AtSlice input n s' ∧ s.offset < input.length ∧ s'.offset = s.offset + n := by
  rcases round_cases input n s with ⟨hlt, heq⟩ | ⟨-, heq⟩
  · rw [heq] at hround
    obtain rfl := Option.some.inj hround
    have hw := h.no_wrap hlen hn hlt
    rw [slice_eq hw, Nat.mod_eq_of_lt hw]
    refine ⟨?_, hlt, rfl⟩
    obtain ⟨k, rfl, hin⟩ := h
    refine ⟨k + 1, ?_, fun i hi => ?_⟩
    · rw [slices_succ, Nat.succ_mul]
    · rcases Nat.eq_or_lt_of_le (Nat.le_of_lt_succ hi) with rfl | hi
      · exact hlt
      · exact hin i hi
  · rw [heq] at hround
    cases hround

/-- Where the loop ends the slices reach to the end of the vector. -/
theorem AtSlice.sliced (h : AtSlice input n s) (hend : round input n s = none) (hne : input ≠ []) :
    Sliced n input s.chunks := by
  rcases round_cases input n s with ⟨-, heq⟩ | ⟨hle, -⟩
  · rw [heq] at hend
    cases hend
  · obtain ⟨k, rfl, hin⟩ := h
    have hle : input.length ≤ k * n := hle
    have hpos := List.length_pos_of_ne_nil hne
    cases k with
    | zero => omega
    | succ k => exact sliced_slices (hin k (Nat.lt_succ_self k)) hle

end ChunkLoop

theorem effective_size_pos (chunk_size : UInt64) : 0 < effective_size chunk_size := by
  unfold effective_size
  split
  · decide
  · rename_i h0
    exact Nat.pos_of_ne_zero fun h => h0 (UInt64.toNat_inj.1 (by simpa using h))

theorem effective_size_lt (chunk_size : UInt64) : effective_size chunk_size < 2 ^ 64 := by
  unfold effective_size
  split
  · decide
  · exact chunk_size.toNat_lt

/-! ## The chunks -/

/-- The loop ends, with the chunks of `chunk_bytes`. -/
theorem chunkLoop_ends {input : Bytes} (hlen : input.length < 2 ^ 63) (chunk_size : UInt64) : ∃ last,
    last ∈ eval (ChunkLoop.round input (effective_size chunk_size)) ⟨0, []⟩ ∧
      ChunkLoop.AtSlice input (effective_size chunk_size) last ∧
      chunk_bytes input chunk_size = if input = [] then last.chunks ++ [[]] else last.chunks := by
  have hn := effective_size_lt chunk_size
  have hpos := effective_size_pos chunk_size
  have hrun := rounds_mem_eval (ChunkLoop.AtSlice input (effective_size chunk_size)) (fun s => input.length - s.offset)
    (fun s s' hs hround => by
      obtain ⟨hs', hlt, hoff⟩ := hs.step hlen hn hround
      exact ⟨hs', by omega⟩)
    (ChunkLoop.atSlice_start input (effective_size chunk_size)) (Nat.le_refl input.length)
  refine ⟨_, hrun.1, hrun.2, ?_⟩
  rw [ChunkLoop.chunks_rounds, List.nil_append]
  rfl

theorem chunk_bytes_sliced {input : Bytes} (hlen : input.length < 2 ^ 63) (chunk_size : UInt64) :
    Sliced (effective_size chunk_size) input (chunk_bytes input chunk_size) := by
  obtain ⟨last, hmem, hat, heq⟩ := chunkLoop_ends hlen chunk_size
  by_cases hne : input = []
  · rw [hne]
    exact sliced_nil _
  · rw [heq, if_neg hne]
    exact hat.sliced (mem_eval.1 hmem).2 hne

/-- The chunks of a vector, put together, are the vector. -/
theorem chunk_bytes_flatten {input : Bytes} (hlen : input.length < 2 ^ 63) (n : UInt64) :
    (chunk_bytes input n).flatten = input :=
  (chunk_bytes_sliced hlen n).whole

/-- The empty vector, too, is one chunk. -/
theorem chunk_bytes_ne_nil (input : Bytes) (n : UInt64) : chunk_bytes input n ≠ [] := by
  unfold chunk_bytes
  dsimp only
  split
  · simp
  · rename_i hne
    obtain ⟨k, hk⟩ : ∃ k, input.length = k + 1 := Nat.exists_eq_succ_of_ne_zero fun h => hne (List.length_eq_zero_iff.1 h)
    rw [hk, chunkLoop, if_pos (by omega)]
    exact List.cons_ne_nil _ _

/-- A vector made of parts of the chunk size is split into them. -/
theorem chunk_bytes_parts {parts : List Bytes} {n : UInt64} (hn : n ≠ 0) (hparts : ∀ p ∈ parts, p.length = n.toNat)
    (hne : parts ≠ []) (hlen : parts.flatten.length < 2 ^ 63) : chunk_bytes parts.flatten n = parts := by
  have hsize : effective_size n = n.toNat := if_neg hn
  have hpos := effective_size_pos n
  rw [hsize] at hpos
  exact (hsize ▸ chunk_bytes_sliced hlen n).unique (sliced_of_full hpos hne hparts)

/-- For every chunk size the loop ends, no round of it computes an offset that
wraps around or takes another slice than the next `effective_size` bytes, and
the vector is cut up without loss. -/
theorem chunk_bytes_lossless (input : Bytes) (hlen : input.length < 2 ^ 63) (chunk_size : UInt64) :
    (∃ last, last ∈ eval (ChunkLoop.round input (effective_size chunk_size)) ⟨0, []⟩ ∧
      chunk_bytes input chunk_size = if input = [] then last.chunks ++ [[]] else last.chunks) ∧
    (∀ s, Reaches (ChunkLoop.round input (effective_size chunk_size)) ⟨0, []⟩ s → s.offset < input.length →
      s.offset + effective_size chunk_size < 2 ^ 64 ∧
        s.slice input (effective_size chunk_size) = (input.drop s.offset).take (effective_size chunk_size)) ∧
    Sliced (effective_size chunk_size) input (chunk_bytes input chunk_size) := by
  have hn := effective_size_lt chunk_size
  refine ⟨?_, fun s hs hlt => ?_, chunk_bytes_sliced hlen chunk_size⟩
  · obtain ⟨last, hmem, -, heq⟩ := chunkLoop_ends hlen chunk_size
    exact ⟨last, hmem, heq⟩
  · have hat : ChunkLoop.AtSlice input (effective_size chunk_size) s :=
      inv_of_reaches _ (fun s s' h hround => (h.step hlen hn hround).1) hs (ChunkLoop.atSlice_start input _)
    have hw := hat.no_wrap hlen hn hlt
    exact ⟨hw, ChunkLoop.slice_eq hw⟩

/-- Five bytes, in chunks of two and of the largest size. -/
theorem hello_lossless :
    chunk_bytes (lit "hello") 2 = [lit "he", lit "ll", lit "o"] ∧
      Sliced (effective_size 2) (lit "hello") (chunk_bytes (lit "hello") 2) ∧
      Sliced (effective_size 0xffffffffffffffff) (lit "hello") (chunk_bytes (lit "hello") 0xffffffffffffffff) :=
  ⟨by decide +kernel, (chunk_bytes_lossless (lit "hello") (by decide +kernel) 2).2.2,
    (chunk_bytes_lossless (lit "hello") (by decide +kernel) 0xffffffffffffffff).2.2⟩

end Dstore
