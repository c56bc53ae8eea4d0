import Dstore.Common.Result
import Dstore.Lib.Words
/-!
# The internal wire format

`wire.cpp`: a message type, a correlation id and a payload, behind a header of
eight bytes with the two lengths, in big-endian order. `decode_frame` adds the
lengths up in 32 bits and compares the sum with the size of the input; a sum
that wraps around lets a short input pass, and the slices then lie outside of
it (`decode_frame_exact_iff`). A frame that `encode_frame` writes is read back
when its id fits in 16 bits and the whole of it in 32, and else refused
(`round_trip_iff`).
-/
open Dstore.Lib

namespace Dstore

structure WireFrame where
  type : UInt16 := 0
  correlation_id : Str := []
  payload : Bytes := []
  deriving DecidableEq, Repr

namespace Wire

def put_u16 (v : UInt16) : Bytes := [(v >>> 8).toUInt8, v.toUInt8]

def put_u32 (v : UInt32) : Bytes := [(v >>> 24).toUInt8, (v >>> 16).toUInt8, (v >>> 8).toUInt8, v.toUInt8]

def get_u16 (b : Bytes) (o : Nat) : UInt16 := (b.getD o 0).toUInt16 <<< 8 ||| (b.getD (o + 1) 0).toUInt16

def get_u32 (b : Bytes) (o : Nat) : UInt32 :=
  (b.getD o 0).toUInt32 <<< 24 ||| (b.getD (o + 1) 0).toUInt32 <<< 16 ||| (b.getD (o + 2) 0).toUInt32 <<< 8 |||
    (b.getD (o + 3) 0).toUInt32

/-- The sizes are cast to the widths of their fields. -/
def encode_frame (frame : WireFrame) : Bytes :=
  put_u16 frame.type ++ put_u16 (UInt16.ofNat frame.correlation_id.length) ++
    put_u32 (UInt32.ofNat frame.payload.length) ++ frame.correlation_id ++ frame.payload

/-- `assign(b.begin() + first, b.begin() + last)`; `none` when the range is not
one of `b`. -/
def slice (b : Bytes) (first last : Nat) : Option Bytes :=
  if first ≤ last ∧ last ≤ b.length then some ((b.drop first).take (last - first)) else none

/-- The outcome `none` is an access outside of the input. -/
def decode_frame (bytes : Bytes) : Option (Result WireFrame) :=
  if bytes.length < 8 then some (.error (.Invalid (lit "wire frame too short")))
  else
    let cid_len := get_u16 bytes 2
    let payload_len := get_u32 bytes 4
    if bytes.length ≠ (8 + cid_len.toUInt32 + payload_len).toNat then
      some (.error (.Invalid (lit "wire frame length mismatch")))
    else
      match slice bytes 8 (8 + cid_len.toNat), slice bytes (8 + cid_len.toNat) bytes.length with
      | some correlation_id, some payload => some (.ok ⟨get_u16 bytes 0, correlation_id, payload⟩)
      | _, _ => none

/-! ## Words -/

theorem put_word16 (a b : UInt8) : put_u16 (a.toUInt16 <<< 8 ||| b.toUInt16) = [a, b] := by
  have ha := a.toNat_lt
  have hb := b.toNat_lt
  unfold put_u16
  congr 1
  · apply UInt8.toNat.inj
    simp only [UInt16.toNat_toUInt8, UInt16.toNat_shiftRight, toNat_word16]
    rw [show (8 : UInt16).toNat % 16 = 8 from rfl, Nat.shiftRight_eq_div_pow]
    omega
  · congr 1
    apply UInt8.toNat.inj
    simp only [UInt16.toNat_toUInt8, toNat_word16]
    omega

theorem put_word32 (a b c d : UInt8) :
    put_u32 (a.toUInt32 <<< 24 ||| b.toUInt32 <<< 16 ||| c.toUInt32 <<< 8 ||| d.toUInt32) = [a, b, c, d] := by
  have ha := a.toNat_lt
  have hb := b.toNat_lt
  have hc := c.toNat_lt
  have hd := d.toNat_lt
  generalize hv : a.toUInt32 <<< 24 ||| b.toUInt32 <<< 16 ||| c.toUInt32 <<< 8 ||| d.toUInt32 = v
  have hn := toNat_word32 a b c d
  rw [hv] at hn
  have byte : ∀ (k : UInt32) (x : UInt8), v.toNat / 2 ^ (k.toNat % 32) % 256 = x.toNat → (v >>> k).toUInt8 = x := by
    intro k x hx
    apply UInt8.toNat.inj
    rw [UInt32.toNat_toUInt8, UInt32.toNat_shiftRight, Nat.shiftRight_eq_div_pow]
    exact hx
  unfold put_u32
  rw [byte 24 a (by rw [hn, show (24 : UInt32).toNat % 32 = 24 from rfl]; omega),
    byte 16 b (by rw [hn, show (16 : UInt32).toNat % 32 = 16 from rfl]; omega),
    byte 8 c (by rw [hn, show (8 : UInt32).toNat % 32 = 8 from rfl]; omega)]
  have hlast : v.toUInt8 = d := by
    apply UInt8.toNat.inj
    rw [UInt32.toNat_toUInt8, hn]
    omega
  rw [hlast]

/-! ## Frames -/

/-- What the header says the length is. -/
def frame_length (bytes : Bytes) : Nat := 8 + (get_u16 bytes 2).toNat + (get_u32 bytes 4).toNat

theorem wrapped_length (bytes : Bytes) :
    (8 + (get_u16 bytes 2).toUInt32 + get_u32 bytes 4).toNat = frame_length bytes % 2 ^ 32 := by
  have h16 := (get_u16 bytes 2).toNat_lt
  unfold frame_length
  simp only [UInt32.toNat_add, UInt16.toNat_toUInt32]
  rw [show (8 : UInt32).toNat = 8 from rfl]
  omega

/-- A header and what follows it. -/
theorem exists_header {bytes : Bytes} (h : 8 ≤ bytes.length) :
    ∃ a b c d e f g i rest, bytes = a :: b :: c :: d :: e :: f :: g :: i :: rest := by
  match bytes, h with
  | a :: b :: c :: d :: e :: f :: g :: i :: rest, _ => exact ⟨a, b, c, d, e, f, g, i, rest, rfl⟩

/-- A frame of the length its header gives is read, and written back as it was. -/
theorem decode_frame_of_length {bytes : Bytes} (h8 : 8 ≤ bytes.length) (h : bytes.length = frame_length bytes)
    (hlt : frame_length bytes < 2 ^ 32) :
    ∃ frame, decode_frame bytes = some (.ok frame) ∧ encode_frame frame = bytes := by
  obtain ⟨a, b, c, d, e, f, g, i, rest, rfl⟩ := exists_header h8
  generalize hbytes : a :: b :: c :: d :: e :: f :: g :: i :: rest = bytes at *
  have h0 : get_u16 bytes 0 = a.toUInt16 <<< 8 ||| b.toUInt16 := by rw [← hbytes]; rfl
  have h2 : get_u16 bytes 2 = c.toUInt16 <<< 8 ||| d.toUInt16 := by rw [← hbytes]; rfl
  have h4 : get_u32 bytes 4 = e.toUInt32 <<< 24 ||| f.toUInt32 <<< 16 ||| g.toUInt32 <<< 8 ||| i.toUInt32 := by
    rw [← hbytes]; rfl
  have hrest : bytes.drop 8 = rest := by rw [← hbytes]; rfl
  have hlen : bytes.length = 8 + rest.length := by
    rw [← hbytes]
    simp
    omega
  generalize hcid : (get_u16 bytes 2).toNat = cid at *
  have hsplit : cid + (get_u32 bytes 4).toNat = rest.length := by
    unfold frame_length at h
    omega
  refine ⟨⟨get_u16 bytes 0, rest.take cid, rest.drop cid⟩, ?_, ?_⟩
  · have hslice1 : slice bytes 8 (8 + cid) = some (rest.take cid) := by
      unfold slice
      rw [if_pos ⟨by omega, by omega⟩, hrest, show 8 + cid - 8 = cid by omega]
    have hslice2 : slice bytes (8 + cid) bytes.length = some (rest.drop cid) := by
      unfold slice
      rw [if_pos ⟨by omega, by omega⟩, ← List.drop_drop, hrest, List.take_of_length_le]
      rw [List.length_drop]
      omega
    unfold decode_frame
    rw [if_neg (by omega)]
    simp only [wrapped_length, hcid]
    rw [if_neg (by omega), hslice1, hslice2]
  · have hcidlen : (rest.take cid).length = (get_u16 bytes 2).toNat := by
      rw [List.length_take, hcid]
      omega
    have hpaylen : (rest.drop cid).length = (get_u32 bytes 4).toNat := by
      rw [List.length_drop]
      omega
    unfold encode_frame
    rw [hcidlen, hpaylen, UInt16.ofNat_toNat, UInt32.ofNat_toNat, h0, h2, h4, put_word16, put_word16, put_word32]
    simp only [List.append_assoc, List.take_append_drop]
    exact hbytes

/-- A wrapped sum passes the check, and the slices are not in the input. -/
theorem decode_frame_outside {bytes : Bytes} (h8 : 8 ≤ bytes.length) (h : bytes.length = frame_length bytes % 2 ^ 32)
    (hge : 2 ^ 32 ≤ frame_length bytes) : decode_frame bytes = none := by
  have h32 := (get_u32 bytes 4).toNat_lt
  have h16 := (get_u16 bytes 2).toNat_lt
  have hslice : slice bytes 8 (8 + (get_u16 bytes 2).toNat) = none := by
    unfold slice
    unfold frame_length at h hge
    exact if_neg (by omega)
  unfold decode_frame
  rw [if_neg (by omega)]
  simp only [wrapped_length]
  rw [if_neg (by omega), hslice]

/-! ### Encodings -/

theorem length_encode_frame (frame : WireFrame) :
    (encode_frame frame).length = 8 + frame.correlation_id.length + frame.payload.length := by
  simp [encode_frame, put_u16, put_u32]
  omega

theorem drop_encode_frame (frame : WireFrame) : (encode_frame frame).drop 8 = frame.correlation_id ++ frame.payload := by
  simp [encode_frame, put_u16, put_u32]

/-- The header has the lengths modulo the widths of their fields. -/
theorem encode_frame_header (frame : WireFrame) :
    get_u16 (encode_frame frame) 0 = frame.type ∧
      (get_u16 (encode_frame frame) 2).toNat = frame.correlation_id.length % 2 ^ 16 ∧
      (get_u32 (encode_frame frame) 4).toNat = frame.payload.length % 2 ^ 32 := by
  have h2 : get_u16 (encode_frame frame) 2 = UInt16.ofNat frame.correlation_id.length := word16_bytes _
  have h4 : get_u32 (encode_frame frame) 4 = UInt32.ofNat frame.payload.length := word32_bytes _
  refine ⟨word16_bytes frame.type, ?_, ?_⟩
  · rw [h2, UInt16.toNat_ofNat']
  · rw [h4, UInt32.toNat_ofNat']

/-- The lengths of a frame fit their fields, and the sum of all does. -/
def FitsHeader (frame : WireFrame) : Prop :=
  frame.correlation_id.length < 2 ^ 16 ∧ 8 + frame.correlation_id.length + frame.payload.length < 2 ^ 32

/-- Every frame whose lengths fit their fields is accepted. -/
theorem decode_encode_frame {frame : WireFrame} (h : FitsHeader frame) :
    decode_frame (encode_frame frame) = some (.ok frame) := by
  obtain ⟨hcid, hlen⟩ := h
  obtain ⟨h0, h2, h4⟩ := encode_frame_header frame
  have hlength := length_encode_frame frame
  have hrest := drop_encode_frame frame
  rw [Nat.mod_eq_of_lt hcid] at h2
  rw [Nat.mod_eq_of_lt (by omega)] at h4
  generalize encode_frame frame = bytes at h0 h2 h4 hlength hrest
  have hslice1 : slice bytes 8 (8 + frame.correlation_id.length) = some frame.correlation_id := by
    unfold slice
    rw [if_pos ⟨by omega, by omega⟩, hrest, Nat.add_sub_cancel_left, List.take_left]
  have hslice2 : slice bytes (8 + frame.correlation_id.length) bytes.length = some frame.payload := by
    unfold slice
    rw [if_pos ⟨by omega, by omega⟩, ← List.drop_drop, hrest, List.drop_left, List.take_of_length_le (by omega)]
  unfold decode_frame
  rw [if_neg (by omega)]
  simp only [wrapped_length, frame_length, h2, h4]
  rw [if_neg (by omega), hslice1, hslice2, h0]

/-- Any other is refused: what is cut off of the lengths is more than the sum
can lose again. -/
theorem decode_frame_refuses {frame : WireFrame} (h : ¬ FitsHeader frame) :
    decode_frame (encode_frame frame) = some (.error (.Invalid (lit "wire frame length mismatch"))) := by
  obtain ⟨-, h2, h4⟩ := encode_frame_header frame
  have hlength := length_encode_frame frame
  have hdiffer : (encode_frame frame).length ≠ frame_length (encode_frame frame) % 2 ^ 32 := by
    rw [hlength, frame_length, h2, h4]
    unfold FitsHeader at h
    omega
  unfold decode_frame
  rw [if_neg (by omega)]
  simp only [wrapped_length]
  exact if_pos hdiffer

/-- Encoding and decoding give a frame back exactly when its lengths fit, and
never give another one. -/
theorem round_trip_iff (frame : WireFrame) :
    (decode_frame (encode_frame frame) = some (.ok frame) ↔
      frame.correlation_id.length < 2 ^ 16 ∧ 8 + frame.correlation_id.length + frame.payload.length < 2 ^ 32) ∧
    (¬ (frame.correlation_id.length < 2 ^ 16 ∧ 8 + frame.correlation_id.length + frame.payload.length < 2 ^ 32) →
      ∃ status, decode_frame (encode_frame frame) = some (.error status)) := by
  refine ⟨⟨fun h => ?_, fun h => decode_encode_frame h⟩, fun h => ⟨_, decode_frame_refuses h⟩⟩
  by_contra hnot
  rw [decode_frame_refuses hnot] at h
  cases h

/-! ### Inputs -/

/-- What is not refused has the length of its header, lies inside the input and
is written back as it was. -/
def Exact (bytes : Bytes) : Prop :=
  (∀ e, decode_frame bytes ≠ some (.error e)) →
    bytes.length = frame_length bytes ∧ ∃ frame, decode_frame bytes = some (.ok frame) ∧ encode_frame frame = bytes

theorem decode_frame_exact_iff (bytes : Bytes) :
    Exact bytes ↔ bytes.length < 8 ∨ frame_length bytes < 2 ^ 32 ∨ bytes.length ≠ frame_length bytes % 2 ^ 32 := by
  constructor
  · intro h
    by_contra hnot
    simp only [not_or, not_lt, ne_eq, not_not] at hnot
    obtain ⟨h8, hge, hlen⟩ := hnot
    have hnone := decode_frame_outside h8 hlen hge
    obtain ⟨-, frame, hok, -⟩ := h (by simp [hnone])
    rw [hnone] at hok
    cases hok
  · intro h haccept
    by_cases h8 : bytes.length < 8
    · exact absurd (if_pos h8) (haccept _)
    by_cases hlen : bytes.length = frame_length bytes % 2 ^ 32
    · have hlt : frame_length bytes < 2 ^ 32 := by
        rcases h with h | h | h
        · exact absurd h h8
        · exact h
        · exact absurd hlen h
      rw [Nat.mod_eq_of_lt hlt] at hlen
      exact ⟨hlen, decode_frame_of_length (by omega) hlen hlt⟩
    · refine absurd ?_ (haccept (.Invalid (lit "wire frame length mismatch")))
      unfold decode_frame
      rw [if_neg h8]
      simp only [wrapped_length]
      exact if_pos hlen

/-- A header alone, whose lengths add up to `2^32 + 8`. -/
def wrappedHeader : Bytes := [0, 0, 0, 8, 255, 255, 255, 248]

theorem wrappedHeader_not_exact : ¬ Exact wrappedHeader := by
  intro h
  have hnone : decode_frame wrappedHeader = none := by decide +kernel
  obtain ⟨hlen, -⟩ := h (by simp [hnone])
  exact absurd hlen (by decide +kernel)

end Wire

end Dstore
