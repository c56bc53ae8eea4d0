import Dstore.Common.Result
/-!
# SHA-256

`Sha256` as in `sha256.cpp`: a running state, a bit count and a buffer of the
bytes not yet compressed. The loops that drain the buffer take one step for
each 64 bytes, so the buffer's length is always enough fuel.

The storage code only uses that `Sha256::hex` is a function into strings of 64
lower-case hexadecimal digits. `HexHash` is such a function; the modules above
take one as a parameter, and `Sha256.hexHash` is the one the server runs with.
-/

namespace Dstore

namespace Sha256

def k : List UInt32 := [
  0x428a2f98,0x71374491,0xb5c0fbcf,0xe9b5dba5,0x3956c25b,0x59f111f1,0x923f82a4,0xab1c5ed5,
  0xd807aa98,0x12835b01,0x243185be,0x550c7dc3,0x72be5d74,0x80deb1fe,0x9bdc06a7,0xc19bf174,
  0xe49b69c1,0xefbe4786,0x0fc19dc6,0x240ca1cc,0x2de92c6f,0x4a7484aa,0x5cb0a9dc,0x76f988da,
  0x983e5152,0xa831c66d,0xb00327c8,0xbf597fc7,0xc6e00bf3,0xd5a79147,0x06ca6351,0x14292967,
  0x27b70a85,0x2e1b2138,0x4d2c6dfc,0x53380d13,0x650a7354,0x766a0abb,0x81c2c92e,0x92722c85,
  0xa2bfe8a1,0xa81a664b,0xc24b8b70,0xc76c51a3,0xd192e819,0xd6990624,0xf40e3585,0x106aa070,
  0x19a4c116,0x1e376c08,0x2748774c,0x34b0bcb5,0x391c0cb3,0x4ed8aa4a,0x5b9cca4f,0x682e6ff3,
  0x748f82ee,0x78a5636f,0x84c87814,0x8cc70208,0x90befffa,0xa4506ceb,0xbef9a3f7,0xc67178f2]

def rotr (x n : UInt32) : UInt32 := (x >>> n) ||| (x <<< (32 - n))

/-- The eight words of `state_`, and of the working variables. -/
structure Words where
  a : UInt32
  b : UInt32
  c : UInt32
  d : UInt32
  e : UInt32
  f : UInt32
  g : UInt32
  h : UInt32
  deriving DecidableEq, Repr

def Words.toList (s : Words) : List UInt32 := [s.a, s.b, s.c, s.d, s.e, s.f, s.g, s.h]

/-- `w[i]` for `i < 16`: the big-endian words of a block. -/
def blockWords : Bytes → List UInt32
  | b0 :: b1 :: b2 :: b3 :: rest =>
    ((b0.toUInt32 <<< 24) ||| (b1.toUInt32 <<< 16) ||| (b2.toUInt32 <<< 8) ||| b3.toUInt32) :: blockWords rest
  | _ => []

/-- The schedule loop: `n` more words, from `w[i - 16]`, `w[i - 15]`,
`w[i - 7]` and `w[i - 2]`. -/
def extend : Nat → List UInt32 → List UInt32
  | 0, w => w
  | n + 1, w =>
    let i := w.length
    let w15 := w.getD (i - 15) 0
    let w2 := w.getD (i - 2) 0
    let s0 := rotr w15 7 ^^^ rotr w15 18 ^^^ (w15 >>> 3)
    let s1 := rotr w2 17 ^^^ rotr w2 19 ^^^ (w2 >>> 10)
    extend n (w ++ [w.getD (i - 16) 0 + s0 + w.getD (i - 7) 0 + s1])

/-- One round of the compression loop, with `k[i]` and `w[i]`. -/
def round (s : Words) (ki wi : UInt32) : Words :=
  let s1 := rotr s.e 6 ^^^ rotr s.e 11 ^^^ rotr s.e 25
  let ch := (s.e &&& s.f) ^^^ (~~~s.e &&& s.g)
  let temp1 := s.h + s1 + ch + ki + wi
  let s0 := rotr s.a 2 ^^^ rotr s.a 13 ^^^ rotr s.a 22
  let maj := (s.a &&& s.b) ^^^ (s.a &&& s.c) ^^^ (s.b &&& s.c)
  let temp2 := s0 + maj
  ⟨temp1 + temp2, s.a, s.b, s.c, s.d + temp1, s.e, s.f, s.g⟩

def rounds : Words → List UInt32 → List UInt32 → Words
  | s, ki :: ks, wi :: ws => rounds (round s ki wi) ks ws
  | s, _, _ => s

def transform (s : Words) (chunk : Bytes) : Words :=
  let r := rounds s k (extend 48 (blockWords chunk))
  ⟨s.a + r.a, s.b + r.b, s.c + r.c, s.d + r.d, s.e + r.e, s.f + r.f, s.g + r.g, s.h + r.h⟩

end Sha256

structure Sha256 where
  state : Sha256.Words := ⟨0x6a09e667, 0xbb67ae85, 0x3c6ef372, 0xa54ff53a, 0x510e527f, 0x9b05688c, 0x1f83d9ab, 0x5be0cd19⟩
  bit_len : UInt64 := 0
  buffer : Bytes := []

namespace Sha256

/-- Compress whole blocks from the front of the buffer. -/
def drain : Nat → Words → Bytes → Words × Bytes
  | 0, s, buffer => (s, buffer)
  | fuel + 1, s, buffer =>
    if buffer.length ≥ 64 then drain fuel (transform s (buffer.take 64)) (buffer.drop 64) else (s, buffer)

def update (sha : Sha256) (bytes : Bytes) : Sha256 :=
  let buffer := sha.buffer ++ bytes
  let (state, rest) := drain buffer.length sha.state buffer
  ⟨state, sha.bit_len + UInt64.ofNat (bytes.length * 8), rest⟩

/-- `while (buffer_.size() % 64 != 56) buffer_.push_back(0)`: at most 63 rounds. -/
def pad : Nat → Bytes → Bytes
  | 0, buffer => buffer
  | fuel + 1, buffer => if buffer.length % 64 ≠ 56 then pad fuel (buffer ++ [0]) else buffer

def digest (sha : Sha256) : Bytes :=
  let total_bits := sha.bit_len
  let buffer := pad 64 (sha.buffer ++ [0x80]) ++
    ([7, 6, 5, 4, 3, 2, 1, 0] : List UInt64).map fun i => ((total_bits >>> (i * 8)) &&& 0xff).toUInt8
  let (state, _) := drain buffer.length sha.state buffer
  state.toList.flatMap fun (x : UInt32) => [(x >>> 24).toUInt8, (x >>> 16).toUInt8, (x >>> 8).toUInt8, x.toUInt8]

/-- A digit as `std::hex` prints it. -/
def hexDigit (n : UInt8) : UInt8 := if n < 10 then 48 + n else 87 + n

def hex (bytes : Bytes) : Str :=
  (update {} bytes).digest.flatMap fun (b : UInt8) => [hexDigit (b >>> 4), hexDigit (b &&& 15)]

end Sha256

/-- The characters `0`–`9` and `a`–`f`. -/
def isHex (c : UInt8) : Bool := (48 ≤ c && c ≤ 57) || (97 ≤ c && c ≤ 102)

/-- A string that can be a checksum: 64 lower-case hexadecimal digits. -/
def Digest (s : Str) : Prop := s.length = 64 ∧ ∀ c ∈ s, isHex c = true

/-- A hash that prints as `Sha256::hex` does. -/
structure HexHash where
  hex : Bytes → Str
  digest : ∀ b, Digest (hex b)

namespace Sha256

theorem isHex_hexDigit (b : UInt8) : isHex (hexDigit (b >>> 4)) = true ∧ isHex (hexDigit (b &&& 15)) = true := by
  have h : ∀ i : Fin 256, isHex (hexDigit (UInt8.ofFin i >>> 4)) = true ∧
      isHex (hexDigit (UInt8.ofFin i &&& 15)) = true := by decide +kernel
  exact h b.toFin

theorem digest_hex (bytes : Bytes) : Digest (hex bytes) := by
  constructor
  · rfl
  · intro c hc
    obtain ⟨b, -, hb⟩ := List.mem_flatMap.1 hc
    obtain ⟨h4, h15⟩ := isHex_hexDigit b
    rcases List.mem_pair.1 hb with rfl | rfl
    · exact h4
    · exact h15

/-- The hash of the server. -/
def hexHash : HexHash := ⟨hex, digest_hex⟩

/-! ### Digests that are known

A run of a whole node hashes its few contents again and again. With their
digests in a table it looks them up. -/

/-- The last `n` hexadecimal digits of a number. -/
def digits : Nat → Nat → Str
  | 0, _ => []
  | n + 1, value => digits n (value / 16) ++ [hexDigit (value % 16).toUInt8]

def known : List (Bytes × Str) := [
  (lit "ab", digits 64 0xfb8e20fc2e4c3f248c60c39bd652f3c1347298bb977b8b4d5903b85055620603),
  (lit "abc", digits 64 0xba7816bf8f01cfea414140de5dae2223b00361a396177a9cb410ff61f20015ad),
  (lit "cd", digits 64 0x21e721c35a5823fdb452fa2f9f0a612c74fb952e06927489c6b27a43b817bed4)]

theorem known_hex : ∀ e ∈ known, hex e.1 = e.2 := by decide +kernel

/-- `Sha256::hex`, by the table where it can be. -/
def hexKnown (b : Bytes) : Str := (known.lookup b).getD (hex b)

theorem hex_eq : hex = hexKnown := by
  funext b
  unfold hexKnown
  cases h : known.lookup b with
  | none => rfl
  | some d =>
    obtain ⟨l₁, l₂, hl, -⟩ := List.lookup_eq_some_iff.1 h
    exact known_hex (b, d) (by rw [hl]; simp)

/-- The hash of the server, by the table. -/
def hashKnown : HexHash := ⟨hexKnown, fun b => hex_eq ▸ digest_hex b⟩

theorem hexHash_eq : hexHash = hashKnown := by
  unfold hexHash hashKnown
  simp only [hex_eq]

end Sha256

end Dstore
