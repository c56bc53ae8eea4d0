import Mathlib.Algebra.Order.Ring.Int
import Mathlib.Data.Nat.NthRoot.Defs
import Dstore.Lib.Blocks
/-!
# SHA-256 as the standard defines it

FIPS 180-4 for messages that are whole bytes: words are bit vectors, the
constants are the fractions of roots of primes they are defined as, and the
message schedule is the recurrence of the standard.
-/

namespace Dstore.Lib.Fips180

abbrev Word := BitVec 32

/-- `n` in `len` bytes, the first one highest. -/
def bigEndian (len n : Nat) : List UInt8 := (List.range len).map fun i => UInt8.ofNat (n / 256 ^ (len - 1 - i))

/-- The number that bytes stand for, the first one highest. -/
def ofBigEndian (bytes : List UInt8) : Nat := bytes.foldl (fun n b => 256 * n + b.toNat) 0

/-! ## Functions and constants -/

def rotr (n : Nat) (x : Word) : Word := x.rotateRight n

def shr (n : Nat) (x : Word) : Word := x >>> n

def ch (x y z : Word) : Word := (x &&& y) ^^^ (~~~x &&& z)

def maj (x y z : Word) : Word := (x &&& y) ^^^ (x &&& z) ^^^ (y &&& z)

def bigSigma0 (x : Word) : Word := rotr 2 x ^^^ rotr 13 x ^^^ rotr 22 x

def bigSigma1 (x : Word) : Word := rotr 6 x ^^^ rotr 11 x ^^^ rotr 25 x

def smallSigma0 (x : Word) : Word := rotr 7 x ^^^ rotr 18 x ^^^ shr 3 x

def smallSigma1 (x : Word) : Word := rotr 17 x ^^^ rotr 19 x ^^^ shr 10 x

/-- The first sixty-four primes. -/
def primes : List Nat :=
  [2, 3, 5, 7, 11, 13, 17, 19, 23, 29, 31, 37, 41, 43, 47, 53, 59, 61, 67, 71, 73, 79, 83, 89, 97, 101, 103, 107, 109, 113,
    127, 131, 137, 139, 149, 151, 157, 163, 167, 173, 179, 181, 191, 193, 197, 199, 211, 223, 227, 229, 233, 239, 241, 251,
    257, 263, 269, 271, 277, 281, 283, 293, 307, 311]

/-- The first 32 bits of the fractional part of the `n`-th root of `p`. -/
def rootFraction (n p : Nat) : Word := BitVec.ofNat 32 (Nat.nthRoot n (p * 2 ^ (32 * n)))

/-- The sixty-four constants: the cube roots of the primes. -/
def K (t : Nat) : Word := rootFraction 3 (primes.getD t 0)

/-- The eight words of a hash value, and of the working variables. -/
structure State where
  a : Word
  b : Word
  c : Word
  d : Word
  e : Word
  f : Word
  g : Word
  h : Word
  deriving DecidableEq

/-- The initial hash value: the square roots of the first eight primes. -/
def initial : State :=
  ⟨rootFraction 2 2, rootFraction 2 3, rootFraction 2 5, rootFraction 2 7, rootFraction 2 11, rootFraction 2 13,
    rootFraction 2 17, rootFraction 2 19⟩

/-! ## Padding -/

/-- The smallest number of zero bytes that bring a message of `len` bytes, after
the byte with the bit 1, to 56 modulo 64. -/
def zeros (len : Nat) : Nat := (119 - len % 64) % 64

def padded (m : List UInt8) : List UInt8 :=
  m ++ [0x80] ++ List.replicate (zeros m.length) 0 ++ bigEndian 8 (8 * m.length)

/-! ## Hashing -/

/-- Word `t` of a block. -/
def blockWord (block : List UInt8) (t : Nat) : Word := BitVec.ofNat 32 (ofBigEndian ((block.drop (4 * t)).take 4))

/-- The message schedule. -/
def schedule (block : List UInt8) (t : Nat) : Word :=
  if t < 16 then blockWord block t
  else smallSigma1 (schedule block (t - 2)) + schedule block (t - 7) + smallSigma0 (schedule block (t - 15)) +
    schedule block (t - 16)
termination_by t

def round (s : State) (k w : Word) : State :=
  let t1 := s.h + bigSigma1 s.e + ch s.e s.f s.g + k + w
  let t2 := bigSigma0 s.a + maj s.a s.b s.c
  ⟨t1 + t2, s.a, s.b, s.c, s.d + t1, s.e, s.f, s.g⟩

/-- The next hash value. -/
def compress (s : State) (block : List UInt8) : State :=
  let r := (List.range 64).foldl (fun r t => round r (K t) (schedule block t)) s
  ⟨r.a + s.a, r.b + s.b, r.c + s.c, r.d + s.d, r.e + s.e, r.f + s.f, r.g + s.g, r.h + s.h⟩

def State.bytes (s : State) : List UInt8 := [s.a, s.b, s.c, s.d, s.e, s.f, s.g, s.h].flatMap fun x => bigEndian 4 x.toNat

/-- The message digest. -/
def sha256 (m : List UInt8) : List UInt8 := (foldBlocks compress 64 initial (padded m)).bytes

/-- A hexadecimal digit in lower case. -/
def hexDigit (n : Nat) : UInt8 := ("0123456789abcdef".toList.getD n '?').toNat.toUInt8

/-- Bytes in lower-case hexadecimal. -/
def lowerHex (bytes : List UInt8) : List UInt8 := bytes.flatMap fun b => [hexDigit (b.toNat / 16), hexDigit (b.toNat % 16)]

end Dstore.Lib.Fips180
