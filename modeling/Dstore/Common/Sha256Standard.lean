import Dstore.Common.Sha256
import Dstore.Lib.Fips180
import Dstore.Lib.Words
/-!
# `Sha256` computes the standard hash

The code keeps a state, a bit count and the bytes it has not compressed yet.
After any updates these are the fold of the compression function over the
whole blocks of everything given so far, its length, and the rest
(`Absorbed`), so a digest does not depend on how the message was cut up
(`digest_standard`).
-/
open Dstore.Lib

namespace Dstore.Sha256

/-- The words of the code as those of the standard. -/
def Words.standard (s : Words) : Fips180.State :=
  ⟨s.a.toBitVec, s.b.toBitVec, s.c.toBitVec, s.d.toBitVec, s.e.toBitVec, s.f.toBitVec, s.g.toBitVec, s.h.toBitVec⟩

/-! ## Words and constants -/

theorem rotr_toBitVec (x n : UInt32) (h0 : 0 < n.toNat) (h : n.toNat < 32) :
    (rotr x n).toBitVec = Fips180.rotr n.toNat x.toBitVec := by
  have hright : (n.toBitVec % 32).toNat = n.toNat := by
    rw [BitVec.toNat_umod, UInt32.toNat_toBitVec]
    exact Nat.mod_eq_of_lt h
  have hleft : ((32 - n).toBitVec % 32).toNat = 32 - n.toNat := by
    rw [BitVec.toNat_umod, UInt32.toNat_toBitVec, UInt32.toNat_sub]
    simp
    omega
  rw [rotr, Fips180.rotr, BitVec.rotateRight, BitVec.rotateRightAux, Nat.mod_eq_of_lt h, UInt32.toBitVec_or,
    UInt32.toBitVec_shiftRight, UInt32.toBitVec_shiftLeft, BitVec.ushiftRight_eq', BitVec.shiftLeft_eq', hright, hleft]

theorem smallSigma0_standard (x : UInt32) :
    (rotr x 7 ^^^ rotr x 18 ^^^ (x >>> 3)).toBitVec = Fips180.smallSigma0 x.toBitVec := by
  rw [UInt32.toBitVec_xor, UInt32.toBitVec_xor, rotr_toBitVec x 7 (by decide) (by decide),
    rotr_toBitVec x 18 (by decide) (by decide)]
  rfl

theorem smallSigma1_standard (x : UInt32) :
    (rotr x 17 ^^^ rotr x 19 ^^^ (x >>> 10)).toBitVec = Fips180.smallSigma1 x.toBitVec := by
  rw [UInt32.toBitVec_xor, UInt32.toBitVec_xor, rotr_toBitVec x 17 (by decide) (by decide),
    rotr_toBitVec x 19 (by decide) (by decide)]
  rfl

theorem bigSigma0_standard (x : UInt32) :
    (rotr x 2 ^^^ rotr x 13 ^^^ rotr x 22).toBitVec = Fips180.bigSigma0 x.toBitVec := by
  rw [UInt32.toBitVec_xor, UInt32.toBitVec_xor, rotr_toBitVec x 2 (by decide) (by decide),
    rotr_toBitVec x 13 (by decide) (by decide), rotr_toBitVec x 22 (by decide) (by decide)]
  rfl

theorem bigSigma1_standard (x : UInt32) :
    (rotr x 6 ^^^ rotr x 11 ^^^ rotr x 25).toBitVec = Fips180.bigSigma1 x.toBitVec := by
  rw [UInt32.toBitVec_xor, UInt32.toBitVec_xor, rotr_toBitVec x 6 (by decide) (by decide),
    rotr_toBitVec x 11 (by decide) (by decide), rotr_toBitVec x 25 (by decide) (by decide)]
  rfl

theorem k_eq : k.map UInt32.toBitVec = (List.range 64).map Fips180.K := by decide +kernel

theorem initial_eq : ({} : Sha256).state.standard = Fips180.initial := by decide +kernel

/-! ## The compression function -/

/-- Four bytes at the front of a block. -/
theorem cons_four {n : Nat} {chunk : Bytes} (h : chunk.length = 4 * (n + 1)) :
    ∃ b0 b1 b2 b3 rest, chunk = b0 :: b1 :: b2 :: b3 :: rest ∧ rest.length = 4 * n := by
  match chunk, h with
  | b0 :: b1 :: b2 :: b3 :: rest, h => exact ⟨b0, b1, b2, b3, rest, rfl, by simpa [Nat.mul_succ] using h⟩

theorem length_blockWords {n : Nat} {chunk : Bytes} (h : chunk.length = 4 * n) : (blockWords chunk).length = n := by
  induction n generalizing chunk with
  | zero =>
    rw [List.length_eq_zero_iff.1 h]
    rfl
  | succ n ih =>
    obtain ⟨b0, b1, b2, b3, rest, rfl, hrest⟩ := cons_four h
    rw [blockWords, List.length_cons, ih hrest]

/-- The first sixteen words are those of the block. -/
theorem blockWords_standard {n : Nat} {chunk : Bytes} (h : chunk.length = 4 * n) {t : Nat} (ht : t < n) :
    ((blockWords chunk).getD t 0).toBitVec = Fips180.blockWord chunk t := by
  induction n generalizing chunk t with
  | zero => omega
  | succ n ih =>
    obtain ⟨b0, b1, b2, b3, rest, rfl, hrest⟩ := cons_four h
    cases t with
    | zero =>
      apply BitVec.eq_of_toNat_eq
      have h0 := b0.toNat_lt
      have h1 := b1.toNat_lt
      have h2 := b2.toNat_lt
      have h3 := b3.toNat_lt
      simp only [blockWords, List.getD_cons_zero, UInt32.toNat_toBitVec, toNat_word32, Fips180.blockWord,
        Fips180.ofBigEndian, BitVec.toNat_ofNat, Nat.mul_zero, List.drop_zero, List.take_succ_cons, List.take_zero,
        List.foldl_cons, List.foldl_nil]
      omega
    | succ t =>
      simp only [blockWords, List.getD_cons_succ]
      rw [ih hrest (by omega)]
      simp [Fips180.blockWord, Nat.mul_succ]

/-- The schedule loop follows the recurrence. -/
theorem extend_standard (block : Bytes) (n : Nat) (w : List UInt32) (h16 : 16 ≤ w.length)
    (hw : ∀ t < w.length, (w.getD t 0).toBitVec = Fips180.schedule block t) :
    (extend n w).length = w.length + n ∧
      ∀ t < w.length + n, ((extend n w).getD t 0).toBitVec = Fips180.schedule block t := by
  induction n generalizing w with
  | zero => exact ⟨rfl, hw⟩
  | succ n ih =>
    rw [extend]
    generalize hnew : w.getD (w.length - 16) 0 + _ + w.getD (w.length - 7) 0 + _ = x
    have hx : x.toBitVec = Fips180.schedule block w.length := by
      rw [← hnew, Fips180.schedule, if_neg (by omega), ← hw _ (by omega), ← hw _ (by omega), ← hw _ (by omega),
        ← hw _ (by omega), ← smallSigma0_standard, ← smallSigma1_standard]
      simp only [UInt32.toBitVec_add]
      ac_rfl
    obtain ⟨hlen, hall⟩ := ih (w ++ [x]) (by simp; omega) fun t ht => by
      rcases Nat.lt_or_ge t w.length with hlt | hge
      · rw [List.getD_append _ _ _ _ hlt]
        exact hw t hlt
      · obtain rfl : t = w.length := by simp at ht; omega
        rw [List.getD_append_right _ _ _ _ (Nat.le_refl _), Nat.sub_self]
        exact hx
    rw [List.length_append, List.length_singleton] at hlen hall
    exact ⟨by omega, fun t ht => hall t (by omega)⟩

theorem round_standard (s : Words) (ki wi : UInt32) :
    (round s ki wi).standard = Fips180.round s.standard ki.toBitVec wi.toBitVec := by
  simp only [round, Fips180.round, Words.standard, UInt32.toBitVec_add, bigSigma0_standard, bigSigma1_standard]
  rfl

/-- The rounds from `t` on, with the constants and words of the standard. -/
theorem rounds_standard (block : Bytes) (n t : Nat) (s : Words) (ks ws : List UInt32) (hk : ks.length = n)
    (hw : ws.length = n)
    (hks : ∀ i < n, (ks.getD i 0).toBitVec = Fips180.K (t + i))
    (hws : ∀ i < n, (ws.getD i 0).toBitVec = Fips180.schedule block (t + i)) :
    (rounds s ks ws).standard =
      (List.range' t n).foldl (fun r t => Fips180.round r (Fips180.K t) (Fips180.schedule block t)) s.standard := by
  induction n generalizing t s ks ws with
  | zero =>
    obtain rfl := List.length_eq_zero_iff.1 hk
    rfl
  | succ n ih =>
    match ks, ws, hk, hw with
    | ki :: ks, wi :: ws, hk, hw =>
      have h0k : ki.toBitVec = Fips180.K t := hks 0 (Nat.succ_pos n)
      have h0w : wi.toBitVec = Fips180.schedule block t := hws 0 (Nat.succ_pos n)
      rw [rounds, List.range'_succ, List.foldl_cons, ← h0k, ← h0w, ← round_standard]
      refine ih (t + 1) _ ks ws (Nat.succ.inj hk) (Nat.succ.inj hw) (fun i hi => ?_) (fun i hi => ?_)
      · have := hks (i + 1) (by omega)
        rwa [List.getD_cons_succ, ← Nat.add_assoc, Nat.add_right_comm] at this
      · have := hws (i + 1) (by omega)
        rwa [List.getD_cons_succ, ← Nat.add_assoc, Nat.add_right_comm] at this

theorem transform_standard (s : Words) {chunk : Bytes} (h : chunk.length = 64) :
    (transform s chunk).standard = Fips180.compress s.standard chunk := by
  have hlen := length_blockWords (n := 16) h
  obtain ⟨hlen', hschedule⟩ := extend_standard chunk 48 (blockWords chunk) hlen.ge
    (fun t ht => by
      rw [hlen] at ht
      rw [blockWords_standard (n := 16) h ht, Fips180.schedule, if_pos ht])
  rw [hlen] at hlen' hschedule
  have hconst : ∀ i < 64, (k.getD i 0).toBitVec = Fips180.K (0 + i) := by
    intro i hi
    have heq := congrArg (fun l => l[i]?) k_eq
    simp only [List.getElem?_map, List.getElem?_range hi, Option.map_some] at heq
    obtain ⟨x, hx, hxk⟩ := Option.map_eq_some_iff.1 heq
    rw [List.getD_eq_getElem?_getD, hx, Nat.zero_add]
    exact hxk
  have hrounds := rounds_standard chunk 64 0 s k _ rfl hlen' hconst (fun i hi => by
    rw [Nat.zero_add]
    exact hschedule i hi)
  rw [← List.range_eq_range'] at hrounds
  rw [Fips180.compress, ← hrounds]
  simp only [transform, Words.standard, UInt32.toBitVec_add, BitVec.add_comm]

/-! ## Buffering -/

theorem drain_eq (fuel : Nat) (s : Words) (buffer : Bytes) (h : buffer.length ≤ fuel) :
    drain fuel s buffer = (foldBlocks transform 64 s buffer, restBlock 64 buffer) := by
  induction fuel generalizing s buffer with
  | zero =>
    have hshort : buffer.length < 64 := by omega
    rw [drain, foldBlocks_short hshort, restBlock_short hshort]
  | succ fuel ih =>
    rw [drain]
    split
    · next hge =>
      rw [ih _ _ (by rw [List.length_drop]; omega), ← foldBlocks_step (by decide) hge, ← restBlock_step (by decide) hge]
    · next hlt => rw [foldBlocks_short (by omega), restBlock_short (by omega)]

/-- What the members hold after the bytes of `m` were given. -/
structure Absorbed (sha : Sha256) (m : Bytes) : Prop where
  state : sha.state = foldBlocks transform 64 ({} : Sha256).state m
  buffer : sha.buffer = restBlock 64 m
  bit_len : sha.bit_len = UInt64.ofNat (8 * m.length)

theorem absorbed_fresh : Absorbed {} [] := ⟨rfl, rfl, rfl⟩

theorem Absorbed.update {sha : Sha256} {m : Bytes} (h : Absorbed sha m) (bytes : Bytes) :
    Absorbed (sha.update bytes) (m ++ bytes) := by
  obtain ⟨hfold, hrest⟩ := foldBlocks_resume (f := transform) (n := 64) (by decide) ({} : Sha256).state m bytes
  have hdrain := drain_eq (sha.buffer ++ bytes).length sha.state (sha.buffer ++ bytes) (Nat.le_refl _)
  rw [h.state, h.buffer, hfold, hrest] at hdrain
  simp only [Sha256.update, h.state, h.buffer, hdrain]
  refine ⟨rfl, rfl, ?_⟩
  simp only [h.bit_len, ← UInt64.ofNat_add, List.length_append, Nat.mul_add, Nat.mul_comm bytes.length]

theorem absorbed_updates (parts : List Bytes) {sha : Sha256} {m : Bytes} (h : Absorbed sha m) :
    Absorbed (parts.foldl Sha256.update sha) (m ++ parts.flatten) := by
  induction parts generalizing sha m with
  | nil => simpa using h
  | cons p ps ih =>
    rw [List.foldl_cons, List.flatten_cons, ← List.append_assoc]
    exact ih (h.update p)

/-! ## Padding -/

theorem pad_eq (fuel : Nat) (buffer : Bytes) (h : Fips180.zeros (buffer.length - 1) ≤ fuel) (hpos : 0 < buffer.length) :
    pad fuel buffer = buffer ++ List.replicate (Fips180.zeros (buffer.length - 1)) 0 := by
  induction fuel generalizing buffer with
  | zero =>
    rw [pad, Nat.le_zero.1 h]
    simp
  | succ fuel ih =>
    rw [pad]
    unfold Fips180.zeros at h ih ⊢
    split
    · next hne =>
      have hz : (119 - (buffer.length - 1) % 64) % 64 = (119 - (buffer.length + 1 - 1) % 64) % 64 + 1 := by omega
      rw [ih _ (by simp only [List.length_append, List.length_singleton]; omega) (by simp), List.length_append,
        List.length_singleton, hz, List.replicate_succ, List.append_assoc]
      rfl
    · next heq =>
      rw [show (119 - (buffer.length - 1) % 64) % 64 = 0 by omega]
      simp

/-- Byte `i` of a 64-bit number, from below. -/
theorem byte_of_bits (n : Nat) (h : n < 2 ^ 64) (i : UInt64) (hi : i.toNat < 8) :
    ((UInt64.ofNat n >>> (i * 8)) &&& 0xff).toUInt8 = UInt8.ofNat (n / 256 ^ i.toNat) := by
  apply UInt8.toNat.inj
  have hshift : (i * 8).toNat % 64 = 8 * i.toNat := by
    rw [UInt64.toNat_mul]
    simp
    omega
  have hpow : 2 ^ (8 * i.toNat) = 256 ^ i.toNat := by rw [Nat.pow_mul]
  rw [UInt64.toNat_toUInt8, UInt64.toNat_and, UInt64.toNat_shiftRight, hshift, UInt64.toNat_ofNat_of_lt' h,
    Nat.shiftRight_eq_div_pow, hpow, UInt8.toNat_ofNat']
  rw [show (255 : UInt64).toNat = 2 ^ 8 - 1 from rfl, Nat.and_two_pow_sub_one_eq_mod]
  omega

theorem length_bytes_eq (n : Nat) (h : n < 2 ^ 64) :
    ([7, 6, 5, 4, 3, 2, 1, 0] : List UInt64).map (fun i => ((UInt64.ofNat n >>> (i * 8)) &&& 0xff).toUInt8) =
      Fips180.bigEndian 8 n := by
  have hmap : ∀ i ∈ ([7, 6, 5, 4, 3, 2, 1, 0] : List UInt64), i.toNat < 8 := by simp
  rw [List.map_congr_left fun i hi => byte_of_bits n h i (hmap i hi)]
  rfl

theorem word_bytes (x : UInt32) :
    [(x >>> 24).toUInt8, (x >>> 16).toUInt8, (x >>> 8).toUInt8, x.toUInt8] = Fips180.bigEndian 4 x.toBitVec.toNat := by
  have byte : ∀ (j : UInt32) (i : Nat), j.toNat % 32 = 8 * i → (x >>> j).toUInt8 = UInt8.ofNat (x.toNat / 256 ^ i) := by
    intro j i hj
    apply UInt8.toNat.inj
    rw [UInt32.toNat_toUInt8, UInt32.toNat_shiftRight, hj, Nat.shiftRight_eq_div_pow, Nat.pow_mul, UInt8.toNat_ofNat']
  have hlast : x.toUInt8 = UInt8.ofNat (x.toNat / 256 ^ 0) := by
    apply UInt8.toNat.inj
    simp
  rw [byte 24 3 rfl, byte 16 2 rfl, byte 8 1 rfl, hlast]
  rfl

theorem state_bytes (s : Words) :
    (s.toList.flatMap fun (x : UInt32) => [(x >>> 24).toUInt8, (x >>> 16).toUInt8, (x >>> 8).toUInt8, x.toUInt8]) =
      s.standard.bytes := by
  simp only [word_bytes]
  rfl

theorem hexDigit_standard (b : UInt8) :
    hexDigit (b >>> 4) = Fips180.hexDigit (b.toNat / 16) ∧ hexDigit (b &&& 15) = Fips180.hexDigit (b.toNat % 16) := by
  have h : ∀ i : Fin 256, hexDigit (UInt8.ofFin i >>> 4) = Fips180.hexDigit ((UInt8.ofFin i).toNat / 16) ∧
      hexDigit (UInt8.ofFin i &&& 15) = Fips180.hexDigit ((UInt8.ofFin i).toNat % 16) := by decide +kernel
  exact h b.toFin

/-- The rest of a message with its padding, given the message it is the rest
of. -/
theorem pad_rest (m : Bytes) :
    pad 64 (restBlock 64 m ++ [0x80]) ++ Fips180.bigEndian 8 (8 * m.length) =
      restBlock 64 m ++ ([0x80] ++ List.replicate (Fips180.zeros m.length) 0 ++ Fips180.bigEndian 8 (8 * m.length)) := by
  have hlen : (restBlock 64 m ++ [0x80]).length - 1 = m.length % 64 := by
    rw [List.length_append, restBlock_length, List.length_singleton, Nat.add_sub_cancel]
  have hzeros : Fips180.zeros (m.length % 64) = Fips180.zeros m.length := by
    unfold Fips180.zeros
    rw [Nat.mod_mod]
  rw [pad_eq 64 _ (by unfold Fips180.zeros; omega) (by simp), hlen, hzeros]
  simp only [List.append_assoc]

theorem Absorbed.digest {sha : Sha256} {m : Bytes} (h : Absorbed sha m) (hlen : m.length < 2 ^ 61) :
    sha.digest = Fips180.sha256 m := by
  obtain ⟨hfold, -⟩ := foldBlocks_resume (f := transform) (n := 64) (by decide) ({} : Sha256).state m
    ([0x80] ++ List.replicate (Fips180.zeros m.length) 0 ++ Fips180.bigEndian 8 (8 * m.length))
  have hstandard := foldBlocks_map Words.standard (fun s b hb => transform_standard s hb) ({} : Sha256).state
    (Fips180.padded m)
  rw [initial_eq] at hstandard
  simp only [Sha256.digest, h.state, h.buffer, h.bit_len, length_bytes_eq (8 * m.length) (by omega), pad_rest,
    drain_eq _ _ _ (Nat.le_refl _), hfold, state_bytes]
  rw [Fips180.sha256, ← hstandard, Fips180.padded]
  simp only [List.append_assoc]

/-- For every sequence of updates of a fresh `Sha256`, of less than `2 ^ 61`
bytes in all, the digest is the standard hash of their concatenation, and `hex`
prints the standard hash in 64 lower-case digits. -/
theorem digest_standard (parts : List Bytes) (h : parts.flatten.length < 2 ^ 61) :
    (parts.foldl Sha256.update {}).digest = Fips180.sha256 parts.flatten ∧
      hex parts.flatten = Fips180.lowerHex (Fips180.sha256 parts.flatten) ∧ (hex parts.flatten).length = 64 := by
  have hone : (Sha256.update {} parts.flatten).digest = Fips180.sha256 parts.flatten :=
    (absorbed_fresh.update parts.flatten).digest h
  refine ⟨(absorbed_updates parts absorbed_fresh).digest h, ?_, (digest_hex _).1⟩
  rw [hex, hone, Fips180.lowerHex]
  congr 1
  funext b
  rw [(hexDigit_standard b).1, (hexDigit_standard b).2]

/-- Three updates, one of them empty. -/
theorem abc_in_parts :
    ([lit "ab", [], lit "c"].foldl Sha256.update {}).digest = Fips180.sha256 (lit "abc") ∧
      hex (lit "abc") = Fips180.lowerHex (Fips180.sha256 (lit "abc")) := by
  have hflat : [lit "ab", [], lit "c"].flatten = lit "abc" := by decide
  have h := digest_standard [lit "ab", [], lit "c"] (by rw [hflat]; decide)
  rw [hflat] at h
  exact ⟨h.1, h.2.1⟩

-- The vector of `sha256_test.cpp`.
example : hex (lit "abc") = lit "ba7816bf8f01cfea414140de5dae2223b00361a396177a9cb410ff61f20015ad" := by decide +kernel

end Dstore.Sha256
