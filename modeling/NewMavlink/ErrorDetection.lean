import Mathlib.Algebra.CharP.Two
import Mathlib.Algebra.Field.ZMod
import Mathlib.Algebra.Polynomial.Degree.IsMonicOfDegree
import Mathlib.Data.Nat.Bitwise
import Mathlib.Tactic.ComputeDegree
import NewMavlink.Handshake.Codecs
import NewMavlink.Lib.CyclicCode
import NewMavlink.Record.Header

/-! # What the CRC detects

`crc16_ccitt` keeps a remainder modulo `X^16 + X^12 + X^5 + 1` in a register of sixteen bits, the
highest coefficient in the highest bit.

* `dvd_remainder_crcByte`: one byte moves the register up by eight places and adds the byte above
  it.
* `crc_ne_of_detectable`: two strings of one length, of any length, have different CRCs if they
  differ within sixteen consecutive bits only, or in an odd number of bits.
* `crc_detects`: so each of the four decoders that check a CRC refuses such a corruption. -/

namespace NewMavlink.ErrorDetection

open Polynomial
open NewMavlink.Lib.Buffer NewMavlink.Lib.Codec NewMavlink.Lib.CyclicCode NewMavlink.Wire
open NewMavlink.Crc16 NewMavlink.Record.Header
open NewMavlink.Handshake.Messages NewMavlink.Handshake.Codecs

/-! ### Bits -/

/-- The low `n` bits of a number, the most significant first. -/
def bitsOf : ℕ → ℕ → List Bool
  | 0, _ => []
  | n + 1, v => v.testBit n :: bitsOf n v

/-- The bits of a string, most significant bit of each byte first. -/
def bits (l : List UInt8) : List Bool := l.flatMap (bitsOf 8 ·.toNat)

/-- Where two strings differ, bit by bit. -/
def flips (a b : List UInt8) : List Bool := List.zipWith xor (bits a) (bits b)

/-- All differences lie within `n` consecutive bits. -/
def Burst (n : ℕ) (e : List Bool) : Prop := ∃ k, ∀ i, e[i]? = some true → k ≤ i ∧ i < k + n

/-- **The differences that the CRC detects.** -/
structure Detectable (a b : List UInt8) : Prop where
  length : a.length = b.length
  ne : a ≠ b
  pattern : Burst 16 (flips a b) ∨ Odd ((flips a b).count true)

@[simp] theorem length_bitsOf (n v : ℕ) : (bitsOf n v).length = n := by
  induction n with
  | zero => rfl
  | succ n ih => rw [bitsOf, List.length_cons, ih]

theorem length_bits (l : List UInt8) : (bits l).length = 8 * l.length := by
  induction l with
  | nil => rfl
  | cons b l ih =>
    rw [bits, List.flatMap_cons, List.length_append, length_bitsOf, ← bits, ih, List.length_cons]
    ring

theorem bitsOf_xor (n v w : ℕ) :
    bitsOf n (v ^^^ w) = List.zipWith xor (bitsOf n v) (bitsOf n w) := by
  induction n with
  | zero => rfl
  | succ n ih => rw [bitsOf, bitsOf, bitsOf, List.zipWith_cons_cons, ih, Nat.testBit_xor]

theorem bitsOf_mod {n m : ℕ} (h : n ≤ m) (v : ℕ) : bitsOf n (v % 2 ^ m) = bitsOf n v := by
  induction n with
  | zero => rfl
  | succ n ih =>
    have hn : n < m := h
    rw [bitsOf, bitsOf, ih (by omega), Nat.testBit_mod_two_pow, decide_eq_true hn, Bool.true_and]

theorem bitsOf_two_mul (n v : ℕ) : bitsOf (n + 1) (2 * v) = bitsOf n v ++ [false] := by
  induction n with
  | zero => simp [bitsOf]
  | succ n ih =>
    rw [bitsOf, ih, bitsOf, List.cons_append, Nat.testBit_succ, Nat.mul_div_cancel_left v two_pos]

theorem bitsOf_two_pow_mul (k n v : ℕ) :
    bitsOf (n + k) (2 ^ k * v) = bitsOf n v ++ List.replicate k false := by
  induction k with
  | zero => simp
  | succ k ih =>
    rw [pow_succ', Nat.mul_assoc, ← Nat.add_assoc, bitsOf_two_mul, ih, List.append_assoc,
      List.replicate_succ']

theorem testBit_of_bitsOf_eq {n v w : ℕ} (h : bitsOf n v = bitsOf n w) :
    ∀ i < n, v.testBit i = w.testBit i := by
  induction n with
  | zero => exact fun i hi => absurd hi (Nat.not_lt_zero i)
  | succ n ih =>
    rw [bitsOf, bitsOf, List.cons.injEq] at h
    intro i hi
    rcases Nat.lt_succ_iff_lt_or_eq.mp hi with hlt | rfl
    · exact ih h.2 i hlt
    · exact h.1

theorem bitsOf_toNat_inj {x y : UInt8} (h : bitsOf 8 x.toNat = bitsOf 8 y.toNat) : x = y := by
  refine UInt8.toNat_inj.mp (Nat.eq_of_testBit_eq fun i => ?_)
  rcases Nat.lt_or_ge i 8 with hi | hi
  · exact testBit_of_bitsOf_eq h i hi
  · have hpow : 2 ^ 8 ≤ 2 ^ i := Nat.pow_le_pow_right two_pos hi
    rw [Nat.testBit_lt_two_pow (lt_of_lt_of_le x.toNat_lt hpow),
      Nat.testBit_lt_two_pow (lt_of_lt_of_le y.toNat_lt hpow)]

theorem bits_inj : ∀ {a b : List UInt8}, a.length = b.length → bits a = bits b → a = b
  | [], [], _, _ => rfl
  | x :: a, y :: b, hl, h => by
    rw [bits, bits, List.flatMap_cons, List.flatMap_cons] at h
    obtain ⟨hfirst, hrest⟩ := List.append_inj h (by simp)
    rw [bitsOf_toNat_inj hfirst, bits_inj (by simpa using hl) hrest]

theorem eq_of_zipWith_xor : ∀ {u v : List Bool}, u.length = v.length →
    (∀ c ∈ List.zipWith xor u v, c = false) → u = v
  | [], [], _, _ => rfl
  | a :: u, b :: v, hl, h => by
    rw [List.zipWith_cons_cons] at h
    have hab : a = b := by simpa using h _ List.mem_cons_self
    rw [hab, eq_of_zipWith_xor (by simpa using hl) fun c hc => h c (List.mem_cons_of_mem _ hc)]

/-! ### The register as a polynomial -/

/-- A bit as a coefficient. -/
def coefficient (b : Bool) : ZMod 2 := if b then 1 else 0

theorem coefficient_xor (a b : Bool) :
    coefficient (xor a b) = coefficient a - coefficient b := by
  revert a b
  decide

/-- The generator. -/
noncomputable def generator : (ZMod 2)[X] := X ^ 16 + X ^ 12 + X ^ 5 + 1

theorem natDegree_generator : generator.natDegree = 16 := by
  unfold generator
  compute_degree!

theorem monic_generator : generator.Monic := by
  unfold generator
  monicity!

theorem isUnit_coeff_generator : IsUnit (generator.coeff 0) := by
  simp [generator]

theorem eval_one_generator : generator.eval 1 = 0 := by
  simp only [generator, eval_add, eval_pow, eval_X, eval_one, one_pow]
  decide

/-- The word of a byte. -/
def byteWord (b : UInt8) : List (ZMod 2) := (bitsOf 8 b.toNat).map coefficient

/-- The polynomial in the register. -/
noncomputable def remainder (crc : UInt16) : (ZMod 2)[X] :=
  poly ((bitsOf 16 crc.toNat).map coefficient)

theorem map_coefficient_xor (u v : List Bool) :
    (List.zipWith xor u v).map coefficient =
      List.zipWith (· - ·) (u.map coefficient) (v.map coefficient) := by
  rw [List.map_zipWith, List.zipWith_map]
  simp only [coefficient_xor]

theorem remainder_xor (a b : UInt16) : remainder (a ^^^ b) = remainder a + remainder b := by
  rw [← CharTwo.sub_eq_add, remainder, UInt16.toNat_xor, bitsOf_xor, map_coefficient_xor,
    poly_zipWith_sub (by simp)]
  rfl

theorem remainder_shiftLeft (crc : UInt16) : remainder (crc <<< 1) =
    X * remainder crc - C (coefficient (crc.toNat.testBit 15)) * X ^ 16 := by
  have hnat : (crc <<< 1).toNat = 2 * crc.toNat % 2 ^ 16 := by
    rw [UInt16.toNat_shiftLeft, Nat.shiftLeft_eq, Nat.mul_comm]
    rfl
  have hbits : bitsOf 16 (crc <<< 1).toNat = bitsOf 15 crc.toNat ++ [false] := by
    rw [hnat, bitsOf_mod le_rfl, bitsOf_two_mul]
  have hhigh : bitsOf 16 crc.toNat = crc.toNat.testBit 15 :: bitsOf 15 crc.toNat := rfl
  rw [remainder, remainder, hbits, hhigh, List.map_append, List.map_cons, poly_append, poly_cons]
  simp only [List.length_map, length_bitsOf, List.map_cons, List.map_nil, List.length_cons,
    List.length_nil, poly_cons, poly_nil, coefficient]
  simp only [Bool.false_eq_true, if_false, map_zero]
  ring

theorem remainder_0x1021 : remainder 0x1021 = X ^ 12 + X ^ 5 + 1 := by
  have hbits : bitsOf 16 (0x1021 : UInt16).toNat = [false, false, false, true, false, false, false,
      false, false, false, true, false, false, false, false, true] := by decide
  rw [remainder, hbits]
  simp [poly_cons, coefficient]
  ring

theorem and_high_ne_zero_iff (crc : UInt16) :
    crc &&& 0x8000 ≠ 0 ↔ crc.toNat.testBit 15 = true := by
  have hnat : (crc &&& 0x8000).toNat = (crc.toNat.testBit 15).toNat * 2 ^ 15 := by
    rw [UInt16.toNat_and, ← Nat.and_two_pow]
    rfl
  rw [Ne, ← UInt16.toNat_inj, hnat]
  cases crc.toNat.testBit 15 <;> decide

/-- **One bit**: the register moves up, modulo the generator. -/
theorem dvd_remainder_crcBit (crc : UInt16) :
    generator ∣ remainder (crcBit crc) - X * remainder crc := by
  unfold crcBit
  by_cases hc : crc.toNat.testBit 15 = true
  · rw [if_pos ((and_high_ne_zero_iff crc).mpr hc), remainder_xor, remainder_shiftLeft,
      remainder_0x1021, hc]
    have hone : C (coefficient true) = (1 : (ZMod 2)[X]) := C_1
    have htwo : (X : (ZMod 2)[X]) ^ 16 + X ^ 16 = 0 := CharTwo.add_self_eq_zero _
    refine ⟨1, ?_⟩
    rw [hone, generator]
    linear_combination -htwo
  · rw [if_neg fun h => hc ((and_high_ne_zero_iff crc).mp h), remainder_shiftLeft]
    simp [hc, coefficient]

theorem dvd_remainder_iterate (n : ℕ) (crc : UInt16) :
    generator ∣ remainder (crcBit^[n] crc) - X ^ n * remainder crc := by
  induction n generalizing crc with
  | zero => simp
  | succ n ih =>
    have hfirst := (dvd_remainder_crcBit crc).mul_left (X ^ n)
    have hsum := dvd_add (ih (crcBit crc)) hfirst
    rw [Function.iterate_succ_apply, pow_succ]
    convert hsum using 1
    ring

theorem remainder_byte (b : UInt8) :
    remainder (b.toUInt16 <<< 8) = X ^ 8 * poly (byteWord b) := by
  have hlt : 2 ^ 8 * b.toNat < 2 ^ 16 := by
    have := b.toNat_lt
    omega
  have hnat : (b.toUInt16 <<< 8).toNat = 2 ^ 8 * b.toNat := by
    rw [UInt16.toNat_shiftLeft, UInt8.toNat_toUInt16, Nat.shiftLeft_eq, Nat.mul_comm]
    exact Nat.mod_eq_of_lt hlt
  have hzero : poly ((List.replicate 8 false).map coefficient) = 0 := by
    refine poly_eq_zero_of_forall fun a ha => ?_
    rw [List.map_replicate] at ha
    exact List.eq_of_mem_replicate ha
  rw [remainder, hnat, bitsOf_two_pow_mul 8 8, List.map_append, poly_append, hzero, add_zero,
    List.length_map, List.length_replicate, byteWord]

/-- **One byte**: the register moves up by eight places, and the byte is added above it. -/
theorem dvd_remainder_crcByte (crc : UInt16) (b : UInt8) :
    generator ∣ remainder (crcByte crc b) -
      (X ^ (byteWord b).length * remainder crc + X ^ 16 * poly (byteWord b)) := by
  have h := dvd_remainder_iterate 8 (crc ^^^ (b.toUInt16 <<< 8))
  rw [remainder_xor, remainder_byte] at h
  rw [crcByte, byteWord, List.length_map, length_bitsOf, ← byteWord]
  convert h using 1
  ring

/-! ### The differences that are detected -/

theorem flatMap_byteWord (l : List UInt8) : l.flatMap byteWord = (bits l).map coefficient := by
  rw [bits, List.map_flatMap]
  rfl

theorem dvd_of_crc_eq {a b : List UInt8} (hl : a.length = b.length)
    (h : crc16Ccitt (.data a) = crc16Ccitt (.data b)) :
    generator ∣ X ^ 16 * poly ((flips a b).map coefficient) := by
  have hlen : (a.flatMap byteWord).length = (b.flatMap byteWord).length := by
    rw [flatMap_byteWord, flatMap_byteWord, List.length_map, List.length_map, length_bits,
      length_bits, hl]
  have hdvd := dvd_of_foldl_eq dvd_remainder_crcByte hlen h
  rwa [flatMap_byteWord, flatMap_byteWord, ← map_coefficient_xor] at hdvd

theorem sum_map_coefficient (e : List Bool) :
    (e.map coefficient).sum = (e.count true : ZMod 2) := by
  induction e with
  | nil => rfl
  | cons c e ih =>
    rw [List.map_cons, List.sum_cons, ih, List.count_cons]
    cases c <;> simp [coefficient, add_comm]

/-- **Error detection**: strings of one length have different CRCs if they differ within sixteen
consecutive bits only, or in an odd number of bits. -/
theorem crc_ne_of_detectable {a b : List UInt8} (h : Detectable a b) :
    crc16Ccitt (.data a) ≠ crc16Ccitt (.data b) := by
  intro hcrc
  have hdvd := dvd_of_crc_eq h.length hcrc
  rcases h.pattern with ⟨k, hk⟩ | hodd
  · have hburst : ∀ i c, ((flips a b).map coefficient)[i]? = some c → c ≠ 0 →
        k ≤ i ∧ i < k + generator.natDegree := by
      intro i c hi hc
      rw [List.getElem?_map, Option.map_eq_some_iff] at hi
      obtain ⟨bit, hbit, rfl⟩ := hi
      rw [natDegree_generator]
      refine hk i ?_
      cases bit with
      | true => exact hbit
      | false => exact absurd rfl hc
    have hzero := eq_zero_of_dvd_burst monic_generator isUnit_coeff_generator hburst hdvd
    have hsame : bits a = bits b := by
      refine eq_of_zipWith_xor (by rw [length_bits, length_bits, h.length]) fun c hc => ?_
      have := hzero (coefficient c) (List.mem_map_of_mem hc)
      cases c with
      | false => rfl
      | true => exact absurd this one_ne_zero
    exact h.ne (bits_inj h.length hsame)
  · have hsum := sum_eq_zero_of_dvd eval_one_generator hdvd
    rw [sum_map_coefficient, ZMod.natCast_eq_zero_iff_even] at hsum
    exact (Nat.not_even_iff_odd.mpr hodd) hsum

/-! ### The decoders -/

/-- What the decoder accepts carries at `cover` the CRC of the bytes before it. -/
def Guarded {α : Type} (cover : ℕ) (decode : Decoder α) : Prop :=
  ∀ b v, decode (.data b) = some v → crc16Ccitt (.data (b.take cover)) = get16 b cover

/-- **A detectable corruption** of the first `cover` bytes, and of nothing else. -/
structure Corrupts (cover : ℕ) (b b' : List UInt8) : Prop where
  covered : Detectable (b.take cover) (b'.take cover)
  rest : b.drop cover = b'.drop cover

/-- The CRC that is stored is not among the bytes that it covers. -/
theorem get16_eq_of_corrupts {cover : ℕ} {b b' : List UInt8} (h : Corrupts cover b b') :
    get16 b cover = get16 b' cover := by
  have hl := h.covered.length
  have hle : (b.take cover).length ≤ cover := List.length_take_le _ _
  have hsplit : ∀ l : List UInt8, (l.take cover).length ≤ cover →
      getLE 2 l cover = getLE 2 (l.drop cover) (cover - (l.take cover).length) := by
    intro l hle
    conv_lhs => rw [← List.take_append_drop cover l]
    exact getLE_append_of_le hle
  rw [get16, get16, hsplit b hle, hsplit b' (by omega), hl, h.rest]

theorem none_of_corrupts {α : Type} {cover : ℕ} {decode : Decoder α} (hg : Guarded cover decode)
    {b b' : List UInt8} {v : α} (hv : decode (.data b) = some v) (hc : Corrupts cover b b') :
    decode (.data b') = none := by
  cases hd : decode (.data b') with
  | none => rfl
  | some w =>
    have hb := hg b v hv
    have hb' := hg b' w hd
    rw [get16_eq_of_corrupts hc, ← hb'] at hb
    exact absurd hb (crc_ne_of_detectable hc.covered)

theorem guarded_decodeChecked {α : Type} (size cover : ℕ) (valid : α → Bool)
    (read : List UInt8 → α) : Guarded cover (decodeChecked size cover valid read) := by
  intro b v h
  unfold decodeChecked at h
  split_ifs at h with hc hv
  push Not at hc
  exact hc.2.2.symm

theorem guarded_decodeHello : Guarded 16 decodeHello := by
  rw [decodeHello_eq]
  exact guarded_decodeChecked _ _ _ _

theorem guarded_decodeHeader : Guarded 36 decodeHeader := fun _ _ hd =>
  (checks_of_decodeHeader hd).2.2

/-- **What the CRC detects.** Two different strings of one length, however long, have different CRCs
if they differ within sixteen consecutive bits only, or in an odd number of bits; and no decoder
accepts a valid message after such a corruption of the bytes that its CRC covers. -/
theorem crc_detects :
    (∀ a b, Detectable a b → crc16Ccitt (.data a) ≠ crc16Ccitt (.data b)) ∧
      (∀ b b' v, decodeHello (.data b) = some v → Corrupts 16 b b' →
        decodeHello (.data b') = none) ∧
      (∀ b b' v, decodeAccept (.data b) = some v → Corrupts 52 b b' →
        decodeAccept (.data b') = none) ∧
      (∀ b b' v, decodeFinish (.data b) = some v → Corrupts 36 b b' →
        decodeFinish (.data b') = none) ∧
      ∀ b b' v, decodeHeader (.data b) = some v → Corrupts 36 b b' →
        decodeHeader (.data b') = none := by
  refine ⟨fun a b => crc_ne_of_detectable, fun b b' v => ?_, fun b b' v => ?_, fun b b' v => ?_,
    fun b b' v => ?_⟩
  · exact none_of_corrupts guarded_decodeHello
  · exact none_of_corrupts (guarded_decodeChecked kAcceptBytes 52 validAccept readAccept)
  · exact none_of_corrupts (guarded_decodeChecked kFinishBytes 36 validFinish readFinish)
  · exact none_of_corrupts guarded_decodeHeader

/-- A burst over two bytes changes the CRC, and so do three bits far apart; the test `Accept` is
refused if one bit of its first byte is flipped. -/
theorem crc_detects_test :
    crc16Ccitt (.data [0x31, 0x32, 0x33, 0x34]) ≠ crc16Ccitt (.data [0x36, 0xF2, 0x33, 0x34]) ∧
      crc16Ccitt (.data [0x31, 0x32, 0x33, 0x34]) ≠ crc16Ccitt (.data [0xB1, 0x32, 0x32, 0x35]) ∧
      decodeAccept
          (.data ((checkedBytes acceptFormat testAccept ++ List.replicate 10 0).set 0 11)) =
        none := by
  have hdec : decodeAccept (.data (checkedBytes acceptFormat testAccept ++ List.replicate 10 0)) =
      some testAccept := decodeAccept_testAccept List.length_replicate
  refine ⟨?_, ?_, ?_⟩
  · refine crc_detects.1 _ _ ⟨rfl, by decide, Or.inl ⟨5, fun i hi => ?_⟩⟩
    have hlt : i < 32 := (List.getElem?_eq_some_iff.mp hi).1
    have hwithin : ∀ i < 32, (flips [0x31, 0x32, 0x33, 0x34] [0x36, 0xF2, 0x33, 0x34])[i]? =
        some true → 5 ≤ i ∧ i < 5 + 16 := by decide
    exact hwithin i hlt hi
  · exact crc_detects.1 _ _ ⟨rfl, by decide, Or.inr (by decide)⟩
  · exact crc_detects.2.2.1 _ _ _ hdec
      ⟨⟨by simp, by decide +kernel, Or.inr (by decide +kernel)⟩,
        by rw [List.drop_set_of_lt (by decide)]⟩

end NewMavlink.ErrorDetection
