import Mathlib.Algebra.CharP.Two
import Mathlib.Algebra.Field.ZMod
import Mathlib.Algebra.Polynomial.FieldDivision
import Mathlib.Algebra.Polynomial.RingDivision
import Mathlib.Data.List.GetD
import Mathlib.RingTheory.PrincipalIdealDomain
import Mathlib.Tactic.LinearCombination

/-!
# Shift registers with feedback

The register behind a reflected CRC.  It takes in bits at its low end, and whenever a bit that is set
is shifted out there, a fixed pattern of taps is folded back in.

Read with the highest bit as the constant term, what the register holds is a polynomial over the field
of two elements (`poly`), and the taps with a leading term in front are another, the `generator`.  A
shift is then multiplication by `X` up to a multiple of the generator (`X_mul_poly`), so after a
string of bits the register holds a remainder: that of the string, as a polynomial, in front of what
the register held before (`poly_feedAll`).

From this follow the two facts that make a checksum of it.  Different registers stay different
whatever they are fed (`feedAll_injective`), and two strings whose differences lie within the width of
the register never leave the same thing in it (`eq_of_feedAll_eq`).

## What is here

* `ShiftRegister` — the width and the taps, of which the highest has to be set; `shift`, `feed` and
  `feedAll` are what a program computes.
* `shift_xor`, `iterate_shift_xor` — the register is linear, so several bits can be taken in at once.
* `poly`, `message`, `generator` — the polynomials; `coeff_poly` and `coeff_message` say which bit is which
  coefficient.
* `poly_feedAll`, `feedAll_eq_iff` — the register as a remainder.
* `feedAll_injective`, `eq_of_feedAll_eq` — what tells strings apart.

The generator is prime to `X`, because its constant term, the highest tap, is set.  That is the one
assumption, and both results rest on it.
-/

set_option autoImplicit false

open Polynomial

/-- A register of `w` bits.  The highest tap is set, which closes the loop. -/
structure ShiftRegister (w : Nat) where
  /-- What is folded in. -/
  taps : BitVec w
  /-- The bit that was shifted out can be read off the register afterwards. -/
  msb_taps : taps.msb = true

namespace ShiftRegister

variable {w : Nat} (R : ShiftRegister w)

/-- Shift out the low bit, and fold the taps back in when it was set. -/
def shift (s : BitVec w) : BitVec w := (s >>> 1) ^^^ (if s.getLsbD 0 then R.taps else 0#w)

/-- A bit, at the low end of a register. -/
def lowBit (w : Nat) (b : Bool) : BitVec w := if b then 1#w else 0#w

theorem getLsbD_lowBit (b : Bool) (i : Nat) :
    (lowBit w b).getLsbD i = (decide (i = 0) && decide (0 < w) && b) := by
  cases b <;> simp [lowBit, BitVec.getLsbD_one, Bool.and_comm]

/-- Take in a bit. -/
def feed (s : BitVec w) (b : Bool) : BitVec w := R.shift (s ^^^ lowBit w b)

/-- Take in a string of bits. -/
def feedAll (s : BitVec w) (bs : List Bool) : BitVec w := bs.foldl R.feed s

@[simp] theorem feedAll_nil (s : BitVec w) : R.feedAll s [] = s := rfl

@[simp] theorem feedAll_cons (s : BitVec w) (b : Bool) (bs : List Bool) :
    R.feedAll s (b :: bs) = R.feedAll (R.feed s b) bs := rfl

theorem feedAll_append (s : BitVec w) (x y : List Bool) :
    R.feedAll s (x ++ y) = R.feedAll (R.feedAll s x) y := List.foldl_append

include R in
theorem pos : 0 < w := by
  rcases Nat.eq_zero_or_pos w with rfl | hw
  · have hmsb := R.msb_taps
    rw [BitVec.msb_eq_getMsbD_zero, BitVec.getMsbD_of_ge _ _ (Nat.le_refl 0)] at hmsb
    cases hmsb
  · exact hw

/-! ## Several bits at once -/

theorem shift_xor (s t : BitVec w) : R.shift (s ^^^ t) = R.shift s ^^^ R.shift t := by
  have hself (x y : BitVec w) : x ^^^ R.taps ^^^ (y ^^^ R.taps) = x ^^^ y := by
    rw [BitVec.xor_comm y, ← BitVec.xor_assoc, BitVec.xor_assoc x, BitVec.xor_self, BitVec.xor_zero]
  simp only [shift, BitVec.ushiftRight_xor_distrib, BitVec.getLsbD_xor]
  cases s.getLsbD 0 <;> cases t.getLsbD 0 <;> simp [hself]
  · ac_rfl
  · ac_rfl

/-- Where the low bit is not set, there is nothing to fold back in. -/
theorem shift_even {s : BitVec w} (h : s.getLsbD 0 = false) : R.shift s = s >>> 1 := by
  simp [shift, h]

/-- To put the bits into the register all at once, and then shift, comes to the same as to take them
in one by one. -/
theorem iterate_shift_xor {k : Nat} {v : BitVec w} (hv : ∀ i, k ≤ i → v.getLsbD i = false)
    (s : BitVec w) : R.shift^[k] (s ^^^ v) = R.feedAll s ((List.range k).map v.getLsbD) := by
  induction k generalizing s v with
  | zero =>
    obtain rfl : v = 0#w := BitVec.eq_of_getLsbD_eq fun i _ => by simpa using hv i (Nat.zero_le i)
    simp
  | succ k ih =>
    -- apart from the bit that is taken in now, `v` is shifted along
    have hsplit : R.shift (s ^^^ v) = R.feed s (v.getLsbD 0) ^^^ v >>> 1 := by
      have hlow : (lowBit w (v.getLsbD 0) ^^^ v).getLsbD 0 = false := by
        rw [BitVec.getLsbD_xor, getLsbD_lowBit]
        simp only [R.pos, decide_true, Bool.true_and, Bool.xor_self]
      have hshift : (lowBit w (v.getLsbD 0) ^^^ v) >>> 1 = v >>> 1 := by
        refine BitVec.eq_of_getLsbD_eq fun i _ => ?_
        simp [getLsbD_lowBit]
      have hv0 : v = lowBit w (v.getLsbD 0) ^^^ (lowBit w (v.getLsbD 0) ^^^ v) := by
        rw [← BitVec.xor_assoc, BitVec.xor_self, BitVec.zero_xor]
      calc R.shift (s ^^^ v)
          = R.shift (s ^^^ lowBit w (v.getLsbD 0) ^^^ (lowBit w (v.getLsbD 0) ^^^ v)) := by
            rw [BitVec.xor_assoc, ← hv0]
        _ = R.feed s (v.getLsbD 0) ^^^ v >>> 1 := by
            rw [shift_xor, R.shift_even hlow, hshift, feed]
    have hrest : ∀ i, k ≤ i → (v >>> 1).getLsbD i = false := by
      intro i hi
      rw [BitVec.getLsbD_ushiftRight]
      exact hv _ (by omega)
    have hbits : (List.range (k + 1)).map v.getLsbD
        = v.getLsbD 0 :: (List.range k).map (v >>> 1).getLsbD := by
      simp [List.range_succ_eq_map, Function.comp_def, Nat.add_comm]
    rw [Function.iterate_succ_apply, hsplit, ih hrest, hbits, feedAll_cons]

/-! ## Polynomials -/

/-- A bit as a coefficient. -/
def coeffBit (b : Bool) : ZMod 2 := if b then 1 else 0

theorem coeffBit_xor (a b : Bool) : coeffBit (a ^^ b) = coeffBit a + coeffBit b := by
  cases a <;> cases b <;> decide

theorem coeffBit_injective {a b : Bool} (h : coeffBit a = coeffBit b) : a = b := by
  cases a <;> cases b <;> first | rfl | exact absurd h (by decide)

/-- What a register holds, with the highest bit as the constant term. -/
noncomputable def poly (s : BitVec w) : (ZMod 2)[X] :=
  ∑ j ∈ Finset.range w, C (coeffBit (s.getMsbD j)) * X ^ j

@[simp] theorem coeff_poly (s : BitVec w) (j : Nat) :
    (poly s).coeff j = coeffBit (s.getMsbD j) := by
  simp only [poly, finsetSum_coeff, coeff_C_mul, coeff_X_pow, mul_ite, mul_one, mul_zero]
  rw [Finset.sum_ite_eq]
  split
  · rfl
  · next hj =>
    rw [BitVec.getMsbD_of_ge _ _ (by simpa using hj)]
    rfl

theorem degree_poly_lt (s : BitVec w) : (poly s).degree < w := by
  refine (degree_lt_iff_coeff_zero _ _).2 fun j hj => ?_
  rw [coeff_poly, BitVec.getMsbD_of_ge _ _ hj]
  rfl

theorem poly_injective {s t : BitVec w} (h : poly s = poly t) : s = t := by
  refine BitVec.eq_of_getMsbD_eq fun j _ => coeffBit_injective ?_
  rw [← coeff_poly, ← coeff_poly, h]

theorem poly_xor (s t : BitVec w) : poly (s ^^^ t) = poly s + poly t := by
  ext j
  simp [coeffBit_xor]

theorem poly_lowBit (hw : 0 < w) (b : Bool) : poly (lowBit w b) = C (coeffBit b) * X ^ (w - 1) := by
  ext j
  rw [coeff_poly, coeff_C_mul, coeff_X_pow]
  cases b with
  | false => simp [lowBit, coeffBit]
  | true => simp [lowBit, coeffBit, BitVec.getMsbD_one, hw]

/-- A string of bits, the first of which has the highest power. -/
noncomputable def message : List Bool → (ZMod 2)[X]
  | [] => 0
  | b :: bs => C (coeffBit b) * X ^ bs.length + message bs

theorem coeff_message (bs : List Bool) (j : Nat) :
    (message bs).coeff j = coeffBit (bs.reverse.getD j false) := by
  induction bs with
  | nil => rfl
  | cons b bs ih =>
    rw [message, coeff_add, coeff_C_mul, coeff_X_pow, ih, List.reverse_cons]
    rcases Nat.lt_trichotomy j bs.length with hj | rfl | hj
    · rw [if_neg (Nat.ne_of_lt hj), mul_zero, zero_add, List.getD_append _ _ _ _ (by simpa using hj)]
    · simp [coeffBit]
    · rw [if_neg (Nat.ne_of_gt hj), List.getD_eq_default _ _ (by simpa using hj.le),
        List.getD_eq_default _ _ (by simpa using hj)]
      simp [coeffBit]

/-- The polynomial that is divided by: the taps, and a leading term. -/
noncomputable def generator : (ZMod 2)[X] := X ^ w + poly R.taps

theorem monic_generator : R.generator.Monic := monic_X_pow_add (degree_poly_lt _)

theorem degree_generator : R.generator.degree = w := by
  rw [generator, degree_add_eq_left_of_degree_lt, degree_X_pow]
  rw [degree_X_pow]
  exact degree_poly_lt _

/-- The highest tap is the constant term. -/
theorem isCoprime_generator (n : Nat) : IsCoprime R.generator (X ^ n) := by
  have hnot : ¬X ∣ R.generator := by
    rw [X_dvd_iff, generator, coeff_add, coeff_X_pow, if_neg R.pos.ne, coeff_poly,
      ← BitVec.msb_eq_getMsbD_zero, R.msb_taps]
    decide
  have hX : Irreducible (X : (ZMod 2)[X]) := irreducible_X
  exact (hX.coprime_iff_not_dvd.2 hnot).symm.pow_right

/-! ## Remainders -/

theorem X_mul_poly_ushiftRight (s : BitVec w) (hw : 0 < w) :
    X * poly s = poly (s >>> 1) + C (coeffBit (s.getLsbD 0)) * X ^ w := by
  ext j
  rw [coeff_add, coeff_C_mul, coeff_X_pow, coeff_poly, BitVec.getMsbD_ushiftRight]
  cases j with
  | zero => simp [hw.ne, coeffBit]
  | succ j =>
    rw [coeff_X_mul, coeff_poly]
    rcases Nat.lt_trichotomy (j + 1) w with hj | rfl | hj
    · simp [hj, hj.ne]
    · simp [coeffBit, BitVec.getMsbD_eq_getLsbD]
    · rw [BitVec.getMsbD_of_ge _ _ (by omega)]
      simp [hj.ne', Nat.not_lt.2 hj.le, coeffBit]

/-- **A shift multiplies by `X`**, up to a multiple of the generator. -/
theorem X_mul_poly (s : BitVec w) :
    X * poly s = poly (R.shift s) + C (coeffBit (s.getLsbD 0)) * R.generator := by
  have hshift : poly (R.shift s) = poly (s >>> 1) + C (coeffBit (s.getLsbD 0)) * poly R.taps := by
    rw [shift, poly_xor]
    cases s.getLsbD 0 with
    | false => simp [coeffBit, poly]
    | true => simp [coeffBit]
  rw [X_mul_poly_ushiftRight s R.pos, hshift, generator, mul_add, add_add_add_comm,
    CharTwo.add_self_eq_zero, add_zero]

theorem generator_dvd_feed (s : BitVec w) (b : Bool) :
    R.generator ∣ X * poly s + C (coeffBit b) * X ^ w - poly (R.feed s b) := by
  have hpow : (X : (ZMod 2)[X]) ^ w = X * X ^ (w - 1) := by
    rw [← pow_succ', Nat.sub_add_cancel R.pos]
  have hfeed := R.X_mul_poly (s ^^^ lowBit w b)
  rw [poly_xor, poly_lowBit R.pos] at hfeed
  refine ⟨C (coeffBit ((s ^^^ lowBit w b).getLsbD 0)), ?_⟩
  rw [feed, hpow]
  linear_combination hfeed

theorem generator_dvd_feedAll (s : BitVec w) (bs : List Bool) :
    R.generator ∣ X ^ bs.length * poly s + X ^ w * message bs - poly (R.feedAll s bs) := by
  induction bs generalizing s with
  | nil => simp [message]
  | cons b bs ih =>
    have hadd := (ih (R.feed s b)).add ((R.generator_dvd_feed s b).mul_left (X ^ bs.length))
    rw [feedAll_cons, message, List.length_cons]
    convert hadd using 1
    ring

/-- **The register holds a remainder.** -/
theorem poly_feedAll (s : BitVec w) (bs : List Bool) :
    poly (R.feedAll s bs) = (X ^ bs.length * poly s + X ^ w * message bs) %ₘ R.generator := by
  rw [modByMonic_eq_of_dvd_sub R.monic_generator (R.generator_dvd_feedAll s bs)]
  refine ((modByMonic_eq_self_iff R.monic_generator).2 ?_).symm
  rw [degree_generator]
  exact degree_poly_lt _

theorem eq_zero_of_generator_dvd {p : (ZMod 2)[X]} (hdvd : R.generator ∣ p) (hdeg : p.degree < w) :
    p = 0 := by
  by_contra hp
  exact R.monic_generator.not_dvd_of_degree_lt hp (R.degree_generator ▸ hdeg) hdvd

theorem eq_of_generator_dvd {s t : BitVec w} (h : R.generator ∣ poly s - poly t) : s = t := by
  refine poly_injective (sub_eq_zero.1 (R.eq_zero_of_generator_dvd h ?_))
  exact (degree_sub_le _ _).trans_lt (max_lt (degree_poly_lt s) (degree_poly_lt t))

/-- What the register holds in the end, by division. -/
theorem feedAll_eq_iff {s t : BitVec w} {bs : List Bool} :
    R.feedAll s bs = t ↔
      R.generator ∣ X ^ bs.length * poly s + X ^ w * message bs - poly t := by
  have hdvd := R.generator_dvd_feedAll s bs
  constructor
  · rintro rfl
    exact hdvd
  · intro h
    refine R.eq_of_generator_dvd ?_
    convert h.sub hdvd using 1
    ring

/-! ## What tells strings apart -/

/-- **Different registers stay different**, whatever they are fed. -/
theorem feedAll_injective {s t : BitVec w} {bs : List Bool} (h : R.feedAll s bs = R.feedAll t bs) :
    s = t := by
  have hdvd := (R.feedAll_eq_iff.1 h).sub (R.generator_dvd_feedAll t bs)
  refine R.eq_of_generator_dvd ((R.isCoprime_generator bs.length).dvd_of_dvd_mul_left ?_)
  convert hdvd using 1
  ring

theorem message_injective {x y : List Bool} (hlen : x.length = y.length)
    (h : message x = message y) : x = y := by
  refine List.reverse_injective (List.ext_getElem (by simpa using hlen) fun j hx hy => ?_)
  have hj : coeffBit (x.reverse.getD j false) = coeffBit (y.reverse.getD j false) := by
    rw [← coeff_message, ← coeff_message, h]
  rw [List.getD_eq_getElem _ _ hx, List.getD_eq_getElem _ _ hy] at hj
  exact coeffBit_injective hj

/-- The bits of a string stand in the order of falling powers. -/
theorem getElem?_ne_of_coeff_ne {x y : List Bool} (hlen : x.length = y.length) {j : Nat}
    (h : (message x).coeff j ≠ (message y).coeff j) :
    j < x.length ∧ x[x.length - 1 - j]? ≠ y[x.length - 1 - j]? := by
  rw [coeff_message, coeff_message, List.getD_eq_getElem?_getD, List.getD_eq_getElem?_getD] at h
  have hj : j < x.length := by
    by_contra hj
    refine h ?_
    rw [List.getElem?_eq_none (by simpa using hj),
      List.getElem?_eq_none (by simpa [← hlen] using hj)]
  refine ⟨hj, fun heq => h ?_⟩
  rw [List.getElem?_reverse hj, List.getElem?_reverse (hlen ▸ hj), ← hlen, heq]

/-- **Bursts are seen.**  Of two strings of the same length whose differences lie within the width of
the register, only equal ones leave the same in it. -/
theorem eq_of_feedAll_eq {s : BitVec w} {x y : List Bool} (hlen : x.length = y.length) {k : Nat}
    (hburst : ∀ i, x[i]? ≠ y[i]? → k ≤ i ∧ i < k + w) (h : R.feedAll s x = R.feedAll s y) :
    x = y := by
  -- in the difference of the two, the powers lie within `w` of each other
  obtain ⟨m, hm⟩ : ∃ m, x.length - (k + w) = m := ⟨_, rfl⟩
  have hcoeff : ∀ j, (message x - message y).coeff j ≠ 0 → m ≤ j ∧ j < m + w := by
    intro j hj
    rw [coeff_sub, sub_ne_zero] at hj
    obtain ⟨hjlen, hne⟩ := getElem?_ne_of_coeff_ne hlen hj
    have hi := hburst _ hne
    omega
  obtain ⟨B, hB⟩ : X ^ m ∣ message x - message y := by
    refine X_pow_dvd_iff.2 fun j hj => ?_
    by_contra hne
    exact absurd (hcoeff j hne).1 (Nat.not_le.2 hj)
  have hdeg : B.degree < w := by
    refine (degree_lt_iff_coeff_zero _ _).2 fun j hj => ?_
    rw [← coeff_X_pow_mul B m j, ← hB]
    by_contra hne
    have hlt := (hcoeff _ hne).2
    omega
  -- so the generator divides it only if it is zero
  have hdvd : R.generator ∣ X ^ w * (X ^ m * B) := by
    have hsub := (R.feedAll_eq_iff.1 h).sub (R.generator_dvd_feedAll s y)
    rw [← hlen] at hsub
    rw [← hB]
    convert hsub using 1
    ring
  have hB0 : B = 0 := by
    refine R.eq_zero_of_generator_dvd ?_ hdeg
    exact (R.isCoprime_generator m).dvd_of_dvd_mul_left
      ((R.isCoprime_generator w).dvd_of_dvd_mul_left hdvd)
  refine message_injective hlen (sub_eq_zero.1 ?_)
  rw [hB, hB0, mul_zero]

end ShiftRegister
