import Mathlib.Algebra.Order.Field.Basic
import Mathlib.Algebra.Order.Field.Rat
import Mathlib.Tactic.FieldSimp
import Mathlib.Tactic.Linarith
import Mathlib.Tactic.Positivity
import Mathlib.Tactic.Ring
import Provenance.Double

/-!
Rounding to floating point numbers. Every bit pattern that is a number has an exact rational value,
and a rational number is rounded to the nearest of them, or of two that are equally near to the one
with the even significand. The interval of a number is compared with the midpoints to all other
numbers; so what lies in it is rounded to that number, no two intervals meet, and nothing outside is
rounded to a finite number.
-/

set_option autoImplicit false

namespace Provenance.Double

def isNaN (bits : UInt64) : Bool := exponentField bits == 2047 && fractionField bits != 0

def sign (bits : UInt64) : ℚ := if isNegative bits then -1 else 1

/-- The exact value of a number. An infinity counts as the power of two behind the greatest number,
so that what is too large for all numbers is nearest to it. -/
def value (bits : UInt64) : ℚ := sign bits * (significand bits * 2 ^ shift bits / 2 ^ 1074)

/-- Rounding to the nearest value, with ties to the even significand. -/
structure RoundsTo (q : ℚ) (bits : UInt64) : Prop where
  nearest : ∀ other, isNaN other = false → |q - value bits| ≤ |q - value other|
  even : ∀ other, isNaN other = false → value other ≠ value bits →
    |q - value other| = |q - value bits| → significand bits % 2 = 0

/-- The bits without the sign. They put the magnitudes in order. -/
def rank (bits : UInt64) : Nat := bits.toNat % 9223372036854775808

theorem exponentField_eq (bits : UInt64) :
    exponentField bits = rank bits / 4503599627370496 := by
  have h52 : Nat.pow 2 52 = 4503599627370496 := rfl
  have h11 : Nat.pow 2 11 = 2048 := rfl
  rw [exponentField, rank, h52, h11]
  omega

theorem fractionField_eq (bits : UInt64) :
    fractionField bits = rank bits % 4503599627370496 := by
  have h52 : Nat.pow 2 52 = 4503599627370496 := rfl
  rw [fractionField, rank, h52]
  omega

theorem significand_eq (bits : UInt64) :
    significand bits =
      if exponentField bits = 0 then fractionField bits
      else 4503599627370496 + fractionField bits := rfl

theorem fractionField_lt (bits : UInt64) : fractionField bits < 4503599627370496 := by
  rw [fractionField_eq]
  omega

theorem significand_mod_two (bits : UInt64) : significand bits % 2 = rank bits % 2 := by
  rw [significand_eq, fractionField_eq]
  split <;> omega

theorem eq_of_rank {a b : UInt64} (hsign : isNegative a = isNegative b)
    (hrank : rank a = rank b) : a = b := by
  have h63 : Nat.pow 2 63 = 9223372036854775808 := rfl
  have ha := a.toNat_lt
  have hb := b.toNat_lt
  simp only [isNegative, h63, decide_eq_decide] at hsign
  unfold rank at hrank
  apply UInt64.toNat_inj.1
  omega

def magnitude (bits : UInt64) : Nat := significand bits * Nat.pow 2 (shift bits)

theorem magnitude_add_gap_le (bits : UInt64) :
    magnitude bits + 2 ^ shift bits ≤ 4503599627370496 * 2 ^ exponentField bits := by
  have hfraction := fractionField_lt bits
  rw [magnitude, Nat.pow_eq, ← Nat.succ_mul, significand_eq, shift]
  cases he : exponentField bits with
  | zero =>
    rw [if_pos rfl, Nat.zero_sub, Nat.pow_zero, Nat.mul_one, Nat.mul_one]
    exact hfraction
  | succ e =>
    rw [if_neg (by omega), Nat.add_sub_cancel, Nat.pow_succ, Nat.mul_comm (2 ^ e) 2,
      ← Nat.mul_assoc]
    exact Nat.mul_le_mul_right _ (by omega)

theorem le_magnitude {bits : UInt64} (h : exponentField bits ≠ 0) :
    4503599627370496 * 2 ^ shift bits ≤ magnitude bits := by
  rw [magnitude, Nat.pow_eq, significand_eq, if_neg h]
  exact Nat.mul_le_mul_right _ (by omega)

/-- A number of higher rank lies at least one gap further up. -/
theorem magnitude_gap {a b : UInt64} (h : rank a < rank b) :
    magnitude a + 2 ^ shift a ≤ magnitude b := by
  have ha := exponentField_eq a
  have hb := exponentField_eq b
  have hfa := fractionField_eq a
  have hfb := fractionField_eq b
  by_cases he : exponentField a = exponentField b
  · have hshift : shift a = shift b := by rw [shift, shift, he]
    have hsignificand : significand a + 1 ≤ significand b := by
      rw [significand_eq, significand_eq, he]
      split <;> omega
    rw [magnitude, magnitude, Nat.pow_eq, Nat.pow_eq, hshift, ← Nat.succ_mul]
    exact Nat.mul_le_mul_right _ hsignificand
  · have hlt : exponentField a ≤ shift b := by
      rw [shift]
      omega
    calc magnitude a + 2 ^ shift a
        ≤ 4503599627370496 * 2 ^ exponentField a := magnitude_add_gap_le a
      _ ≤ 4503599627370496 * 2 ^ shift b :=
        Nat.mul_le_mul_left _ (Nat.pow_le_pow_right (by decide) hlt)
      _ ≤ magnitude b := le_magnitude (by omega)

theorem magnitude_mono {a b : UInt64} (h : rank a ≤ rank b) : magnitude a ≤ magnitude b := by
  rcases Nat.lt_or_eq_of_le h with hlt | heq
  · exact (Nat.le_add_right _ _).trans (magnitude_gap hlt)
  · have he : exponentField a = exponentField b := by rw [exponentField_eq, exponentField_eq, heq]
    have hf : fractionField a = fractionField b := by rw [fractionField_eq, fractionField_eq, heq]
    simp only [magnitude, significand_eq, shift, he, hf, Nat.le_refl]

theorem magnitude_succ {a b : UInt64} (h : rank b = rank a + 1) :
    magnitude b = magnitude a + 2 ^ shift a := by
  have ha := exponentField_eq a
  have hb := exponentField_eq b
  have hfa := fractionField_eq a
  have hfb := fractionField_eq b
  by_cases he : exponentField a = exponentField b
  · have hshift : shift a = shift b := by rw [shift, shift, he]
    have hsignificand : significand b = significand a + 1 := by
      rw [significand_eq, significand_eq, he]
      split <;> omega
    rw [magnitude, magnitude, Nat.pow_eq, Nat.pow_eq, hshift, hsignificand, Nat.succ_mul]
  · -- The fraction overflows into the exponent.
    have hnext : exponentField b = exponentField a + 1 := by omega
    have hfraction : fractionField a = 4503599627370495 ∧ fractionField b = 0 := by omega
    rw [magnitude, magnitude, Nat.pow_eq, Nat.pow_eq, shift, shift, significand_eq, significand_eq,
      hnext, hfraction.1, hfraction.2, if_neg (Nat.succ_ne_zero _), Nat.add_sub_cancel]
    split
    · rename_i hzero
      rw [hzero]
      rfl
    · rename_i hne
      obtain ⟨e, he⟩ := Nat.exists_eq_succ_of_ne_zero hne
      rw [he, Nat.succ_sub_one, Nat.pow_succ]
      omega

theorem exists_rank (bits : UInt64) {n : Nat} (h : n < 9223372036854775808) :
    ∃ c, rank c = n ∧ isNegative c = isNegative bits := by
  have h63 : Nat.pow 2 63 = 9223372036854775808 := rfl
  refine ⟨UInt64.ofNat (if isNegative bits then n + 9223372036854775808 else n), ?_, ?_⟩
  · simp only [rank, UInt64.toNat_ofNat']
    split <;> omega
  · simp only [isNegative, h63, UInt64.toNat_ofNat', decide_eq_decide, decide_eq_true_eq]
    split <;> omega

def belowGap (bits : UInt64) : Nat :=
  if fractionField bits = 0 ∧ 1 < exponentField bits then 1 else 2

theorem belowGap_eq {a b : UInt64} (h : rank a = rank b + 1) :
    belowGap a * 2 ^ shift a = 2 * 2 ^ shift b := by
  have ha := exponentField_eq a
  have hf := fractionField_eq a
  have hb := exponentField_eq b
  rw [belowGap]
  split
  · have hshift : shift a = shift b + 1 := by
      rw [shift, shift]
      omega
    rw [hshift, Nat.pow_succ]
    omega
  · have hshift : shift a = shift b := by
      rw [shift, shift]
      omega
    rw [hshift]

theorem magnitude_gap_below {a b : UInt64} (h : rank b < rank a) :
    2 * magnitude b + belowGap a * 2 ^ shift a ≤ 2 * magnitude a := by
  obtain ⟨c, hc, _⟩ := exists_rank a (n := rank a - 1) (by unfold rank; omega)
  have hgap : magnitude c + 2 ^ shift c ≤ magnitude a := magnitude_gap (by omega)
  have hmono : magnitude b ≤ magnitude c := magnitude_mono (by omega)
  have hbelow := belowGap_eq (a := a) (b := c) (by omega)
  omega

/-! The interval of a number, in the units of which the decimals are whole multiples. -/

def tens : Nat := Nat.pow 10 324

theorem natPow_pos {b : Nat} (h : 0 < b) (n : Nat) : 0 < Nat.pow b n := by
  rw [Nat.pow_eq]
  exact Nat.pow_pos h

theorem tens_pos : 0 < tens := by
  unfold tens
  apply natPow_pos
  decide

theorem quarter_eq (bits : UInt64) : quarter bits = Nat.pow 2 (shift bits) * tens := by
  unfold quarter tens
  rfl

theorem middle_eq (bits : UInt64) : (interval bits).middle = 4 * magnitude bits * tens := by
  simp only [interval, quarter_eq, magnitude, Nat.mul_assoc]

theorem high_eq (bits : UInt64) :
    (interval bits).high = (interval bits).middle + 2 * 2 ^ shift bits * tens := by
  simp only [interval, quarter_eq, Nat.mul_assoc, Nat.pow_eq]

theorem low_eq (bits : UInt64) :
    (interval bits).low = (interval bits).middle - belowGap bits * 2 ^ shift bits * tens := by
  simp only [interval, quarter_eq, belowGap, Nat.mul_assoc, Nat.pow_eq]

theorem closed_eq (bits : UInt64) :
    (interval bits).closed = decide (significand bits % 2 = 0) := rfl

theorem low_le_middle (bits : UInt64) : (interval bits).low ≤ (interval bits).middle := by
  rw [low_eq]
  exact Nat.sub_le _ _

theorem high_le_midpoint {a b : UInt64} (h : rank a < rank b) :
    2 * (interval a).high ≤ (interval a).middle + (interval b).middle := by
  have hgap := Nat.mul_le_mul_right (4 * tens) (magnitude_gap h)
  rw [high_eq, middle_eq, middle_eq]
  linarith

theorem midpoint_le_low {a b : UInt64} (h : rank b < rank a) :
    (interval a).middle + (interval b).middle ≤ 2 * (interval a).low := by
  have hgap := Nat.mul_le_mul_right (2 * tens) (magnitude_gap_below h)
  have hroom : 4 * magnitude b * tens + 2 * (belowGap a * 2 ^ shift a * tens) ≤
      4 * magnitude a * tens := by
    linarith
  rw [low_eq, middle_eq, middle_eq]
  omega

theorem high_eq_midpoint {a b : UInt64} (h : rank b = rank a + 1) :
    2 * (interval a).high = (interval a).middle + (interval b).middle := by
  rw [high_eq, middle_eq, middle_eq, magnitude_succ h]
  ring

theorem low_eq_midpoint {a b : UInt64} (h : rank a = rank b + 1) :
    2 * (interval a).low = (interval a).middle + (interval b).middle := by
  rw [low_eq, middle_eq, middle_eq, belowGap_eq h, magnitude_succ h, Nat.mul_add, Nat.add_mul]
  have hgap : 4 * 2 ^ shift b * tens = 2 * (2 * 2 ^ shift b * tens) := by ring
  omega

theorem low_pos {bits : UInt64} (h : significand bits ≠ 0) : 0 < (interval bits).low := by
  have hbelow : belowGap bits < 4 * significand bits := by
    rw [belowGap]
    split <;> omega
  have hunit : 0 < 2 ^ shift bits * tens := Nat.mul_pos (Nat.two_pow_pos _) tens_pos
  have hlt := Nat.mul_lt_mul_of_pos_right hbelow hunit
  rw [low_eq, middle_eq, magnitude, Nat.pow_eq]
  simp only [Nat.mul_assoc] at hlt ⊢
  omega

theorem middle_of_rank {a b : UInt64} (h : rank a = rank b) :
    (interval a).middle = (interval b).middle := by
  rw [middle_eq, middle_eq,
    Nat.le_antisymm (magnitude_mono h.le) (magnitude_mono h.ge)]

theorem middle_lt {a b : UInt64} (h : rank a < rank b) :
    (interval a).middle < (interval b).middle := by
  have hgap := magnitude_gap h
  have hpos := Nat.two_pow_pos (shift a)
  rw [middle_eq, middle_eq]
  exact Nat.mul_lt_mul_of_pos_right (by omega) tens_pos

theorem rank_of_middle {a b : UInt64} (h : (interval a).middle = (interval b).middle) :
    rank a = rank b := by
  rcases Nat.lt_trichotomy (rank a) (rank b) with hlt | heq | hgt
  · exact absurd h (middle_lt hlt).ne
  · exact heq
  · exact absurd h (middle_lt hgt).ne'

end Provenance.Double

namespace Provenance.Decimal.Interval

variable {i : Interval} {y : Nat}

/-- As `contains`, for magnitudes between the whole multiples of the unit. -/
def Spans (i : Interval) (y : ℚ) : Prop :=
  if i.closed then i.low ≤ y ∧ y ≤ i.high else i.low < y ∧ y < i.high

theorem spans_natCast (i : Interval) (y : Nat) : i.Spans y ↔ i.contains y = true := by
  unfold Spans contains
  split <;> simp

theorem bounds_of_spans {y : ℚ} (h : i.Spans y) : (i.low : ℚ) ≤ y ∧ y ≤ i.high := by
  unfold Spans at h
  split at h
  · exact h
  · exact ⟨h.1.le, h.2.le⟩

theorem inside_of_spans {y : ℚ} (h : i.Spans y) (hopen : i.closed = false) :
    (i.low : ℚ) < y ∧ y < i.high := by
  simpa [Spans, hopen] using h

theorem bounds_of_contains (h : i.contains y = true) : i.low ≤ y ∧ y ≤ i.high := by
  unfold contains at h
  split at h
  · simpa using h
  · have hinside : i.low < y ∧ y < i.high := by simpa using h
    exact ⟨hinside.1.le, hinside.2.le⟩

theorem inside_of_contains (h : i.contains y = true) (hopen : i.closed = false) :
    i.low < y ∧ y < i.high := by
  simpa [contains, hopen] using h

theorem closed_of_contains (h : i.contains y = true) (hend : y = i.low ∨ y = i.high) :
    i.closed = true := by
  by_contra hopen
  have hinside := inside_of_contains h (by simpa using hopen)
  omega

end Provenance.Decimal.Interval

namespace Provenance.Double

open Decimal.Interval (bounds_of_contains closed_of_contains spans_natCast bounds_of_spans
  inside_of_spans)

/-- Two intervals that meet can do so in a common end only, where both would have to be closed. But
of two neighbours only one has an even significand. -/
theorem not_rank_lt_of_contains {a b : UInt64} {y : Nat} (ha : (interval a).contains y = true)
    (hb : (interval b).contains y = true) : ¬ rank a < rank b := by
  intro hlt
  have hhigh := high_le_midpoint hlt
  have hlow := midpoint_le_low hlt
  have hya := bounds_of_contains ha
  have hyb := bounds_of_contains hb
  have hclosed : (interval a).closed = true ∧ (interval b).closed = true :=
    ⟨closed_of_contains ha (by omega), closed_of_contains hb (by omega)⟩
  rw [closed_eq, closed_eq, decide_eq_true_eq, decide_eq_true_eq, significand_mod_two,
    significand_mod_two] at hclosed
  -- The number next to `a` is odd where `a` is even, so `b` lies behind it and is too far away.
  obtain ⟨c, hc, _⟩ := exists_rank a (n := rank a + 1) (by unfold rank at hlt ⊢; omega)
  have hcloser := high_le_midpoint (a := a) (b := c) (by omega)
  have hless := middle_lt (a := c) (b := b) (by omega)
  omega

theorem rank_eq_of_contains {a b : UInt64} {y : Nat} (ha : (interval a).contains y = true)
    (hb : (interval b).contains y = true) : rank a = rank b := by
  have hle := not_rank_lt_of_contains ha hb
  have hge := not_rank_lt_of_contains hb ha
  omega

theorem abs_sub_le_abs_sub_iff {y m n : ℚ} :
    |y - m| ≤ |y - n| ↔ 0 ≤ (n - m) * (m + n - 2 * y) := by
  have hsquares : (y - n) ^ 2 - (y - m) ^ 2 = (n - m) * (m + n - 2 * y) := by ring
  rw [← sq_le_sq, ← hsquares, sub_nonneg]

theorem abs_sub_lt_abs_sub_iff {y m n : ℚ} :
    |y - m| < |y - n| ↔ 0 < (n - m) * (m + n - 2 * y) := by
  have hsquares : (y - n) ^ 2 - (y - m) ^ 2 = (n - m) * (m + n - 2 * y) := by ring
  rw [← sq_lt_sq, ← hsquares, sub_pos]

theorem abs_sub_middle_le {a : UInt64} {y : ℚ} (h : (interval a).Spans y) (b : UInt64) :
    |y - (interval a).middle| ≤ |y - (interval b).middle| := by
  obtain ⟨hlow, hhigh⟩ := bounds_of_spans h
  rw [abs_sub_le_abs_sub_iff]
  rcases Nat.lt_trichotomy (rank a) (rank b) with hlt | heq | hgt
  · have hmid : (2 * (interval a).high : ℚ) ≤ (interval a).middle + (interval b).middle := by
      exact_mod_cast high_le_midpoint hlt
    have hmiddles : ((interval a).middle : ℚ) ≤ (interval b).middle := by
      exact_mod_cast (middle_lt hlt).le
    exact mul_nonneg (by linarith) (by linarith)
  · rw [middle_of_rank heq, sub_self, zero_mul]
  · have hmid : ((interval a).middle + (interval b).middle : ℚ) ≤ 2 * (interval a).low := by
      exact_mod_cast midpoint_le_low hgt
    have hmiddles : ((interval b).middle : ℚ) ≤ (interval a).middle := by
      exact_mod_cast (middle_lt hgt).le
    exact mul_nonneg_of_nonpos_of_nonpos (by linarith) (by linarith)

theorem abs_sub_middle_lt {a b : UInt64} {y : ℚ} (h : (interval a).Spans y)
    (hopen : (interval a).closed = false) (hne : rank a ≠ rank b) :
    |y - (interval a).middle| < |y - (interval b).middle| := by
  obtain ⟨hlow, hhigh⟩ := inside_of_spans h hopen
  rw [abs_sub_lt_abs_sub_iff]
  rcases Nat.lt_or_gt_of_ne hne with hlt | hgt
  · have hmid : (2 * (interval a).high : ℚ) ≤ (interval a).middle + (interval b).middle := by
      exact_mod_cast high_le_midpoint hlt
    have hmiddles : ((interval a).middle : ℚ) < (interval b).middle := by
      exact_mod_cast middle_lt hlt
    exact mul_pos (by linarith) (by linarith)
  · have hmid : ((interval a).middle + (interval b).middle : ℚ) ≤ 2 * (interval a).low := by
      exact_mod_cast midpoint_le_low hgt
    have hmiddles : ((interval b).middle : ℚ) < (interval a).middle := by
      exact_mod_cast middle_lt hgt
    exact mul_pos_of_neg_of_neg (by linarith) (by linarith)

def ofUnits (y : Nat) : ℚ := y / one

theorem cast_pow (b n : Nat) : ((Nat.pow b n : ℕ) : ℚ) = (b : ℚ) ^ n := by
  rw [Nat.pow_eq, Nat.cast_pow]

theorem one_eq : (one : ℚ) = 2 ^ 1076 * 10 ^ 324 := by
  simp only [one, Nat.cast_mul, cast_pow, Nat.cast_ofNat]

theorem cast_tens : (tens : ℚ) = 10 ^ 324 := by
  unfold tens
  simp only [cast_pow, Nat.cast_ofNat]

theorem one_pos : (0 : ℚ) < one := by
  rw [one_eq]
  positivity

theorem ofUnits_nonneg (y : Nat) : 0 ≤ ofUnits y := div_nonneg (Nat.cast_nonneg y) one_pos.le

theorem ofUnits_injective {x y : Nat} (h : ofUnits x = ofUnits y) : x = y := by
  rw [ofUnits, ofUnits, div_left_inj' one_pos.ne'] at h
  exact_mod_cast h

theorem value_eq (bits : UInt64) : value bits = sign bits * ofUnits (interval bits).middle := by
  have hfour : (2 : ℚ) ^ 1076 = 2 ^ 1074 * 4 := by
    rw [show (4 : ℚ) = 2 ^ 2 by norm_num, ← pow_add]
  rw [value, ofUnits, middle_eq, one_eq, hfour]
  simp only [magnitude, cast_tens, Nat.cast_mul, cast_pow, Nat.cast_ofNat]
  field_simp

theorem sign_cases (a b : UInt64) : sign a = sign b ∨ sign a = -sign b := by
  unfold sign
  split <;> split <;> simp

theorem abs_sign (bits : UInt64) : |sign bits| = 1 := by
  unfold sign
  split <;> simp

theorem sign_mul_sign (bits : UInt64) : sign bits * sign bits = 1 := by
  unfold sign
  split <;> simp

theorem abs_sign_mul_ofUnits (bits : UInt64) (y : Nat) : |sign bits * ofUnits y| = ofUnits y := by
  rw [abs_mul, abs_sign, one_mul, abs_of_nonneg (ofUnits_nonneg y)]

def units (bits : UInt64) (q : ℚ) : ℚ := sign bits * q * one

theorem sign_mul_units (bits : UInt64) (q : ℚ) : sign bits * (units bits q / one) = q := by
  rw [units, mul_div_cancel_right₀ _ one_pos.ne', ← mul_assoc, sign_mul_sign, one_mul]

theorem units_sign_mul_ofUnits (bits : UInt64) (y : Nat) :
    units bits (sign bits * ofUnits y) = y := by
  rw [units, ← mul_assoc, sign_mul_sign, one_mul, ofUnits, div_mul_cancel₀ _ one_pos.ne']

theorem units_of_opposite {bits other : UInt64} (h : sign other = -sign bits) (q : ℚ) :
    units other q = -units bits q := by
  rw [units, units, h, neg_mul, neg_mul]

theorem abs_sub_value (bits : UInt64) (q : ℚ) :
    |q - value bits| = |units bits q - (interval bits).middle| / one := by
  have hsplit : q - value bits =
      sign bits * ((units bits q - (interval bits).middle) / one) := by
    rw [sub_div, mul_sub, sign_mul_units, value_eq, ofUnits]
  rw [hsplit, abs_mul, abs_sign, one_mul, abs_div, abs_of_pos one_pos]

theorem abs_sub_le_abs_sub_value (bits other : UInt64) {q : ℚ} (hq : 0 ≤ units bits q) :
    |units bits q - (interval other).middle| / one ≤ |q - value other| := by
  rw [abs_sub_value]
  refine div_le_div_of_nonneg_right ?_ one_pos.le
  rcases sign_cases other bits with hsame | hopposite
  · rw [units, units, hsame]
  · have hmiddle : (0 : ℚ) ≤ (interval other).middle := Nat.cast_nonneg _
    rw [units_of_opposite hopposite, abs_le, abs_of_nonpos (by linarith)]
    constructor <;> linarith

theorem abs_sub_lt_of_opposite {bits other : UInt64} {q : ℚ} (hq : 0 < units bits q)
    (hmiddle : 0 < (interval bits).middle) (hrank : rank bits = rank other)
    (hsign : sign other = -sign bits) : |q - value bits| < |q - value other| := by
  have hpos : (0 : ℚ) < (interval bits).middle := Nat.cast_pos.2 hmiddle
  rw [abs_sub_value, abs_sub_value, units_of_opposite hsign, ← middle_of_rank hrank]
  refine div_lt_div_of_pos_right ?_ one_pos
  rw [abs_lt, abs_of_neg (by linarith)]
  constructor <;> linarith

theorem units_pos_of_spans {bits : UInt64} (hne : significand bits ≠ 0) {y : ℚ}
    (h : (interval bits).Spans y) : 0 < y :=
  lt_of_lt_of_le (Nat.cast_pos.2 (low_pos hne)) (bounds_of_spans h).1

theorem roundsTo_of_spans {bits : UInt64} (hne : significand bits ≠ 0) {q : ℚ}
    (h : (interval bits).Spans (units bits q)) : RoundsTo q bits where
  nearest other _ := by
    refine le_trans ?_ (abs_sub_le_abs_sub_value bits other (units_pos_of_spans hne h).le)
    rw [abs_sub_value]
    exact div_le_div_of_nonneg_right (abs_sub_middle_le h other) one_pos.le
  even other _ hvalue hequal := by
    by_contra hodd
    have hopen : (interval bits).closed = false := by simpa [closed_eq] using hodd
    have hpos := units_pos_of_spans hne h
    by_cases hrank : rank bits = rank other
    · have hopposite : sign other = -sign bits := by
        refine (sign_cases other bits).resolve_left fun hsign => hvalue ?_
        rw [value_eq, value_eq, hsign, middle_of_rank hrank]
      have hmiddle := (low_pos hne).trans_le (low_le_middle bits)
      exact absurd hequal (abs_sub_lt_of_opposite hpos hmiddle hrank hopposite).ne'
    · have hlt : |q - value bits| < |units bits q - (interval other).middle| / one := by
        rw [abs_sub_value]
        exact div_lt_div_of_pos_right (abs_sub_middle_lt h hopen hrank) one_pos
      exact absurd hequal (hlt.trans_le (abs_sub_le_abs_sub_value bits other hpos.le)).ne'

theorem roundsTo_of_contains {bits : UInt64} (hne : significand bits ≠ 0) {y : Nat}
    (h : (interval bits).contains y = true) : RoundsTo (sign bits * ofUnits y) bits := by
  apply roundsTo_of_spans hne
  rwa [units_sign_mul_ofUnits, spans_natCast]

theorem isNaN_of_rank {bits : UInt64} (h : rank bits ≤ 9218868437227405312) :
    isNaN bits = false := by
  simp only [isNaN, exponentField_eq, fractionField_eq, Bool.and_eq_false_imp, beq_iff_eq,
    bne_eq_false_iff_eq]
  omega

/-- A number that is rounded to the first of two numbers of one sign is not nearer to the second,
and as near only if the interval is closed. -/
theorem RoundsTo.side {q : ℚ} {a b : UInt64} (h : RoundsTo q a) (hrank : rank a ≠ rank b)
    (hnumber : rank b ≤ 9218868437227405312) (hsign : isNegative b = isNegative a) :
    0 ≤ ((interval b).middle - (interval a).middle : ℚ) *
        ((interval a).middle + (interval b).middle - 2 * units a q) ∧
      (((interval a).middle + (interval b).middle : ℚ) = 2 * units a q →
        (interval a).closed = true) := by
  have hnan := isNaN_of_rank hnumber
  have hsigns : sign b = sign a := by rw [sign, sign, hsign]
  have hvalue := abs_sub_value b q
  rw [units, hsigns, ← units] at hvalue
  constructor
  · have hnearest := h.nearest b hnan
    rw [abs_sub_value a, hvalue, div_le_div_iff_of_pos_right one_pos] at hnearest
    exact abs_sub_le_abs_sub_iff.1 hnearest
  · intro htie
    rw [closed_eq, decide_eq_true_eq]
    apply h.even b hnan
    · intro hsame
      have hmagnitudes := congrArg abs hsame
      rw [value_eq, value_eq, abs_sign_mul_ofUnits, abs_sign_mul_ofUnits] at hmagnitudes
      exact hrank (rank_of_middle (ofUnits_injective hmagnitudes).symm)
    · have hmirror : units a q - (interval b).middle = -(units a q - (interval a).middle) := by
        linarith
      rw [abs_sub_value a, hvalue, hmirror, abs_neg]

/-- Only what the interval of a finite number spans is rounded to the number: the numbers before and
behind it leave nothing else. -/
theorem spans_of_roundsTo {bits : UInt64} (hfinite : exponentField bits ≠ 2047)
    (hne : significand bits ≠ 0) {q : ℚ} (h : RoundsTo q bits) :
    (interval bits).Spans (units bits q) := by
  have hrank : 0 < rank bits ∧ rank bits < 9218868437227405312 := by
    rw [significand_eq, fractionField_eq] at hne
    rw [exponentField_eq] at hne hfinite
    have hlt : rank bits < 9223372036854775808 := Nat.mod_lt _ (by decide)
    split at hne <;> omega
  obtain ⟨next, hnext, hsign⟩ := exists_rank bits (n := rank bits + 1) (by omega)
  obtain ⟨prior, hprior, hsign'⟩ := exists_rank bits (n := rank bits - 1) (by omega)
  obtain ⟨habove, hclosed⟩ := h.side (b := next) (by omega) (by omega) hsign
  obtain ⟨hbelow, hclosed'⟩ := h.side (b := prior) (by omega) (by omega) hsign'
  have hhigh : (2 * (interval bits).high : ℚ) =
      (interval bits).middle + (interval next).middle := by
    exact_mod_cast high_eq_midpoint hnext
  have hlow : (2 * (interval bits).low : ℚ) = (interval bits).middle + (interval prior).middle := by
    exact_mod_cast low_eq_midpoint (a := bits) (b := prior) (by omega)
  have hgap : (0 : ℚ) < (interval next).middle - (interval bits).middle := by
    rw [sub_pos]
    exact_mod_cast middle_lt (a := bits) (b := next) (by omega)
  have hgap' : ((interval prior).middle - (interval bits).middle : ℚ) < 0 := by
    rw [sub_neg]
    exact_mod_cast middle_lt (a := prior) (b := bits) (by omega)
  have hupper : units bits q ≤ (interval bits).high := by
    have hside := nonneg_of_mul_nonneg_right habove hgap
    linarith
  have hlower : (interval bits).low ≤ units bits q := by
    have hside := nonpos_of_mul_nonneg_right hbelow hgap'
    linarith
  unfold Decimal.Interval.Spans
  split
  · exact ⟨hlower, hupper⟩
  · rename_i hopen
    refine ⟨lt_of_le_of_ne hlower fun hend => hopen (hclosed' ?_),
      lt_of_le_of_ne hupper fun hend => hopen (hclosed ?_)⟩ <;> linarith

end Provenance.Double
