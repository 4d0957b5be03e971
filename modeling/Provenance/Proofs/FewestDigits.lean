import Mathlib.Data.Nat.Log
import Mathlib.Order.Bounds.Basic
import Provenance.Proofs.DoubleText

/-!
How many digits a floating point number is written with. Among the decimals that are rounded to the
number, the text has one with the fewest digits, and of these one that is nearest to the number. Two
digits are always shown; yet the second is a zero if one digit is enough. The main statement names
the eight numbers, all close to the least one, for which another second digit would come nearer.
-/

set_option autoImplicit false

namespace Provenance.Double

open Decimal

def Writable (n : ℕ) (q : ℚ) : Prop := ∃ (d : ℕ) (k : ℤ), d < 10 ^ n ∧ |q| = d * 10 ^ k

def candidates (bits : UInt64) (n : ℕ) : Set ℚ := {q | RoundsTo q bits ∧ Writable n q}

structure IsNearest (bits : UInt64) (n : ℕ) (q : ℚ) : Prop where
  mem : q ∈ candidates bits n
  nearest : ∀ r ∈ candidates bits n, |q - value bits| ≤ |r - value bits|

/-- The numbers, as multiples of the least one, that are written with one digit although a second
digit comes nearer. -/
def cutShort : List ℕ := [1, 2, 10, 12, 14, 16, 18, 20]

section

variable {x : UInt64} {q : ℚ} {d j l n : ℕ}

theorem abs_eq_units (h : 0 ≤ units x q) : |q| = units x q / one := by
  rw [← sign_mul_units x q, abs_mul, abs_sign, one_mul, sign_mul_units,
    abs_of_nonneg (div_nonneg h one_pos.le)]

theorem mul_one_eq (e : ℕ) (k : ℤ) :
    (e * 10 ^ k * one : ℚ) = e * (grid * 10 ^ (k + (324 : ℕ))) := by
  have hone : (one : ℚ) = grid * 10 ^ ((324 : ℕ) : ℤ) := by
    rw [one_eq, cast_grid, zpow_natCast]
  rw [hone, zpow_add₀ (by norm_num)]
  ring

theorem mem_candidates_iff (hfinite : exponentField x ≠ 2047) (hne : significand x ≠ 0) :
    q ∈ candidates x n ↔ (interval x).Fits grid n (units x q) := by
  constructor
  · rintro ⟨hround, e, k, he, habs⟩
    have hspans := spans_of_roundsTo hfinite hne hround
    refine ⟨hspans, e, k + (324 : ℕ), he, ?_⟩
    rwa [abs_eq_units (units_pos_of_spans hne hspans).le, div_eq_iff one_pos.ne',
      mul_one_eq] at habs
  · rintro ⟨hspans, e, k, he, hpoint⟩
    refine ⟨roundsTo_of_spans hne hspans, e, k - (324 : ℕ), he, ?_⟩
    rw [abs_eq_units (units_pos_of_spans hne hspans).le, hpoint, div_eq_iff one_pos.ne', mul_one_eq,
      sub_add_cancel]

theorem exists_units (x : UInt64) (y : ℚ) : ∃ q, units x q = y := by
  refine ⟨sign x * (y / one), ?_⟩
  rw [units, ← mul_assoc, sign_mul_sign, one_mul, div_mul_cancel₀ _ one_pos.ne']

theorem isNearest_iff (hfinite : exponentField x ≠ 2047) (hne : significand x ≠ 0) :
    IsNearest x n q ↔ (interval x).Fits grid n (units x q) ∧
      ∀ y, (interval x).Fits grid n y →
        |units x q - (interval x).middle| ≤ |y - (interval x).middle| := by
  have hcloser (r : ℚ) : |q - value x| ≤ |r - value x| ↔
      |units x q - (interval x).middle| ≤ |units x r - (interval x).middle| := by
    rw [abs_sub_value, abs_sub_value, div_le_div_iff_of_pos_right one_pos]
  constructor
  · rintro ⟨hmem, hnearest⟩
    refine ⟨(mem_candidates_iff hfinite hne).1 hmem, fun y hy => ?_⟩
    obtain ⟨r, rfl⟩ := exists_units x y
    exact (hcloser r).1 (hnearest r ((mem_candidates_iff hfinite hne).2 hy))
  · rintro ⟨hfits, hnearest⟩
    refine ⟨(mem_candidates_iff hfinite hne).2 hfits, fun r hr => ?_⟩
    exact (hcloser r).2 (hnearest _ ((mem_candidates_iff hfinite hne).1 hr))

theorem isNearest_of_beats (hfinite : exponentField x ≠ 2047) (hne : significand x ≠ 0)
    (hq : (interval x).Fits grid n (units x q))
    (hbeats : ∀ y, (interval x).Fits grid n y → Beats (interval x).middle (units x q) y) :
    IsNearest x n q ∧ ∀ r, IsNearest x n r → |r| ≤ |q| := by
  refine ⟨(isNearest_iff hfinite hne).2 ⟨hq, fun y hy => (hbeats y hy).abs_le⟩, fun r hr => ?_⟩
  obtain ⟨hfits, hnearest⟩ := (isNearest_iff hfinite hne).1 hr
  rw [abs_eq_units (units_pos_of_spans hne hfits.1).le,
    abs_eq_units (units_pos_of_spans hne hq.1).le, div_le_div_iff_of_pos_right one_pos]
  exact (hbeats _ hfits).le_of_abs_le (hnearest _ hq)

def written (x : UInt64) (d j : ℕ) : ℚ := sign x * ofUnits (d * (grid * Nat.pow 10 j))

theorem units_written : units x (written x d j) = d * (grid * 10 ^ (j : ℤ)) := by
  rw [written, units_sign_mul_ofUnits, Interval.cast_point]

theorem read?_text_eq (hfinite : exponentField x ≠ 2047) (hne : significand x ≠ 0) :
    ∃ d j, read? (text x).toList = some (written x d j) ∧
      (interval x).IsCoarsest grid d j := by
  obtain ⟨d, j, hread, hcoarsest⟩ := readMagnitude?_finiteText hne
  refine ⟨d, j, ?_, hcoarsest⟩
  have hnumber : isNaN x = false := by simp [isNaN, hfinite]
  rw [read?_text hnumber, magnitudeText, if_neg hfinite, if_neg hne, hread]
  rfl

theorem fits_written (h : (interval x).IsCoarsest grid d j) (hd : d < 10 ^ n) :
    (interval x).Fits grid n (units x (written x d j)) := by
  rw [units_written]
  exact ⟨Interval.spans_of_nearest h.nearest, d, j, hd, rfl⟩

theorem isLeast_digits (hfinite : exponentField x ≠ 2047) (hne : significand x ≠ 0)
    (h : (interval x).IsCoarsest grid d j) (hlow : 10 ^ l ≤ d) (hhigh : d < 10 ^ (l + 1)) :
    IsLeast {n | (candidates x n).Nonempty} (l + 1) := by
  constructor
  · exact ⟨written x d j, (mem_candidates_iff hfinite hne).2 (fits_written h hhigh)⟩
  · rintro n ⟨q, hq⟩
    exact h.lt_of_fits hlow ((mem_candidates_iff hfinite hne).1 hq)

/-! The intervals are narrow, save for the first hundred numbers. -/

theorem significand_of_subnormal (h : exponentField x = 0) : significand x = magnitude x := by
  rw [magnitude, shift, h, Nat.zero_sub, Nat.pow_eq, Nat.pow_zero, Nat.mul_one]

theorem lt_significand (h : 100 < magnitude x) : 100 < significand x := by
  by_cases hsubnormal : exponentField x = 0
  · rwa [significand_of_subnormal hsubnormal]
  · rw [significand_eq, if_neg hsubnormal]
    omega

theorem narrow_interval (h : 100 < magnitude x) :
    10 ^ 2 * ((interval x).high - (interval x).low : ℚ) < (interval x).low := by
  have hbelow : belowGap x ≤ 2 := by
    rw [belowGap]
    split <;> decide
  have hunit : 0 < 2 ^ shift x * tens := Nat.mul_pos (Nat.two_pow_pos _) tens_pos
  have hgap := Nat.mul_le_mul_right (2 ^ shift x * tens) hbelow
  have hfar := Nat.mul_le_mul_right (2 ^ shift x * tens) (lt_significand h)
  have hwide : 100 * (interval x).high < 101 * (interval x).low := by
    rw [low_eq, high_eq, middle_eq, magnitude, Nat.pow_eq]
    simp only [Nat.mul_assoc] at hgap hfar ⊢
    omega
  have hcast : (100 * (interval x).high : ℚ) < 101 * (interval x).low := by exact_mod_cast hwide
  linarith

theorem beats_of_narrow (hlarge : 100 < magnitude x) (h : (interval x).IsCoarsest grid d j)
    (hd : d < 10) {y : ℚ} (hy : (interval x).Fits grid 2 y) :
    Beats (interval x).middle (units x (written x d j)) y := by
  have hwritten : (interval x).Fits grid 2 (units x (written x d j)) := fits_written h (by omega)
  rw [hwritten.unique hy (narrow_interval hlarge)]
  exact Beats.refl _ _

theorem exponentField_of_magnitude (h : magnitude x ≤ 100) : exponentField x = 0 := by
  by_contra hne
  have hle := le_magnitude hne
  have hpos := Nat.two_pow_pos (shift x)
  omega

def subnormal (n : ℕ) : Interval where
  low := 4 * n * tens - 2 * tens
  middle := 4 * n * tens
  high := 4 * n * tens + 2 * tens
  closed := n % 2 = 0

theorem interval_of_subnormal (h : exponentField x = 0) : interval x = subnormal (magnitude x) := by
  have hquarter : quarter x = tens := by
    rw [quarter_eq, shift, h, Nat.zero_sub, Nat.pow_eq, Nat.pow_zero, Nat.one_mul]
  simp only [interval, subnormal, hquarter, significand_of_subnormal h, h]
  simp

theorem interval_of_magnitude (h : magnitude x ≤ 100) : interval x = subnormal (magnitude x) :=
  interval_of_subnormal (exponentField_of_magnitude h)

/-- For the first hundred numbers the search ends on one of three grids, so that it can be followed
number by number. -/
theorem of_search {P : ℕ → ℕ → ℕ → Bool}
    (hP : ∀ n < 101, ∀ j < 3, (subnormal n).nearest (grid * Nat.pow 10 (j + 1)) = none →
      ∀ d ∈ (subnormal n).nearest (grid * Nat.pow 10 j), P n d j = true)
    (hn : n < 101) (h : (subnormal n).IsCoarsest grid d j) : P n d j = true := by
  refine hP n hn j ?_ h.nearest_succ d h.nearest
  by_contra hj
  have hhigh := (Interval.bounds_of_contains (Interval.contains_nearest h.nearest)).2
  have hgrid : grid * Nat.pow 10 3 ≤ d * (grid * Nat.pow 10 j) := by
    refine le_trans ?_ (Nat.le_mul_of_pos_left _ h.pos)
    exact Nat.mul_le_mul_left grid (Nat.pow_le_pow_right (by decide) (not_lt.1 hj))
  have hlimit : 402 * tens < grid * Nat.pow 10 3 := by decide +kernel
  have hnumber : (subnormal n).high ≤ 402 * tens := by
    have hle := Nat.mul_le_mul_right tens (Nat.mul_le_mul_left 4 (Nat.le_of_lt_succ hn))
    simp only [subnormal]
    omega
  exact absurd (hgrid.trans (hhigh.trans hnumber)) (not_le.2 hlimit)

theorem clear_subnormal (hn : n < 101) (h : (subnormal n).IsCoarsest grid d j) (hd : d < 10) :
    (subnormal n).Clear grid j 0 := by
  have hcheck := of_search
    (P := fun n d j => decide (d < 10 → (subnormal n).isClear grid j 0 = true))
    (by decide +kernel) hn h
  exact Interval.clear_of_isClear (of_decide_eq_true hcheck hd)

/-- Unless the number is cut short, the zero behind the digit is the nearest second digit. -/
theorem second_digit (hn : n < 101) (h : (subnormal n).IsCoarsest grid d j) (hd : d < 10)
    (hmem : n ∉ cutShort) :
    ∃ k, j = k + 1 ∧ (subnormal n).nearest (grid * Nat.pow 10 k) = some (10 * d) ∧
      (subnormal n).Clear grid k 1 := by
  have hcheck := of_search
    (P := fun n d j => decide (d < 10 → n ∉ cutShort →
      j ≠ 0 ∧ (subnormal n).nearest (grid * Nat.pow 10 (j - 1)) = some (10 * d) ∧
        (subnormal n).isClear grid (j - 1) 1 = true))
    (by decide +kernel) hn h
  obtain ⟨hj, hnearest, hclear⟩ := of_decide_eq_true hcheck hd hmem
  exact ⟨j - 1, (Nat.succ_pred_eq_of_ne_zero hj).symm, hnearest, Interval.clear_of_isClear hclear⟩

/-- Whether a decimal with two digits, the last of them on one of the grids `10 ^ -1` and `10 ^ 0`,
lies in an interval below `d` points of the grid `10 ^ j`, and nearer to the middle. All is compared
in tenths. -/
def hasNearer (i : Interval) (d j : ℕ) : Bool :=
  (List.range 100).any fun e => (List.range 2).any fun t =>
    10 * i.low < e * (grid * Nat.pow 10 t) &&
      e * (grid * Nat.pow 10 t) < 10 * (d * (grid * Nat.pow 10 j)) &&
      20 * i.middle < e * (grid * Nat.pow 10 t) + 10 * (d * (grid * Nat.pow 10 j))

theorem hasNearer_subnormal (hn : n < 101) (h : (subnormal n).IsCoarsest grid d j)
    (hmem : n ∈ cutShort) : d < 10 ∧ hasNearer (subnormal n) d j = true := by
  have hcheck := of_search
    (P := fun n d j => decide (n ∈ cutShort → d < 10 ∧ hasNearer (subnormal n) d j = true))
    (by decide +kernel) hn h
  exact of_decide_eq_true hcheck hmem

theorem exists_nearer {i : Interval} (h : hasNearer i d j = true)
    (hspans : i.Spans (d * (grid * 10 ^ (j : ℤ)))) :
    ∃ y, i.Fits grid 2 y ∧ y < d * (grid * 10 ^ (j : ℤ)) ∧
      2 * i.middle < y + d * (grid * 10 ^ (j : ℤ)) := by
  simp only [hasNearer, List.any_eq_true, List.mem_range, Bool.and_eq_true, decide_eq_true_eq] at h
  obtain ⟨e, he, t, _, ⟨hlow, hbelow⟩, hmiddle⟩ := h
  have htenth : (10 * (e * (grid * 10 ^ (t - 1 : ℤ))) : ℚ) = e * (grid * 10 ^ t) := by
    rw [zpow_sub_one₀ (by norm_num), zpow_natCast]
    ring
  rw [← Nat.cast_lt (α := ℚ)] at hlow hbelow hmiddle
  push_cast [cast_pow] at hlow hbelow hmiddle
  have hhigh := (Interval.bounds_of_spans hspans).2
  rw [zpow_natCast] at hhigh ⊢
  refine ⟨e * (grid * 10 ^ (t - 1 : ℤ)), ⟨Interval.spans_of_inside ?_ ?_, e, _, he, rfl⟩, ?_, ?_⟩
  all_goals linarith

theorem beats_written (h : (interval x).IsCoarsest grid d j) (hlow : 10 ^ l ≤ d)
    (hhigh : d < 10 ^ (l + 1)) {y : ℚ} (hy : (interval x).Fits grid (l + 1) y) :
    Beats (interval x).middle (units x (written x d j)) y := by
  rcases eq_or_ne l 0 with rfl | hl
  · rcases le_or_gt (magnitude x) 100 with hsmall | hlarge
    · have hclear : (interval x).Clear grid j 0 := by
        rw [interval_of_magnitude hsmall] at h ⊢
        exact clear_subnormal (Nat.lt_succ_of_le hsmall) h hhigh
      rw [units_written]
      exact hclear.beats grid_pos h.nearest hlow hy
    · exact beats_of_narrow hlarge h hhigh (hy.mono (by decide))
  · rw [units_written]
    exact (h.clear hl hlow).beats grid_pos h.nearest hlow hy

theorem beats_of_not_cutShort (h : (interval x).IsCoarsest grid d j) (hd : d < 10)
    (hmem : magnitude x ∉ cutShort) {y : ℚ} (hy : (interval x).Fits grid 2 y) :
    Beats (interval x).middle (units x (written x d j)) y := by
  rcases le_or_gt (magnitude x) 100 with hsmall | hlarge
  · rw [units_written]
    rw [interval_of_magnitude hsmall] at h hy ⊢
    obtain ⟨k, rfl, hnearest, hclear⟩ := second_digit (Nat.lt_succ_of_le hsmall) h hd hmem
    have hpos := h.pos
    have hpoint : (d * (grid * 10 ^ ((k + 1 : ℕ) : ℤ)) : ℚ) =
        (10 * d : ℕ) * (grid * 10 ^ (k : ℤ)) := by
      rw [Nat.cast_succ, zpow_add_one₀ (by norm_num)]
      push_cast
      ring
    rw [hpoint]
    exact hclear.beats grid_pos hnearest (by omega) hy
  · exact beats_of_narrow hlarge h hd hy

theorem le_of_mem_cutShort : ∀ n ∈ cutShort, n ≤ 100 := by decide

theorem of_cutShort (hfinite : exponentField x ≠ 2047) (hne : significand x ≠ 0)
    (h : (interval x).IsCoarsest grid d j) (hmem : magnitude x ∈ cutShort) :
    d < 10 ∧ ¬ IsNearest x 2 (written x d j) := by
  have hsmall := le_of_mem_cutShort _ hmem
  have hsubnormal := interval_of_magnitude hsmall
  rw [hsubnormal] at h
  obtain ⟨hd, hnearer⟩ := hasNearer_subnormal (Nat.lt_succ_of_le hsmall) h hmem
  refine ⟨hd, fun hnearest => ?_⟩
  obtain ⟨y, hy, hlt, hmiddle⟩ := exists_nearer hnearer (Interval.spans_of_nearest h.nearest)
  rw [← hsubnormal] at hy hmiddle
  have hle := ((isNearest_iff hfinite hne).1 hnearest).2 y hy
  rw [units_written] at hle
  exact absurd ((Beats.of_gt hlt hmiddle).le_of_abs_le hle) hlt.not_ge

end

/-- A finite number other than zero is written with the fewest digits that are rounded to it, as the
nearest such decimal and as the larger of two that are equally near. It is also the nearest with at
least two digits, unless the number is cut short. -/
theorem text_fewest_digits (x : UInt64) (hfinite : exponentField x ≠ 2047) (hvalue : value x ≠ 0) :
    ∃ q m, read? (text x).toList = some q ∧ IsLeast {n | (candidates x n).Nonempty} m ∧
      IsNearest x m q ∧ (∀ r, IsNearest x m r → |r| ≤ |q|) ∧
      (IsNearest x (max m 2) q ↔ magnitude x ∉ cutShort) := by
  have hne : significand x ≠ 0 := mt (value_eq_zero_iff x).2 hvalue
  obtain ⟨d, j, hread, hfound⟩ := read?_text_eq hfinite hne
  have hlow := Nat.pow_log_le_self 10 hfound.pos.ne'
  have hhigh := Nat.lt_pow_succ_log_self (by decide : 1 < 10) d
  generalize Nat.log 10 d = l at hlow hhigh
  obtain ⟨hnearest, hlargest⟩ := isNearest_of_beats hfinite hne (fits_written hfound hhigh)
    fun y => beats_written hfound hlow hhigh
  refine ⟨written x d j, l + 1, hread, isLeast_digits hfinite hne hfound hlow hhigh, hnearest,
    hlargest, ?_⟩
  rcases eq_or_ne l 0 with rfl | hl
  · constructor
    · exact fun hsecond hmem => (of_cutShort hfinite hne hfound hmem).2 hsecond
    · intro hmem
      exact (isNearest_of_beats hfinite hne (fits_written hfound (by omega))
        fun y => beats_of_not_cutShort hfound hhigh hmem).1
  · have hdigits : 10 ^ 1 ≤ 10 ^ l := Nat.pow_le_pow_right (by decide) (by omega)
    rw [max_eq_left (by omega)]
    refine ⟨fun _ hmem => ?_, fun _ => hnearest⟩
    have hd := (of_cutShort hfinite hne hfound hmem).1
    omega

theorem text_fewest_digits_four :
    text 9223372036854775812 = "-2.0E-323" ∧
      (exponentField 9223372036854775812 ≠ 2047 ∧ value 9223372036854775812 ≠ 0) ∧
      ∃ q m, read? "-2.0E-323".toList = some q ∧
        IsLeast {n | (candidates 9223372036854775812 n).Nonempty} m ∧
        IsNearest 9223372036854775812 m q ∧ IsNearest 9223372036854775812 (max m 2) q := by
  have htext : text 9223372036854775812 = "-2.0E-323" := by decide +kernel
  have hfinite : exponentField 9223372036854775812 ≠ 2047 := by decide
  have hvalue : value 9223372036854775812 ≠ 0 := mt (value_eq_zero_iff _).1 (by decide)
  obtain ⟨q, m, hread, hleast, hnearest, _, hsecond⟩ := text_fewest_digits _ hfinite hvalue
  rw [htext] at hread
  exact ⟨htext, ⟨hfinite, hvalue⟩, q, m, hread, hleast, hnearest, hsecond.2 (by decide)⟩

/-- The least number is written with one digit, and not as the nearest decimal with two. -/
theorem least_number_cut_short :
    text 1 = "5.0E-324" ∧ ¬ ∃ q m, read? (text 1).toList = some q ∧
      IsLeast {n | (candidates 1 n).Nonempty} m ∧ IsNearest 1 (max m 2) q := by
  refine ⟨by decide +kernel, ?_⟩
  rintro ⟨q, m, hread, hleast, hnearest⟩
  have hfinite : exponentField 1 ≠ 2047 := by decide
  have hne : significand 1 ≠ 0 := by decide
  obtain ⟨d, j, hread', hfound⟩ := read?_text_eq hfinite hne
  obtain ⟨hd, hnot⟩ := of_cutShort hfinite hne hfound (by decide)
  obtain rfl : written 1 d j = q := Option.some.inj (hread'.symm.trans hread)
  obtain rfl : m = 1 := hleast.unique (isLeast_digits hfinite hne hfound hfound.pos hd)
  exact hnot hnearest

-- 2 ^ 23 + 2 ^ -10 lies halfway between the decimals that end in 2 and in 3. On a tie the last
-- digit is that of the larger one, even or odd.
example : text 4710765210230063104 = "8388608.000976563" := by decide +kernel

end Provenance.Double
