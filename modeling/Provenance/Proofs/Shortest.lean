import Mathlib.Algebra.Order.Field.Power
import Provenance.Proofs.Rounding

/-!
The search for the shortest decimal in an interval. The search ends on the coarsest grid that has a
point in the interval. No decimal in the interval has fewer digits than the point it finds, and of
those with as many digits none is nearer to the middle, unless the interval reaches so far down over
a power of ten that numbers from the finer grid below it compete.
-/

set_option autoImplicit false

namespace Provenance.Decimal

/-- The first of two numbers is nearer to the middle, or as near as the second and not below it. -/
def Beats (middle x y : ℚ) : Prop :=
  |x - middle| < |y - middle| ∨ |x - middle| = |y - middle| ∧ y ≤ x

namespace Beats

variable {m x y z : ℚ}

theorem refl (m x : ℚ) : Beats m x x := Or.inr ⟨rfl, le_rfl⟩

theorem abs_le (h : Beats m x y) : |x - m| ≤ |y - m| := by
  rcases h with hlt | ⟨heq, _⟩
  · exact hlt.le
  · exact heq.le

theorem le_of_abs_le (h : Beats m x y) (hle : |y - m| ≤ |x - m|) : y ≤ x := by
  rcases h with hlt | ⟨_, hle'⟩
  · exact absurd hle hlt.not_ge
  · exact hle'

theorem trans (h : Beats m x y) (h' : Beats m y z) : Beats m x z := by
  rcases h with hlt | ⟨heq, hle⟩
  · exact Or.inl (hlt.trans_le h'.abs_le)
  · rcases h' with hlt' | ⟨heq', hle'⟩
    · exact Or.inl (heq.trans_lt hlt')
    · exact Or.inr ⟨heq.trans heq', hle'.trans hle⟩

theorem of_lt (h : y < x) (hmiddle : x + y ≤ 2 * m) : Beats m x y := by
  have hle : |x - m| ≤ |y - m| := by
    rw [abs_sub_comm x, abs_sub_comm y, Double.abs_sub_le_abs_sub_iff]
    exact mul_nonneg_of_nonpos_of_nonpos (by linarith) (by linarith)
  rcases hle.lt_or_eq with hlt | heq
  · exact Or.inl hlt
  · exact Or.inr ⟨heq, h.le⟩

theorem of_gt (h : x < y) (hmiddle : 2 * m < x + y) : Beats m x y := by
  refine Or.inl ?_
  rw [abs_sub_comm x, abs_sub_comm y, Double.abs_sub_lt_abs_sub_iff]
  exact mul_pos (by linarith) (by linarith)

end Beats

namespace Interval

variable {i : Interval} {step d : Nat}

/-- Of the two neighbours of the middle, one is taken only if it lies in the interval, and before
the other only if that lies outside or is not nearer. -/
theorem nearest_cases (h : i.nearest step = some d) :
    d = i.middle / step ∧ i.contains (d * step) = true ∧
        (i.contains ((d + 1) * step) = true → 2 * (i.middle - d * step) < step) ∨
      d = i.middle / step + 1 ∧ i.contains (d * step) = true ∧
        (i.contains (i.middle / step * step) = true →
          step ≤ 2 * (i.middle - i.middle / step * step)) := by
  simp only [nearest] at h
  split at h
  · rename_i hdown
    split at h
    · rename_i hup
      obtain rfl := Option.some.inj h
      exact Or.inr ⟨rfl, hup.1, fun _ => hup.2⟩
    · rename_i hup
      obtain rfl := Option.some.inj h
      exact Or.inl ⟨rfl, hdown, fun hcontains => Nat.lt_of_not_le fun hle => hup ⟨hcontains, hle⟩⟩
  · rename_i hdown
    split at h
    · rename_i hup
      obtain rfl := Option.some.inj h
      exact Or.inr ⟨rfl, hup, fun hcontains => absurd hcontains hdown⟩
    · simp at h

theorem contains_nearest (h : i.nearest step = some d) : i.contains (d * step) = true := by
  rcases nearest_cases h with ⟨_, hcontains, _⟩ | ⟨_, hcontains, _⟩ <;> exact hcontains

theorem spans_of_inside {y : ℚ} (hlow : i.low < y) (hhigh : y < i.high) : i.Spans y := by
  unfold Spans
  split
  · exact ⟨hlow.le, hhigh.le⟩
  · exact ⟨hlow, hhigh⟩

theorem Spans.between {x y z : ℚ} (hx : i.Spans x) (hz : i.Spans z) (hxy : x ≤ y) (hyz : y ≤ z) :
    i.Spans y := by
  unfold Spans at *
  split at hx
  · rename_i hclosed
    simp only [hclosed, if_true] at hz ⊢
    exact ⟨hx.1.trans hxy, hyz.trans hz.2⟩
  · rename_i hopen
    simp only [hopen] at hz ⊢
    exact ⟨hx.1.trans_le hxy, hyz.trans_lt hz.2⟩

theorem contains_between {x y z : Nat} (hx : i.contains x = true) (hz : i.contains z = true)
    (hxy : x ≤ y) (hyz : y ≤ z) : i.contains y = true := by
  rw [← spans_natCast] at hx hz ⊢
  exact hx.between hz (Nat.cast_le.2 hxy) (Nat.cast_le.2 hyz)

theorem beats_of_nearest (hstep : 0 < step) (h : i.nearest step = some d) {e : Nat}
    (he : i.contains (e * step) = true) :
    Beats i.middle ((d * step : Nat) : ℚ) ((e * step : Nat) : ℚ) := by
  have hdown : i.middle / step * step ≤ i.middle := Nat.div_mul_le_self _ _
  have hup : i.middle < i.middle / step * step + step := Nat.lt_div_mul_add hstep
  rcases Nat.lt_trichotomy e d with hlt | rfl | hgt
  · have hle : e * step + step ≤ d * step := by
      rw [← Nat.succ_mul]
      exact Nat.mul_le_mul_right step hlt
    suffices hmiddle : d * step + e * step ≤ 2 * i.middle by
      exact Beats.of_lt (by exact_mod_cast (by omega : e * step < d * step))
        (by exact_mod_cast hmiddle)
    rcases nearest_cases h with ⟨rfl, _, _⟩ | ⟨rfl, hcontains, hnearer⟩
    · omega
    · rw [Nat.succ_mul (i.middle / step)] at hle hcontains ⊢
      have hother := hnearer (contains_between he hcontains (by omega) (by omega))
      omega
  · exact Beats.refl _ _
  · have hle : d * step + step ≤ e * step := by
      rw [← Nat.succ_mul]
      exact Nat.mul_le_mul_right step hgt
    suffices hmiddle : 2 * i.middle < d * step + e * step by
      exact Beats.of_gt (by exact_mod_cast (by omega : d * step < e * step))
        (by exact_mod_cast hmiddle)
    rcases nearest_cases h with ⟨rfl, hcontains, hnearer⟩ | ⟨rfl, _, _⟩
    · rw [Nat.succ_mul] at hnearer
      have hother := hnearer (contains_between hcontains he (by omega) hle)
      omega
    · rw [Nat.succ_mul (i.middle / step)] at hle ⊢
      omega

structure Proper (i : Interval) : Prop where
  low_pos : 0 < i.low
  low_le : i.low ≤ i.middle
  lt_high : i.middle < i.high

theorem Proper.contains_toward (hi : i.Proper) {x y : Nat} (hx : i.contains x = true)
    (h : x ≤ y ∧ y ≤ i.middle ∨ i.middle < y ∧ y ≤ x) : i.contains y = true := by
  have hlow := hi.low_le
  have hhigh := hi.lt_high
  simp only [contains] at hx ⊢
  split at hx
  · rename_i hclosed
    simp only [if_pos hclosed, Bool.and_eq_true, decide_eq_true_eq] at hx ⊢
    omega
  · rename_i hopen
    simp only [if_neg hopen, Bool.and_eq_true, decide_eq_true_eq] at hx ⊢
    omega

/-- If a grid has a point in the interval then one is found: one of the neighbours of the middle
lies between the middle and that point. -/
theorem Proper.isSome_nearest (hi : i.Proper) (hstep : 0 < step) {e : Nat}
    (he : i.contains (e * step) = true) : (i.nearest step).isSome = true := by
  have hdown : i.middle / step * step ≤ i.middle := Nat.div_mul_le_self _ _
  have hup : i.middle < (i.middle / step + 1) * step := by
    rw [Nat.succ_mul]
    exact Nat.lt_div_mul_add hstep
  have hneighbour : i.contains (i.middle / step * step) = true ∨
      i.contains ((i.middle / step + 1) * step) = true := by
    rcases Nat.lt_or_ge (i.middle / step) e with hlt | hge
    · exact Or.inr (hi.contains_toward he (Or.inr ⟨hup, Nat.mul_le_mul_right step hlt⟩))
    · exact Or.inl (hi.contains_toward he (Or.inl ⟨Nat.mul_le_mul_right step hge, hdown⟩))
  simp only [nearest]
  split
  · split <;> rfl
  · rename_i hnot
    rw [if_pos (hneighbour.resolve_left hnot)]
    rfl

theorem Proper.contains_down (hi : i.Proper) (hstep : 0 < step) (h : i.low + step ≤ i.middle) :
    i.contains (i.middle / step * step) = true := by
  have hdown : i.middle / step * step ≤ i.middle := Nat.div_mul_le_self _ _
  have hup : i.middle < i.middle / step * step + step := Nat.lt_div_mul_add hstep
  have hhigh := hi.lt_high
  unfold contains
  split <;> simp <;> omega

/-- A point of the grid `step · 10 ^ j`, in an interval that all coarser grids leave out. -/
structure IsCoarsest (i : Interval) (step d j : Nat) : Prop where
  nearest : i.nearest (step * Nat.pow 10 j) = some d
  coarser : ∀ k > j, ∀ e, i.contains (e * (step * Nat.pow 10 k)) = false

theorem mul_natPow_pos (hstep : 0 < step) (j : Nat) : 0 < step * Nat.pow 10 j :=
  Nat.mul_pos hstep (Double.natPow_pos (by decide) j)

theorem Proper.isCoarsest_of_coarser (hi : i.Proper) (hstep : 0 < step)
    (h : (i.nearest step).isSome = true) (n : Nat)
    (hcoarser : ∀ k > n, ∀ e, i.contains (e * (step * Nat.pow 10 k)) = false) :
    i.IsCoarsest step (i.coarsest step n).1 (i.coarsest step n).2 := by
  induction n with
  | zero =>
    obtain ⟨d, hd⟩ := Option.isSome_iff_exists.1 h
    simp only [coarsest, hd, Option.getD_some]
    exact ⟨by simpa using hd, hcoarser⟩
  | succ n ih =>
    rw [coarsest]
    split
    · rename_i d hd
      exact ⟨hd, hcoarser⟩
    · rename_i hnone
      refine ih fun k hk e => ?_
      rcases Nat.lt_or_eq_of_le (Nat.succ_le_of_lt hk) with hlt | rfl
      · exact hcoarser k hlt e
      · by_contra he
        rw [Bool.not_eq_false] at he
        have hsome := hi.isSome_nearest (mul_natPow_pos hstep (n + 1)) he
        rw [hnone] at hsome
        exact absurd hsome Bool.false_ne_true

/-- The search ends on the coarsest grid with a point in the interval, if it begins behind the upper
end and the finest grid has a point there. -/
theorem Proper.isCoarsest_coarsest (hi : i.Proper) (hstep : 0 < step)
    (h : (i.nearest step).isSome = true) {n : Nat} (hhigh : i.high < step * Nat.pow 10 (n + 1)) :
    i.IsCoarsest step (i.coarsest step n).1 (i.coarsest step n).2 := by
  refine hi.isCoarsest_of_coarser hstep h n fun k hk e => ?_
  by_contra he
  rw [Bool.not_eq_false] at he
  obtain ⟨hlow, hhigh'⟩ := bounds_of_contains he
  have hpow : Nat.pow 10 (n + 1) ≤ Nat.pow 10 k := Nat.pow_le_pow_right (by decide) hk
  rcases Nat.eq_zero_or_pos e with rfl | he'
  · have hpos := hi.low_pos
    omega
  · have hfar : i.high < e * (step * Nat.pow 10 k) :=
      calc i.high < step * Nat.pow 10 (n + 1) := hhigh
        _ ≤ step * Nat.pow 10 k := Nat.mul_le_mul_left step hpow
        _ ≤ e * (step * Nat.pow 10 k) := Nat.le_mul_of_pos_left _ he'
    omega

/-! Decimals with a bounded number of digits, on grids of any fineness. -/

def Fits (i : Interval) (step n : Nat) (y : ℚ) : Prop :=
  i.Spans y ∧ ∃ (e : ℕ) (k : ℤ), e < 10 ^ n ∧ y = e * (step * 10 ^ k)

theorem cast_point (e step j : Nat) :
    ((e * (step * Nat.pow 10 j) : ℕ) : ℚ) = e * (step * 10 ^ (j : ℤ)) := by
  simp only [Nat.cast_mul, Double.cast_pow, Nat.cast_ofNat, zpow_natCast]

theorem exists_finer (e step : Nat) {a b : ℤ} (h : b ≤ a) :
    ∃ f : ℕ, (e * (step * 10 ^ a) : ℚ) = f * (step * 10 ^ b) := by
  obtain ⟨n, rfl⟩ := Int.le.dest h
  refine ⟨e * 10 ^ n, ?_⟩
  rw [zpow_add₀ (by norm_num), zpow_natCast]
  push_cast
  ring

theorem spans_of_nearest {j : Nat} (h : i.nearest (step * Nat.pow 10 j) = some d) :
    i.Spans (d * (step * 10 ^ (j : ℤ))) := by
  rw [← cast_point, spans_natCast]
  exact contains_nearest h

namespace IsCoarsest

variable {j l n : Nat} {y : ℚ}

theorem contains_zero (h : i.IsCoarsest step d j) : i.contains 0 = false := by
  simpa using h.coarser (j + 1) (by omega) 0

theorem pos (h : i.IsCoarsest step d j) : 0 < d := by
  refine Nat.pos_of_ne_zero fun hzero => ?_
  have hcontains := contains_nearest h.nearest
  rw [hzero, Nat.zero_mul, h.contains_zero] at hcontains
  exact Bool.false_ne_true hcontains

theorem nearest_succ (h : i.IsCoarsest step d j) :
    i.nearest (step * Nat.pow 10 (j + 1)) = none := by
  refine Option.eq_none_iff_forall_ne_some.2 fun e he => ?_
  have hcontains := contains_nearest he
  rw [h.coarser (j + 1) (by omega) e] at hcontains
  exact Bool.false_ne_true hcontains

/-- What lies in the interval is larger than the power of ten below the point, since that would be a
point of a coarser grid. -/
theorem pow_lt (h : i.IsCoarsest step d j) (hl : l ≠ 0) (hd : 10 ^ l ≤ d) (hy : i.Spans y) :
    10 ^ l * (step * 10 ^ (j : ℤ)) < y := by
  by_contra hle
  have hpow : i.Spans (10 ^ l * (step * 10 ^ (j : ℤ))) := by
    refine hy.between (spans_of_nearest h.nearest) (not_lt.1 hle) ?_
    gcongr
    exact_mod_cast hd
  have hpoint : (10 ^ l * (step * 10 ^ (j : ℤ)) : ℚ) = (1 * (step * Nat.pow 10 (j + l)) : ℕ) := by
    rw [cast_point, Nat.cast_add, zpow_add₀ (by norm_num), zpow_natCast, zpow_natCast]
    ring
  rw [hpoint, spans_natCast, h.coarser (j + l) (by omega) 1] at hpow
  exact Bool.false_ne_true hpow

theorem lt_of_fits (h : i.IsCoarsest step d j) (hd : 10 ^ l ≤ d) (hy : i.Fits step n y) :
    l < n := by
  obtain ⟨hspans, e, k, he, rfl⟩ := hy
  by_contra hn
  have he' : e < 10 ^ l := he.trans_le (Nat.pow_le_pow_right (by decide) (not_lt.1 hn))
  rcases lt_or_ge (j : ℤ) k with hcoarse | hfine
  · lift k to ℕ using by omega
    rw [← cast_point, spans_natCast, h.coarser k (by omega) e] at hspans
    exact Bool.false_ne_true hspans
  · rcases eq_or_ne l 0 with rfl | hl
    · obtain rfl : e = 0 := Nat.lt_one_iff.1 he'
      rw [Nat.cast_zero, zero_mul, ← Nat.cast_zero, spans_natCast, h.contains_zero] at hspans
      exact Bool.false_ne_true hspans
    · have hdigits : (e : ℚ) ≤ 10 ^ l := by exact_mod_cast he'.le
      have hle : (e * (step * 10 ^ k) : ℚ) ≤ 10 ^ l * (step * 10 ^ (j : ℤ)) := by
        gcongr
        norm_num
      exact absurd (h.pow_lt hl hd hspans) hle.not_gt

end IsCoarsest

/-- Where the interval reaches down over the power of ten `10 ^ l` of a grid, to the decimals with
`l + 1` digits on the finer grids, these are further from the middle than the power of ten. -/
def Clear (i : Interval) (step j l : Nat) : Prop :=
  ∀ y, i.Spans y → 10 * y + step * 10 ^ (j : ℤ) ≤ 10 ^ (l + 1) * (step * 10 ^ (j : ℤ)) →
    y + 10 ^ l * (step * 10 ^ (j : ℤ)) ≤ 2 * i.middle

theorem IsCoarsest.clear {j l : Nat} (h : i.IsCoarsest step d j) (hl : l ≠ 0) (hd : 10 ^ l ≤ d) :
    i.Clear step j l := by
  intro y hy hle
  have hlt := h.pow_lt hl hd hy
  have hunit : (0 : ℚ) ≤ step * 10 ^ (j : ℤ) := by positivity
  rw [pow_succ] at hle
  linarith

/-- As `Clear`, by way of the largest decimal that can lie so far down. -/
def isClear (i : Interval) (step j l : Nat) : Bool :=
  let unit := step * Nat.pow 10 j
  Nat.pow 10 (l + 1) * unit < 10 * i.low + unit ||
    2 * Nat.pow 10 (l + 1) * unit ≤ 20 * i.middle + unit

theorem clear_of_isClear {j l : Nat} (h : i.isClear step j l = true) : i.Clear step j l := by
  have hunit : (step * 10 ^ (j : ℤ) : ℚ) = ((step * Nat.pow 10 j : ℕ) : ℚ) := by
    simp only [Nat.cast_mul, Double.cast_pow, Nat.cast_ofNat, zpow_natCast]
  intro y hy hle
  simp only [isClear, Bool.or_eq_true, decide_eq_true_eq] at h
  rw [hunit] at hle ⊢
  generalize step * Nat.pow 10 j = unit at h hle ⊢
  have hlow := (bounds_of_spans hy).1
  rcases h with hshort | hfar
  · have hshort' : (10 ^ (l + 1) * unit : ℚ) < 10 * i.low + unit := by exact_mod_cast hshort
    linarith
  · have hfar' : (2 * 10 ^ (l + 1) * unit : ℚ) ≤ 20 * i.middle + unit := by exact_mod_cast hfar
    rw [pow_succ] at hle hfar'
    linarith

theorem ten_mul_add_le (step : Nat) {e j l : Nat} {k : ℤ} (he : e < 10 ^ (l + 1)) (hk : k < j) :
    10 * (e * (step * 10 ^ k)) + step * 10 ^ (j : ℤ) ≤
      10 ^ (l + 1) * (step * 10 ^ (j : ℤ) : ℚ) := by
  have hdigits : (e + 1 : ℚ) ≤ 10 ^ (l + 1) := by exact_mod_cast he
  have hpow : (10 : ℚ) * 10 ^ k ≤ 10 ^ (j : ℤ) := by
    rw [← zpow_one_add₀ (by norm_num)]
    exact zpow_le_zpow_right₀ (by norm_num) (by omega)
  calc (10 * (e * (step * 10 ^ k)) + step * 10 ^ (j : ℤ) : ℚ)
      = e * (step * (10 * 10 ^ k)) + step * 10 ^ (j : ℤ) := by ring
    _ ≤ e * (step * 10 ^ (j : ℤ)) + step * 10 ^ (j : ℤ) := by gcongr
    _ = (e + 1) * (step * 10 ^ (j : ℤ)) := by ring
    _ ≤ 10 ^ (l + 1) * (step * 10 ^ (j : ℤ)) := by gcongr

/-- The point that is found on a grid beats all decimals with no more digits than it has. -/
theorem Clear.beats {j l : Nat} {y : ℚ} (hclear : i.Clear step j l) (hstep : 0 < step)
    (h : i.nearest (step * Nat.pow 10 j) = some d) (hd : 10 ^ l ≤ d)
    (hy : i.Fits step (l + 1) y) : Beats i.middle (d * (step * 10 ^ (j : ℤ))) y := by
  obtain ⟨hspans, e, k, he, rfl⟩ := hy
  have hgrid (f : ℕ) (hf : i.Spans (f * (step * 10 ^ (j : ℤ)))) :
      Beats i.middle (d * (step * 10 ^ (j : ℤ))) (f * (step * 10 ^ (j : ℤ))) := by
    rw [← cast_point, spans_natCast] at hf
    rw [← cast_point, ← cast_point]
    exact beats_of_nearest (mul_natPow_pos hstep j) h hf
  rcases le_or_gt (j : ℤ) k with hcoarse | hfine
  · obtain ⟨f, hf⟩ := exists_finer e step hcoarse
    rw [hf] at hspans ⊢
    exact hgrid f hspans
  · -- The decimal lies below the power of ten, which is a point of the grid.
    have hle := ten_mul_add_le step he hfine
    have hunit : (0 : ℚ) < step * 10 ^ (j : ℤ) := by positivity
    have hlt : (e * (step * 10 ^ k) : ℚ) < (10 ^ l : ℕ) * (step * 10 ^ (j : ℤ)) := by
      rw [pow_succ] at hle
      push_cast
      linarith
    have hpow : i.Spans ((10 ^ l : ℕ) * (step * 10 ^ (j : ℤ))) := by
      refine hspans.between (spans_of_nearest h) hlt.le ?_
      gcongr
    refine (hgrid _ hpow).trans (Beats.of_lt hlt ?_)
    have hfar := hclear _ hspans hle
    push_cast
    linarith

theorem Fits.mono {m n : Nat} {y : ℚ} (hy : i.Fits step m y) (h : m ≤ n) : i.Fits step n y := by
  obtain ⟨hspans, e, k, he, hpoint⟩ := hy
  exact ⟨hspans, e, k, he.trans_le (Nat.pow_le_pow_right (by decide) h), hpoint⟩

theorem le_sub_of_mul_lt {e f : ℕ} {unit : ℚ} (hunit : 0 ≤ unit) (h : e * unit < f * unit) :
    unit ≤ f * unit - e * unit := by
  have hlt : e < f := by exact_mod_cast lt_of_mul_lt_mul_right h hunit
  have hcount : (e + 1 : ℚ) ≤ f := by exact_mod_cast hlt
  linarith [mul_le_mul_of_nonneg_right hcount hunit]

theorem Fits.le_mul_sub {n : Nat} {x y : ℚ} (hx : i.Fits step n x) (hy : i.Fits step n y)
    (h : x < y) : y ≤ 10 ^ n * (y - x) := by
  obtain ⟨_, e, a, he, rfl⟩ := hx
  obtain ⟨_, f, b, hf, rfl⟩ := hy
  have hunit (c : ℤ) : (0 : ℚ) ≤ step * 10 ^ c := by positivity
  -- Both are whole multiples of the finer of their units, and one of them is a small multiple.
  rcases le_total a b with hab | hba
  · obtain ⟨f', hf'⟩ := exists_finer f step hab
    rw [hf'] at h ⊢
    have hgap := le_sub_of_mul_lt (hunit a) h
    have he' : (e : ℚ) ≤ 10 ^ n - 1 := by
      rw [le_sub_iff_add_le]
      exact_mod_cast he
    have hsmall := mul_le_mul he' hgap (hunit a) (he'.trans' (Nat.cast_nonneg e))
    linarith
  · obtain ⟨e', he'⟩ := exists_finer e step hba
    rw [he'] at h ⊢
    have hf' : (f : ℚ) ≤ 10 ^ n := by exact_mod_cast hf.le
    exact mul_le_mul hf' (le_sub_of_mul_lt (hunit b) h) (hunit b) (by positivity)

theorem Fits.unique {n : Nat} {x y : ℚ} (hx : i.Fits step n x) (hy : i.Fits step n y)
    (h : 10 ^ n * (i.high - i.low : ℚ) < i.low) : x = y := by
  have hle {x y : ℚ} (hx : i.Fits step n x) (hy : i.Fits step n y) : y ≤ x := by
    by_contra hlt
    have hgap := hx.le_mul_sub hy (not_le.1 hlt)
    have hxlow := (bounds_of_spans hx.1).1
    have hyhigh := (bounds_of_spans hy.1).2
    have hwidth : 10 ^ n * (y - x) ≤ 10 ^ n * (i.high - i.low : ℚ) := by gcongr
    linarith
  exact le_antisymm (hle hy hx) (hle hx hy)

end Interval

end Provenance.Decimal
