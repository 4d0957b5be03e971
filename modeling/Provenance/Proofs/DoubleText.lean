import Provenance.Constant
import Provenance.Proofs.Decimals
import Provenance.Proofs.Shortest

set_option autoImplicit false

namespace Provenance.Double

open Decimal

theorem grid_pos : 0 < grid := by
  unfold grid
  apply natPow_pos
  decide

theorem cast_grid : (grid : ℚ) = 2 ^ 1076 := by
  unfold grid
  simp only [cast_pow, Nat.cast_ofNat]

theorem grid_le_tens : grid ≤ tens := by
  decide +kernel

/-- Between a number and the lower end of its interval there is room for the finest decimals. -/
theorem low_add_tens_le {bits : UInt64} (h : significand bits ≠ 0) :
    (interval bits).low + tens ≤ (interval bits).middle := by
  have hlow := low_pos h
  have hbelow : 1 ≤ belowGap bits * 2 ^ shift bits := by
    refine Nat.mul_pos ?_ (Nat.two_pow_pos _)
    rw [belowGap]
    split <;> omega
  have htens := Nat.mul_le_mul_right tens hbelow
  rw [low_eq] at hlow ⊢
  omega

theorem proper_interval {bits : UInt64} (h : significand bits ≠ 0) : (interval bits).Proper where
  low_pos := low_pos h
  low_le := low_le_middle bits
  lt_high := by
    rw [high_eq]
    exact Nat.lt_add_of_pos_right
      (Nat.mul_pos (Nat.mul_pos (by decide) (Nat.two_pow_pos _)) tens_pos)

theorem isSome_nearest_grid {bits : UInt64} (h : significand bits ≠ 0) :
    ((interval bits).nearest grid).isSome = true := by
  have hroom := low_add_tens_le h
  have hgrid := grid_le_tens
  have hproper := proper_interval h
  exact hproper.isSome_nearest grid_pos (hproper.contains_down grid_pos (by omega))

theorem high_lt {bits : UInt64} {n bound : Nat} (h : exponentField bits ≤ n)
    (hbound : 4 * (4503599627370496 * Nat.pow 2 n) * tens < bound) :
    (interval bits).high < bound := by
  have hexponent : 2 ^ exponentField bits ≤ Nat.pow 2 n := Nat.pow_le_pow_right (by decide) h
  have hgap := magnitude_add_gap_le bits
  have hhigh : (interval bits).high = (4 * magnitude bits + 2 * 2 ^ shift bits) * tens := by
    rw [high_eq, middle_eq, Nat.add_mul]
  rw [hhigh]
  exact lt_of_le_of_lt (Nat.mul_le_mul_right tens (by omega)) hbound

theorem high_lt_grid (bits : UInt64) : (interval bits).high < grid * Nat.pow 10 (633 + 1) := by
  have hexponent : exponentField bits ≤ 2047 := Nat.le_of_lt_succ (Nat.mod_lt _ (by decide))
  exact high_lt hexponent (by decide +kernel)

theorem exists_decimal {bits : UInt64} (h : significand bits ≠ 0) :
    ∃ d j : Nat, decimal bits = (natText d, ((natText d).length + j - 324 : Int)) ∧
      (interval bits).IsCoarsest grid d j := by
  have hcoarsest :=
    (proper_interval h).isCoarsest_coarsest grid_pos (isSome_nearest_grid h) (high_lt_grid bits)
  generalize hfound : (interval bits).coarsest grid 633 = found at hcoarsest
  exact ⟨found.1, found.2, by rw [decimal, hfound], hcoarsest⟩

theorem scaled_natText (d j : Nat) :
    scaled (natText d) ((natText d).length + j - 324 - (natText d).length) =
      ofUnits (d * (grid * Nat.pow 10 j)) := by
  have hdigits : Nat.ofDigitChars 10 (natText d) 0 = d :=
    Nat.ofDigitChars_toDigits (by decide) (by decide)
  have hexponent : ((natText d).length + j - 324 - (natText d).length : Int) = j - (324 : ℕ) := by
    omega
  rw [scaled, hdigits, hexponent, zpow_sub₀ (by norm_num), zpow_natCast, zpow_natCast, ofUnits]
  simp only [one_eq, cast_grid, Nat.cast_mul, cast_pow, Nat.cast_ofNat]
  field_simp

theorem isPositional_finiteText {bits : UInt64} (h : isPlain bits = true) :
    IsPositional (finiteText bits) := by
  simp only [finiteText, h, if_true]
  exact isPositional_positional (isDigits_natText _) _

theorem isScientific_finiteText {bits : UInt64} (hne : significand bits ≠ 0)
    (h : isPlain bits = false) : IsScientific (finiteText bits) := by
  obtain ⟨d, j, hdecimal, hcoarsest⟩ := exists_decimal hne
  simp only [finiteText, hdecimal, h, Bool.false_eq_true, if_false]
  exact isScientific_scientific (isDigits_natText d) (head?_natText hcoarsest.pos) _

theorem readMagnitude?_finiteText {bits : UInt64} (h : significand bits ≠ 0) :
    ∃ d j, readMagnitude? (finiteText bits) = some (ofUnits (d * (grid * Nat.pow 10 j))) ∧
      (interval bits).IsCoarsest grid d j := by
  obtain ⟨d, j, hdecimal, hcoarsest⟩ := exists_decimal h
  refine ⟨d, j, ?_, hcoarsest⟩
  simp only [finiteText, hdecimal]
  split
  · rw [readMagnitude?_positional (isDigits_natText d), scaled_natText]
  · rw [readMagnitude?_scientific (isDigits_natText d), scaled_natText]

theorem isPlain_iff (bits : UInt64) :
    isPlain bits = true ↔ 1 / 1000 ≤ |value bits| ∧ |value bits| < 10 ^ 7 := by
  have hlow : 1 / 1000 ≤ ofUnits (interval bits).middle ↔ one ≤ 1000 * (interval bits).middle := by
    rw [ofUnits, div_le_div_iff₀ (by norm_num) one_pos, one_mul, mul_comm]
    exact_mod_cast Iff.rfl
  have hhigh : ofUnits (interval bits).middle < 10 ^ 7 ↔
      (interval bits).middle < Nat.pow 10 7 * one := by
    have hbound : (10 : ℚ) ^ 7 * one = (Nat.pow 10 7 * one : ℕ) := by
      simp only [Nat.cast_mul, cast_pow, Nat.cast_ofNat]
    rw [ofUnits, div_lt_iff₀ one_pos, hbound, Nat.cast_lt]
  rw [value_eq, abs_sign_mul_ofUnits, hlow, hhigh]
  simp [isPlain]

theorem value_eq_zero_iff (bits : UInt64) : value bits = 0 ↔ significand bits = 0 := by
  have hsign : sign bits ≠ 0 := by
    intro hzero
    have habs := abs_sign bits
    simp [hzero] at habs
  simp [value, hsign]

theorem contains_zero {bits : UInt64} (h : significand bits = 0) :
    (interval bits).contains 0 = true := by
  simp [Interval.contains, interval, h]

theorem readMagnitude?_magnitudeText {bits : UInt64} (h : exponentField bits ≠ 2047) :
    ∃ y, readMagnitude? (magnitudeText bits) = some (ofUnits y) ∧
      (interval bits).contains y = true := by
  rw [magnitudeText, if_neg h]
  split
  · rename_i hzero
    refine ⟨0, ?_, contains_zero hzero⟩
    have hdigit : IsDigits ['0'] := ⟨by simp, by simp⟩
    have hdigits : Nat.ofDigitChars 10 (['0'] ++ ['0']) 0 = 0 := by decide
    refine (readMagnitude?_plain hdigit hdigit).trans (congrArg some ?_)
    rw [scaled, hdigits, ofUnits, Nat.cast_zero, zero_mul, zero_div]
  · rename_i hne
    obtain ⟨d, j, hread, hcoarsest⟩ := readMagnitude?_finiteText hne
    exact ⟨_, hread, Interval.contains_nearest hcoarsest.nearest⟩

theorem readMagnitude?_magnitudeText_eq_none_iff (bits : UInt64) :
    readMagnitude? (magnitudeText bits) = none ↔ exponentField bits = 2047 := by
  constructor
  · intro hnone
    by_contra h
    obtain ⟨y, hread, _⟩ := readMagnitude?_magnitudeText h
    simp [hnone] at hread
  · intro h
    rw [magnitudeText, if_pos h]
    rfl

theorem head?_magnitudeText (bits : UInt64) : (magnitudeText bits).head? ≠ some '-' := by
  intro hhead
  obtain ⟨rest, hrest⟩ := List.head?_eq_some_iff.1 hhead
  have hinfinite : exponentField bits = 2047 := by
    rw [← readMagnitude?_magnitudeText_eq_none_iff, hrest]
    rfl
  rw [magnitudeText, if_pos hinfinite] at hhead
  simp at hhead

theorem toList_text {bits : UInt64} (h : isNaN bits = false) :
    (text bits).toList = (if isNegative bits then ['-'] else []) ++ magnitudeText bits := by
  have hnumber : ¬ (exponentField bits = 2047 ∧ fractionField bits ≠ 0) := by
    simpa [isNaN] using h
  rw [text, if_neg hnumber, String.toList_ofList]

theorem read?_text {bits : UInt64} (h : isNaN bits = false) :
    read? (text bits).toList = (readMagnitude? (magnitudeText bits)).map (sign bits * ·) := by
  rw [toList_text h, sign]
  cases isNegative bits with
  | true => simp [read?]
  | false =>
    have hhead := head?_magnitudeText bits
    unfold read?
    split
    · rename_i hminus
      simp only [Bool.false_eq_true, if_false, List.nil_append] at hminus
      simp [hminus] at hhead
    · simp

theorem sign_append_inj {a b : Bool} {s t : List Char} (hs : s.head? ≠ some '-')
    (ht : t.head? ≠ some '-')
    (h : (if a then ['-'] else []) ++ s = (if b then ['-'] else []) ++ t) : a = b ∧ s = t := by
  cases a <;> cases b
  · exact ⟨rfl, h⟩
  · have hminus : s = '-' :: t := h
    simp [hminus] at hs
  · have hminus : '-' :: s = t := h
    simp [← hminus] at ht
  · exact ⟨rfl, (List.cons.inj h).2⟩

theorem rank_of_infinite {bits : UInt64} (hnumber : isNaN bits = false)
    (h : exponentField bits = 2047) : rank bits = 9218868437227405312 := by
  have hfraction : fractionField bits = 0 := by simpa [isNaN, h] using hnumber
  rw [exponentField_eq] at h
  rw [fractionField_eq] at hfraction
  omega

theorem rank_eq_of_magnitudeText {x y : UInt64} (hx : isNaN x = false) (hy : isNaN y = false)
    (h : magnitudeText x = magnitudeText y) : rank x = rank y := by
  have hinfinite : exponentField x = 2047 ↔ exponentField y = 2047 := by
    rw [← readMagnitude?_magnitudeText_eq_none_iff, h, readMagnitude?_magnitudeText_eq_none_iff]
  by_cases hfinite : exponentField x = 2047
  · rw [rank_of_infinite hx hfinite, rank_of_infinite hy (hinfinite.1 hfinite)]
  · obtain ⟨m, hm, hxm⟩ := readMagnitude?_magnitudeText hfinite
    obtain ⟨n, hn, hyn⟩ := readMagnitude?_magnitudeText (fun hinf => hfinite (hinfinite.2 hinf))
    rw [h, hn] at hm
    obtain rfl := ofUnits_injective (Option.some.inj hm)
    exact rank_eq_of_contains hxm hyn

theorem exists_mem_text (bits : UInt64) :
    ∃ c ∈ (text bits).toList, c ≠ '-' ∧ c.isDigit = false := by
  by_cases hnan : exponentField bits = 2047 ∧ fractionField bits ≠ 0
  · rw [text, if_pos hnan]
    exact ⟨'N', by decide, by decide, by decide⟩
  · have hnumber : isNaN bits = false := by simpa [isNaN] using hnan
    rw [toList_text hnumber]
    by_cases hfinite : exponentField bits = 2047
    · rw [magnitudeText, if_pos hfinite]
      exact ⟨'I', by simp, by decide, by decide⟩
    · obtain ⟨y, hread, _⟩ := readMagnitude?_magnitudeText hfinite
      exact ⟨'.', List.mem_append_right _ (point_mem_of_readMagnitude? hread), by decide, by decide⟩

/-- How a finite number other than zero is laid out, that its text is rounded to the number again,
that different numbers have different texts, and that whole numbers have others. -/
theorem text_unambiguous (x y : UInt64) (n : Int64) :
    (exponentField x ≠ 2047 → value x ≠ 0 →
      (∃ body, (text x).toList = (if isNegative x then ['-'] else []) ++ body ∧
        (1 / 1000 ≤ |value x| ∧ |value x| < 10 ^ 7 → IsPositional body) ∧
        (¬ (1 / 1000 ≤ |value x| ∧ |value x| < 10 ^ 7) → IsScientific body)) ∧
      ∃ q, read? (text x).toList = some q ∧ RoundsTo q x) ∧
    (isNaN x = false → isNaN y = false → text x = text y → x = y) ∧
    (Constant.double x).render ≠ (Constant.int n).render := by
  refine ⟨fun hfinite hvalue => ?_, fun hx hy htext => ?_, fun hrender => ?_⟩
  · have hnumber : isNaN x = false := by simp [isNaN, hfinite]
    have hne : significand x ≠ 0 := mt (value_eq_zero_iff x).2 hvalue
    constructor
    · refine ⟨finiteText x, ?_, ?_, ?_⟩
      · rw [toList_text hnumber, magnitudeText, if_neg hfinite, if_neg hne]
      · rw [← isPlain_iff]
        exact isPositional_finiteText
      · rw [← isPlain_iff, Bool.not_eq_true]
        exact isScientific_finiteText hne
    · obtain ⟨m, hread, hcontains⟩ := readMagnitude?_magnitudeText hfinite
      refine ⟨sign x * ofUnits m, ?_, roundsTo_of_contains hne hcontains⟩
      rw [read?_text hnumber, hread]
      rfl
  · have hlists := congrArg String.toList htext
    rw [toList_text hx, toList_text hy] at hlists
    obtain ⟨hsign, hmagnitude⟩ :=
      sign_append_inj (head?_magnitudeText x) (head?_magnitudeText y) hlists
    exact eq_of_rank hsign (rank_eq_of_magnitudeText hx hy hmagnitude)
  · obtain ⟨c, hmem, hminus, hdigit⟩ := exists_mem_text x
    have htext : text x = String.ofList (intText n.toInt) := hrender
    rw [htext, String.toList_ofList] at hmem
    rcases mem_intText hmem with rfl | hc
    · exact hminus rfl
    · simp [hdigit] at hc

theorem text_unambiguous_least :
    text 1 = "5.0E-324" ∧ (exponentField 1 ≠ 2047 ∧ value 1 ≠ 0) ∧
      (∃ q, read? "5.0E-324".toList = some q ∧ RoundsTo q 1) ∧
      (isNaN 1 = false ∧ isNaN 2 = false ∧ text 1 ≠ text 2) ∧
      (Constant.double 1).render ≠ (Constant.int 5).render := by
  have htext : text 1 = "5.0E-324" := by decide +kernel
  have hfinite : exponentField 1 ≠ 2047 := by decide
  have hvalue : value 1 ≠ 0 := mt (value_eq_zero_iff 1).1 (by decide)
  obtain ⟨hread, hinjective, hint⟩ := text_unambiguous 1 2 5
  refine ⟨htext, ⟨hfinite, hvalue⟩, ?_, ⟨rfl, rfl, fun h => ?_⟩, hint⟩
  · rw [← htext]
    exact (hread hfinite hvalue).2
  · exact absurd (hinjective rfl rfl h) (by decide)

end Provenance.Double
