import Mathlib.Algebra.Order.Field.Rat
import Mathlib.Data.List.TakeWhile
import Mathlib.Tactic.FieldSimp
import Mathlib.Tactic.Ring
import Provenance.Decimal

set_option autoImplicit false

namespace Provenance.Decimal

theorem isDigit_of_mem_natText {n : Nat} {c : Char} (h : c ∈ natText n) : c.isDigit = true :=
  Nat.isDigit_of_mem_toDigits (by decide) (by decide) h

structure IsDigits (text : List Char) : Prop where
  nonempty : text ≠ []
  digits : ∀ c ∈ text, c.isDigit = true

theorem isDigits_natText (n : Nat) : IsDigits (natText n) :=
  ⟨Nat.toDigits_ne_nil, fun _ => isDigit_of_mem_natText⟩

theorem IsDigits.append {a b : List Char} (ha : IsDigits a) (hb : ∀ c ∈ b, c.isDigit = true) :
    IsDigits (a ++ b) :=
  ⟨by simp [ha.nonempty], by simpa [or_imp, forall_and] using ⟨ha.digits, hb⟩⟩

theorem IsDigits.prepend {a b : List Char} (ha : ∀ c ∈ a, c.isDigit = true) (hb : IsDigits b) :
    IsDigits (a ++ b) :=
  ⟨by simp [hb.nonempty], by simpa [or_imp, forall_and] using ⟨ha, hb.digits⟩⟩

theorem isDigit_of_mem_replicate {n : Nat} {c : Char} (h : c ∈ List.replicate n '0') :
    c.isDigit = true := by
  rw [(List.mem_replicate.1 h).2]
  rfl

theorem readNat?_of_isDigits {text : List Char} (h : IsDigits text) :
    readNat? text = some (Nat.ofDigitChars 10 text 0) := by
  rw [readNat?, if_pos ⟨h.nonempty, List.all_eq_true.2 h.digits⟩]

theorem readNat?_natText (n : Nat) : readNat? (natText n) = some n := by
  rw [readNat?_of_isDigits (isDigits_natText n)]
  exact congrArg some (Nat.ofDigitChars_toDigits (by decide) (by decide))

theorem head?_natText {n : Nat} (h : 0 < n) : (natText n).head? ≠ some '0' := by
  induction n using Nat.strong_induction_on with
  | _ n ih =>
    unfold natText at ih ⊢
    by_cases hn : n < 10
    · have hdigit : ∀ d, d < 10 → 0 < d → Nat.digitChar d ≠ '0' := by decide
      rw [Nat.toDigits_of_lt_base hn]
      simpa using hdigit n hn h
    · obtain ⟨d, rest, hd⟩ :=
        List.exists_cons_of_ne_nil (Nat.toDigits_ne_nil (n := n / 10) (b := 10))
      have hfront := ih (n / 10) (by omega) (by omega)
      rw [Nat.toDigits_of_base_le (by decide) (by omega)]
      rw [hd] at hfront ⊢
      simpa using hfront

theorem takeWhile_natText (n : Nat) : (natText n).takeWhile Char.isDigit = natText n :=
  List.takeWhile_eq_self_iff.2 fun _ hc => isDigit_of_mem_natText hc

theorem dropWhile_natText (n : Nat) : (natText n).dropWhile Char.isDigit = [] :=
  List.dropWhile_eq_nil_iff.2 fun _ hc => isDigit_of_mem_natText hc

def readInt? : List Char → Option Int
  | '-' :: rest => (readNat? rest).map fun n => -(n : Int)
  | text => (readNat? text).map fun n => (n : Int)

def readExponent? : List Char → Option Int
  | [] => some 0
  | 'E' :: rest => readInt? rest
  | _ => none

def readMagnitude? (text : List Char) : Option ℚ :=
  match text.dropWhile Char.isDigit with
  | '.' :: rest => do
    let fraction := rest.takeWhile Char.isDigit
    let whole ← readNat? (text.takeWhile Char.isDigit)
    let part ← readNat? fraction
    let exponent ← readExponent? (rest.dropWhile Char.isDigit)
    return (whole + part / 10 ^ fraction.length) * 10 ^ exponent
  | _ => none

def read? : List Char → Option ℚ
  | '-' :: rest => (readMagnitude? rest).map (- ·)
  | text => readMagnitude? text

def scaled (digits : List Char) (exponent : Int) : ℚ :=
  (Nat.ofDigitChars 10 digits 0 : ℕ) * 10 ^ exponent

theorem mem_intText {n : Int} {c : Char} (h : c ∈ intText n) : c = '-' ∨ c.isDigit = true := by
  cases n with
  | ofNat n => exact Or.inr (isDigit_of_mem_natText h)
  | negSucc n => exact (List.mem_cons.1 h).imp_right isDigit_of_mem_natText

theorem readInt?_intText (n : Int) : readInt? (intText n) = some n := by
  cases n with
  | ofNat n =>
    have hsign : (natText n).head? ≠ some '-' := by
      intro h
      have hdigit := isDigit_of_mem_natText (List.mem_of_mem_head? h)
      simp at hdigit
    have hread : readInt? (natText n) = (readNat? (natText n)).map fun n => (n : Int) := by
      unfold readInt?
      split
      · rename_i htext
        simp [htext] at hsign
      · rfl
    rw [intText, hread, readNat?_natText]
    rfl
  | negSucc n => simp [intText, readInt?, readNat?_natText, Int.negSucc_eq]

theorem point_mem_of_readMagnitude? {text : List Char} {q : ℚ}
    (h : readMagnitude? text = some q) : '.' ∈ text := by
  unfold readMagnitude? at h
  split at h
  · rename_i rest hrest
    exact (List.dropWhile_suffix _).mem (by rw [hrest]; simp)
  · simp at h

theorem takeWhile_of_exponent {exponent : List Char} {e : Int}
    (h : readExponent? exponent = some e) :
    exponent.takeWhile Char.isDigit = [] ∧ exponent.dropWhile Char.isDigit = exponent := by
  unfold readExponent? at h
  split at h
  · exact ⟨rfl, rfl⟩
  · exact ⟨rfl, rfl⟩
  · simp at h

/-- The digits on both sides of the point count as one number, scaled by how many of them stand
behind it. -/
theorem readMagnitude?_parts {whole fraction exponent : List Char} (hwhole : IsDigits whole)
    (hfraction : IsDigits fraction) {e : Int} (he : readExponent? exponent = some e) :
    readMagnitude? (whole ++ '.' :: (fraction ++ exponent)) =
      some (scaled (whole ++ fraction) (e - fraction.length)) := by
  obtain ⟨htake, hdrop⟩ := takeWhile_of_exponent he
  have hpoint : ('.' :: (fraction ++ exponent)).takeWhile Char.isDigit = [] ∧
      ('.' :: (fraction ++ exponent)).dropWhile Char.isDigit = '.' :: (fraction ++ exponent) :=
    ⟨rfl, rfl⟩
  have hdigits : Nat.ofDigitChars 10 (whole ++ fraction) 0 =
      10 ^ fraction.length * Nat.ofDigitChars 10 whole 0 + Nat.ofDigitChars 10 fraction 0 := by
    rw [Nat.ofDigitChars_append]
    exact Nat.ofDigitChars_eq_ofDigitChars_zero
  have hvalue : ((Nat.ofDigitChars 10 whole 0 : ℕ) +
        (Nat.ofDigitChars 10 fraction 0 : ℕ) / 10 ^ fraction.length : ℚ) * 10 ^ e =
      scaled (whole ++ fraction) (e - fraction.length) := by
    rw [scaled, hdigits, zpow_sub₀ (by norm_num), zpow_natCast]
    push_cast
    field_simp
  simp only [readMagnitude?, List.dropWhile_append_of_pos hwhole.digits,
    List.takeWhile_append_of_pos hwhole.digits, hpoint,
    List.takeWhile_append_of_pos hfraction.digits, htake,
    List.dropWhile_append_of_pos hfraction.digits, hdrop, he, List.append_nil,
    readNat?_of_isDigits hwhole, readNat?_of_isDigits hfraction, Option.bind_eq_bind,
    Option.bind_some, hvalue]
  rfl

theorem readMagnitude?_plain {whole fraction : List Char} (hwhole : IsDigits whole)
    (hfraction : IsDigits fraction) :
    readMagnitude? (whole ++ '.' :: fraction) =
      some (scaled (whole ++ fraction) (-fraction.length)) := by
  have hread : readMagnitude? (whole ++ '.' :: (fraction ++ [])) =
      some (scaled (whole ++ fraction) (0 - fraction.length)) :=
    readMagnitude?_parts hwhole hfraction rfl
  rwa [List.append_nil, zero_sub] at hread

def IsPositional (text : List Char) : Prop :=
  ∃ whole fraction, text = whole ++ '.' :: fraction ∧ IsDigits whole ∧ IsDigits fraction

theorem positional_cases {digits : List Char} (h : IsDigits digits) (point : Int) :
    ∃ whole fraction, positional digits point = whole ++ '.' :: fraction ∧ IsDigits whole ∧
      IsDigits fraction ∧
      scaled (whole ++ fraction) (-fraction.length) = scaled digits (point - digits.length) := by
  unfold positional
  split
  · rename_i hpoint
    refine ⟨['0'], List.replicate (-point).toNat '0' ++ digits, rfl, ⟨by simp, by simp⟩,
      .prepend (fun _ => isDigit_of_mem_replicate) h, ?_⟩
    have hdigits : Nat.ofDigitChars 10 (['0'] ++ (List.replicate (-point).toNat '0' ++ digits)) 0 =
        Nat.ofDigitChars 10 digits 0 := by
      simp [Nat.ofDigitChars_append, Nat.ofDigitChars_cons]
    have hplaces : (-((List.replicate (-point).toNat '0' ++ digits).length : Int)) =
        point - digits.length := by
      simp
      omega
    rw [scaled, hdigits, hplaces, scaled]
  · split
    · rename_i hpoint hlength
      refine ⟨digits ++ List.replicate (point.toNat - digits.length) '0', ['0'], by simp,
        h.append fun _ => isDigit_of_mem_replicate, ⟨by simp, by simp⟩, ?_⟩
      have hzeros : point - digits.length = ((point.toNat - digits.length : Nat) : Int) := by omega
      rw [scaled, scaled, hzeros, zpow_natCast]
      simp only [Nat.ofDigitChars_append, Nat.ofDigitChars_replicate_zero, Nat.ofDigitChars_cons,
        Nat.ofDigitChars_nil]
      simp
      ring
    · rename_i hpoint hlength
      refine ⟨digits.take point.toNat, digits.drop point.toNat, rfl, ⟨?_, ?_⟩, ⟨?_, ?_⟩, ?_⟩
      · intro hnil
        rcases List.take_eq_nil_iff.1 hnil with hzero | hempty
        · omega
        · exact h.nonempty hempty
      · exact fun c hc => h.digits c (List.mem_of_mem_take hc)
      · intro hnil
        exact hlength (List.drop_eq_nil_iff.1 hnil)
      · exact fun c hc => h.digits c (List.mem_of_mem_drop hc)
      · have hplaces : (-((digits.drop point.toNat).length : Int)) = point - digits.length := by
          simp
          omega
        rw [List.take_append_drop, hplaces]

theorem isPositional_positional {digits : List Char} (h : IsDigits digits) (point : Int) :
    IsPositional (positional digits point) := by
  obtain ⟨whole, fraction, htext, hwhole, hfraction, _⟩ := positional_cases h point
  exact ⟨whole, fraction, htext, hwhole, hfraction⟩

theorem readMagnitude?_positional {digits : List Char} (h : IsDigits digits) (point : Int) :
    readMagnitude? (positional digits point) =
      some (scaled digits (point - digits.length)) := by
  obtain ⟨whole, fraction, htext, hwhole, hfraction, hvalue⟩ := positional_cases h point
  rw [htext, readMagnitude?_plain hwhole hfraction, hvalue]

/-- A whole number without leading zeros, and without a sign unless it is negative. -/
def IsInteger (text : List Char) : Prop :=
  text = ['0'] ∨ ∃ sign digits, text = sign ++ digits ∧ (sign = [] ∨ sign = ['-']) ∧
    IsDigits digits ∧ digits.head? ≠ some '0'

theorem isInteger_intText (n : Int) : IsInteger (intText n) := by
  cases n with
  | ofNat n =>
    by_cases hn : n = 0
    · subst hn
      exact Or.inl rfl
    · exact Or.inr ⟨[], _, rfl, Or.inl rfl, isDigits_natText n, head?_natText (by omega)⟩
  | negSucc n =>
    exact Or.inr ⟨['-'], _, rfl, Or.inr rfl, isDigits_natText _, head?_natText (by omega)⟩

def IsScientific (text : List Char) : Prop :=
  ∃ first fraction exponent, text = first :: '.' :: (fraction ++ 'E' :: exponent) ∧
    first.isDigit = true ∧ first ≠ '0' ∧ IsDigits fraction ∧ IsInteger exponent

theorem isDigits_fraction {first : Char} {rest : List Char} (h : IsDigits (first :: rest)) :
    IsDigits (if rest = [] then ['0'] else rest) := by
  split
  · exact ⟨by simp, by simp⟩
  · exact ⟨‹_›, fun c hc => h.digits c (List.mem_cons_of_mem _ hc)⟩

theorem isScientific_scientific {digits : List Char} (h : IsDigits digits)
    (hfirst : digits.head? ≠ some '0') (point : Int) : IsScientific (scientific digits point) := by
  obtain ⟨first, rest, rfl⟩ := List.exists_cons_of_ne_nil h.nonempty
  refine ⟨first, _, _, rfl, h.digits _ (by simp), by simpa using hfirst, isDigits_fraction h,
    isInteger_intText _⟩

theorem readMagnitude?_scientific {digits : List Char} (h : IsDigits digits) (point : Int) :
    readMagnitude? (scientific digits point) =
      some (scaled digits (point - digits.length)) := by
  obtain ⟨first, rest, rfl⟩ := List.exists_cons_of_ne_nil h.nonempty
  have hwhole : IsDigits [first] := ⟨by simp, by simpa using h.digits first (by simp)⟩
  have hexponent : readExponent? ('E' :: intText (point - 1)) = some (point - 1) :=
    readInt?_intText _
  refine (readMagnitude?_parts hwhole (isDigits_fraction h) hexponent).trans ?_
  split
  · rename_i hrest
    subst hrest
    have hscale : (10 : ℚ) ^ (point - 1) = 10 ^ (point - 1 - 1) * 10 := by
      rw [← zpow_add_one₀ (by norm_num)]
      congr 1
      omega
    simp [scaled, Nat.ofDigitChars_cons, hscale]
    ring
  · have hplaces : point - 1 - (rest.length : Int) = point - (first :: rest).length := by
      simp
      omega
    rw [hplaces]
    rfl

end Provenance.Decimal
