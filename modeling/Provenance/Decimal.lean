/-!
Decimal digits: whole numbers, the two ways to write a decimal, and the shortest decimal in an
interval. The position of a point is counted from the front of the digits, so the digits `ds` with
point `p` stand for `0.ds · 10 ^ p`. The magnitudes of an interval are whole numbers of one fixed
unit; the coarsest grid of powers of ten with a point in it gives the decimal with the fewest
digits.
-/

set_option autoImplicit false

namespace Provenance.Decimal

def natText (n : Nat) : List Char := Nat.toDigits 10 n

def intText : Int → List Char
  | .ofNat n => natText n
  | .negSucc n => '-' :: natText (n + 1)

/-- One or more digits, of any length and with any number of leading zeros. -/
def readNat? (text : List Char) : Option Nat :=
  if text ≠ [] ∧ text.all Char.isDigit then some (Nat.ofDigitChars 10 text 0) else none

def positional (digits : List Char) (point : Int) : List Char :=
  if point ≤ 0 then '0' :: '.' :: List.replicate (-point).toNat '0' ++ digits
  else if digits.length ≤ point.toNat then
    digits ++ List.replicate (point.toNat - digits.length) '0' ++ ['.', '0']
  else digits.take point.toNat ++ '.' :: digits.drop point.toNat

def scientific : List Char → Int → List Char
  | [], _ => []
  | d :: rest, point =>
    d :: '.' :: (if rest = [] then ['0'] else rest) ++ 'E' :: intText (point - 1)

/-- A magnitude and the magnitudes that are taken for it. The ends belong to the interval only if
it is closed. -/
structure Interval where
  low : Nat
  middle : Nat
  high : Nat
  closed : Bool

def Interval.contains (i : Interval) (x : Nat) : Bool :=
  if i.closed then i.low ≤ x && x ≤ i.high else i.low < x && x < i.high

/-- The multiple of `step` in the interval that is nearest to its middle, as a number of steps. Only
the two neighbours of the middle matter; of two that are equally near, the larger is taken. -/
def Interval.nearest (i : Interval) (step : Nat) : Option Nat :=
  let down := i.middle / step
  let up := down + 1
  if i.contains (down * step) then
    if i.contains (up * step) ∧ step ≤ 2 * (i.middle - down * step) then some up else some down
  else if i.contains (up * step) then some up
  else none

/-- The coarsest of the grids `step · 10 ^ j`, from the given `j` down, that meets the interval, and
the point of it nearest to the middle. -/
def Interval.coarsest (i : Interval) (step : Nat) : Nat → Nat × Nat
  | 0 => ((i.nearest step).getD 0, 0)
  | j + 1 =>
    match i.nearest (step * Nat.pow 10 (j + 1)) with
    | some d => (d, j + 1)
    | none => i.coarsest step j

end Provenance.Decimal
