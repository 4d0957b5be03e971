import Provenance.Decimal

set_option autoImplicit false

namespace Provenance.Double

def isNegative (bits : UInt64) : Bool := Nat.pow 2 63 ≤ bits.toNat

def exponentField (bits : UInt64) : Nat := bits.toNat / Nat.pow 2 52 % Nat.pow 2 11

def fractionField (bits : UInt64) : Nat := bits.toNat % Nat.pow 2 52

/-- Only subnormal numbers lack the leading bit. -/
def significand (bits : UInt64) : Nat :=
  if exponentField bits = 0 then fractionField bits else Nat.pow 2 52 + fractionField bits

def shift (bits : UInt64) : Nat := exponentField bits - 1

/-- Magnitudes are counted in units of `2 ^ -1076 · 10 ^ -324`, of which both every half of a gap
between neighbouring numbers and every decimal with at most 324 places are whole multiples. -/
def one : Nat := Nat.pow 2 1076 * Nat.pow 10 324

def grid : Nat := Nat.pow 2 1076

def quarter (bits : UInt64) : Nat := Nat.pow 2 (shift bits) * Nat.pow 10 324

/-- The magnitudes that round to the number. The gap below a power of two is half as wide as the
gap above it, save at the least exponent, and the ends round to the number with the even
significand. -/
def interval (bits : UInt64) : Decimal.Interval where
  middle := 4 * significand bits * quarter bits
  low := 4 * significand bits * quarter bits -
    (if fractionField bits = 0 ∧ 1 < exponentField bits then 1 else 2) * quarter bits
  high := 4 * significand bits * quarter bits + 2 * quarter bits
  closed := significand bits % 2 = 0

def decimal (bits : UInt64) : List Char × Int :=
  let (d, j) := (interval bits).coarsest grid 633
  let digits := Decimal.natText d
  (digits, digits.length + j - 324)

/-- Plain notation serves the magnitudes from `1e-3` up to, and without, `1e7`. -/
def isPlain (bits : UInt64) : Bool :=
  one ≤ 1000 * (interval bits).middle && (interval bits).middle < Nat.pow 10 7 * one

def finiteText (bits : UInt64) : List Char :=
  let (digits, point) := decimal bits
  if isPlain bits then Decimal.positional digits point else Decimal.scientific digits point

def magnitudeText (bits : UInt64) : List Char :=
  if exponentField bits = 2047 then "Infinity".toList
  else if significand bits = 0 then "0.0".toList
  else finiteText bits

def text (bits : UInt64) : String :=
  if exponentField bits = 2047 ∧ fractionField bits ≠ 0 then "NaN"
  else String.ofList ((if isNegative bits then ['-'] else []) ++ magnitudeText bits)

end Provenance.Double
