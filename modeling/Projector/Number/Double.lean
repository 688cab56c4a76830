import Projector.Number.Rounding

/-!
# Doubles

Binary64 numbers, held exactly: a finite one is a sign, a significand below 2^53 and a power of
two no smaller than 2^-1074. Quotients of natural numbers are rounded to the nearest double, a
half to the even significand, and overflow to infinity.
-/

namespace Projector.Number

/-- A binary64 number. A finite one has the value ± significand · 2^exponent. -/
inductive Double
  /-- What is no number. -/
  | nan
  /-- What is beyond all numbers. -/
  | infinite (negative : Bool)
  /-- A number of the line. -/
  | finite (negative : Bool) (significand : Nat) (exponent : Int)
  deriving DecidableEq

namespace Double

/-- The exponent of the smallest doubles. -/
def minExponent : Int := -1074

/-- The exponent of the largest doubles. -/
def maxExponent : Int := 971

/-- The significands are below this bound. -/
def significandBound : Nat := Nat.pow 2 53

/-- A zero of either sign. -/
def zero (negative : Bool) : Double := .finite negative 0 minExponent

/-- The largest finite double of either sign. -/
def largest (negative : Bool) : Double := .finite negative (significandBound - 1) maxExponent

/-- Numerator and denominator of a natural number times a power of two. -/
def binaryRatio (significand : Nat) (exponent : Int) : Nat × Nat :=
  if 0 ≤ exponent then (significand * Nat.pow 2 exponent.toNat, 1)
  else (significand, Nat.pow 2 (-exponent).toNat)

/-- The exponent of the largest power of two that is no larger than a positive quotient. -/
def binaryMagnitude (numerator denominator : Nat) : Int :=
  let estimate : Int := (numerator.log2 : Int) - denominator.log2
  let (low, high) := binaryRatio denominator estimate
  if low ≤ numerator * high then estimate else estimate - 1

/-- The double nearest to a quotient of natural numbers, a half to the even significand. -/
def ofRatio (negative : Bool) (numerator denominator : Nat) : Double :=
  if numerator = 0 then zero negative
  else
    let exponent := max (binaryMagnitude numerator denominator - 52) minExponent
    let (scale, unit) := binaryRatio 1 exponent
    let significand := roundHalfEven (numerator * unit) (denominator * scale)
    let (significand, exponent) :=
      if significand = significandBound then (significandBound / 2, exponent + 1)
      else (significand, exponent)
    if maxExponent < exponent then .infinite negative else .finite negative significand exponent

/-- Decimals of this order of magnitude or above are beyond every double. -/
def decimalCeiling : Int := 310

/-- Decimals below this order of magnitude are nearer to zero than to any other double. -/
def decimalFloor : Int := -330

/-- The double nearest to ± digits · 10^exponent. -/
def ofDecimal (negative : Bool) (digits : Nat) (exponent : Int) : Double :=
  let magnitude : Int := digitCount digits + exponent
  if digits = 0 ∨ magnitude < decimalFloor then zero negative
  else if decimalCeiling < magnitude then .infinite negative
  else if 0 ≤ exponent then ofRatio negative (digits * Nat.pow 10 exponent.toNat) 1
  else ofRatio negative digits (Nat.pow 10 (-exponent).toNat)

/-- The integer that a double is, if it is one. -/
def toInt? : Double → Option Int
  | .finite negative significand exponent =>
    let (numerator, denominator) := binaryRatio significand exponent
    if numerator % denominator = 0 then
      let whole : Int := (numerator / denominator : Nat)
      some (if negative then -whole else whole)
    else none
  | _ => none

end Double

end Projector.Number
