import Projector.Number.Shortest

/-!
# The text of a number

Doubles are written with their shortest digits: positionally while the first digit stands between
the fourth place after the point and the sixteenth before it, with an exponent of at least two
digits otherwise. A positional text always has a point. Messages write the same digits, with
exponents of their own style and fewer of them.
-/

namespace Projector.Number

/-- The text of an integer. -/
def ofInteger (value : Int) : String := toString value

/-- The digits of a decimal without the zeros at their end. -/
def significantDigits (decimal : Decimal) : List Char :=
  ((decimalDigits decimal.digits).reverse.dropWhile (· == '0')).reverse

/-- A given number of zeros. -/
def zeros (count : Nat) : List Char := List.replicate count '0'

/-- Digits written with a point; the point stands behind the first `point` digits. -/
def positional (digits : List Char) (point : Int) : List Char :=
  if point ≤ 0 then '0' :: '.' :: zeros (-point).toNat ++ digits
  else if (digits.length : Int) ≤ point then
    digits ++ zeros (point.toNat - digits.length) ++ ['.', '0']
  else digits.take point.toNat ++ '.' :: digits.drop point.toNat

/-- How an exponent is written. -/
structure ExponentStyle where
  /-- The letter in front of it. -/
  mark : Char
  /-- The fewest digits it has. -/
  width : Nat

/-- Documents write exponents with a small letter and at least two digits. -/
def ExponentStyle.document : ExponentStyle := { mark := 'e', width := 2 }

/-- Messages write exponents with a capital letter and no superfluous digits. -/
def ExponentStyle.message : ExponentStyle := { mark := 'E', width := 1 }

/-- An exponent with its mark and its sign. -/
def ExponentStyle.write (style : ExponentStyle) (exponent : Int) : List Char :=
  let digits := decimalDigits exponent.natAbs
  style.mark :: (if exponent < 0 then '-' else '+') :: zeros (style.width - digits.length) ++ digits

/-- Digits written with one digit before the point and an exponent. -/
def scientific (style : ExponentStyle) (digits : List Char) (exponent : Int) : List Char :=
  let rest := digits.drop 1
  digits.take 1 ++ (if rest.isEmpty then [] else '.' :: rest) ++ style.write exponent

/-- Whether documents write a decimal without an exponent, given how many of its digits stand before
the point. -/
def isPositional (point : Int) : Bool := decide (-4 < point ∧ point ≤ 16)

/-- The text of a positive decimal. -/
def decimalText (decimal : Decimal) : List Char :=
  let digits := significantDigits decimal
  let point := (digitCount decimal.digits : Int) + decimal.place
  if isPositional point then positional digits point
  else scientific .document digits (point - 1)

/-- The text of a positive decimal in messages. It has the digits that documents write, and no
exponent when they do not write one either. Otherwise it has no exponent if the digits reach the
units without zeros at their end and the first one is among the first six places behind the
point. -/
def messageText (decimal : Decimal) : List Char :=
  let digits := significantDigits decimal
  let point := (digitCount decimal.digits : Int) + decimal.place
  if isPositional point then positional digits point
  else if point = digits.length then digits
  else if -6 < point ∧ point < digits.length then positional digits point
  else scientific .message digits (point - 1)

/-- The sign in front of a number. -/
def signText (negative : Bool) : String := if negative then "-" else ""

/-- The text of a finite double, given how positive decimals are written. -/
def finiteText (write : Decimal → List Char) (negative : Bool) (significand : Nat)
    (exponent : Int) : String :=
  signText negative ++
    (if significand = 0 then "0.0"
      else String.ofList (write (shortestDecimal significand exponent)))

/-- The text of a double, with words for those that are no numbers of the line. -/
def Double.text : Double → String
  | .nan => "NaN"
  | .infinite negative => signText negative ++ "Infinity"
  | .finite negative significand exponent => finiteText decimalText negative significand exponent

/-- The text of a double in messages, which is strict JSON: what is not a number becomes null, and
an infinity the largest double of its sign. -/
def Double.messageText : Double → String
  | .nan => "null"
  | .infinite negative => (Double.largest negative).text
  | .finite negative significand exponent =>
    finiteText Number.messageText negative significand exponent

end Projector.Number
