import Projector.Json.Literal

/-!
# Torn texts

Half of a surrogate pair is no character. A text that is handed over may have such halves standing
alone all the same; it is torn then, and can only be told by its code points.
-/

namespace Projector

/-- Whether a code point is half of a surrogate pair. -/
def Json.Literal.isHalf (point : Nat) : Bool := isHighSurrogate point || isLowSurrogate point

open Json.Literal

/-- A text in which half of a surrogate pair stands alone. -/
structure TornText where
  /-- The code points of the text. -/
  points : List Nat
  valid : ∀ point ∈ points, point < 0x110000
  torn : points.any isHalf = true

namespace TornText

/-- The text with a replacement for every half. -/
def mended (text : TornText) : String := String.ofList (text.points.map charOfUnit)

/-- What stands before the first half. -/
def front (text : TornText) : List Char :=
  (text.points.takeWhile fun point => !isHalf point).map charOfUnit

/-- The first half, with all that follow it in a row. -/
def halves (text : TornText) : List Nat :=
  (text.points.dropWhile fun point => !isHalf point).takeWhile isHalf

end TornText

end Projector
