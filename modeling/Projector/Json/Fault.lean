/-!
# Where and why reading stops

A text that is not JSON is refused with the first problem met from left to right and the place of
it. A place is an offset in characters together with its line and column, both counted from one.
-/

namespace Projector.Json

/-- What is wrong at a place of a text. -/
inductive Problem
  | valueExpected
  | nameExpected
  | colonExpected
  | commaExpected
  | unterminatedString
  | controlCharacter
  | badEscape
  | badUnicodeEscape
  | extraData
  | byteOrderMark
  deriving DecidableEq

/-- The wording of a problem. -/
def Problem.text : Problem → String
  | .valueExpected => "Expecting value"
  | .nameExpected => "Expecting property name enclosed in double quotes"
  | .colonExpected => "Expecting ':' delimiter"
  | .commaExpected => "Expecting ',' delimiter"
  | .unterminatedString => "Unterminated string starting at"
  | .controlCharacter => "Invalid control character at"
  | .badEscape => "Invalid \\escape"
  | .badUnicodeEscape => "Invalid \\uXXXX escape"
  | .extraData => "Extra data"
  | .byteOrderMark => "Unexpected UTF-8 BOM (decode using utf-8-sig)"

/-- Why reading stops: a problem at an offset, or an integer with too many digits. -/
inductive Stop
  | at (problem : Problem) (offset : Nat)
  | tooManyDigits (count : Nat)
  deriving DecidableEq

/-- A place in a text. -/
structure Place where
  line : Nat
  column : Nat
  offset : Nat
  deriving DecidableEq

/-- The place of an offset: lines end at line feeds, and columns count from the last of them. -/
def Place.ofOffset (text : List Char) (offset : Nat) : Place :=
  let before := text.take offset
  { line := before.count '\n' + 1
    column := (before.reverse.takeWhile (· != '\n')).length + 1
    offset := offset }

/-- Why a text is not read as JSON. -/
inductive Fault
  | malformed (problem : Problem) (place : Place)
  | tooManyDigits (count : Nat)
  deriving DecidableEq

/-- The longest integer that is read, in digits. -/
def digitLimit : Nat := 4300

/-- The wording of a fault. -/
def Fault.message : Fault → String
  | .malformed problem place =>
    problem.text ++ ": line " ++ toString place.line ++ " column " ++ toString place.column ++
      " (char " ++ toString place.offset ++ ")"
  | .tooManyDigits count =>
    "Exceeds the limit (" ++ toString digitLimit ++
      " digits) for integer string conversion: value has " ++ toString count ++
      " digits; use sys.set_int_max_str_digits() to increase the limit"

/-- A stop while reading a text, with its place in it. -/
def Stop.fault (text : List Char) : Stop → Fault
  | .at problem offset => .malformed problem (Place.ofOffset text offset)
  | .tooManyDigits count => .tooManyDigits count

end Projector.Json
