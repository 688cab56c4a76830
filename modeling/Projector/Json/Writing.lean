import Projector.Json.Printer

/-!
# Writing documents

A document is written as its text. An integer has no text when it has too many digits, and a text
that is torn cannot be encoded, which is only noticed once everything has its text.
-/

namespace Projector.Json

/-- Why a document is not written. -/
inductive WritingFault
  /-- An integer has too many digits. -/
  | tooManyDigits
  /-- Halves of surrogate pairs stand in a row at a position of the text. -/
  | torn (halves : List Nat) (position : Nat)
  deriving DecidableEq

/-- The wording of why a document is not written. -/
def WritingFault.message : WritingFault → String
  | .tooManyDigits =>
    "Exceeds the limit (" ++ toString digitLimit ++
      " digits) for integer string conversion; use sys.set_int_max_str_digits() to increase the" ++
      " limit"
  | .torn [half] position =>
    "'utf-8' codec can't encode character '\\u" ++ String.ofList (Text.hexDigits half 4) ++
      "' in position " ++ toString position ++ ": surrogates not allowed"
  | .torn halves position =>
    "'utf-8' codec can't encode characters in position " ++ toString position ++ "-" ++
      toString (position + halves.length - 1) ++ ": surrogates not allowed"

mutual

/-- Whether no integer in a value has too many digits. -/
def digitsFit : Json → Bool
  | .int value => decide (value.natAbs < Nat.pow 10 digitLimit)
  | .arr items => digitsFitItems items
  | .obj fields => digitsFitFields fields
  | _ => true

/-- Whether no integer in any item of a list has too many digits. -/
def digitsFitItems : List Json → Bool
  | [] => true
  | item :: rest => digitsFit item && digitsFitItems rest

/-- Whether no integer in any value among some fields has too many digits. -/
def digitsFitFields : List (String × Json) → Bool
  | [] => true
  | (_, value) :: rest => digitsFit value && digitsFitFields rest

end

mutual

/-- What stands in the way of encoding the text of a value that starts at a position. -/
def tornAt? (position : Nat) : Json → Option WritingFault
  | .torn text =>
    -- The front of the text has a quote before it, but none behind it yet.
    let front := (Literal.write Layout.spaced.byCode text.front).length - 1
    some (.torn text.halves (position + front))
  | .arr items => tornItemAt? (position + 1) items
  | .obj fields => tornFieldAt? (position + 1) fields
  | _ => none

/-- What stands in the way of encoding items of a list that start at a position. -/
def tornItemAt? (position : Nat) : List Json → Option WritingFault
  | [] => none
  | item :: rest =>
    match tornAt? position item with
    | some fault => some fault
    | none => tornItemAt? (position + (text item).length + Layout.spaced.comma.length) rest

/-- What stands in the way of encoding fields of an object that start at a position. -/
def tornFieldAt? (position : Nat) : List (String × Json) → Option WritingFault
  | [] => none
  | (name, value) :: rest =>
    let start := position + (Layout.spaced.quote name).length + Layout.spaced.colon.length
    match tornAt? start value with
    | some fault => some fault
    | none => tornFieldAt? (start + (text value).length + Layout.spaced.comma.length) rest

end

/-- The text of a document, when it can be written. -/
def written (document : Json) : Except WritingFault String :=
  if document.digitsFit then
    match document.tornAt? 0 with
    | some fault => .error fault
    | none => .ok document.text
  else .error .tooManyDigits

end Projector.Json
