import Projector.Json.Basic
import Projector.Json.Literal
import Projector.Number.Text

/-!
# Printing JSON

A value is printed on one line, where a layout says what stands between items, or over several
lines with an indent of two spaces for each level, where an empty list or object stays on its
line. Keys are printed in their order.
-/

namespace Projector.Json

/-- How a value is printed on one line. -/
structure Layout where
  /-- What stands between two items or fields. -/
  comma : String
  /-- What stands between a key and its value. -/
  colon : String
  /-- Which characters without a short escape are written by their code. -/
  byCode : Char → Bool
  /-- The text of a double. -/
  double : Number.Double → String

/-- The layout of documents and values: a space after each comma and colon. -/
def Layout.spaced : Layout :=
  { comma := ", ", colon := ": ", byCode := Literal.isControl, double := Number.Double.text }

/-- The layout of values in query messages: no spaces, only strict JSON, and the delete character
by its code. -/
def Layout.tight : Layout :=
  { comma := ","
    colon := ":"
    byCode := fun c => Literal.isControl c || c == '\x7f'
    double := Number.Double.messageText }

/-- A text as a string literal in a layout. -/
def Layout.quote (layout : Layout) (text : String) : String :=
  String.ofList (Literal.write layout.byCode text.toList)

mutual

/-- A value on one line. -/
def print (layout : Layout) : Json → String
  | .null => "null"
  | .bool true => "true"
  | .bool false => "false"
  | .int value => Number.ofInteger value
  | .double value => layout.double value
  | .str text => layout.quote text
  | .torn text => layout.quote text.mended
  | .arr items => "[" ++ layout.comma.intercalate (printItems layout items) ++ "]"
  | .obj fields => "\x7b" ++ layout.comma.intercalate (printFields layout fields) ++ "\x7d"

/-- The items of a list, each on its own. -/
def printItems (layout : Layout) : List Json → List String
  | [] => []
  | item :: rest => print layout item :: printItems layout rest

/-- The fields of an object, each on its own. -/
def printFields (layout : Layout) : List (String × Json) → List String
  | [] => []
  | (name, value) :: rest =>
    (layout.quote name ++ layout.colon ++ print layout value) :: printFields layout rest

end

/-- The text of a document or value. -/
def text (value : Json) : String := print .spaced value

/-- The text of a value in query messages. -/
def tightText (value : Json) : String := print .tight value

/-- The beginning of a line at a level of nesting. -/
def lineStart (level : Nat) : String := "\n" ++ String.ofList (List.replicate (2 * level) ' ')

/-- Entries between brackets, each on a line of its own one level deeper. -/
def block (opening closing : String) (level : Nat) (entries : List String) : String :=
  if entries.isEmpty then opening ++ closing
  else
    opening ++ lineStart (level + 1) ++ ("," ++ lineStart (level + 1)).intercalate entries ++
      lineStart level ++ closing

mutual

/-- A value over several lines, inside a given number of brackets. -/
def printIndented (level : Nat) : Json → String
  | .arr items => block "[" "]" level (indentedItems (level + 1) items)
  | .obj fields => block "\x7b" "\x7d" level (indentedFields (level + 1) fields)
  | .null => print .spaced .null
  | .bool value => print .spaced (.bool value)
  | .int value => print .spaced (.int value)
  | .double value => print .spaced (.double value)
  | .str text => print .spaced (.str text)
  | .torn text => print .spaced (.torn text)

/-- The items of a list over several lines. -/
def indentedItems (level : Nat) : List Json → List String
  | [] => []
  | item :: rest => printIndented level item :: indentedItems level rest

/-- The fields of an object over several lines. -/
def indentedFields (level : Nat) : List (String × Json) → List String
  | [] => []
  | (name, value) :: rest =>
    (Layout.spaced.quote name ++ Layout.spaced.colon ++ printIndented level value) ::
      indentedFields level rest

end

/-- A value over several lines. -/
def indentedText (value : Json) : String := printIndented 0 value

end Projector.Json
