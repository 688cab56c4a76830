import Projector.Text.Invisible

/-!
# Quoted text in messages

Messages quote a text between single quotes, or between double quotes when the text holds a single
quote and no double one. A backslash, the enclosing quote and every invisible character are
escaped, so a quoted text always stands on one line.
-/

namespace Projector.Text

/-- The lower-case hexadecimal digit of a value below sixteen. -/
def hexDigit (value : Nat) : Char := Nat.digitChar (value % 16)

/-- The last digits of a number in hexadecimal, exactly as many as asked for. -/
def hexDigits (value : Nat) : (width : Nat) → List Char
  | 0 => []
  | width + 1 => hexDigits (value / 16) width ++ [hexDigit value]

/-- The mark around a quoted text. -/
def quoteMark (text : String) : Char :=
  if text.toList.contains '\'' && !text.toList.contains '"' then '"' else '\''

/-- One character of a quoted text. -/
def quoteChar (mark : Char) (c : Char) : List Char :=
  if c = mark ∨ c = '\\' then ['\\', c]
  else if c = '\n' then ['\\', 'n']
  else if c = '\r' then ['\\', 'r']
  else if c = '\t' then ['\\', 't']
  else if !isInvisible c then [c]
  else if c.toNat < 0x100 then ['\\', 'x'] ++ hexDigits c.toNat 2
  else if c.toNat < 0x10000 then ['\\', 'u'] ++ hexDigits c.toNat 4
  else ['\\', 'U'] ++ hexDigits c.toNat 8

/-- A text as messages quote it. -/
def quoted (text : String) : String :=
  let mark := quoteMark text
  String.ofList (mark :: text.toList.flatMap (quoteChar mark) ++ [mark])

end Projector.Text
