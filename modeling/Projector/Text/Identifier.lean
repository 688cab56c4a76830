/-!
# Identifiers

Names that need no quotes are made of ASCII letters, digits and underscores and do not start with a
digit. Words that the query language keeps for itself are identifiers but always need quotes.
-/

namespace Projector.Text

/-- The characters an identifier may start with. -/
def isIdentifierStart (c : Char) : Bool := c.isAlpha || c == '_'

/-- The characters an identifier may go on with. -/
def isIdentifierPart (c : Char) : Bool := c.isAlphanum || c == '_'

/-- Whether characters spell an identifier. -/
def isIdentifierChars : List Char → Bool
  | [] => false
  | first :: rest => isIdentifierStart first && rest.all isIdentifierPart

/-- Whether a name is an identifier. -/
def isIdentifier (name : String) : Bool := isIdentifierChars name.toList

/-- The words that the query language keeps for itself. -/
def keywords : List String :=
  ["__loc__", "and", "as", "catch", "def", "elif", "else", "end", "foreach", "if", "import",
   "include", "label", "not", "or", "reduce", "then", "try"]

/-- Whether a name may stand without quotes. -/
def isBare (name : String) : Bool := isIdentifier name && !keywords.contains name

/-- What an identifier may start with, it may go on with. -/
theorem isIdentifierPart_of_start {c : Char} (start : isIdentifierStart c = true) :
    isIdentifierPart c = true := by
  simp only [isIdentifierStart, isIdentifierPart, Char.isAlphanum, Bool.or_eq_true] at start ⊢
  rcases start with h | h
  · exact .inl (.inl h)
  · exact .inr h

end Projector.Text
