import Projector.Json.Fault
import Projector.Text.Quoted

/-!
# String literals

Strings are written between double quotes. The quote, the backslash and the control characters are
escaped and every other character stands for itself. Reading accepts all the escapes of JSON and
joins the two halves of a surrogate pair.
-/

namespace Projector.Json

/-- A place in a text that is being read: what is still to read, and how much has been. -/
structure Cursor where
  /-- The characters still to read. -/
  rest : List Char
  /-- How many characters have been read. -/
  offset : Nat

namespace Literal

/-- The letter of a character that has a short escape. -/
def shortEscape? (c : Char) : Option Char :=
  if c = '"' then some '"'
  else if c = '\\' then some '\\'
  else if c = '\n' then some 'n'
  else if c = '\r' then some 'r'
  else if c = '\t' then some 't'
  else if c = '\x08' then some 'b'
  else if c = '\x0c' then some 'f'
  else none

/-- The character that the letter after a backslash stands for. -/
def unescape? (letter : Char) : Option Char :=
  if letter = '"' then some '"'
  else if letter = '\\' then some '\\'
  else if letter = '/' then some '/'
  else if letter = 'b' then some '\x08'
  else if letter = 'f' then some '\x0c'
  else if letter = 'n' then some '\n'
  else if letter = 'r' then some '\r'
  else if letter = 't' then some '\t'
  else none

/-- The control characters, which never stand for themselves in a literal. -/
def isControl (c : Char) : Bool := decide (c.toNat < 0x20)

/-- One character of a literal, given which characters are written by their code when they have no
short escape. -/
def writeChar (byCode : Char → Bool) (c : Char) : List Char :=
  match shortEscape? c with
  | some letter => ['\\', letter]
  | none => if byCode c then '\\' :: 'u' :: Text.hexDigits c.toNat 4 else [c]

/-- The characters of a literal, quotes included. -/
def write (byCode : Char → Bool) (text : List Char) : List Char :=
  '"' :: text.flatMap (writeChar byCode) ++ ['"']

/-- The value of a hexadecimal digit. -/
def hexValue? (c : Char) : Option Nat :=
  if '0' ≤ c ∧ c ≤ '9' then some (c.toNat - 48)
  else if 'a' ≤ c ∧ c ≤ 'f' then some (c.toNat - 87)
  else if 'A' ≤ c ∧ c ≤ 'F' then some (c.toNat - 55)
  else none

/-- The code unit that four hexadecimal digits name. At least one more character has to follow
them, since the literal is not closed yet. -/
def codeUnit? : List Char → Option Nat
  | a :: b :: c :: d :: _ :: _ => do
    let a ← hexValue? a
    let b ← hexValue? b
    let c ← hexValue? c
    let d ← hexValue? d
    some (((a * 16 + b) * 16 + c) * 16 + d)
  | _ => none

/-- The first halves of surrogate pairs. -/
def isHighSurrogate (unit : Nat) : Bool := 0xD800 ≤ unit && unit < 0xDC00

/-- The second halves of surrogate pairs. -/
def isLowSurrogate (unit : Nat) : Bool := 0xDC00 ≤ unit && unit < 0xE000

/-- The character of a code unit that stands alone; half a pair has none and is replaced. -/
def charOfUnit (unit : Nat) : Char :=
  if isHighSurrogate unit || isLowSurrogate unit then '\uFFFD' else Char.ofNat unit

/-- The character of a surrogate pair. -/
def charOfPair (high low : Nat) : Char :=
  Char.ofNat (0x10000 + (high - 0xD800) * 0x400 + (low - 0xDC00))

/-- What follows the first half of a pair: the code unit of an escape, if one follows with a
character after it. -/
inductive SecondHalf
  | absent
  | malformed
  | unit (value : Nat)

/-- Looks for a second escape after the first half of a pair. -/
def secondHalf : List Char → SecondHalf
  | '\\' :: 'u' :: rest =>
    if 4 < rest.length then
      match codeUnit? rest with
      | some unit => .unit unit
      | none => .malformed
    else .absent
  | _ => .absent

/-- Reads the rest of a literal whose opening quote stood at `opening`, up to and including its
closing quote. -/
def readTail (opening : Nat) (offset : Nat) (rest : List Char) :
    Except Stop (List Char × Cursor) :=
  match rest with
  | [] => .error (.at .unterminatedString opening)
  | '"' :: rest => .ok ([], ⟨rest, offset + 1⟩)
  | '\\' :: [] => .error (.at .unterminatedString opening)
  | '\\' :: 'u' :: rest =>
    match codeUnit? rest with
    | none => .error (.at .badUnicodeEscape (offset + 1))
    | some unit =>
      if isHighSurrogate unit then
        match secondHalf (rest.drop 4) with
        | .malformed => .error (.at .badUnicodeEscape (offset + 7))
        | .unit low =>
          if isLowSurrogate low then do
            let (text, cursor) ← readTail opening (offset + 12) (rest.drop 10)
            .ok (charOfPair unit low :: text, cursor)
          else do
            let (text, cursor) ← readTail opening (offset + 6) (rest.drop 4)
            .ok (charOfUnit unit :: text, cursor)
        | .absent => do
          let (text, cursor) ← readTail opening (offset + 6) (rest.drop 4)
          .ok (charOfUnit unit :: text, cursor)
      else do
        let (text, cursor) ← readTail opening (offset + 6) (rest.drop 4)
        .ok (charOfUnit unit :: text, cursor)
  | '\\' :: letter :: rest =>
    match unescape? letter with
    | none => .error (.at .badEscape offset)
    | some c => do
      let (text, cursor) ← readTail opening (offset + 2) rest
      .ok (c :: text, cursor)
  | c :: rest =>
    if isControl c then .error (.at .controlCharacter offset)
    else do
      let (text, cursor) ← readTail opening (offset + 1) rest
      .ok (c :: text, cursor)
termination_by rest.length

/-- Reading a literal consumes at least its closing quote. -/
theorem readTail_shorter {opening offset : Nat} {rest : List Char} {text : List Char}
    {cursor : Cursor} (h : readTail opening offset rest = .ok (text, cursor)) :
    cursor.rest.length < rest.length := by
  fun_induction readTail opening offset rest generalizing text cursor <;>
    simp_all [bind, Except.bind] <;> grind

end Literal

/-- A text as a JSON string literal. -/
def quote (text : String) : String :=
  String.ofList (Literal.write Literal.isControl text.toList)

end Projector.Json
