import Projector.Following
import Projector.Json.Numeral

/-!
# Reading JSON

The reader goes through a text from left to right and stops at the first problem. Besides JSON it
accepts the words for the doubles that are no numbers of the line. A name that occurs again in an
object changes the value of its first occurrence. Every step leaves less to read than it found,
which is why the reader ends.
-/

namespace Projector.Json

/-- The result of reading something at a place, together with the place behind it, which leaves
less to read. -/
abbrev Advance (α : Type) (start : Cursor) : Type :=
  { step : α × Cursor // step.2.rest.length < start.rest.length }

/-- The characters between tokens. -/
def isBlank (c : Char) : Bool := c == ' ' || c == '\t' || c == '\n' || c == '\r'

/-- The place behind the blanks that start here, which leaves no more to read. -/
def Cursor.skipBlanks (cursor : Cursor) :
    { next : Cursor // next.rest.length ≤ cursor.rest.length } :=
  ⟨(cursor.takeWhile isBlank).2, cursor.takeWhile_le isBlank⟩

/-- The words that stand for values. -/
def words : List (List Char × Json) :=
  [("null".toList, .null), ("true".toList, .bool true), ("false".toList, .bool false),
   ("NaN".toList, .double .nan), ("Infinity".toList, .double (.infinite false)),
   ("-Infinity".toList, .double (.infinite true))]

/-- Takes a word, if one starts here. -/
def takeWord? (cursor : Cursor) : Option (Json × Cursor) :=
  words.findSome? fun (word, value) =>
    (following? word cursor.rest).map fun rest => (value, cursor.past word rest)

/-- A word has at least one character. -/
theorem takeWord?_shorter {cursor after : Cursor} {value : Json}
    (h : takeWord? cursor = some (value, after)) :
    after.rest.length < cursor.rest.length := by
  obtain ⟨⟨word, known⟩, member, found⟩ := List.exists_of_findSome?_eq_some h
  simp only [Option.map_eq_some_iff, Prod.mk.injEq] at found
  obtain ⟨rest, split, -, rfl⟩ := found
  have text := following?_eq_some_iff.mp split
  have nonempty : 0 < word.length := by
    simp only [words, List.mem_cons, Prod.mk.injEq, List.not_mem_nil, or_false] at member
    rcases member with h | h | h | h | h | h <;> (rw [h.1]; decide)
  simp only [Cursor.past, text, List.length_append]
  omega

/-- Reads the rest of a literal behind its opening quote. -/
def readLiteral (opening : Nat) (cursor : Cursor) : Except Stop (Advance String cursor) :=
  match h : Literal.readTail opening cursor.offset cursor.rest with
  | .error stop => .error stop
  | .ok (text, after) => .ok ⟨(String.ofList text, after), Literal.readTail_shorter h⟩

/-- Reads a word or a numeral. -/
def readScalar (cursor : Cursor) : Except Stop (Advance Json cursor) :=
  match hw : takeWord? cursor with
  | some (value, after) => .ok ⟨(value, after), takeWord?_shorter hw⟩
  | none =>
    match hn : Numeral.take? cursor with
    | some (numeral, after) => do
      let value ← numeral.value
      .ok ⟨(value, after), Numeral.take?_shorter hn⟩
    | none => .error (.at .valueExpected cursor.offset)

/-- Behind the first character of a place there is less to read. -/
theorem Cursor.lt_of_rest {cursor : Cursor} {first : Char} {rest : List Char}
    (h : cursor.rest = first :: rest) {count : Nat} (hcount : count ≤ rest.length) :
    count < cursor.rest.length := by
  rw [h]
  exact Nat.lt_succ_of_le hcount

mutual

/-- Reads the value that starts here. -/
def readValue (cursor : Cursor) : Except Stop (Advance Json cursor) :=
  match h : cursor.rest with
  | '"' :: rest => do
    let ⟨(text, after), hafter⟩ ← readLiteral cursor.offset ⟨rest, cursor.offset + 1⟩
    .ok ⟨(.str text, after), Cursor.lt_of_rest h (Nat.le_of_lt hafter)⟩
  | '[' :: rest =>
    let ⟨inner, hinner⟩ := Cursor.skipBlanks ⟨rest, cursor.offset + 1⟩
    match hi : inner.rest with
    | ']' :: rest =>
      have hlast := Cursor.lt_of_rest hi (Nat.le_refl _)
      .ok ⟨(.arr [], ⟨rest, inner.offset + 1⟩),
        Cursor.lt_of_rest h (Nat.le_of_lt (Nat.lt_of_lt_of_le hlast hinner))⟩
    | _ => do
      let ⟨(items, after), hafter⟩ ← readItems inner
      .ok ⟨(.arr items, after),
        Cursor.lt_of_rest h (Nat.le_of_lt (Nat.lt_of_lt_of_le hafter hinner))⟩
  | '{' :: rest =>
    let ⟨inner, hinner⟩ := Cursor.skipBlanks ⟨rest, cursor.offset + 1⟩
    match hi : inner.rest with
    | '}' :: rest =>
      have hlast := Cursor.lt_of_rest hi (Nat.le_refl _)
      .ok ⟨(.obj [], ⟨rest, inner.offset + 1⟩),
        Cursor.lt_of_rest h (Nat.le_of_lt (Nat.lt_of_lt_of_le hlast hinner))⟩
    | _ => do
      let ⟨(fields, after), hafter⟩ ← readFields [] inner
      .ok ⟨(.obj fields, after),
        Cursor.lt_of_rest h (Nat.le_of_lt (Nat.lt_of_lt_of_le hafter hinner))⟩
  | _ => readScalar cursor
termination_by (cursor.rest.length, 0)
decreasing_by all_goals grind

/-- Reads the items of a list up to and including its closing bracket. -/
def readItems (cursor : Cursor) : Except Stop (Advance (List Json) cursor) := do
  let ⟨(item, afterItem), _⟩ ← readValue cursor
  let ⟨next, _⟩ := afterItem.skipBlanks
  match hn : next.rest with
  | ']' :: rest => .ok ⟨([item], ⟨rest, next.offset + 1⟩), by grind⟩
  | ',' :: rest =>
    let ⟨inner, _⟩ := Cursor.skipBlanks ⟨rest, next.offset + 1⟩
    let ⟨(items, after), _⟩ ← readItems inner
    .ok ⟨(item :: items, after), by grind⟩
  | _ => .error (.at .commaExpected next.offset)
termination_by (cursor.rest.length, 1)
decreasing_by all_goals grind

/-- Reads the fields of an object behind those already read, up to and including its closing
brace. -/
def readFields (fields : Fields Json) (cursor : Cursor) :
    Except Stop (Advance (Fields Json) cursor) :=
  match h : cursor.rest with
  | '"' :: rest => do
    let ⟨(name, afterName), _⟩ ← readLiteral cursor.offset ⟨rest, cursor.offset + 1⟩
    let ⟨colon, _⟩ := afterName.skipBlanks
    match hc : colon.rest with
    | ':' :: rest =>
      let ⟨start, _⟩ := Cursor.skipBlanks ⟨rest, colon.offset + 1⟩
      let ⟨(value, afterValue), _⟩ ← readValue start
      let ⟨next, _⟩ := afterValue.skipBlanks
      let fields := Fields.put fields name value
      match hn : next.rest with
      | '}' :: rest => .ok ⟨(fields, ⟨rest, next.offset + 1⟩), by grind⟩
      | ',' :: rest =>
        let ⟨inner, _⟩ := Cursor.skipBlanks ⟨rest, next.offset + 1⟩
        let ⟨(fields, after), _⟩ ← readFields fields inner
        .ok ⟨(fields, after), by grind⟩
      | _ => .error (.at .commaExpected next.offset)
    | _ => .error (.at .colonExpected colon.offset)
  | _ => .error (.at .nameExpected cursor.offset)
termination_by (cursor.rest.length, 1)
decreasing_by all_goals grind

end

/-- The mark that some programs put in front of a text. -/
def byteOrderMark : Char := '\uFEFF'

/-- Reads a text that holds exactly one value, with blanks around it. -/
def readText (text : List Char) : Except Stop Json := do
  let ⟨start, _⟩ := Cursor.skipBlanks ⟨text, 0⟩
  let ⟨(value, after), _⟩ ← readValue start
  let ⟨last, _⟩ := after.skipBlanks
  if last.rest.isEmpty then .ok value else .error (.at .extraData last.offset)

/-- The value that a decoded text holds. -/
def readChars (text : List Char) : Except Fault Json := (readText text).mapError (Stop.fault text)

/-- The value that a text holds. A text must not start with a byte order mark. -/
def read (text : String) : Except Fault Json :=
  match text.toList with
  | [] => readChars []
  | first :: rest =>
    if first = byteOrderMark then .error (.malformed .byteOrderMark (Place.ofOffset [] 0))
    else readChars (first :: rest)

end Projector.Json
