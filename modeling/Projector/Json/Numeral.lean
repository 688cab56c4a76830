import Projector.Json.Literal
import Projector.Json.Basic

/-!
# Numerals

A numeral is an optional sign, a whole part without superfluous zeros, and optionally a fraction
and an exponent. The longest numeral at a place is taken; a point or an exponent mark without
digits behind it is left unread. Without fraction and exponent the value is an integer of any
size up to the digit limit, otherwise the nearest double.
-/

namespace Projector.Json

/-- The parts of a numeral. -/
structure Numeral where
  /-- Whether it has a minus sign. -/
  negative : Bool
  /-- The digits in front of the point, of which there is at least one. -/
  whole : List Char
  /-- The digits behind the point. -/
  fraction : List Char
  /-- The exponent of ten, if one is written. -/
  exponent : Option Int

namespace Cursor

/-- Moves past characters that have been read. -/
def past (cursor : Cursor) (taken : List Char) (rest : List Char) : Cursor :=
  ⟨rest, cursor.offset + taken.length⟩

/-- Takes the longest run of characters of a class. -/
def takeWhile (cursor : Cursor) (belongs : Char → Bool) : List Char × Cursor :=
  let taken := cursor.rest.takeWhile belongs
  (taken, cursor.past taken (cursor.rest.dropWhile belongs))

/-- Takes the longest run of decimal digits. -/
def takeDigits (cursor : Cursor) : List Char × Cursor := cursor.takeWhile Char.isDigit

/-- A run leaves no more than there was. -/
theorem takeWhile_le (cursor : Cursor) (belongs : Char → Bool) :
    (cursor.takeWhile belongs).2.rest.length ≤ cursor.rest.length :=
  (List.dropWhile_suffix belongs).sublist.length_le

end Cursor

namespace Numeral

/-- The value of a run of decimal digits. -/
def digitsValue (digits : List Char) : Nat :=
  digits.foldl (fun value digit => value * 10 + (digit.toNat - 48)) 0

/-- Takes the whole part: a single zero, or digits that do not start with one. -/
def takeWhole? (cursor : Cursor) : Option (List Char × Cursor) :=
  match cursor.rest with
  | [] => none
  | first :: rest =>
    if first = '0' then some ([first], ⟨rest, cursor.offset + 1⟩)
    else if first.isDigit then
      let (digits, after) := Cursor.takeDigits ⟨rest, cursor.offset + 1⟩
      some (first :: digits, after)
    else none

/-- Takes a point and the digits behind it, if there are any. -/
def takeFraction (cursor : Cursor) : List Char × Cursor :=
  match cursor.rest with
  | '.' :: rest =>
    let (digits, after) := Cursor.takeDigits ⟨rest, cursor.offset + 1⟩
    if digits.isEmpty then ([], cursor) else (digits, after)
  | _ => ([], cursor)

/-- Takes an optional sign. -/
def takeSign (cursor : Cursor) : Bool × Cursor :=
  match cursor.rest with
  | '-' :: rest => (true, ⟨rest, cursor.offset + 1⟩)
  | '+' :: rest => (false, ⟨rest, cursor.offset + 1⟩)
  | _ => (false, cursor)

/-- Takes an exponent, if its mark is followed by digits with or without a sign. -/
def takeExponent (cursor : Cursor) : Option Int × Cursor :=
  match cursor.rest with
  | mark :: rest =>
    if mark = 'e' ∨ mark = 'E' then
      let (negative, signed) := takeSign ⟨rest, cursor.offset + 1⟩
      let (digits, after) := signed.takeDigits
      if digits.isEmpty then (none, cursor)
      else
        let size : Int := digitsValue digits
        (some (if negative then -size else size), after)
    else (none, cursor)
  | [] => (none, cursor)

/-- Takes an optional minus sign. -/
def takeMinus (cursor : Cursor) : Bool × Cursor :=
  match cursor.rest with
  | '-' :: rest => (true, ⟨rest, cursor.offset + 1⟩)
  | _ => (false, cursor)

/-- Takes the longest numeral, if one starts here. -/
def take? (cursor : Cursor) : Option (Numeral × Cursor) :=
  let (negative, unsigned) := takeMinus cursor
  match takeWhole? unsigned with
  | none => none
  | some (whole, afterWhole) =>
    let (fraction, afterFraction) := takeFraction afterWhole
    let (exponent, after) := takeExponent afterFraction
    some ({ negative, whole, fraction, exponent }, after)

/-- The value of a numeral. -/
def value (numeral : Numeral) : Except Stop Json :=
  match numeral.fraction, numeral.exponent with
  | [], none =>
    let count := numeral.whole.length
    if digitLimit < count then .error (.tooManyDigits count)
    else
      let size : Int := digitsValue numeral.whole
      .ok (.int (if numeral.negative then -size else size))
  | fraction, exponent =>
    let digits := digitsValue (numeral.whole ++ fraction)
    let place := exponent.getD 0 - fraction.length
    .ok (.double (.ofDecimal numeral.negative digits place))

/-- A whole part has at least one character. -/
theorem takeWhole?_shorter {cursor after : Cursor} {digits : List Char}
    (h : takeWhole? cursor = some (digits, after)) :
    after.rest.length < cursor.rest.length := by
  unfold takeWhole? at h
  split at h
  · simp at h
  · rename_i first rest hrest
    rw [hrest]
    split at h
    · simp only [Option.some.injEq, Prod.mk.injEq] at h
      simp [← h.2]
    · split at h
      · simp only [Option.some.injEq, Prod.mk.injEq] at h
        have le := Cursor.takeWhile_le ⟨rest, cursor.offset + 1⟩ Char.isDigit
        rw [← h.2]
        simp only [List.length_cons, Cursor.takeDigits]
        simp only at le
        omega
      · simp at h

/-- A fraction leaves no more than there was. -/
theorem takeFraction_le (cursor : Cursor) :
    (takeFraction cursor).2.rest.length ≤ cursor.rest.length := by
  unfold takeFraction
  split
  · rename_i rest hrest
    have le := Cursor.takeWhile_le ⟨rest, cursor.offset + 1⟩ Char.isDigit
    dsimp only
    split
    · exact Nat.le_refl _
    · rw [hrest]
      simp only [List.length_cons, Cursor.takeDigits]
      simp only at le
      omega
  · exact Nat.le_refl _

/-- A sign leaves no more than there was. -/
theorem takeSign_le (cursor : Cursor) :
    (takeSign cursor).2.rest.length ≤ cursor.rest.length := by
  unfold takeSign
  split <;> simp_all

/-- A minus sign leaves no more than there was. -/
theorem takeMinus_le (cursor : Cursor) :
    (takeMinus cursor).2.rest.length ≤ cursor.rest.length := by
  unfold takeMinus
  split <;> simp_all

/-- An exponent leaves no more than there was. -/
theorem takeExponent_le (cursor : Cursor) :
    (takeExponent cursor).2.rest.length ≤ cursor.rest.length := by
  unfold takeExponent
  split
  · rename_i mark rest hrest
    split
    · have signed := takeSign_le ⟨rest, cursor.offset + 1⟩
      have digits := Cursor.takeWhile_le (takeSign ⟨rest, cursor.offset + 1⟩).2 Char.isDigit
      dsimp only
      split
      · exact Nat.le_refl _
      · rw [hrest]
        simp only [List.length_cons, Cursor.takeDigits]
        simp only at signed
        omega
    · exact Nat.le_refl _
  · exact Nat.le_refl _

/-- A numeral has at least one character. -/
theorem take?_shorter {cursor after : Cursor} {numeral : Numeral}
    (h : take? cursor = some (numeral, after)) : after.rest.length < cursor.rest.length := by
  unfold take? at h
  dsimp only at h
  split at h
  · simp at h
  · rename_i whole afterWhole hwhole
    simp only [Option.some.injEq, Prod.mk.injEq] at h
    have minus := takeMinus_le cursor
    have wholeShorter := takeWhole?_shorter hwhole
    have fraction := takeFraction_le afterWhole
    have exponent := takeExponent_le (takeFraction afterWhole).2
    rw [← h.2]
    omega

end Numeral

end Projector.Json
