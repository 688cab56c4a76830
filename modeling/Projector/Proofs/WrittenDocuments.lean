import Mathlib.Data.List.TakeWhile
import Projector.Json.Writing
import Projector.Proofs.ReadDocuments

/-!
# Documents that are written

A document can be written unless it has an integer with too many digits or a torn text in it. The
reader gives neither, so every document that is read can be written.
-/

namespace Projector

namespace Json

mutual

/-- A value can be written: no integer in it has too many digits, and no text in it is torn. -/
def IsWritable : Json → Prop
  | .int value => value.natAbs < Nat.pow 10 digitLimit
  | .torn _ => False
  | .arr items => IsWritableItems items
  | .obj fields => IsWritableFields fields
  | _ => True

/-- Every item of a list can be written. -/
def IsWritableItems : List Json → Prop
  | [] => True
  | item :: rest => item.IsWritable ∧ IsWritableItems rest

/-- Every value among some fields can be written. -/
def IsWritableFields : List (String × Json) → Prop
  | [] => True
  | (_, value) :: rest => value.IsWritable ∧ IsWritableFields rest

end

mutual

/-- A value can be written when its integers have texts and nothing is in the way of encoding it,
wherever its text starts. -/
theorem isWritable_iff : ∀ (value : Json) (position : Nat),
    value.IsWritable ↔ value.digitsFit = true ∧ value.tornAt? position = none
  | .int value, _ => by simp [IsWritable, digitsFit, tornAt?]
  | .torn _, _ => by simp [IsWritable, tornAt?]
  | .arr items, position => by
    rw [IsWritable, digitsFit, tornAt?, isWritableItems_iff items (position + 1)]
  | .obj fields, position => by
    rw [IsWritable, digitsFit, tornAt?, isWritableFields_iff fields (position + 1)]
  | .null, _ => by simp [IsWritable, digitsFit, tornAt?]
  | .bool _, _ => by simp [IsWritable, digitsFit, tornAt?]
  | .double _, _ => by simp [IsWritable, digitsFit, tornAt?]
  | .str _, _ => by simp [IsWritable, digitsFit, tornAt?]

/-- The same of the items of a list. -/
theorem isWritableItems_iff : ∀ (items : List Json) (position : Nat),
    IsWritableItems items ↔ digitsFitItems items = true ∧ tornItemAt? position items = none
  | [], _ => by simp [IsWritableItems, digitsFitItems, tornItemAt?]
  | item :: rest, position => by
    have hrest := isWritableItems_iff rest
      (position + (text item).length + Layout.spaced.comma.length)
    rw [IsWritableItems, isWritable_iff item position, hrest, digitsFitItems, tornItemAt?,
      Bool.and_eq_true]
    cases tornAt? position item <;> simp [and_assoc]

/-- The same of the fields of an object. -/
theorem isWritableFields_iff : ∀ (fields : List (String × Json)) (position : Nat),
    IsWritableFields fields ↔ digitsFitFields fields = true ∧ tornFieldAt? position fields = none
  | [], _ => by simp [IsWritableFields, digitsFitFields, tornFieldAt?]
  | (name, value) :: rest, position => by
    let start := position + (Layout.spaced.quote name).length + Layout.spaced.colon.length
    have hrest := isWritableFields_iff rest
      (start + (text value).length + Layout.spaced.comma.length)
    rw [IsWritableFields, isWritable_iff value start, hrest, digitsFitFields, tornFieldAt?,
      Bool.and_eq_true]
    cases tornAt? start value <;> simp [start, and_assoc]

end

instance (document : Json) : Decidable document.IsWritable :=
  decidable_of_iff _ (document.isWritable_iff 0).symm

/-- A document is written as its text, if it can be written. -/
theorem written_eq_ok_iff {document : Json} {raw : String} :
    document.written = .ok raw ↔ document.IsWritable ∧ raw = document.text := by
  rw [isWritable_iff document 0, written]
  cases document.digitsFit with
  | false => simp
  | true => cases document.tornAt? 0 <;> simp [eq_comm]

/-- A document that can be written has a text. -/
theorem IsWritable.written_eq {document : Json} (h : document.IsWritable) :
    document.written = .ok document.text := written_eq_ok_iff.mpr ⟨h, rfl⟩

/-- Writing any other document fails. -/
theorem exists_written_eq_error {document : Json} (h : ¬document.IsWritable) :
    ∃ fault, document.written = .error fault := by
  cases hwritten : document.written with
  | error fault => exact ⟨fault, rfl⟩
  | ok raw => exact absurd (written_eq_ok_iff.mp hwritten).1 h

/-- The fault names the place of the torn text in the text of the document. -/
example : written (.obj [("b", .torn ⟨[0xD800], by decide, by decide⟩)]) =
    .error (.torn [0xD800] 7) := by
  rfl

/-- An object that can be written still can when a value that can be written goes into it. -/
theorem isWritable_put {fields : Fields Json} {value : Json} (name : String)
    (hfields : (obj fields).IsWritable) (hvalue : value.IsWritable) :
    (obj (Fields.put fields name value)).IsWritable := by
  induction fields with
  | nil => exact ⟨hvalue, trivial⟩
  | cons field rest ih =>
    obtain ⟨other, old⟩ := field
    obtain ⟨hold, hrest⟩ := hfields
    unfold Fields.put
    split
    · exact ⟨hvalue, hrest⟩
    · exact ⟨hold, ih hrest⟩

/-! ## What is read can be written -/

namespace Numeral

/-- Digits that are read on after a number multiply it by ten each time. -/
theorem foldl_digits_lt {digits : List Char} (hdigits : ∀ digit ∈ digits, digit.isDigit = true)
    (start : Nat) :
    digits.foldl (fun value digit => value * 10 + (digit.toNat - 48)) start <
      (start + 1) * Nat.pow 10 digits.length := by
  induction digits generalizing start with
  | nil => simp
  | cons digit rest ih =>
    have hdigit : digit.toNat - 48 ≤ 9 := by
      have hclass := hdigits digit (by simp)
      simp only [Char.isDigit, Bool.and_eq_true, decide_eq_true_eq] at hclass
      have hle : digit.toNat ≤ 57 := hclass.2
      omega
    calc
      _ < (start * 10 + (digit.toNat - 48) + 1) * Nat.pow 10 rest.length :=
        ih (fun other hother => hdigits other (by simp [hother])) _
      _ ≤ (start + 1) * 10 * Nat.pow 10 rest.length := Nat.mul_le_mul_right _ (by omega)
      _ = (start + 1) * Nat.pow 10 (digit :: rest).length := by
        rw [Nat.mul_assoc, Nat.mul_comm 10]
        rfl

/-- The whole part of a numeral that is taken has nothing but digits. -/
theorem isDigit_of_take? {cursor after : Cursor} {numeral : Numeral}
    (h : take? cursor = some (numeral, after)) : ∀ digit ∈ numeral.whole, digit.isDigit = true := by
  unfold take? at h
  dsimp only at h
  split at h
  · cases h
  · rename_i whole afterWhole hwhole
    obtain ⟨rfl, -⟩ := Prod.mk.inj (Option.some.inj h)
    unfold takeWhole? at hwhole
    split at hwhole
    · cases hwhole
    · split at hwhole
      · rename_i hzero
        obtain ⟨rfl, -⟩ := Prod.mk.inj (Option.some.inj hwhole)
        simp [hzero]
      · split at hwhole
        · rename_i hfirst
          obtain ⟨rfl, -⟩ := Prod.mk.inj (Option.some.inj hwhole)
          intro digit hdigit
          rcases List.mem_cons.mp hdigit with rfl | hdigit
          · exact hfirst
          · exact List.mem_takeWhile_imp hdigit
        · cases hwhole

end Numeral

/-- No integer that is read has too many digits, and no text that is read is torn. -/
theorem readingKeeps_isWritable : ReadingKeeps IsWritable where
  word := by simp [words, IsWritable]
  numeral := by
    intro cursor after numeral value htake hvalue
    rcases Numeral.isNumber_of_value hvalue with ⟨number, rfl⟩ | ⟨number, rfl, hsize, hfew⟩
    · trivial
    · have hlt := Numeral.foldl_digits_lt (Numeral.isDigit_of_take? htake) 0
      have hpow : ∀ {few many : Nat}, few ≤ many → Nat.pow 10 few ≤ Nat.pow 10 many :=
        Nat.pow_le_pow_right (by decide)
      rw [Nat.zero_add, Nat.one_mul] at hlt
      change number.natAbs < Nat.pow 10 digitLimit
      rw [hsize]
      exact Nat.lt_of_lt_of_le hlt (hpow hfew)
  str _ := trivial
  noItems := trivial
  cons hitem hitems := ⟨hitem, hitems⟩
  noFields := trivial
  put name hfields hvalue := isWritable_put name hfields hvalue

end Json

end Projector
