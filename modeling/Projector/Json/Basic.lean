import Projector.Fields
import Projector.Json.Torn
import Projector.Number.Double

/-!
# JSON values

Documents and query outputs are JSON values whose integers are unbounded, whose other numbers are
doubles, and whose objects keep the order of their keys. A value is well formed when no object in
it has a key twice; reading and every operation of this library yield only such values from such
values. A value that is handed over may have torn texts in it, which are never read from a text.
-/

namespace Projector

/-- A JSON value. Integers and doubles are told apart, and objects keep their order. -/
inductive Json
  | null
  | bool (value : Bool)
  | int (value : Int)
  | double (value : Number.Double)
  | str (value : String)
  | torn (value : TornText)
  | arr (items : List Json)
  | obj (fields : List (String × Json))

namespace Json

mutual

/-- No object in the value has a key twice. -/
def WellFormed : Json → Prop
  | .arr items => WellFormedItems items
  | .obj fields => Fields.Distinct fields ∧ WellFormedFields fields
  | _ => True

/-- Every item of a list is well formed. -/
def WellFormedItems : List Json → Prop
  | [] => True
  | item :: rest => item.WellFormed ∧ WellFormedItems rest

/-- Every value among some fields is well formed. -/
def WellFormedFields : List (String × Json) → Prop
  | [] => True
  | (_, value) :: rest => value.WellFormed ∧ WellFormedFields rest

end

/-- A list is well formed item by item. -/
theorem wellFormedItems_iff {items : List Json} :
    WellFormedItems items ↔ ∀ item ∈ items, item.WellFormed := by
  induction items with
  | nil => simp [WellFormedItems]
  | cons item rest ih => simp [WellFormedItems, ih]

/-- Fields are well formed value by value. -/
theorem wellFormedFields_iff {fields : List (String × Json)} :
    WellFormedFields fields ↔ ∀ field ∈ fields, field.2.WellFormed := by
  induction fields with
  | nil => simp [WellFormedFields]
  | cons field rest ih =>
      obtain ⟨name, value⟩ := field
      simp [WellFormedFields, ih]

end Json

end Projector
