import Projector.Documents
import Projector.Proofs.Results

/-!
# Documents that are read

A property that holds of words, numerals and literals and of everything that is put together from
values with it holds of every document that is read. The proof follows the reader: what every call
of it gives has the property, as long as what its calls for the parts give has it. A reader that
finds a name again in an object changes the value under that name, so no object it gives has a key
twice.
-/

namespace Projector

namespace Json

/-- Whatever a reading gives, if it gives anything, has a property. -/
def Gives {α : Type} {start : Cursor} (property : α → Prop)
    (reading : Except Stop (Advance α start)) : Prop :=
  ∀ step, reading = .ok step → property step.1.1

/-- A reading that is done gives what it says. -/
theorem gives_ok {α : Type} {start : Cursor} {property : α → Prop} {step : Advance α start}
    (h : property step.1.1) : Gives property (.ok step) := by
  rintro _ ⟨⟩
  exact h

/-- A reading that stops gives nothing. -/
theorem gives_error {α : Type} {start : Cursor} {property : α → Prop} (stop : Stop) :
    Gives property (.error stop : Except Stop (Advance α start)) := by
  rintro _ ⟨⟩

/-- Nothing has to be known about what a reading gives. -/
theorem gives_true {α : Type} {start : Cursor} (reading : Except Stop (Advance α start)) :
    Gives (fun _ => True) reading := fun _ _ => trivial

/-- A reading that goes on from another one. -/
theorem Gives.bind {α β : Type} {start other : Cursor} {property : α → Prop} {target : β → Prop}
    {reading : Except Stop (Advance α start)}
    {next : Advance α start → Except Stop (Advance β other)} (h : Gives property reading)
    (hnext : ∀ step, property step.1.1 → Gives target (next step)) :
    Gives target (reading >>= next) := by
  cases reading with
  | error stop => exact gives_error stop
  | ok step => exact hnext step (h step rfl)

/-! ## Properties that reading keeps -/

/-- A property that every value has that is read: it holds of what words, numerals and literals
stand for, and of what is put together from values that have it. -/
structure ReadingKeeps (property : Json → Prop) : Prop where
  word : ∀ word ∈ words, property word.2
  numeral : ∀ {cursor after : Cursor} {numeral : Numeral} {value : Json},
    Numeral.take? cursor = some (numeral, after) → numeral.value = .ok value → property value
  str : ∀ text, property (.str text)
  noItems : property (.arr [])
  cons : ∀ {item : Json} {items : List Json},
    property item → property (.arr items) → property (.arr (item :: items))
  noFields : property (.obj [])
  put : ∀ {fields : Fields Json} {value : Json} (name : String),
    property (.obj fields) → property value → property (.obj (Fields.put fields name value))

namespace ReadingKeeps

/-- The value of a word has the property. -/
theorem of_takeWord? {property : Json → Prop} (h : ReadingKeeps property) {cursor after : Cursor}
    {value : Json} (hword : takeWord? cursor = some (value, after)) : property value := by
  obtain ⟨word, hmem, hfound⟩ := List.exists_of_findSome?_eq_some hword
  obtain ⟨rest, -, hvalue⟩ := Option.map_eq_some_iff.mp hfound
  rw [← (Prod.mk.inj hvalue).1]
  exact h.word word hmem

/-- Words and numerals have the property. -/
theorem gives_readScalar {property : Json → Prop} (h : ReadingKeeps property) (cursor : Cursor) :
    Gives property (readScalar cursor) := by
  unfold readScalar
  split
  · rename_i hword
    exact gives_ok (h.of_takeWord? hword)
  · split
    · rename_i numeral after htake
      cases hvalue : numeral.value with
      | error stop => exact gives_error stop
      | ok value => exact gives_ok (h.numeral htake hvalue)
    · exact gives_error _

-- The three readers call each other on what is left to read, which gets shorter with every call.
mutual

/-- Values that are read have the property. -/
theorem gives_readValue {property : Json → Prop} (h : ReadingKeeps property) (cursor : Cursor) :
    Gives property (readValue cursor) := by
  rw [readValue]
  split
  · exact (gives_true _).bind fun step _ => gives_ok (h.str _)
  · rename_i rest hrest
    have hinner := Cursor.lt_of_rest hrest (Cursor.skipBlanks ⟨rest, cursor.offset + 1⟩).2
    dsimp only
    split
    · exact gives_ok h.noItems
    · exact (gives_readItems h _).bind fun step hstep => gives_ok hstep
  · rename_i rest hrest
    have hinner := Cursor.lt_of_rest hrest (Cursor.skipBlanks ⟨rest, cursor.offset + 1⟩).2
    dsimp only
    split
    · exact gives_ok h.noFields
    · exact (gives_readFields h _ h.noFields).bind fun step hstep => gives_ok hstep
  · exact h.gives_readScalar cursor
termination_by (cursor.rest.length, 0)
decreasing_by all_goals exact Prod.Lex.left _ _ hinner

/-- The items of a list that is read make a list with the property. -/
theorem gives_readItems {property : Json → Prop} (h : ReadingKeeps property) (cursor : Cursor) :
    Gives (fun items => property (.arr items)) (readItems cursor) := by
  rw [readItems]
  refine (gives_readValue h cursor).bind ?_
  rintro ⟨⟨item, afterItem⟩, hitem⟩ hkept
  have hnext := Nat.lt_of_le_of_lt afterItem.skipBlanks.2 hitem
  dsimp only
  split
  · exact gives_ok (h.cons hkept h.noItems)
  · rename_i rest hrest
    have hinner := Cursor.lt_of_rest hrest
      (Cursor.skipBlanks ⟨rest, afterItem.skipBlanks.1.offset + 1⟩).2
    exact (gives_readItems h _).bind fun step hstep => gives_ok (h.cons hkept hstep)
  · exact gives_error _
termination_by (cursor.rest.length, 1)
decreasing_by
  · exact Prod.Lex.right _ Nat.zero_lt_one
  · exact Prod.Lex.left _ _ (Nat.lt_trans hinner hnext)

/-- The fields of an object that is read, behind those of an object with the property, make one as
well. -/
theorem gives_readFields {property : Json → Prop} (h : ReadingKeeps property)
    {fields : Fields Json} (cursor : Cursor) (hfields : property (.obj fields)) :
    Gives (fun fields => property (.obj fields)) (readFields fields cursor) := by
  rw [readFields]
  split
  · rename_i rest hrest
    refine (gives_true _).bind ?_
    rintro ⟨⟨name, afterName⟩, hname⟩ -
    have hcolon : afterName.skipBlanks.1.rest.length < cursor.rest.length :=
      Cursor.lt_of_rest hrest (Nat.le_trans afterName.skipBlanks.2 (Nat.le_of_lt hname))
    dsimp only
    split
    · rename_i rest hc
      have hstart := Nat.lt_trans (Cursor.lt_of_rest hc
        (Cursor.skipBlanks ⟨rest, afterName.skipBlanks.1.offset + 1⟩).2) hcolon
      refine (gives_readValue h _).bind ?_
      rintro ⟨⟨value, afterValue⟩, hvalue⟩ hkept
      have hnext := Nat.lt_trans (Nat.lt_of_le_of_lt afterValue.skipBlanks.2 hvalue) hstart
      have hput := h.put name hfields hkept
      dsimp only
      split
      · exact gives_ok hput
      · rename_i rest hn
        have hinner := Nat.lt_trans (Cursor.lt_of_rest hn
          (Cursor.skipBlanks ⟨rest, afterValue.skipBlanks.1.offset + 1⟩).2) hnext
        exact (gives_readFields h _ hput).bind fun step hstep => gives_ok hstep
      · exact gives_error _
    · exact gives_error _
  · exact gives_error _
termination_by (cursor.rest.length, 1)
decreasing_by
  · exact Prod.Lex.left _ _ hstart
  · exact Prod.Lex.left _ _ hinner

end

/-! ### Texts, bytes and files -/

variable {property : Json → Prop} (h : ReadingKeeps property)

include h

/-- The value in a decoded text has the property. -/
theorem of_readChars {text : List Char} {value : Json} (hread : readChars text = .ok value) :
    property value := by
  have htext := ok_of_mapError hread
  unfold readText at htext
  obtain ⟨step, hvalue, htext⟩ := exists_of_bind_eq_ok htext
  dsimp only at htext
  split at htext
  · obtain rfl := Except.ok.inj htext
    exact h.gives_readValue _ step hvalue
  · cases htext

/-- The value in a text has the property. -/
theorem of_read {text : String} {value : Json} (hread : Json.read text = .ok value) :
    property value := by
  unfold Json.read at hread
  split at hread
  · exact h.of_readChars hread
  · split at hread
    · cases hread
    · exact h.of_readChars hread

/-- The value of a document has the property, whether it comes as a text or as bytes. -/
theorem of_source {source : Source} {value : Json} (hread : source.read = .ok value) :
    property value := by
  cases source with
  | text written => exact h.of_read (ok_of_mapError hread)
  | bytes stored =>
    obtain ⟨written, -, hread⟩ := exists_of_bind_eq_ok hread
    exact h.of_readChars (ok_of_mapError hread)

/-- Documents that are loaded have the property. -/
theorem of_load {disk : Tree} {folder name : String} {document : Json}
    (hload : (Documents.load disk folder name).1 = .ok document) : property document := by
  unfold Documents.load at hload
  split at hload
  · dsimp only [Documents.readAt] at hload
    split at hload
    · cases hload
    · split at hload
      · cases hload
      · exact h.of_source (ok_of_mapError hload)
  · cases hload

end ReadingKeeps

/-! ## Well-formed values -/

/-- Writing a well-formed value into an object keeps the object well formed. -/
theorem wellFormed_put {fields : Fields Json} {value : Json} (name : String)
    (hfields : (obj fields).WellFormed) (hvalue : value.WellFormed) :
    (obj (Fields.put fields name value)).WellFormed := by
  obtain ⟨hdistinct, hformed⟩ := hfields
  refine ⟨Fields.distinct_put name value hdistinct, ?_⟩
  clear hdistinct
  induction fields with
  | nil => exact ⟨hvalue, trivial⟩
  | cons field rest ih =>
    obtain ⟨other, old⟩ := field
    obtain ⟨hold, hrest⟩ := hformed
    unfold Fields.put
    split
    · exact ⟨hvalue, hrest⟩
    · exact ⟨hold, ih hrest⟩

/-- The value of a numeral is a number. -/
theorem Numeral.isNumber_of_value {numeral : Numeral} {value : Json}
    (h : numeral.value = .ok value) :
    (∃ number, value = .double number) ∨ ∃ number : Int, value = .int number ∧
      number.natAbs = digitsValue numeral.whole ∧ numeral.whole.length ≤ digitLimit := by
  unfold Numeral.value at h
  split at h
  · dsimp only at h
    split at h
    · cases h
    · rename_i hfew
      obtain rfl := Except.ok.inj h
      refine .inr ⟨_, rfl, ?_, Nat.le_of_not_lt hfew⟩
      split
      · exact (Int.natAbs_neg _).trans (Int.natAbs_natCast _)
      · exact Int.natAbs_natCast _
  · obtain rfl := Except.ok.inj h
    exact .inl ⟨_, rfl⟩

/-- No object that is read has a key twice. -/
theorem readingKeeps_wellFormed : ReadingKeeps WellFormed where
  word := by simp [words, WellFormed]
  numeral := by
    intro _ _ _ _ _ hvalue
    rcases Numeral.isNumber_of_value hvalue with ⟨_, rfl⟩ | ⟨_, rfl, -⟩
    · trivial
    · trivial
  str _ := trivial
  noItems := trivial
  cons hitem hitems := ⟨hitem, hitems⟩
  noFields := ⟨List.nodup_nil, trivial⟩
  put name hfields hvalue := wellFormed_put name hfields hvalue

end Json

end Projector
