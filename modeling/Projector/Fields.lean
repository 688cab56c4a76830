/-!
# Ordered fields

Objects, key tries and object constructions all hold named values in the order in which the names
were first written. Writing a name again changes its value and keeps its place. The lemmas say
which names a write leaves and what is read back after it.
-/

namespace Projector

/-- Named values in the order in which their names were first written. -/
abbrev Fields (α : Type) := List (String × α)

namespace Fields

/-- The names, in order. -/
def names {α : Type} (fields : Fields α) : List String := fields.map Prod.fst

/-- The value under a name, if there is one. -/
def get? {α : Type} (fields : Fields α) (name : String) : Option α :=
  match fields with
  | [] => none
  | (other, value) :: rest => if other = name then some value else get? rest name

/-- Writes a value under a name: in place when the name is there, at the end otherwise. -/
def put {α : Type} (fields : Fields α) (name : String) (value : α) : Fields α :=
  match fields with
  | [] => [(name, value)]
  | (other, old) :: rest =>
    if other = name then (name, value) :: rest else (other, old) :: put rest name value

/-- No name occurs twice. -/
def Distinct {α : Type} (fields : Fields α) : Prop := (names fields).Nodup

/-- A write adds its name at the end exactly when the name is new. -/
theorem names_put {α : Type} (fields : Fields α) (name : String) (value : α) :
    names (put fields name value) =
      if name ∈ names fields then names fields else names fields ++ [name] := by
  induction fields with
  | nil => simp [put, names]
  | cons field rest ih =>
      obtain ⟨other, old⟩ := field
      by_cases h : other = name
      · simp [put, names, h]
      · have h' : ¬name = other := fun e => h e.symm
        simp only [names] at ih
        by_cases hmem : name ∈ rest.map Prod.fst
        · simp [put, names, h, h', ih, hmem]
        · simp [put, names, h, h', ih, hmem]

/-- A write keeps names distinct. -/
theorem distinct_put {α : Type} {fields : Fields α} (name : String) (value : α)
    (distinct : Distinct fields) : Distinct (put fields name value) := by
  unfold Distinct
  rw [names_put]
  split
  · exact distinct
  · rename_i absent
    refine List.nodup_append.mpr ⟨distinct, by simp, ?_⟩
    intro a ha b hb
    rw [List.mem_singleton] at hb
    subst hb
    exact fun e => absent (e ▸ ha)

/-- What was written last under a name is what is read. -/
theorem get?_put {α : Type} (fields : Fields α) (name : String) (value : α) (asked : String) :
    get? (put fields name value) asked =
      if name = asked then some value else get? fields asked := by
  induction fields with
  | nil => by_cases h : name = asked <;> simp [put, get?, h]
  | cons field rest ih =>
      obtain ⟨other, old⟩ := field
      by_cases h : other = name
      · subst h
        by_cases ha : other = asked <;> simp [put, get?, ha]
      · by_cases ha : other = asked
        · subst ha
          have h' : ¬name = other := fun e => h e.symm
          simp [put, get?, h, h']
        · simp [put, get?, h, ih, ha]

end Fields

end Projector
