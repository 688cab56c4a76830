/-!
# Results that may be refused

What is computed step by step is there only when the result of every step is, and what is computed
for each of several items only when the result for each item is.
-/

namespace Projector

/-- When one computation behind another succeeds, the first one has succeeded as well. -/
theorem exists_of_bind_eq_ok {ε α β : Type} {first : Except ε α} {next : α → Except ε β}
    {result : β} (h : first >>= next = .ok result) :
    ∃ value, first = .ok value ∧ next value = .ok result := by
  cases first with
  | error fault => cases h
  | ok value => exact ⟨value, rfl, h⟩

/-- A result is there before its faults are reworded. -/
theorem ok_of_mapError {α ε δ : Type} {reword : ε → δ} {result : Except ε α} {value : α}
    (h : result.mapError reword = .ok value) : result = .ok value := by
  cases result with
  | error fault => cases h
  | ok other => rw [Except.ok.inj h]

/-- What can be read off a result that is there belongs to that result. -/
theorem exists_eq_ok {ε α β : Type} {result : Except ε α} {read : α → β} {seen : β}
    (h : result.toOption.map read = some seen) :
    ∃ value, result = .ok value ∧ read value = seen := by
  cases result with
  | error failure => cases h
  | ok value => exact ⟨value, rfl, Option.some.inj h⟩

/-! ## Several items -/

/-- Reading items one by one gives what each of them is read as. -/
theorem mapM_eq_ok {α β ε : Type} {f : α → Except ε β} {g : α → β} {items : List α}
    (h : ∀ item ∈ items, f item = .ok (g item)) : items.mapM f = .ok (items.map g) := by
  induction items with
  | nil => rfl
  | cons item items ih =>
    rw [List.mapM_cons, h item (by simp), ih fun other hother => h other (by simp [hother])]
    rfl

/-- The first of several items is read, and so are the others. -/
theorem exists_of_mapM_cons {α β ε : Type} {f : α → Except ε β} {item : α} {items : List α}
    {values : List β} (h : (item :: items).mapM f = .ok values) :
    ∃ first rest, f item = .ok first ∧ items.mapM f = .ok rest ∧ values = first :: rest := by
  rw [List.mapM_cons] at h
  obtain ⟨first, hfirst, h⟩ := exists_of_bind_eq_ok h
  obtain ⟨rest, hrest, h⟩ := exists_of_bind_eq_ok h
  exact ⟨first, rest, hfirst, hrest, (Except.ok.inj h).symm⟩

/-- What is read one by one is read from some item each. -/
theorem exists_of_mem_mapM {α β ε : Type} {f : α → Except ε β} {items : List α} {values : List β}
    (h : items.mapM f = .ok values) {value : β} (hvalue : value ∈ values) :
    ∃ item ∈ items, f item = .ok value := by
  induction items generalizing values with
  | nil =>
    obtain rfl := Except.ok.inj h
    cases hvalue
  | cons item items ih =>
    obtain ⟨first, rest, hitem, hrest, rfl⟩ := exists_of_mapM_cons h
    rcases List.mem_cons.mp hvalue with rfl | hvalue
    · exact ⟨item, List.mem_cons_self, hitem⟩
    · obtain ⟨other, hother, hread⟩ := ih hrest hvalue
      exact ⟨other, List.mem_cons_of_mem _ hother, hread⟩

/-- Reading changed items is changing what is read, when it is so for each of them. -/
theorem mapM_map_eq_map {α β γ δ ε : Type} {f : β → Except ε γ} {g : α → β} {read : α → Except ε δ}
    {change : δ → γ} (h : ∀ item, f (g item) = (read item).map change) (items : List α) :
    (items.map g).mapM f = (items.mapM read).map (List.map change) := by
  induction items with
  | nil => rfl
  | cons item items ih =>
    rw [List.map_cons, List.mapM_cons, List.mapM_cons, h, ih]
    cases read item with
    | error fault => rfl
    | ok first => cases items.mapM read <;> rfl

end Projector
