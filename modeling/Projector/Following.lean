/-!
# What follows the front of a list

Words of a text and the leading segments of a path are both taken off the front of a list.
-/

namespace Projector

/-- What follows `front` in `whole`, if `whole` starts with it. -/
def following? {α : Type} [DecidableEq α] : (front whole : List α) → Option (List α)
  | [], whole => some whole
  | _ :: _, [] => none
  | x :: front, y :: whole => if x = y then following? front whole else none

/-- Something follows a front exactly when the list starts with it. -/
theorem following?_eq_some_iff {α : Type} [DecidableEq α] {front whole rest : List α} :
    following? front whole = some rest ↔ whole = front ++ rest := by
  induction front generalizing whole with
  | nil => simp [following?, eq_comm]
  | cons x front ih =>
      cases whole with
      | nil => simp [following?]
      | cons y whole =>
          by_cases h : x = y
          · simp [following?, h, ih]
          · have h' : ¬y = x := fun e => h e.symm
            simp [following?, h, h']

/-- Nothing follows a front exactly when the list does not start with it. -/
theorem following?_eq_none_iff {α : Type} [DecidableEq α] {front whole : List α} :
    following? front whole = none ↔ ¬front <+: whole := by
  cases h : following? front whole with
  | none =>
      simp only [true_iff]
      rintro ⟨rest, rfl⟩
      rw [following?_eq_some_iff.mpr rfl] at h
      exact absurd h (by simp)
  | some rest =>
      simp only [reduceCtorEq, false_iff, Classical.not_not]
      exact ⟨rest, (following?_eq_some_iff.mp h).symm⟩

end Projector
