import Projector.Proofs.Pathnames
import Projector.Proofs.Results
import Projector.Proofs.Tries

/-!
# Files in folders

What stands in a folder has a name there that nothing else in the folder has. So a path name that
leads to a folder leads to any file in it when the name of the file is put behind it, unless it
becomes too long by that.
-/

namespace Projector.Tree

/-! ## Disks that can be -/

/-- A name that something in a folder can have: it says something and does not lead up, it has
neither a separator nor a zero character in it, and it is not too long. -/
structure IsName (name : String) : Prop where
  proper : Pathname.isProper name = true
  ne_up : name ≠ Pathname.up
  separator : Pathname.separator ∉ name.toList
  zero : '\x00' ∉ name.toList
  short : name.utf8ByteSize ≤ longestName

mutual

/-- In every folder the names are names that something can have, and no two things have the same. -/
def WellFormed : Tree → Prop
  | .file _ => True
  | .folder entries => Fields.Distinct entries ∧ WellFormedEntries entries

/-- What is in a folder has names that something can have and is itself well formed. -/
def WellFormedEntries : List (String × Tree) → Prop
  | [] => True
  | (name, tree) :: rest => IsName name ∧ WellFormed tree ∧ WellFormedEntries rest

end

/-- One component is followed from a folder: up to the folder around it, or down to an entry. -/
theorem follow_cons (above : List Tree) (entries : List (String × Tree)) (part : String)
    (rest : List String) :
    follow above (folder entries) (part :: rest) =
      if part = Pathname.up then follow above.tail (above.headD unknown) rest
      else if longestName < part.utf8ByteSize then .error .nameTooLong
      else
        match entry? entries part with
        | none => .error .notFound
        | some next => follow (folder entries :: above) next rest := by
  rw [follow.eq_def]
  cases above <;> rfl

/-- More components are followed from where the first ones lead, with some folders around. -/
theorem exists_follow_append (above : List Tree) (tree : Tree) (parts : List String) :
    ∃ around, ∀ more, follow above tree (parts ++ more) =
      (follow above tree parts).bind fun found => follow around found more := by
  induction parts generalizing above tree with
  | nil => exact ⟨above, fun more => rfl⟩
  | cons part rest ih =>
    cases tree with
    | file bytes => exact ⟨above, fun more => rfl⟩
    | folder entries =>
      simp only [List.cons_append, follow_cons]
      by_cases hup : part = Pathname.up
      · simp only [if_pos hup]
        exact ih _ _
      · simp only [if_neg hup]
        by_cases hlong : longestName < part.utf8ByteSize
        · simp only [if_pos hlong]
          exact ⟨above, fun more => rfl⟩
        · simp only [if_neg hlong]
          cases entry? entries part with
          | none => exact ⟨above, fun more => rfl⟩
          | some next => exact ih _ _

/-- Where path names start: at the current folder, or at the root, of which nothing is known. -/
def startOf (current : Tree) (path : Pathname) : Tree :=
  if path.root.isEmpty then current else unknown

/-- A path name that is not too long is followed from its start. -/
theorem find_eq (current : Tree) (path : Pathname) :
    current.find path =
      if longestPath < path.text.utf8ByteSize then .error .nameTooLong
      else follow [] (startOf current path) path.parts := by
  rw [find, startOf]
  split
  · rfl
  · split <;> rfl

end Projector.Tree
