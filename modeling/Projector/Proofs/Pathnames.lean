import Mathlib.Data.List.Infix
import Projector.Documents

/-!
# Names of documents as path names

A name without a separator is one component of a path name, or none when it says nothing. So the
path name of a document is that of its folder with one component more, and every character of the
folder's text and of the name stands in it, but for separators and the dots of components that say
nothing.
-/

namespace Projector

namespace Pathname

/-! ## Pieces between separators -/

/-- There is always a piece, if only an empty one. -/
theorem pieces_ne_nil (text : List Char) : pieces text ≠ [] := by
  cases text with
  | nil => simp [pieces]
  | cons c rest =>
    rw [pieces]
    split
    · simp
    · split <;> simp

/-- A text without separators is its only piece. -/
theorem pieces_of_not_mem {text : List Char} (h : separator ∉ text) : pieces text = [text] := by
  induction text with
  | nil => rfl
  | cons c rest ih =>
    rw [List.mem_cons, not_or] at h
    rw [pieces, if_neg (Ne.symm h.1), ih h.2]

/-- The pieces of a text hold all its characters but the separators. -/
theorem exists_mem_pieces_iff {c : Char} (text : List Char) :
    (∃ piece ∈ pieces text, c ∈ piece) ↔ c ∈ text ∧ c ≠ separator := by
  induction text with
  | nil => simp [pieces]
  | cons other rest ih =>
    rw [pieces, List.mem_cons]
    split
    · rename_i hseparator
      rw [hseparator]
      simp only [List.mem_cons, exists_eq_or_imp, List.not_mem_nil, false_or, ih]
      tauto
    · rename_i hother
      cases hrest : pieces rest with
      | nil => exact absurd hrest (pieces_ne_nil rest)
      | cons first others =>
        simp only [hrest, List.mem_cons, exists_eq_or_imp] at ih ⊢
        rw [or_assoc, ih]
        constructor
        · rintro (rfl | ⟨hmem, hne⟩)
          · exact ⟨.inl rfl, hother⟩
          · exact ⟨.inr hmem, hne⟩
        · rintro ⟨rfl | hmem, hne⟩
          · exact .inl rfl
          · exact .inr ⟨hmem, hne⟩

/-! ## Components -/

/-- The components of the path name that a text writes. -/
theorem mem_parts_ofText_iff {text part : String} :
    part ∈ (ofText text).parts ↔ part.toList ∈ pieces text.toList ∧ isProper part = true := by
  rw [ofText, List.mem_filter, List.mem_map]
  refine and_congr_left fun _ => ?_
  constructor
  · rintro ⟨piece, hpiece, rfl⟩
    rwa [String.toList_ofList]
  · intro hpart
    exact ⟨_, hpart, String.ofList_toList⟩

/-- The path name of a text without separators has at most one component. -/
theorem ofText_of_not_mem {name : String} (h : separator ∉ name.toList) :
    ofText name = { root := "", parts := if isProper name then [name] else [] } := by
  have hroot : rootOf name.toList = "" := by
    unfold rootOf
    split
    · rename_i hname
      rw [hname] at h
      simp [separator] at h
    · rename_i hname
      rw [hname] at h
      simp [separator] at h
    · rename_i hname
      rw [hname] at h
      simp [separator] at h
    · rfl
  rw [ofText, hroot, pieces_of_not_mem h, List.map_singleton, String.ofList_toList,
    List.filter_singleton, Bool.cond_eq_ite]

/-! ## Texts of path names -/

end Pathname

/-! ## Names of documents -/

namespace Documents

open Pathname

/-- Two dots stand next to each other where they are found. -/
theorem hasDoubleDot_iff {text : List Char} : hasDoubleDot text = true ↔ ['.', '.'] <:+: text := by
  induction text using hasDoubleDot.induct with
  | case1 rest => exact ⟨fun _ => ⟨[], rest, rfl⟩, fun _ => hasDoubleDot.eq_1 rest⟩
  | case2 c rest hother ih =>
    rw [hasDoubleDot.eq_2 _ _ hother, ih, List.infix_cons_iff]
    refine ⟨.inr, fun h => h.resolve_left fun hfront => ?_⟩
    obtain ⟨more, hmore⟩ := hfront
    simp only [List.cons_append, List.nil_append, List.cons.injEq] at hmore
    exact hother more hmore.1.symm hmore.2.symm
  | case3 => simp [hasDoubleDot]

/-- The names that are not refused. -/
theorem isBareName_iff {name : String} : isBareName name = true ↔
    ¬['.', '.'] <:+: name.toList ∧ separator ∉ name.toList ∧ '\\' ∉ name.toList := by
  rw [← hasDoubleDot_iff]
  simp [isBareName, separator, and_assoc]

/-- The path name of a document is that of its folder with its name behind it, if the name says
anything. -/
theorem pathIn_eq {name : String} (h : separator ∉ name.toList) (folder : String) :
    pathIn folder name =
      { root := (ofText folder).root
        parts := (ofText folder).parts ++ if isProper name then [name] else [] } := by
  rw [pathIn, join, ofText_of_not_mem h, if_pos (by rfl)]

end Documents

end Projector
