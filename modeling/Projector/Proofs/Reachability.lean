import Projector.Proofs.Displays
import Projector.Proofs.Results

/-!
# Reachable workspaces

A workspace is reachable when it comes from opening a document, from edits with whatever arguments,
and from changes of what is shown, in any order. Every edit of a reachable workspace leads to a
reachable one, and every reachable workspace is sound.
-/

namespace Projector

open Node

/-- The workspaces that edits and changes of what is shown lead to from a document. -/
inductive Reachable (document : Json) : Workspace → Prop
  /-- A document was opened. -/
  | opened : Reachable document (.ofDocument document)
  /-- An edit was made, or refused. -/
  | edited {workspace next : Workspace} (h : Reachable document workspace) (step : Edit)
      (hnext : workspace.edit step = .ok next) : Reachable document next
  /-- Nodes were expanded or collapsed. -/
  | shown {workspace : Workspace} (h : Reachable document workspace) {change : Node → Node}
      (hchange : OnlyShows change) : Reachable document (workspace.withOutline change)

namespace Reachable

variable {document : Json} {workspace : Workspace}

/-- Every run of edits leads from a reachable workspace to reachable ones. -/
theorem run {next : Workspace} (h : Reachable document workspace) {steps : List Edit}
    (hnext : workspace.run steps = .ok next) : Reachable document next := by
  induction steps generalizing workspace with
  | nil =>
    obtain rfl := Except.ok.inj hnext
    exact h
  | cons step steps ih =>
    rw [Workspace.run, List.foldlM_cons] at hnext
    obtain ⟨edited, hedit, hnext⟩ := exists_of_bind_eq_ok hnext
    exact ih (h.edited step hedit) hnext

/-- Every reachable workspace is sound. -/
theorem sound (h : Reachable document workspace) (hdocument : document.WellFormed) :
    ∃ traces, Sound document traces workspace := by
  induction h with
  | opened => exact ⟨[], Sound.ofDocument hdocument⟩
  | edited _ step hnext ih =>
    obtain ⟨traces, hsound⟩ := ih
    obtain ⟨next, traces', hok, hnextSound⟩ := hsound.edit step
    obtain rfl := Except.ok.inj (hnext.symm.trans hok)
    exact ⟨traces', hnextSound⟩
  | shown _ hchange ih =>
    obtain ⟨traces, hsound⟩ := ih
    exact ⟨traces, hsound.display hchange⟩

end Reachable

end Projector
