import Projector.Proofs.FreshOutlines
import Projector.Proofs.ReachableReorders
import Projector.Proofs.ReturnedMoves

/-!
# Marks in reachable outlines

A node is marked only while it can be selected. A mark is set where the node can be selected, and
what a node shows afterwards decides whether it still can: a scalar always, a list as long as it
shows no fields. A list gets its first field only by a move into it, which takes its mark away, and
a list that loses its last field had no mark to come back. So marks and selected nodes are the same
in every reachable workspace.
-/

namespace Projector

open Node

/-- Every marked node can be selected, so that it is chosen. -/
def Node.WellMarked (root : Node) : Prop :=
  ∀ found ∈ root.located, found.node.isChosen = found.node.label.selected

/-- An outline is well marked when everything it shows is. -/
theorem Node.WellFormed.wellMarked_iff {root : Node} (hroot : root.WellFormed) :
    root.WellMarked ↔ ∀ place view, root.viewAt? place = some view →
      view.isChosen = view.label.selected := by
  constructor
  · intro h place view hview
    obtain ⟨found, hfound, -, rfl⟩ := exists_of_viewAt?_eq_some hview
    rw [isChosen_view]
    exact h found hfound
  · intro h found hfound
    have hview := h found.path found.node.view (hroot.viewAt?_eq hfound)
    rwa [isChosen_view] at hview

/-! ## Fresh outlines -/

namespace Node

/-- The outline of a document is well marked: it has no marks. -/
theorem wellMarked_ofDocument (document : Json) : (ofDocument document).WellMarked := by
  intro found hfound
  have hunmarked : found.node.label.selected = false :=
    unmarked_ofDocument document _ _ (mem_located.mp hfound)
  rw [isChosen, hunmarked, Bool.false_and]

/-! ## Edits -/

/-- A node that can be selected is chosen when it is marked. -/
theorem isChosen_setSelected {node : Node} (hnode : node.isSelectable = true) (selected : Bool) :
    (setSelected selected node).isChosen = (setSelected selected node).label.selected := by
  cases node with
  | mk label children =>
    have hselectable : (setSelected selected (.mk label children)).isSelectable = true := hnode
    rw [isChosen, hselectable, Bool.and_true]

/-- A node with children is not chosen. -/
theorem isChosen_of_child {node child : Node} (hnode : node.WellFormed)
    (hchild : child ∈ node.children) : node.isChosen = false := by
  rw [Bool.eq_false_iff]
  intro hchosen
  rw [children_of_isChosen hnode hchosen] at hchild
  cases hchild

/-- A node whose mark was set shows it, and all below shows what it did. -/
theorem viewFrom?_setSelected (selected : Bool) (path : Path) (node : Node) (place : Path) :
    viewFrom? path (setSelected selected node) place =
      if place = path then some (setSelected selected node).view
      else viewFrom? path node place := by
  split
  · rename_i hself
    rw [hself, viewFrom?_self]
  · rename_i hother
    have hskip : ∀ (first : Node) (spots : List (Path × Node)),
        ((path, first) :: spots).find? (fun spot => decide (spot.1 = place)) =
          spots.find? fun spot => decide (spot.1 = place) :=
      fun first spots => List.find?_cons_of_neg fun h => hother (of_decide_eq_true h).symm
    cases node with
    | mk label children =>
      rw [viewFrom?, viewFrom?, walk_eq_cons, walk_eq_cons, hskip, hskip]
      rfl

end Node

namespace Sound

variable {document : Json} {traces : List Trace} {workspace next : Workspace}
  (h : Sound document traces workspace) (hmarked : workspace.outline.WellMarked)

include h hmarked

/-- A toggle marks only a node that can be selected. -/
theorem wellMarked_toggle {address : String} (hnext : workspace.toggle? address = some next) :
    next.outline.WellMarked := by
  have hformed := (h.toggle hnext).wellFormed
  obtain ⟨outline, houtline, rfl⟩ := Option.map_eq_some_iff.mp hnext
  rw [hformed.wellMarked_iff]
  rw [h.wellFormed.wellMarked_iff] at hmarked
  unfold Node.toggle? at houtline
  split at houtline
  · cases houtline
  rename_i found hlocate
  split at houtline
  · rename_i hselectable
    obtain rfl := Option.some.inj houtline
    obtain ⟨hfound, -⟩ := h.consistent.locate?_eq_some_iff.mp hlocate
    have hnode := h.wellFormed.of_mem_walk (mem_located.mp hfound)
    intro place view hview
    rw [h.wellFormed.viewAt?_updateAt hfound (keeps_setSelected _)
      (wellFormed_setSelected hnode _), viewFrom?_setSelected] at hview
    by_cases hself : place = found.path
    · rw [if_pos (hself ▸ List.prefix_rfl), if_pos hself] at hview
      obtain rfl := Option.some.inj hview
      rw [isChosen_view]
      exact isChosen_setSelected hselectable _
    · rw [if_neg hself] at hview
      refine hmarked place view ?_
      split at hview
      · rename_i hleads
        rwa [h.wellFormed.viewAt?_of_leads hfound hleads]
      · exact hview
  · cases houtline

/-- Marks stay where they are when a child moves next to a sibling, whose parent has children
before and after. -/
theorem wellMarked_reorder {source target : String} {after : Bool}
    (hnext : workspace.reorder source target after = .ok next) : next.outline.WellMarked := by
  have hformed := (h.reorder hnext).wellFormed
  obtain ⟨parent, first, second, hsiblings⟩ :=
    Workspace.siblings_of_reorder h.consistent hnext
  have hbeside := Workspace.beside_of_siblings h.consistent hsiblings hnext
  have hparent := hmarked parent hsiblings.parent_mem
  rw [isChosen_of_child (h.wellFormed.of_mem_walk (mem_located.mp hsiblings.parent_mem))
    hsiblings.first_mem] at hparent
  rw [h.wellFormed.wellMarked_iff] at hmarked
  rw [hformed.wellMarked_iff]
  intro place view hview
  by_cases hplace : place = parent.path
  · obtain ⟨-, -, front, back, -, -, rearranged, hmem, hpath, hlabel, -⟩ := hbeside.children
    rw [hplace, ← hpath, hformed.viewAt?_eq hmem] at hview
    obtain rfl := Option.some.inj hview
    rw [isChosen_view, isChosen, hlabel, ← hparent, Bool.false_and]
    exact hparent.trans (congrArg Label.selected hlabel).symm
  · rw [hbeside.elsewhere place hplace] at hview
    exact hmarked place view hview

/-- A node that moves into a container keeps its mark, its old parent had none, and the container
loses its own. -/
theorem wellMarked_moveInto {source target : String} {record : Record}
    (hnext : workspace.moveInto source target = .ok (record, next)) :
    next.outline.WellMarked := by
  obtain ⟨plan, -, hplan, -, hsound, hmoves⟩ := h.exists_moves hnext
  have hparent := hmarked plan.parent hplan.parent_mem
  rw [isChosen_of_child (h.wellFormed.of_mem_walk (mem_located.mp hplan.parent_mem))
    (List.mem_of_getElem? hplan.child)] at hparent
  have hparentView := h.wellFormed.viewAt?_eq hplan.parent_mem
  rw [h.wellFormed.wellMarked_iff] at hmarked
  rw [hsound.wellFormed.wellMarked_iff]
  intro place view hview
  by_cases hnew : plan.newPath <+: place
  · obtain ⟨rest, rfl⟩ := hnew
    rw [hmoves.below] at hview
    obtain ⟨old, hold, rfl⟩ := Option.map_eq_some_iff.mp hview
    exact hmarked _ old hold
  by_cases hgone : plan.source.path <+: place
  · obtain ⟨rest, rfl⟩ := hgone
    rw [hmoves.gone rest hnew] at hview
    cases hview
  rw [hmoves.elsewhere place hgone hnew] at hview
  obtain ⟨old, hold, rfl⟩ := Option.map_eq_some_iff.mp hview
  have hleft : ∀ left : View, (left = if place = plan.parent.path then
      old.without plan.source.node.key else old) → left.isChosen = left.label.selected := by
    rintro left rfl
    split
    · rename_i hself
      rw [hself, hparentView] at hold
      obtain rfl := Option.some.inj hold
      rw [View.isChosen]
      simp [View.without, Node.view, ← hparent]
    · exact hmarked place old hold
  unfold View.passing
  dsimp only
  split
  · simp [View.isChosen, View.taking, opened]
  · exact hleft _ rfl

/-- Every edit leaves only nodes marked that can be selected. -/
theorem wellMarked_edit {step : Edit} (hnext : workspace.edit step = .ok next) :
    next.outline.WellMarked := by
  cases step with
  | toggle address =>
    obtain rfl := Except.ok.inj hnext
    cases htoggle : workspace.toggle? address with
    | none => exact hmarked
    | some toggled => exact h.wellMarked_toggle hmarked htoggle
  | reorder source target after =>
    cases hreorder : workspace.reorder source target after with
    | error refusal =>
      simp only [Workspace.edit, hreorder] at hnext
      obtain rfl := Except.ok.inj hnext
      exact hmarked
    | ok reordered =>
      simp only [Workspace.edit, hreorder] at hnext
      obtain rfl := Except.ok.inj hnext
      exact h.wellMarked_reorder hmarked hreorder
  | moveInto source target =>
    cases hmove : workspace.moveInto source target with
    | ok result =>
      obtain ⟨record, moved⟩ := result
      simp only [Workspace.edit, hmove] at hnext
      obtain rfl := Except.ok.inj hnext
      exact h.wellMarked_moveInto hmarked hmove
    | error failure =>
      cases failure with
      | refused refusal =>
        simp only [Workspace.edit, hmove] at hnext
        obtain rfl := Except.ok.inj hnext
        exact hmarked
      | badAddress fault =>
        simp only [Workspace.edit, hmove] at hnext
        cases hnext

end Sound

/-! ## Changes of what is shown -/

/-- Marks do not depend on what is expanded. -/
theorem Node.wellMarked_setExpanded (expanded : Bool) {root : Node} :
    (setExpanded expanded root).WellMarked ↔ root.WellMarked := by
  unfold WellMarked
  rw [located_setExpanded, List.forall_mem_map]
  refine forall₂_congr fun found _ => ?_
  obtain ⟨mark, hlabel⟩ := label_setExpanded expanded found.node
  rw [isChosen_setExpanded, hlabel]

/-- Only nodes that can be selected are marked in a reachable workspace. -/
theorem Reachable.wellMarked {document : Json} (hdocument : document.WellFormed)
    {workspace : Workspace} (h : Reachable document workspace) : workspace.outline.WellMarked := by
  induction h with
  | opened => exact wellMarked_ofDocument document
  | edited hbefore step hnext ih =>
    obtain ⟨traces, hsound⟩ := hbefore.sound hdocument
    exact hsound.wellMarked_edit ih hnext
  | shown _ hchange ih =>
    rw [← wellMarked_setExpanded false] at ih ⊢
    rwa [Workspace.withOutline, hchange]

end Projector
