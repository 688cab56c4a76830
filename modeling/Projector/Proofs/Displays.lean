import Projector.Outline.Display
import Projector.Proofs.Labelings
import Projector.Proofs.Selections

/-!
# Changes of what is shown

Expanding and collapsing nodes changes nothing but the marks that say so. Two outlines that become
the same when all their nodes are collapsed have the same places and the same selection, and every
operation of the display leads to such an outline.
-/

namespace Projector

namespace Node

/-! ## Expanding or collapsing all nodes -/

/-- The nodes of a list, expanded or collapsed one by one. -/
theorem setExpandedAll_eq_map (expanded : Bool) (nodes : List Node) :
    setExpandedAll expanded nodes = nodes.map (setExpanded expanded) := by
  induction nodes with
  | nil => rfl
  | cons node rest ih => simp [setExpandedAll, ih]

/-- A node with children is marked, and its children are expanded or collapsed. -/
theorem setExpanded_mk (expanded : Bool) (label : Label) (children : List Node) :
    setExpanded expanded (.mk label children) =
      .mk (if children.isEmpty then label else { label with expanded })
        (children.map (setExpanded expanded)) := by
  cases children with
  | nil => rfl
  | cons child rest => simp [setExpanded, setExpandedAll_eq_map]

/-- Expanding or collapsing gives new labels to the nodes that have children. -/
theorem setExpanded_eq_labelEach (expanded : Bool) (node : Node) :
    setExpanded expanded node =
      labelEach (fun node => if node.children.isEmpty then node.label
        else { node.label with expanded }) node := by
  induction node with
  | mk label children ih =>
    rw [setExpanded_mk, labelEach_mk, children_mk, label_mk]
    exact congrArg _ (List.map_congr_left ih)

/-- These labels differ from the old ones only in the mark of expansion. -/
theorem keepsPlaces_setExpanded (expanded : Bool) :
    KeepsPlaces fun node => if node.children.isEmpty then node.label
      else { node.label with expanded } where
  key node := by
    split <;> rfl
  kind node := by
    split <;> rfl

/-- Expanding or collapsing a node changes only the mark of expansion of its label. -/
theorem label_setExpanded (expanded : Bool) (node : Node) :
    ∃ mark, (setExpanded expanded node).label = { node.label with expanded := mark } := by
  rw [setExpanded_eq_labelEach, label_labelEach]
  split
  · exact ⟨node.label.expanded, rfl⟩
  · exact ⟨expanded, rfl⟩

@[simp] theorem children_setExpanded (expanded : Bool) (node : Node) :
    (setExpanded expanded node).children = node.children.map (setExpanded expanded) := by
  cases node with
  | mk label children => rw [setExpanded_mk, children_mk, children_mk]

@[simp] theorem key_setExpanded (expanded : Bool) (node : Node) :
    (setExpanded expanded node).key = node.key := by
  rw [setExpanded_eq_labelEach, (keepsPlaces_setExpanded expanded).key_labelEach]

/-- Whether a node contributes to the selection does not depend on what is expanded. -/
@[simp] theorem isChosen_setExpanded (expanded : Bool) (node : Node) :
    (setExpanded expanded node).isChosen = node.isChosen := by
  obtain ⟨mark, hlabel⟩ := label_setExpanded expanded node
  simp only [isChosen, isSelectable, hlabel, children_setExpanded, List.isEmpty_map]

/-- A walk lists the nodes that a walk before the change lists, each changed. -/
theorem walk_setExpanded (expanded : Bool) (path : Path) (node : Node) :
    walk path (setExpanded expanded node) =
      (walk path node).map fun spot => (spot.1, setExpanded expanded spot.2) := by
  simp only [setExpanded_eq_labelEach, (keepsPlaces_setExpanded expanded).walk_labelEach]

/-- The nodes of an outline are the ones before the change, each changed. -/
theorem located_setExpanded (expanded : Bool) (root : Node) :
    (setExpanded expanded root).located =
      root.located.map fun found => ⟨found.path, setExpanded expanded found.node⟩ := by
  simp only [setExpanded_eq_labelEach, (keepsPlaces_setExpanded expanded).located_labelEach]

/-- Marks of expansion do not matter for being well formed. -/
theorem wellFormed_setExpanded (expanded : Bool) {node : Node} :
    (setExpanded expanded node).WellFormed ↔ node.WellFormed := by
  rw [setExpanded_eq_labelEach, (keepsPlaces_setExpanded expanded).wellFormed_labelEach]

/-- Marks of expansion do not change the places. -/
theorem places_setExpanded (expanded : Bool) (root : Node) :
    (setExpanded expanded root).places = root.places := by
  have hspot : ∀ spot : Path × Node, unmarked (spot.1, (setExpanded expanded spot.2).label) =
      unmarked (spot.1, spot.2.label) := by
    intro spot
    obtain ⟨mark, hlabel⟩ := label_setExpanded expanded spot.2
    rw [hlabel]
    rfl
  simp only [places, spots, walk_setExpanded, Multiset.map_coe, List.map_map, Function.comp_def,
    hspot]

/-- Expanding or collapsing all nodes makes up for having done so before. -/
theorem setExpanded_setExpanded (expanded before : Bool) (node : Node) :
    setExpanded expanded (setExpanded before node) = setExpanded expanded node := by
  induction node with
  | mk label children ih =>
    rw [setExpanded_mk before, setExpanded_mk, setExpanded_mk, List.map_map, List.isEmpty_map]
    congr 1
    · split <;> rfl
    · exact List.map_congr_left fun child hchild => ih child hchild

/-! ## The operations of the display -/

/-- The nodes of a list, shown as far as the selection asks for it, one by one. -/
theorem showSelectionAll_eq_map (nodes : List Node) :
    showSelectionAll nodes = nodes.map showSelection := by
  induction nodes with
  | nil => rfl
  | cons node rest ih => simp [showSelectionAll, ih]

/-- Showing a node as far as the selection asks for it changes only marks of expansion. -/
theorem setExpanded_showSelection (expanded : Bool) (node : Node) :
    setExpanded expanded (showSelection node) = setExpanded expanded node := by
  induction node with
  | mk label children ih =>
    cases children with
    | nil => rfl
    | cons child rest =>
      rw [showSelection]
      -- A branch with a selection is treated child by child, any other one is collapsed at once.
      split
      · rw [setExpanded_mk, setExpanded_mk, showSelectionAll_eq_map, List.map_map,
          List.isEmpty_map]
        exact congrArg _ (List.map_congr_left fun node hnode => ih node hnode)
      · exact setExpanded_setExpanded expanded false _

/-- Opening the root and changing only marks of expansion of its children changes only marks of
expansion. -/
theorem setExpanded_openRoot {expanded : Bool} {change : Node → Node}
    {operation : List Node → List Node} (hmap : ∀ nodes, operation nodes = nodes.map change)
    (hchange : ∀ node, setExpanded expanded (change node) = setExpanded expanded node)
    (root : Node) : setExpanded expanded (openRoot operation root) = setExpanded expanded root := by
  cases root with
  | mk label children =>
    cases children with
    | nil => rfl
    | cons child rest =>
      rw [openRoot, setExpanded_mk, setExpanded_mk, hmap, List.map_map, List.isEmpty_map]
      exact congrArg _ (List.map_congr_left fun node _ => hchange node)

/-- An operation changes only what is shown when an outline with all nodes collapsed is the same
before and after it. -/
def OnlyShows (change : Node → Node) : Prop :=
  ∀ root, setExpanded false (change root) = setExpanded false root

/-- Expanding every node changes only what is shown. -/
theorem onlyShows_expandAll : OnlyShows expandAll := setExpanded_setExpanded false true

/-- Collapsing every node but the root changes only what is shown. -/
theorem onlyShows_collapseAll : OnlyShows collapseAll :=
  setExpanded_openRoot (setExpandedAll_eq_map false) (setExpanded_setExpanded false false)

/-- Collapsing what the selection does not ask for changes only what is shown. -/
theorem onlyShows_collapseUnselected : OnlyShows collapseUnselected :=
  setExpanded_openRoot showSelectionAll_eq_map (setExpanded_showSelection false)

end Node

open Node

/-! ## What a change of the display keeps -/

/-- Collapsing all nodes keeps the entries of the selection. -/
theorem Workspace.entries_setExpanded (workspace : Workspace) (expanded : Bool)
    (home : Path → Path) :
    (workspace.withOutline (setExpanded expanded)).entries home = workspace.entries home := by
  have hchosen : (workspace.withOutline (setExpanded expanded)).chosen =
      workspace.chosen.map fun found => ⟨found.path, setExpanded expanded found.node⟩ := by
    simp only [chosen, withOutline, located_setExpanded, List.filter_map, Function.comp_def,
      isChosen_setExpanded]
  simp only [entries, hchosen, List.zipIdx_map, List.map_map]
  refine List.map_congr_left fun one _ => ?_
  simp only [Function.comp_apply, Prod.map, Located.entryAt, key_setExpanded, id]

/-- A change of what is shown keeps the entries of the selection. -/
theorem Workspace.entries_withOutline {change : Node → Node} (hchange : OnlyShows change)
    (workspace : Workspace) (home : Path → Path) :
    (workspace.withOutline change).entries home = workspace.entries home := by
  rw [← entries_setExpanded _ false, ← entries_setExpanded workspace false]
  simp only [withOutline, hchange workspace.outline]

/-- A change of what is shown keeps a workspace sound. -/
theorem Sound.display {document : Json} {traces : List Trace} {workspace : Workspace}
    (h : Sound document traces workspace) {change : Node → Node} (hchange : OnlyShows change) :
    Sound document traces (workspace.withOutline change) := by
  refine h.withOutline ?_ ?_
  · rw [← wellFormed_setExpanded false, hchange, wellFormed_setExpanded]
    exact h.wellFormed
  · rw [← places_setExpanded false, hchange, places_setExpanded]

/-- A change of what is shown keeps the selection of a sound workspace. -/
theorem Sound.selection_display {document : Json} {traces : List Trace} {workspace : Workspace}
    (h : Sound document traces workspace) {change : Node → Node} (hchange : OnlyShows change) :
    (workspace.withOutline change).selection = workspace.selection := by
  rw [(h.display hchange).selection_eq, h.selection_eq, Workspace.entries_withOutline hchange]

end Projector
