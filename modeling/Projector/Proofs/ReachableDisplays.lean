import Projector.Proofs.Reachability

/-!
# Showing the selection and nothing else

When an outline is collapsed to its selection, a node that has children is left expanded exactly
when it is the root or when a chosen node lies below it, however the outline was expanded before.
Nothing else about any node changes, so the selection and the expression stay the same, and
collapsing once more changes nothing. The root is the node at the address of the root, so it makes
no difference which of the two an operation goes by.
-/

namespace Projector

open Node

namespace Node

variable {root node : Node}

/-! ## Outlines that differ in what is expanded -/

/-- An outline without any mark of expansion, also at nodes that have nothing to show. -/
def unexpanded (root : Node) : Node :=
  labelEach (fun node => { node.label with expanded := false }) root

/-- Labels that differ from the old ones at most in the mark of expansion. -/
structure OnlyExpands (change : Node → Label) : Prop where
  label : ∀ node, { change node with expanded := false } = { node.label with expanded := false }

namespace OnlyExpands

variable {change : Node → Label} (h : OnlyExpands change)

include h

/-- What a label tells besides the mark of expansion is as before. -/
theorem eq_of {α : Type} (read : Label → α)
    (hread : ∀ label : Label, read { label with expanded := false } = read label) (node : Node) :
    read (change node) = read node.label := by
  rw [← hread (change node), h.label, hread]

/-- Nodes keep their keys and kinds. -/
theorem keepsPlaces : KeepsPlaces change where
  key node := h.eq_of Label.key (fun _ => rfl) node
  kind node := h.eq_of Label.kind (fun _ => rfl) node

/-- The outline is the same without any mark of expansion. -/
theorem unexpanded_labelEach (root : Node) : (labelEach change root).unexpanded = root.unexpanded :=
  labelEach_labelEach (fun node => by rw [label_labelEach, h.label]) root

/-- What is chosen stays so. -/
theorem isChosen_labelEach (node : Node) : (labelEach change node).isChosen = node.isChosen := by
  rw [isChosen, isChosen, h.keepsPlaces.isSelectable_labelEach, label_labelEach,
    h.eq_of Label.selected fun _ => rfl]

/-- The selection stays the same, wherever shown addresses live. -/
theorem selection_labelEach (root : Node) (resolve : String → Except Address.Fault String) :
    (labelEach change root).selection resolve = root.selection resolve := by
  have hentry : ∀ (found : Located) (order : Nat),
      entry resolve ⟨found.path, labelEach change found.node⟩ order =
        entry resolve found order := by
    intro found order
    have haddress : Located.address ⟨found.path, labelEach change found.node⟩ = found.address := by
      rw [Located.address, label_labelEach]
      exact h.eq_of Label.address (fun _ => rfl) found.node
    rw [entry, haddress, h.keepsPlaces.key_labelEach]
    rfl
  have hentries : ∀ (chosen : List Located) (order : Nat), entriesFrom resolve order
      (chosen.map fun found => ⟨found.path, labelEach change found.node⟩) =
        entriesFrom resolve order chosen := by
    intro chosen
    induction chosen with
    | nil => exact fun _ => rfl
    | cons found rest ih =>
      intro order
      rw [List.map_cons, entriesFrom, entriesFrom, hentry, ih]
  rw [selection, selection, h.keepsPlaces.located_labelEach, List.filter_map]
  simp only [Function.comp_def, h.isChosen_labelEach]
  exact hentries _ 0

end OnlyExpands

/-- Taking all marks of expansion away changes nothing else. -/
theorem onlyExpands_unexpanded :
    OnlyExpands fun node => { node.label with expanded := false } :=
  ⟨fun _ => rfl⟩

/-- Outlines that differ only in what is expanded are well formed together. -/
theorem wellFormed_of_unexpanded {other : Node} (h : root.unexpanded = other.unexpanded)
    (hother : other.WellFormed) : root.WellFormed := by
  rw [← onlyExpands_unexpanded.keepsPlaces.wellFormed_labelEach] at hother ⊢
  rw [unexpanded, unexpanded] at h
  rwa [h]

/-- Outlines that differ only in what is expanded have the same selection. -/
theorem selection_of_unexpanded {other : Node} (h : root.unexpanded = other.unexpanded)
    (resolve : String → Except Address.Fault String) :
    root.selection resolve = other.selection resolve := by
  rw [← onlyExpands_unexpanded.selection_labelEach root,
    ← onlyExpands_unexpanded.selection_labelEach other]
  rw [unexpanded, unexpanded] at h
  rw [h]

/-! ## Collapsing to the selection -/

/-- The label of a node that is shown as far as the selection asks for it: it is expanded when it
leads to a chosen node, and left alone when it has no children. -/
def focused (node : Node) : Label :=
  { node.label with
    expanded := if node.children.isEmpty then node.label.expanded else node.hasSelection }

/-- This changes only marks of expansion. -/
theorem onlyExpands_focused : OnlyExpands focused := ⟨fun _ => rfl⟩

/-- Whether a node leads to a chosen one does not depend on what is expanded. -/
theorem hasSelection_labelEach {change : Node → Label} (h : OnlyExpands change) (node : Node) :
    (labelEach change node).hasSelection = node.hasSelection := by
  induction node with
  | mk label children ih =>
    have hself := h.isChosen_labelEach (.mk label children)
    have hbelow : (children.map (labelEach change)).any hasSelection =
        children.any hasSelection := by
      rw [List.any_map, Bool.eq_iff_iff, List.any_eq_true, List.any_eq_true]
      refine exists_congr fun child => and_congr_right fun hchild => ?_
      rw [Function.comp_apply, ih child hchild]
    rw [labelEach_mk] at hself
    rw [labelEach_mk, hasSelection_mk, hself, hbelow, hasSelection_mk]

/-- A node that leads to no chosen one is collapsed with all below it. -/
theorem setExpanded_of_not_hasSelection (h : node.hasSelection = false) :
    setExpanded false node = labelEach focused node := by
  induction node with
  | mk label children ih =>
    rw [hasSelection_mk, Bool.or_eq_false_iff] at h
    have hchildren := List.any_eq_false.mp h.2
    rw [setExpanded_mk, labelEach_mk, focused, hasSelection_mk, h.1, h.2]
    congr 1
    · cases children <;> rfl
    · exact List.map_congr_left fun child hchild =>
        ih child hchild (by simpa using hchildren child hchild)

/-- Showing a node as far as the selection asks for it gives these labels to all below it. -/
theorem showSelection_eq_labelEach (node : Node) : showSelection node = labelEach focused node := by
  induction node with
  | mk label children ih =>
    cases children with
    | nil => rfl
    | cons child rest =>
      rw [showSelection]
      split
      · rename_i hleads
        rw [labelEach_mk, focused, hleads, showSelectionAll_eq_map]
        exact congrArg _ (List.map_congr_left ih)
      · rename_i hnot
        exact setExpanded_of_not_hasSelection (by simpa using hnot)

/-- Collapsing to the selection expands a root that has children, and gives these labels to all
below it. -/
theorem collapseUnselected_mk (label : Label) (children : List Node) :
    collapseUnselected (.mk label children) =
      .mk (if children.isEmpty then label else { label with expanded := true })
        (children.map (labelEach focused)) := by
  cases children with
  | nil => rfl
  | cons child rest =>
    rw [collapseUnselected, openRoot, showSelectionAll_eq_map]
    exact congrArg _ (List.map_congr_left fun node _ => showSelection_eq_labelEach node)

/-- It changes only marks of expansion. -/
theorem unexpanded_collapseUnselected (root : Node) :
    (collapseUnselected root).unexpanded = root.unexpanded := by
  cases root with
  | mk label children =>
    rw [collapseUnselected_mk, unexpanded, unexpanded, labelEach_mk, labelEach_mk, List.map_map]
    congr 1
    · rw [label_mk, label_mk]
      split <;> rfl
    · exact List.map_congr_left fun child _ => onlyExpands_focused.unexpanded_labelEach child

/-- Collapsing to the selection once more changes nothing. -/
theorem collapseUnselected_collapseUnselected (root : Node) :
    collapseUnselected (collapseUnselected root) = collapseUnselected root := by
  have hagain (node : Node) : focused (labelEach focused node) = focused node := by
    have hlabel := label_labelEach focused node
    rw [focused, hlabel, hasSelection_labelEach onlyExpands_focused, children_labelEach,
      List.isEmpty_map]
    unfold focused
    cases node.children.isEmpty <;> rfl
  cases root with
  | mk label children =>
    rw [collapseUnselected_mk, collapseUnselected_mk, List.map_map, List.isEmpty_map]
    congr 1
    · split <;> rfl
    · exact List.map_congr_left fun child _ => labelEach_labelEach hagain child

/-! ## The root by its address -/

/-- The label of a node when all is collapsed but what is shown at the address of the root. -/
def collapsed (node : Node) : Label :=
  { node.label with
    expanded := if node.children.isEmpty then node.label.expanded
      else decide (node.label.address = Address.root) }

mutual

/-- Expands a node that leads to a selected one and does the same below it, and collapses any other
with all below it, but for what is shown at the address of the root. -/
def focus : Node → Node
  | .mk label [] => .mk label []
  | .mk label (child :: rest) =>
    if hasSelection (.mk label (child :: rest)) then
      .mk { label with expanded := true } (focusAll (child :: rest))
    else labelEach collapsed (.mk label (child :: rest))

/-- Does so for each of some nodes. -/
def focusAll : List Node → List Node
  | [] => []
  | child :: rest => focus child :: focusAll rest

end

/-- The nodes of a list are treated one by one. -/
theorem focusAll_eq_map (nodes : List Node) : focusAll nodes = nodes.map focus := by
  induction nodes with
  | nil => rfl
  | cons node rest ih => rw [focusAll, ih, List.map_cons]

/-- The label of a node elsewhere than at the address of the root is collapsed. -/
theorem labelEach_collapsed {path : Path}
    (h : ∀ spot ∈ walk path node, spot.2.label.address ≠ Address.root) :
    labelEach collapsed node = setExpanded false node := by
  induction node generalizing path with
  | mk label children ih =>
    have hself : label.address ≠ Address.root := h _ (mem_walk_self path (.mk label children))
    rw [labelEach_mk, setExpanded_mk]
    congr 1
    · cases children with
      | nil => rfl
      | cons child rest => simp [collapsed, hself]
    · refine List.map_congr_left fun child hchild => ?_
      exact ih child hchild fun spot hspot =>
        h spot (mem_walk_iff.mpr (.inr ⟨child, hchild, hspot⟩))

/-- A node that is elsewhere, with all below it, is shown as far as the selection asks for it. -/
theorem focus_eq_showSelection {path : Path}
    (h : ∀ spot ∈ walk path node, spot.2.label.address ≠ Address.root) :
    focus node = showSelection node := by
  induction node generalizing path with
  | mk label children ih =>
    cases children with
    | nil => rfl
    | cons child rest =>
      rw [focus, showSelection]
      split
      · rw [focusAll_eq_map, showSelectionAll_eq_map]
        refine congrArg _ (List.map_congr_left fun node hnode => ?_)
        exact ih node hnode fun spot hspot =>
          h spot (mem_walk_iff.mpr (.inr ⟨node, hnode, hspot⟩))
      · exact labelEach_collapsed h

/-- In an outline whose nodes store the addresses of their paths, the node at the address of the
root is the root: looking for that address is the same as starting from the root. -/
theorem Consistent.collapse_eq (hroot : root.Consistent) :
    labelEach collapsed root = collapseAll root ∧ focus root = collapseUnselected root := by
  have haddress : root.label.address = Address.root := hroot.address_eq (root_mem_located root)
  cases root with
  | mk label children =>
    -- Whatever lies below the root has another path, and so another address.
    have helsewhere : ∀ child ∈ children, ∀ spot ∈ walk
        ([] ++ Address.below label.kind.isArray child.key) child,
          spot.2.label.address ≠ Address.root := by
      intro child hchild spot hspot hsame
      have hmem : spot ∈ walk [] (.mk label children) :=
        mem_walk_iff.mpr (.inr ⟨child, hchild, hspot⟩)
      have hpath : spot.1.address = Path.address [] :=
        (hroot.addressed _ _ hmem).symm.trans hsame
      have hleads := prefix_of_mem_walk hspot
      rw [Address.address_inj] at hpath
      simp [hpath, Address.below] at hleads
    cases children with
    | nil => exact ⟨rfl, rfl⟩
    | cons child rest =>
      rw [label_mk] at haddress
      have hcollapsed :
          collapsed (.mk label (child :: rest)) = { label with expanded := true } := by
        simp [collapsed, haddress]
      refine ⟨?_, ?_⟩
      · rw [labelEach_mk, hcollapsed, collapseAll, openRoot, setExpandedAll_eq_map]
        exact congrArg _ (List.map_congr_left fun node hnode =>
          labelEach_collapsed (helsewhere node hnode))
      · rw [collapseUnselected, openRoot, showSelectionAll_eq_map, focus]
        split
        · rw [focusAll_eq_map]
          exact congrArg _ (List.map_congr_left fun node hnode =>
            focus_eq_showSelection (helsewhere node hnode))
        · -- Nothing is selected, so the nodes below the root are collapsed either way.
          rename_i hnone
          rw [Bool.not_eq_true, hasSelection_mk, Bool.or_eq_false_iff] at hnone
          have hbelow := List.any_eq_false.mp hnone.2
          rw [labelEach_mk, hcollapsed]
          refine congrArg _ (List.map_congr_left fun node hnode => ?_)
          rw [labelEach_collapsed (helsewhere node hnode), showSelection_eq_labelEach,
            setExpanded_of_not_hasSelection (by simpa using hbelow node hnode)]

end Node

/-- All that lies below a located node, with its places. -/
def Located.below (found : Located) : List Located :=
  (walkAll (inner found.node.label found.path) found.node.children).map fun (path, node) =>
    ⟨path, node⟩

/-- A node with children leads to a chosen node exactly when one lies below it. -/
theorem Located.hasSelection_iff_below {found : Located} (hformed : found.node.WellFormed)
    (hchildren : found.node.children ≠ []) :
    found.node.hasSelection = true ↔ ∃ chosen ∈ found.below, chosen.node.isChosen = true := by
  have hnot : found.node.isChosen = false := by
    rw [Bool.eq_false_iff]
    exact fun hchosen => hchildren (children_of_isChosen hformed hchosen)
  rw [hasSelection_iff found.path]
  constructor
  · rintro ⟨place, node, hmem, hchosen⟩
    rw [walk_eq_cons, List.mem_cons] at hmem
    rcases hmem with heq | hmem
    · rw [(Prod.mk.inj heq).2, hnot] at hchosen
      cases hchosen
    · exact ⟨⟨place, node⟩, List.mem_map.mpr ⟨_, hmem, rfl⟩, hchosen⟩
  · rintro ⟨chosen, hbelow, hchosen⟩
    obtain ⟨⟨place, node⟩, hmem, rfl⟩ := List.mem_map.mp hbelow
    refine ⟨place, node, ?_, hchosen⟩
    rw [walk_eq_cons]
    exact List.mem_cons_of_mem _ hmem

/-- A located node before and after an outline was collapsed to its selection: at most its mark of
expansion changes, and only if it has children; these are shown exactly when the node is the root or
a chosen node lies below it. -/
structure Located.Focuses (before after : Located) : Prop where
  path : after.path = before.path
  label : after.node.label = { before.node.label with expanded := after.node.label.expanded }
  bare : before.node.children = [] →
    after.node.label.expanded = before.node.label.expanded
  expanded : before.node.children ≠ [] → (after.node.label.expanded = true ↔
    before.path = [] ∨ ∃ chosen ∈ before.below, chosen.node.isChosen = true)

/-- Every located node of a well-formed outline is left as the selection asks for it. -/
theorem Node.WellFormed.focuses {root : Node} (hroot : root.WellFormed) :
    List.Forall₂ Located.Focuses root.located (collapseUnselected root).located := by
  cases root with
  | mk label children =>
    have hkeeps := onlyExpands_focused.keepsPlaces
    rw [collapseUnselected_mk, located, located, walk, walk, List.map_cons, List.map_cons]
    have hinner : inner (if children.isEmpty then label else { label with expanded := true }) [] =
        inner label [] := by
      split <;> rfl
    rw [hinner, hkeeps.walkAll_labelEach, List.map_map]
    refine .cons ⟨rfl, ?_, ?_, ?_⟩ ?_
    · rw [label_mk, label_mk]
      split <;> rfl
    · rintro (rfl : children = [])
      rfl
    · intro (hchildren : children ≠ [])
      simp [hchildren]
    · rw [List.forall₂_map_left_iff, List.forall₂_map_right_iff, List.forall₂_same]
      rintro ⟨place, node⟩ hmem
      have hwalk : (place, node) ∈ walk [] (.mk label children) := by
        rw [walk]
        exact List.mem_cons_of_mem _ hmem
      have hformed : node.WellFormed := hroot.of_mem_walk hwalk
      have hplace : place ≠ [] := by
        rw [walkAll_eq_flatMap, List.mem_flatMap] at hmem
        obtain ⟨child, -, hchild⟩ := hmem
        have hleads := prefix_of_mem_walk hchild
        rintro rfl
        simp at hleads
      refine ⟨rfl, ?_, ?_, ?_⟩
      · simp [focused]
      · intro (hchildren : node.children = [])
        simp [focused, hchildren]
      · intro (hchildren : node.children ≠ [])
        rw [Function.comp_apply, label_labelEach, or_iff_right hplace,
          ← Located.hasSelection_iff_below hformed hchildren]
        simp [focused, hchildren]

/-- In every reachable workspace, whatever marks of expansion its outline is given, collapsing to
the selection leaves each node as the selection asks for it and changes nothing but marks of
expansion. So the selection and its expression are the same before and after, and collapsing once
more changes nothing. -/
theorem collapse_reachable {document : Json} (hdocument : document.WellFormed)
    {workspace : Workspace} (h : Reachable document workspace) {root : Node}
    (hroot : root.unexpanded = workspace.outline.unexpanded) :
    List.Forall₂ Located.Focuses root.located (collapseUnselected root).located ∧
    (collapseUnselected root).unexpanded = root.unexpanded ∧
    collapseUnselected (collapseUnselected root) = collapseUnselected root ∧
    ∃ entries, workspace.selection = .ok entries ∧
      root.selection workspace.ledger.resolve = .ok entries ∧
      (collapseUnselected root).selection workspace.ledger.resolve = .ok entries ∧
      ∀ config, ∃ text,
        root.selection workspace.ledger.resolve >>= Synthesis.expression config = .ok text ∧
        (collapseUnselected root).selection workspace.ledger.resolve >>=
          Synthesis.expression config = .ok text := by
  obtain ⟨traces, hsound⟩ := h.sound hdocument
  have hentries := hsound.selection_eq
  have hbefore : root.selection workspace.ledger.resolve = workspace.selection :=
    selection_of_unexpanded hroot _
  have hafter := (selection_of_unexpanded (unexpanded_collapseUnselected root)
    workspace.ledger.resolve).trans hbefore
  refine ⟨(wellFormed_of_unexpanded hroot hsound.wellFormed).focuses,
    unexpanded_collapseUnselected root, collapseUnselected_collapseUnselected root, _, hentries,
    hbefore.trans hentries, hafter.trans hentries, fun config => ?_⟩
  let query := Synthesis.ofItems config (workspace.items (Trace.homeOf traces))
  have hexpression : Synthesis.expression config (workspace.entries (Trace.homeOf traces)) =
      .ok query.render :=
    congrArg (Except.map Query.render) (query_entries config workspace (Trace.homeOf traces))
  refine ⟨query.render, ?_, ?_⟩
  · rw [hbefore, hentries]
    exact hexpression
  · rw [hafter, hentries]
    exact hexpression

/-- Edits that mark a field of an object in an object, move another one into a list and back, and
empty the list. -/
def markAndEmpty : List Edit :=
  [.toggle "$.a.b.c", .moveInto "$.other.z" "$.items", .moveInto "$.items[].z" "$.other",
    .moveInto "$.items[].x" "$.other"]

/-- A document with an object in an object, a list and another object. -/
def furnishedObjects : Json :=
  .obj [("a", .obj [("b", .obj [("c", .int 1)]), ("d", .int 2)]),
    ("items", .arr [.obj [("x", .int 3)]]), ("other", .obj [("z", .int 4)])]

/-- With all marks of expansion turned around first, the way to the marked field is opened, the
other nodes with children are collapsed, and the emptied list and the scalars keep their marks. -/
theorem collapse_reachable_markAndEmpty : furnishedObjects.WellFormed ∧
    ∃ workspace, (Workspace.ofDocument furnishedObjects).run markAndEmpty = .ok workspace ∧
      Reachable furnishedObjects workspace ∧
      let root := labelEach (fun node =>
        { node.label with expanded := !node.label.expanded }) workspace.outline
      root.unexpanded = workspace.outline.unexpanded ∧
      (root.located.filter fun found => found.node.label.expanded).map Located.address =
        ["$.a", "$.a.b", "$.a.b.c", "$.a.d", "$.other.z", "$.other.x"] ∧
      ((collapseUnselected root).located.filter fun found =>
        found.node.label.expanded).map Located.address =
        ["$", "$.a", "$.a.b", "$.a.b.c", "$.a.d", "$.other.z", "$.other.x"] ∧
      List.Forall₂ Located.Focuses root.located (collapseUnselected root).located := by
  have hformed : furnishedObjects.WellFormed := by
    simp [furnishedObjects, Json.WellFormed, Json.WellFormedFields, Json.WellFormedItems,
      Fields.Distinct, Fields.names]
  have hshown : ((Workspace.ofDocument furnishedObjects).run markAndEmpty).toOption.map
      (fun workspace =>
        let root := labelEach (fun node =>
          { node.label with expanded := !node.label.expanded }) workspace.outline
        ((root.located.filter fun found => found.node.label.expanded).map Located.address,
          ((collapseUnselected root).located.filter fun found =>
            found.node.label.expanded).map Located.address)) =
      some (["$.a", "$.a.b", "$.a.b.c", "$.a.d", "$.other.z", "$.other.x"],
        ["$", "$.a", "$.a.b", "$.a.b.c", "$.a.d", "$.other.z", "$.other.x"]) := by
    decide +kernel
  obtain ⟨workspace, hrun, hseen⟩ := exists_eq_ok hshown
  have hreachable := Reachable.opened.run hrun
  have hchange : OnlyExpands fun node => { node.label with expanded := !node.label.expanded } :=
    ⟨fun _ => rfl⟩
  have hroot := hchange.unexpanded_labelEach workspace.outline
  obtain ⟨hbefore, hafter⟩ := Prod.mk.inj hseen
  exact ⟨hformed, workspace, hrun, hreachable, hroot, hbefore, hafter,
    (collapse_reachable hformed hreachable hroot).1⟩

end Projector
