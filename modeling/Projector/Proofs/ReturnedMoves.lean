import Projector.Proofs.CanonicalAddresses
import Projector.Proofs.ReachableMoves
import Projector.Proofs.ReachableOutlines

/-!
# Moving a node back

A node that was moved into a container can always be moved back into the parent it came from. The
outline then shows what it showed before both moves, except that the node is the last child of its
parent and that both containers are expanded and not selected. The ledger has other records than
before, but it resolves every address to where it did, so what is selected is read from where it
was.
-/

namespace Projector

open Node

/-! ## Where parts live after a move and its return -/

namespace Transfer

/-- A move that takes what another one moved back to where it was. -/
structure Returns (first second : Transfer) : Prop where
  source : second.source = first.target
  target : second.target = first.source

variable {first second : Transfer} {traces : List Trace}

/-- Outside the place it is moved back to nothing was moved to where a part was in between. -/
theorem not_leads_of_return (hreturn : first.Returns second)
    (hsecond : second.Clear (first.apply traces)) {place : Path}
    (houtside : ¬first.source <+: place) {trace : Trace}
    (htrace : trace ∈ second.apply (first.apply traces))
    (hleads : trace.path <+: place) : ¬first.target <+: trace.path := by
  have hback : ∀ rest, trace.path ≠ second.target ++ rest := by
    intro rest hrest
    rw [hreturn.target] at hrest
    exact houtside ((hrest ▸ List.prefix_append _ _).trans hleads)
  rcases List.mem_append.mp htrace with hother | hmoved
  · obtain ⟨old, -, -, hcarry⟩ := (mem_others hsecond).mp ⟨trace, hother, rfl⟩
    by_cases hinside : second.source <+: old.path
    · obtain ⟨rest, hrest⟩ := hinside
      rw [← hrest, carry_append] at hcarry
      exact absurd hcarry.symm (hback rest)
    · rwa [← hcarry, carry_of_outside hinside, ← hreturn.source]
  · rw [List.mem_singleton.mp hmoved, moved_path] at hback
    exact absurd (List.append_nil _).symm (hback [])

/-- After a move and its return every part lives where it lived before. -/
theorem livesAt_return (hreturn : first.Returns second) (hfirst : first.Clear traces)
    (hsecond : second.Clear (first.apply traces)) (hapart : Trace.Apart traces)
    {place home : Path} (h : LivesAt traces place home) :
    LivesAt (second.apply (first.apply traces)) place home := by
  have houtside : ∀ {place home : Path}, ¬first.source <+: place → ¬first.target <+: place →
      LivesAt traces place home → LivesAt (second.apply (first.apply traces)) place home := by
    intro place home hsource htarget h
    refine livesAt_outside hsecond ?_ ?_ (livesAt_outside hfirst hsource htarget h)
    · rwa [hreturn.source]
    · rwa [hreturn.target]
  by_cases hsource : first.source <+: place
  · -- What was moved lives in the same place after each of the two moves.
    obtain ⟨rest, rfl⟩ := hsource
    have hbetween := livesAt_target hfirst hapart h
    rw [← hreturn.source] at hbetween
    rw [← hreturn.target]
    exact livesAt_target hsecond (apart_apply hfirst hapart) hbetween
  by_cases htarget : first.target <+: place
  · -- Nothing was moved to where the part was in between, neither before nor afterwards, so what
    -- is shown there lives in the home of the container around it.
    obtain ⟨rest, rfl⟩ := htarget
    obtain ⟨front, name, hfield⟩ := hsecond.field
    rw [hreturn.source] at hfield
    have hplace : first.target ++ rest = front ++ ([.field name] ++ rest) := by
      rw [hfield, List.append_assoc]
    have hlength : ∀ path : Path, path <+: first.target ++ rest → ¬first.target <+: path →
        path.length ≤ front.length := by
      intro path hleads hnot
      by_contra hlong
      refine hnot (List.prefix_of_prefix_length_le (List.prefix_append _ _) hleads ?_)
      rw [hfield, List.length_append, List.length_singleton]
      omega
    have hfront : ¬first.source <+: front ∧ ¬first.target <+: front := by
      refine ⟨fun hleads => hsource (hleads.trans ?_), fun hleads => ?_⟩
      · rw [hplace]
        exact List.prefix_append _ _
      · have hlong := hleads.length_le
        rw [hfield, List.length_append, List.length_singleton] at hlong
        omega
    have haround := Trace.livesAt_homeOf traces front
    have hbefore : ∀ trace ∈ traces, trace.path <+: front ++ ([.field name] ++ rest) →
        trace.path.length ≤ front.length := by
      intro trace htrace hleads
      rw [← hplace] at hleads
      exact hlength _ hleads (hfirst.free trace htrace fun h => hsource (h.trans hleads))
    have hafter : ∀ trace ∈ second.apply (first.apply traces),
        trace.path <+: front ++ ([.field name] ++ rest) → trace.path.length ≤ front.length := by
      intro trace htrace hleads
      rw [← hplace] at hleads
      exact hlength _ hleads (not_leads_of_return hreturn hsecond hsource htrace hleads)
    rw [hplace] at h ⊢
    rw [h.unique hapart (haround.append hbefore)]
    exact (houtside hfront.1 hfront.2 haround).append hafter
  · exact houtside hsource htarget h

/-- After a move and its return every part has the home that it had before. -/
theorem homeOf_return (hreturn : first.Returns second) (hfirst : first.Clear traces)
    (hsecond : second.Clear (first.apply traces)) (hapart : Trace.Apart traces) :
    Trace.homeOf (second.apply (first.apply traces)) = Trace.homeOf traces := by
  funext place
  exact Trace.homeOf_eq (apart_apply hsecond (apart_apply hfirst hapart))
    (livesAt_return hreturn hfirst hsecond hapart (Trace.livesAt_homeOf traces place))

end Transfer

/-! ## Planning the return -/

namespace Workspace.Plan

/-- A plan that moves the node of another plan back to where it was. -/
structure Returns (plan back : Plan) : Prop where
  source : back.source.path = plan.newPath
  key : back.source.node.key = plan.source.node.key
  parent : back.parent.path = plan.target.path
  target : back.target.path = plan.parent.path
  newPath : back.newPath = plan.source.path

/-- As moves of traces, the two plans return as well. -/
theorem Returns.transfer {plan back : Plan} (h : plan.Returns back) :
    plan.transfer.Returns back.transfer where
  source := h.source.trans plan.transfer_target.symm
  target := back.transfer_target.trans h.newPath

/-- The path of the node does not lead to its parent. -/
theorem source_not_leads_parent {plan : Plan} {root : Node} (hplan : plan.Valid root) :
    ¬plan.source.path <+: plan.parent.path := by
  rw [hplan.source_path, childPath_eq]
  exact not_below_prefix_self _ _ _

section Free

variable {plan : Plan} {root : Node} (hroot : root.Consistent) (hplan : plan.Valid root)

include hroot hplan

/-- Apart from the node itself nothing is at or below the place that it moves to. -/
theorem viewAt?_newPath {place : Path} (hnew : plan.newPath <+: place)
    (hsource : ¬plan.source.path <+: place) : root.viewAt? place = none := by
  refine Option.eq_none_iff_forall_ne_some.mpr fun view hview => ?_
  obtain ⟨found, hfound, rfl, -⟩ := exists_of_viewAt?_eq_some hview
  have hspot : (found.path, found.node.label) ∈ spots [] root :=
    mem_spots.mpr ⟨found.node, mem_located.mp hfound, rfl⟩
  rw [← spots_detached hroot hplan] at hspot
  rcases Multiset.mem_add.mp hspot with hleft | hinside
  · obtain ⟨node, hnode, -⟩ := mem_spots.mp hleft
    exact not_leads_newPath hroot hplan hnode hnew
  · obtain ⟨node, hnode, -⟩ := mem_spots.mp hinside
    exact hsource (prefix_of_mem_walk hnode)

/-- The place that the node moves to leads to no node but itself and those below it. -/
theorem source_leads {found : Located} (hfound : found ∈ root.located)
    (hnew : plan.newPath <+: found.path) : plan.source.path <+: found.path := by
  by_contra hsource
  have hnone := viewAt?_newPath hroot hplan hnew hsource
  rw [hroot.wellFormed.viewAt?_eq hfound] at hnone
  cases hnone

/-- The place that the node moves to does not lead to the parent it comes from. -/
theorem newPath_not_leads_parent : ¬plan.newPath <+: plan.parent.path := by
  intro hnew
  exact source_not_leads_parent hplan (source_leads hroot hplan hplan.parent_mem hnew)

/-- The place that the node moves to leads to the one it comes from only when both are the same. -/
theorem newPath_eq_source (hnew : plan.newPath <+: plan.source.path) :
    plan.newPath = plan.source.path := by
  have hfield : plan.newPath = inner plan.target.node.label plan.target.path ++
      [.field plan.source.node.key] := rfl
  rw [hfield] at hnew ⊢
  obtain ⟨node, hnode⟩ := exists_mem_walk_of_leads (mem_located.mp hplan.source_mem) hnew
  have hmem : ⟨_, node⟩ ∈ root.located := mem_located.mpr hnode
  have hsource := source_leads hroot hplan hmem List.prefix_rfl
  exact hnew.eq_of_length (le_antisymm hnew.length_le hsource.length_le)

end Free

section Between

variable {plan : Plan} {root between : Node} (hroot : root.Consistent) (hplan : plan.Valid root)
  (hmoves : root.Moves between plan.source plan.parent plan.target plan.newPath)

include hroot hplan hmoves

/-- In between the node is found at the new path. -/
theorem exists_between_source : ∃ found ∈ between.located, found.path = plan.newPath ∧
    found.node.view = plan.source.node.view.shownAt plan.newPath := by
  have hview := hmoves.below []
  rw [List.append_nil, List.append_nil, hroot.wellFormed.viewAt?_eq hplan.source_mem] at hview
  exact exists_of_viewAt?_eq_some hview

/-- In between the parent is found where it was. -/
theorem exists_between_parent : ∃ found ∈ between.located, found.path = plan.parent.path ∧
    found.node.label.kind = plan.parent.node.label.kind := by
  have hview := hmoves.elsewhere _ (source_not_leads_parent hplan)
    (newPath_not_leads_parent hroot hplan)
  rw [hroot.wellFormed.viewAt?_eq hplan.parent_mem] at hview
  obtain ⟨found, hfound, hpath, hshown⟩ := exists_of_viewAt?_eq_some hview
  refine ⟨found, hfound, hpath, ?_⟩
  have hkind := congrArg (fun view : View => view.label.kind) hshown
  simp only [View.passing] at hkind
  split at hkind <;> split at hkind <;> exact hkind

variable (hbetween : between.Consistent)

include hbetween

/-- In between, the node can be moved back into its parent. -/
theorem movable_between : ∃ moved container,
    between.Movable plan.newPath.address plan.parent.address moved container := by
  obtain ⟨moved, hmoved, hpath, hview⟩ := exists_between_source hroot hplan hmoves
  obtain ⟨container, hcontainer, hparent, hkind⟩ :=
    exists_between_parent hroot hplan hmoves
  have hkey : moved.node.key = plan.source.node.key :=
    congrArg (fun view : View => view.label.key) hview
  refine ⟨moved, container, hmoved, hcontainer, ?_, ?_, ?_, ?_, ?_, ?_⟩
  · rw [hbetween.address_eq hmoved, hpath]
  · rw [hbetween.address_eq hcontainer, hparent, hroot.address_eq hplan.parent_mem]
  · rw [hpath]
    simp [newPath, Located.childPath]
  · intro hinside
    have hleads := prefix_of_mem_walk hinside
    rw [hpath, hparent] at hleads
    exact newPath_not_leads_parent hroot hplan hleads
  · rw [hkind]
    cases hcase : plan.parent.node.label.kind.isContainer with
    | true => rfl
    | false =>
      have hformed := hroot.wellFormed.of_mem_walk (mem_located.mp hplan.parent_mem)
      have hchild := List.mem_of_getElem? hplan.child
      cases hnode : plan.parent.node with
      | mk label children =>
        rw [hnode] at hformed hchild hcase
        rw [children_mk, (wellFormed_mk.mp hformed).2.1 hcase] at hchild
        cases hchild
  · -- The old place of the node is empty in between, unless it is also the new one.
    intro child hchild htaken
    have hmem := child_mem_located hcontainer hchild
    have hplace : container.childPath child.key = plan.source.path := by
      rw [htaken, hkey, hplan.source_path, childPath_eq, childPath_eq, hparent, hkind]
    refine hbetween.eq_of_path hmem hmoved ?_
    rw [hplace, hpath]
    by_contra hne
    have hgone := hmoves.gone [] fun hnew => hne (by
      rw [List.append_nil] at hnew
      exact (newPath_eq_source hroot hplan hnew).symm)
    rw [List.append_nil, ← hplace, hbetween.wellFormed.viewAt?_eq hmem] at hgone
    cases hgone

/-- A valid plan for the return brings the node back to where it was. -/
theorem returns_of_valid {back : Plan} (hback : back.Valid between)
    (hsource : back.source.path = plan.newPath) (htarget : back.target.path = plan.parent.path) :
    plan.Returns back := by
  obtain ⟨moved, hmoved, hpath, hview⟩ := exists_between_source hroot hplan hmoves
  obtain ⟨container, hcontainer, hparent, hkind⟩ :=
    exists_between_parent hroot hplan hmoves
  obtain rfl := hbetween.eq_of_path hmoved hback.source_mem (hpath.trans hsource.symm)
  obtain rfl := hbetween.eq_of_path hcontainer hback.target_mem (hparent.trans htarget.symm)
  have hkey : back.source.node.key = plan.source.node.key :=
    congrArg (fun view : View => view.label.key) hview
  have hsteps := hback.source_path.symm.trans hsource
  rw [newPath, childPath_eq, childPath_eq] at hsteps
  refine ⟨hsource, hkey, ?_, htarget, ?_⟩
  · exact (Address.below_inj (path_ne_each hback.parent_mem) (path_ne_each hplan.target_mem)
      hsteps).1
  · rw [newPath, hkey, hplan.source_path, childPath_eq, childPath_eq, htarget, hkind]

end Between

end Workspace.Plan

/-! ## What is shown after the return -/

/-- The view at a place after a child of one node was moved into another one and back. -/
def View.returned (key : String) (parent target place : Path) (view : View) : View :=
  if place = parent then (view.without key).taking key
  else if place = target then { view with label := opened view.label }
  else view

/-- The key of a node is the same after the return. -/
@[simp] theorem View.key_returned (key : String) (parent target place : Path) (view : View) :
    (view.returned key parent target place).label.key = view.label.key := by
  unfold View.returned
  split
  · rfl
  · split <;> rfl

namespace Workspace.Plan

variable {plan back : Plan} {root between last : Node} (hroot : root.Consistent)
  (hplan : plan.Valid root)

include hroot hplan

/-- Passing a child on and getting it back puts it last. -/
theorem passing_passing {place : Path} {view : View} (hview : root.viewAt? place = some view) :
    View.passing plan.source.node.key plan.target.path plan.parent.path place
        (View.passing plan.source.node.key plan.parent.path plan.target.path place view) =
      View.returned plan.source.node.key plan.parent.path plan.target.path place view := by
  have herase : ∀ keys : List String, plan.source.node.key ∉ keys →
      (keys ++ [plan.source.node.key]).erase plan.source.node.key = keys := by
    intro keys hkey
    rw [List.erase_append_right _ hkey, List.erase_cons_head, List.append_nil]
  by_cases hparent : place = plan.parent.path
  · subst hparent
    rw [hroot.wellFormed.viewAt?_eq hplan.parent_mem] at hview
    obtain rfl := Option.some.inj hview
    by_cases hsame : plan.parent.path = plan.target.path
    · have hnodup := hroot.nodup_keys hplan.parent_mem
      have hleft := herase _ (hnodup.not_mem_erase)
      simp [View.passing, View.returned, View.without, View.taking, hsame, view, hleft, opened]
    · simp [View.passing, View.returned, hsame]
  · by_cases htarget : place = plan.target.path
    · subst htarget
      rw [hroot.wellFormed.viewAt?_eq hplan.target_mem] at hview
      obtain rfl := Option.some.inj hview
      have hkeys := herase _ (key_not_mem_target hplan hparent)
      simp [View.passing, View.returned, View.without, View.taking, hparent, view, hkeys]
    · simp [View.passing, View.returned, hparent, htarget]

omit hplan in
/-- A view with the address of its place is the same when shown there. -/
theorem shownAt_shownAt {place : Path} {view : View} (hview : root.viewAt? place = some view)
    (other : Path) : (view.shownAt other).shownAt place = view := by
  obtain ⟨found, hfound, rfl, rfl⟩ := exists_of_viewAt?_eq_some hview
  have haddress : found.node.label.address = found.path.address := hroot.address_eq hfound
  simp [View.shownAt, Node.view, ← haddress]

/-- After the return everything is shown as before, except that the node is the last child of its
parent and that both containers are expanded and not selected. -/
theorem viewAt?_return
    (hmoves : root.Moves between plan.source plan.parent plan.target plan.newPath)
    (hback : between.Moves last back.source back.parent back.target back.newPath)
    (hreturn : plan.Returns back) (place : Path) :
    last.viewAt? place = (root.viewAt? place).map
      (View.returned plan.source.node.key plan.parent.path plan.target.path place) := by
  by_cases hsource : plan.source.path <+: place
  · -- At and below its place the node shows what it showed before it was moved.
    obtain ⟨rest, rfl⟩ := hsource
    have hview := hback.below rest
    rw [hreturn.newPath, hreturn.source, hmoves.below, Option.map_map] at hview
    rw [hview]
    refine Option.map_congr fun view hshown => ?_
    have hparent : plan.source.path ++ rest ≠ plan.parent.path := fun h =>
      source_not_leads_parent hplan (h ▸ List.prefix_append _ _)
    have htarget : plan.source.path ++ rest ≠ plan.target.path := fun h =>
      hplan.outside (h ▸ List.prefix_append _ _)
    rw [View.returned, if_neg hparent, if_neg htarget]
    exact shownAt_shownAt hroot hshown _
  by_cases hnew : plan.newPath <+: place
  · -- Where the node was in between, nothing is shown before and after.
    obtain ⟨rest, rfl⟩ := hnew
    have hgone := hback.gone rest
    rw [hreturn.newPath, hreturn.source] at hgone
    rw [hgone hsource, viewAt?_newPath hroot hplan (List.prefix_append _ _) hsource]
    rfl
  · have hview := hback.elsewhere place
    rw [hreturn.source, hreturn.newPath, hreturn.key, hreturn.parent, hreturn.target] at hview
    rw [hview hnew hsource, hmoves.elsewhere place hsource hnew, Option.map_map]
    exact Option.map_congr fun view hshown => passing_passing hroot hplan hshown

end Workspace.Plan

/-! ## What is selected after the return -/

/-- Whether a node with a view contributes to the selection. -/
def View.isChosen (view : View) : Bool :=
  view.label.selected &&
    match view.label.kind with
    | .leaf _ => true
    | .array _ => view.keys.isEmpty
    | .object => false

/-- The view of a node tells whether the node contributes to the selection. -/
theorem isChosen_view (node : Node) : node.view.isChosen = node.isChosen := by
  simp only [View.isChosen, Node.isChosen, Node.isSelectable, Node.view]
  cases node.label.kind <;> simp

/-- Which entries there are, but for their order, is told by what is shown. -/
theorem Workspace.exists_order_iff {workspace : Workspace} (hroot : workspace.outline.WellFormed)
    (home : Path → Path) (entry : Entry) :
    (∃ order, { entry with order } ∈ workspace.entries home) ↔
      ∃ place view, workspace.outline.viewAt? place = some view ∧ view.isChosen = true ∧
        entry.display = place.address ∧ entry.source = (home place).address ∧
        entry.field = view.label.key ∧
        entry.arrays = (Path.lists [] place).map fun list => (home list).address := by
  constructor
  · rintro ⟨order, hentry⟩
    obtain ⟨⟨found, number⟩, hnumbered, heq⟩ := List.mem_map.mp hentry
    obtain ⟨hfound, hchosen⟩ := mem_chosen.mp (List.fst_mem_of_mem_zipIdx hnumbered)
    simp only [Located.entryAt, Entry.mk.injEq] at heq
    obtain ⟨hdisplay, hsource, hfield, -, harrays⟩ := heq
    refine ⟨found.path, found.node.view, hroot.viewAt?_eq hfound, ?_, hdisplay.symm, hsource.symm,
      hfield.symm, harrays.symm⟩
    rwa [isChosen_view]
  · rintro ⟨place, view, hview, hchosen, hdisplay, hsource, hfield, harrays⟩
    obtain ⟨found, hfound, rfl, rfl⟩ := exists_of_viewAt?_eq_some hview
    rw [isChosen_view] at hchosen
    obtain ⟨index, hindex, hget⟩ := List.getElem_of_mem (mem_chosen.mpr ⟨hfound, hchosen⟩)
    refine ⟨index, List.mem_map.mpr ⟨(found, index), ?_, ?_⟩⟩
    · exact List.mk_mem_zipIdx_iff_getElem?.mpr (hget ▸ List.getElem?_eq_getElem hindex)
    · simp only [Located.entryAt, hdisplay, hsource, hfield, harrays]
      rfl

/-- After the return the nodes that contribute to the selection are those that did before, except
for the container that the node was in. -/
theorem Workspace.Plan.isChosen_returned {plan : Plan} {root : Node} (hroot : root.Consistent)
    (hplan : plan.Valid root) {place : Path} {view : View}
    (hview : root.viewAt? place = some view) :
    (View.returned plan.source.node.key plan.parent.path plan.target.path place view).isChosen =
        true ↔ place ≠ plan.target.path ∧ view.isChosen = true := by
  by_cases hparent : place = plan.parent.path
  · -- The parent has a child, so it is neither selectable before nor afterwards.
    subst hparent
    rw [hroot.wellFormed.viewAt?_eq hplan.parent_mem] at hview
    obtain rfl := Option.some.inj hview
    have hnot : plan.parent.node.view.isChosen = false := by
      rw [isChosen_view, Bool.eq_false_iff]
      intro hchosen
      have hformed := hroot.wellFormed.of_mem_walk (mem_located.mp hplan.parent_mem)
      have hchild := List.mem_of_getElem? hplan.child
      rw [children_of_isChosen hformed hchosen] at hchild
      cases hchild
    rw [hnot]
    simp [View.returned, View.isChosen, View.taking, opened]
  · by_cases htarget : place = plan.target.path
    · simp [htarget, View.returned, htarget ▸ hparent, View.isChosen, opened]
    · simp [View.returned, hparent, htarget]

/-! ## A move and its return in a sound workspace -/

/-- A move that is carried out in a sound workspace can be followed by its return, after which
everything is shown as described and lives where it lived before. -/
theorem Sound.exists_return {document : Json} {traces : List Trace} {workspace between : Workspace}
    (h : Sound document traces workspace) {source target : String} {record : Record}
    (hmove : workspace.moveInto source target = .ok (record, between)) :
    ∃ plan, workspace.plan source target = .ok plan ∧ plan.Valid workspace.outline ∧
      ∃ back last traces', between.moveInto record.address plan.parent.address = .ok (back, last) ∧
        back.address = source ∧ Sound document traces' last ∧
        Trace.homeOf traces' = Trace.homeOf traces ∧
        ∀ place, last.outline.viewAt? place = (workspace.outline.viewAt? place).map
          (View.returned plan.source.node.key plan.parent.path plan.target.path place) := by
  obtain ⟨plan, hok, hplan, haddress, hbetween, hmoves⟩ := h.exists_moves hmove
  have hroot := h.consistent
  refine ⟨plan, hok, hplan, ?_⟩
  obtain ⟨_, _, hmovable⟩ :=
    Workspace.Plan.movable_between hroot hplan hmoves hbetween.consistent
  obtain ⟨back, hback⟩ := Workspace.exists_plan_of_movable hbetween.consistent hmovable
  have hvalid := hbetween.valid_of_plan hback
  obtain ⟨last, hlast, -⟩ := hbetween.moveInto_of_plan hback hvalid
  obtain ⟨again, hagain, -, hagainAddress, hsound, hmovesBack⟩ := hbetween.exists_moves hlast
  obtain rfl := Except.ok.inj (hback.symm.trans hagain)
  have hlocated := Workspace.movable_of_plan hbetween.consistent hback hvalid
  have hreturn : plan.Returns back := by
    refine Workspace.Plan.returns_of_valid hroot hplan hmoves hbetween.consistent hvalid ?_ ?_
    · have hsource := hlocated.moved_address
      rwa [hbetween.consistent.address_eq hvalid.source_mem, Address.address_inj] at hsource
    · have htarget := hlocated.container_address
      rwa [hbetween.consistent.address_eq hvalid.target_mem, hroot.address_eq hplan.parent_mem,
        Address.address_inj] at htarget
  refine ⟨_, last, _, by rw [haddress]; exact hlast, ?_, hsound, ?_, ?_⟩
  · rw [hagainAddress, hreturn.newPath, ← hroot.address_eq hplan.source_mem]
    exact (Workspace.movable_of_plan hroot hok hplan).moved_address
  · exact Transfer.homeOf_return hreturn.transfer (plan.clear h hplan) (back.clear hbetween hvalid)
      h.apart
  · exact Workspace.Plan.viewAt?_return hroot hplan hmoves hmovesBack hreturn

/-- A move that is carried out in a reachable workspace can be undone: the move of the node from its
new address into the parent it came from is accepted and brings it back to its address. Everything
is then shown as before both moves, except that the node is the last child of its parent and that
its parent and the container it was in are expanded and not selected. The ledger resolves every
canonical address as before, and the entries of the selection are, but for their order, those from
before without that of the container. -/
theorem moveInto_returns {document : Json} (hdocument : document.WellFormed)
    {workspace between : Workspace} (h : Reachable document workspace) {source target : String}
    {record : Record} (hmove : workspace.moveInto source target = .ok (record, between)) :
    ∃ moved parent container, workspace.outline.Movable source target moved container ∧
      parent ∈ workspace.outline.located ∧ moved.node ∈ parent.node.children ∧
      moved.path = parent.childPath moved.node.key ∧
      ∃ back last, between.moveInto record.address parent.address = .ok (back, last) ∧
        back.address = source ∧
        (∀ place, last.outline.viewAt? place = (workspace.outline.viewAt? place).map
          (View.returned moved.node.key parent.path container.path place)) ∧
        (∀ address, Address.IsCanonical address →
          last.ledger.resolve address = workspace.ledger.resolve address) ∧
        ∃ before after, workspace.selection = .ok before ∧ last.selection = .ok after ∧
          ∀ entry : Entry, (∃ order, { entry with order } ∈ after) ↔
            entry.display ≠ target ∧ ∃ order, { entry with order } ∈ before := by
  obtain ⟨traces, hsound⟩ := h.sound hdocument
  obtain ⟨plan, hok, hplan, back, last, traces', hback, haddress, hlast, hhome, hviews⟩ :=
    hsound.exists_return hmove
  have hroot := hsound.consistent
  have hmovable := Workspace.movable_of_plan hroot hok hplan
  refine ⟨plan.source, plan.parent, plan.target, hmovable, hplan.parent_mem,
    List.mem_of_getElem? hplan.child, hplan.source_path, back, last, hback, haddress, hviews, ?_,
    _, _, hsound.selection_eq, hlast.selection_eq, fun entry => ?_⟩
  · intro address hcanonical
    obtain ⟨path, rfl⟩ := Address.isCanonical_iff.mp hcanonical
    rw [hsound.ledger, hlast.ledger, Trace.resolve_ledger, Trace.resolve_ledger, hhome]
  · have htarget : target = plan.target.path.address := by
      rw [← hroot.address_eq hplan.target_mem, hmovable.container_address]
    rw [Workspace.exists_order_iff hlast.wellFormed, Workspace.exists_order_iff hsound.wellFormed,
      hhome, htarget]
    constructor
    · rintro ⟨place, view, hview, hchosen, hdisplay, hsource, hfield, harrays⟩
      rw [hviews] at hview
      obtain ⟨old, hold, rfl⟩ := Option.map_eq_some_iff.mp hview
      obtain ⟨hne, hchosen⟩ := (Workspace.Plan.isChosen_returned hroot hplan hold).mp hchosen
      rw [View.key_returned] at hfield
      refine ⟨?_, place, old, hold, hchosen, hdisplay, hsource, hfield, harrays⟩
      rwa [hdisplay, ne_eq, Address.address_inj]
    · rintro ⟨hne, place, old, hold, hchosen, hdisplay, hsource, hfield, harrays⟩
      rw [hdisplay, ne_eq, Address.address_inj] at hne
      refine ⟨place, _, by rw [hviews, hold]; rfl,
        (Workspace.Plan.isChosen_returned hroot hplan hold).mpr ⟨hne, hchosen⟩, hdisplay, hsource,
        ?_, harrays⟩
      rwa [View.key_returned]

/-- A field moves into the container next to the one it is in, and back. -/
theorem moveInto_returns_containers : containers.WellFormed ∧
    Reachable containers (.ofDocument containers) ∧
    ∃ record between parent back last,
      (Workspace.ofDocument containers).moveInto "$.a.x" "$.b" = .ok (record, between) ∧
      record.address = "$.b.x" ∧
      between.moveInto record.address parent = .ok (back, last) ∧ back.address = "$.a.x" ∧
      ∀ address, Address.IsCanonical address →
        last.ledger.resolve address = (Workspace.ofDocument containers).ledger.resolve address := by
  have hmove : ((Workspace.ofDocument containers).moveInto "$.a.x" "$.b").toOption.map
      (fun result => result.1.address) = some "$.b.x" := by
    decide +kernel
  obtain ⟨⟨record, between⟩, hok, haddress⟩ := exists_eq_ok hmove
  obtain ⟨_, parent, _, -, -, -, -, back, last, hback, hsource, -, hresolve, -⟩ :=
    moveInto_returns wellFormed_containers .opened hok
  exact ⟨wellFormed_containers, .opened, record, between, parent.address, back, last, hok, haddress,
    hback, hsource, hresolve⟩

end Projector
