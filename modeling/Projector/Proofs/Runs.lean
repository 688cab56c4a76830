import Projector.Proofs.Plans
import Projector.Proofs.Results
import Projector.Proofs.Transfers

/-!
# Runs of edits

A run applies edits one after the other, whatever addresses they are given, and an edit that is
refused changes nothing. Only moves change the ledger. Every reachable workspace is sound: siblings
have different keys, nodes store the addresses of their paths, the ledger holds one trace for every
moved part, these traces tell of every node where it lives in the document, and there are the nodes
that the document was given, no more and no fewer. One lemma for each edit shows that it keeps a
workspace sound.
-/

namespace Projector

open Node

/-- An edit with the addresses it is given. -/
inductive Edit
  | toggle (address : String)
  | reorder (source target : String) (after : Bool)
  | moveInto (source target : String)

/-- Whether an edit is a move into a container. -/
def Edit.isMove : Edit → Bool
  | .moveInto _ _ => true
  | _ => false

namespace Workspace

/-- The workspace after an edit, which is the same one when the edit is refused. -/
def edit (workspace : Workspace) : Edit → Except Address.Fault Workspace
  | .toggle address => .ok ((workspace.toggle? address).getD workspace)
  | .reorder source target after =>
    match workspace.reorder source target after with
    | .ok next => .ok next
    | .error _ => .ok workspace
  | .moveInto source target =>
    match workspace.moveInto source target with
    | .ok (_, next) => .ok next
    | .error (.refused _) => .ok workspace
    | .error (.badAddress fault) => .error fault

/-- The workspace after some edits. -/
def run (workspace : Workspace) (edits : List Edit) : Except Address.Fault Workspace :=
  edits.foldlM edit workspace

/-- Turning a mark over keeps the ledger. -/
theorem ledger_toggle {workspace next : Workspace} {address : String}
    (hnext : workspace.toggle? address = some next) : next.ledger = workspace.ledger := by
  obtain ⟨_, -, rfl⟩ := Option.map_eq_some_iff.mp hnext
  rfl

/-- Moving a node next to a sibling keeps the ledger. -/
theorem ledger_reorder {workspace next : Workspace} {source target : String} {after : Bool}
    (hnext : workspace.reorder source target after = .ok next) :
    next.ledger = workspace.ledger := by
  unfold reorder at hnext
  split at hnext
  · cases hnext
  · split at hnext
    · split at hnext
      · obtain rfl := Except.ok.inj hnext
        rfl
      · cases hnext
    · cases hnext

/-- An edit that is not a move keeps the ledger. -/
theorem ledger_edit {workspace next : Workspace} {step : Edit} (hstep : step.isMove = false)
    (hnext : workspace.edit step = .ok next) : next.ledger = workspace.ledger := by
  cases step with
  | toggle address =>
    obtain rfl := Except.ok.inj hnext
    cases htoggle : workspace.toggle? address with
    | none => rfl
    | some toggled => exact ledger_toggle htoggle
  | reorder source target after =>
    cases hreorder : workspace.reorder source target after with
    | error refusal =>
      simp only [edit, hreorder] at hnext
      obtain rfl := Except.ok.inj hnext
      rfl
    | ok reordered =>
      simp only [edit, hreorder] at hnext
      obtain rfl := Except.ok.inj hnext
      exact ledger_reorder hreorder
  | moveInto source target => cases hstep

/-- Edits without a move keep the ledger. -/
theorem ledger_run {workspace next : Workspace} {steps : List Edit}
    (hsteps : ∀ step ∈ steps, step.isMove = false) (hnext : workspace.run steps = .ok next) :
    next.ledger = workspace.ledger := by
  induction steps generalizing workspace with
  | nil =>
    obtain rfl := Except.ok.inj hnext
    rfl
  | cons step steps ih =>
    rw [run, List.foldlM_cons] at hnext
    obtain ⟨edited, hedit, hnext⟩ := exists_of_bind_eq_ok hnext
    rw [ih (fun other hother => hsteps other (by simp [hother])) hnext,
      ledger_edit (hsteps step (by simp)) hedit]

end Workspace

/-! ## Sound workspaces -/

/-- What tells a node from all others, whatever edits do to it. -/
def identity (spot : Path × Label) : Path × String × Kind :=
  (spot.2.origin, spot.2.key, spot.2.kind)

/-- The places of an outline, with what is there apart from marks. -/
def Node.places (root : Node) : Multiset (Path × Label) := (spots [] root).map unmarked

/-- What holds of some places of which some traces tell. -/
structure Told (traces : List Trace) (places : Multiset (Path × Label)) : Prop where
  addressed : ∀ spot ∈ places, Addressed spot.1 spot.2
  home : ∀ spot ∈ places, LivesAt traces spot.1 spot.2.origin
  shown : ∀ trace ∈ traces, ∃ spot ∈ places, spot.1 = trace.path

/-- What holds of a workspace on a document after every run, as its traces tell. -/
structure Sound (document : Json) (traces : List Trace) (workspace : Workspace) : Prop where
  wellFormed : workspace.outline.WellFormed
  ledger : workspace.ledger = Trace.ledger traces
  apart : Trace.Apart traces
  told : Told traces workspace.outline.places
  kept : workspace.outline.places.map identity = (ofDocument document).places.map identity

/-- A located node has its place among the places. -/
theorem mem_places {root : Node} {found : Located} (hfound : found ∈ root.located) :
    unmarked (found.path, found.node.label) ∈ root.places :=
  Multiset.mem_map_of_mem _ (mem_spots.mpr ⟨found.node, mem_located.mp hfound, rfl⟩)

/-- A place is that of a located node. -/
theorem exists_of_mem_places {root : Node} {spot : Path × Label} (hspot : spot ∈ root.places) :
    ∃ found ∈ root.located, spot = unmarked (found.path, found.node.label) := by
  obtain ⟨⟨place, label⟩, hmem, rfl⟩ := Multiset.mem_map.mp hspot
  obtain ⟨node, hnode, rfl⟩ := mem_spots.mp hmem
  exact ⟨⟨place, node⟩, mem_located.mpr hnode, rfl⟩

namespace Sound

variable {document : Json} {traces : List Trace} {workspace : Workspace}

/-- The outline of a sound workspace is consistent. -/
theorem consistent (h : Sound document traces workspace) : workspace.outline.Consistent where
  wellFormed := h.wellFormed
  addressed := by
    intro place found hfound
    have hlocated : ⟨place, found⟩ ∈ workspace.outline.located := mem_located.mpr hfound
    exact h.told.addressed _ (mem_places hlocated)

/-- A node of a sound workspace lives where it was built. -/
theorem livesAt (h : Sound document traces workspace) {found : Located}
    (hfound : found ∈ workspace.outline.located) :
    LivesAt traces found.path found.node.label.origin :=
  h.told.home _ (mem_places hfound)

/-- A workspace stays sound when only marks and the order of children change. -/
theorem withOutline (h : Sound document traces workspace) {outline : Node}
    (hformed : outline.WellFormed) (hplaces : outline.places = workspace.outline.places) :
    Sound document traces { workspace with outline } where
  wellFormed := hformed
  ledger := h.ledger
  apart := h.apart
  told := by rw [hplaces]; exact h.told
  kept := by rw [hplaces]; exact h.kept

/-- A workspace on a document is sound before any edit. -/
theorem ofDocument (hdocument : document.WellFormed) :
    Sound document [] (Workspace.ofDocument document) := by
  obtain ⟨hformed, haddressed, horiginal⟩ := fresh_ofDocument hdocument
  refine ⟨hformed, rfl, by simp [Trace.Apart], ⟨?_, ?_, by simp⟩, rfl⟩
  · intro spot hspot
    obtain ⟨found, hfound, rfl⟩ := exists_of_mem_places hspot
    exact haddressed _ _ (mem_located.mp hfound)
  · intro spot hspot
    obtain ⟨found, hfound, rfl⟩ := exists_of_mem_places hspot
    have hhome : LivesAt [] ([] ++ found.path) ([] ++ found.path) :=
      (LivesAt.root (by simp)).append (by simp)
    rw [List.nil_append] at hhome
    change LivesAt [] found.path found.node.label.origin
    rwa [show found.node.label.origin = found.path from horiginal _ _ (mem_located.mp hfound)]

end Sound

/-! ## Marks and order -/

/-- Changing the node at a path keeps the places when it keeps those of that node. -/
theorem places_updateAt {change : Node → Node} (hkeeps : Keeps change) {root : Node}
    (hroot : root.WellFormed) {found : Located} (hfound : found ∈ root.located)
    (hchange : (spots found.path (change found.node)).map unmarked =
      (spots found.path found.node).map unmarked) :
    (root.updateAt change (Path.names found.path)).places = root.places := by
  have hplace : ([] ++ found.path, found.node) ∈ walk [] root := mem_located.mp hfound
  have hupdate := spots_updateAt hkeeps hroot hplace
  have hmap := congrArg (Multiset.map unmarked) hupdate
  simp only [Multiset.map_add, List.nil_append] at hmap
  rw [hchange] at hmap
  exact add_right_cancel hmap

/-- Setting a mark keeps what is at a place. -/
theorem spots_setSelected (selected : Bool) (path : Path) (node : Node) :
    (spots path (setSelected selected node)).map unmarked = (spots path node).map unmarked := by
  cases node with
  | mk label children =>
    rw [setSelected, relabel, spots_mk, spots_mk, Multiset.map_add, Multiset.map_add]
    rfl

/-- Setting a mark keeps a node well formed. -/
theorem wellFormed_setSelected {node : Node} (hnode : node.WellFormed) (selected : Bool) :
    (setSelected selected node).WellFormed := by
  cases node with
  | mk label children => exact wellFormed_mk.mpr (wellFormed_mk.mp hnode)

namespace Sound

variable {document : Json} {traces : List Trace} {workspace : Workspace}
  (h : Sound document traces workspace)

include h

/-- Turning a mark over keeps a workspace sound. -/
theorem toggle {address : String} {next : Workspace}
    (hnext : workspace.toggle? address = some next) : Sound document traces next := by
  obtain ⟨outline, houtline, rfl⟩ := Option.map_eq_some_iff.mp hnext
  unfold Node.toggle? at houtline
  cases hlocate : workspace.outline.locate? address with
  | none => simp [hlocate] at houtline
  | some found =>
    simp only [hlocate] at houtline
    split at houtline
    · obtain rfl := Option.some.inj houtline
      obtain ⟨hfound, -⟩ := h.consistent.locate?_eq_some_iff.mp hlocate
      have hformed := h.wellFormed.of_mem_walk (mem_located.mp hfound)
      refine h.withOutline ?_ ?_
      · exact h.wellFormed.updateAt (keeps_setSelected _) (mem_located.mp hfound)
          (wellFormed_setSelected hformed _)
      · exact places_updateAt (keeps_setSelected _) h.wellFormed hfound (spots_setSelected _ _ _)
    · simp at houtline

/-- Two different children of a node are at different positions of it, and the place next to one of
them is within the children. -/
theorem position_lt {source target : String} (hne : source ≠ target) {parent other : Located}
    {sourceIndex targetIndex : Nat}
    (hsource : workspace.outline.locateParent? source = some (parent, sourceIndex))
    (htarget : workspace.outline.locateParent? target = some (other, targetIndex))
    (hsame : parent.path = other.path) (after : Bool) :
    (if after then (if sourceIndex < targetIndex then targetIndex - 1 else targetIndex) + 1
      else if sourceIndex < targetIndex then targetIndex - 1 else targetIndex) <
        parent.node.children.length := by
  obtain ⟨hparent, child, hchild, rfl⟩ := h.consistent.locateParent?_eq_some_iff.mp hsource
  obtain ⟨hother, twin, htwin, rfl⟩ := h.consistent.locateParent?_eq_some_iff.mp htarget
  obtain rfl := h.consistent.eq_of_path hparent hother hsame
  have hindex : sourceIndex ≠ targetIndex := by
    rintro rfl
    rw [hchild] at htwin
    exact hne (by rw [Option.some.inj htwin])
  have hsourceLt := (List.getElem?_eq_some_iff.mp hchild).1
  have htargetLt := (List.getElem?_eq_some_iff.mp htwin).1
  split <;> split <;> omega

/-- Moving a node next to a sibling keeps a workspace sound. -/
theorem reorder {source target : String} {after : Bool} {next : Workspace}
    (hnext : workspace.reorder source target after = .ok next) : Sound document traces next := by
  unfold Workspace.reorder at hnext
  split at hnext
  · cases hnext
  · rename_i hne
    split at hnext
    · rename_i parent sourceIndex other targetIndex hsource htarget
      split at hnext
      · rename_i hsame
        obtain rfl := Except.ok.inj hnext
        have hperm := shift_perm parent.node.children sourceIndex
          (h.position_lt hne hsource htarget hsame after)
        have hparent := (h.consistent.locateParent?_eq_some_iff.mp hsource).1
        have hformed := h.wellFormed.of_mem_walk (mem_located.mp hparent)
        refine h.withOutline ?_ ?_
        · exact h.wellFormed.updateAt (keeps_rearrange _) (mem_located.mp hparent)
            (hformed.rearrange hperm)
        · exact places_updateAt (keeps_rearrange _) h.wellFormed hparent
            (by rw [spots_rearrange _ hperm])
      · cases hnext
    · cases hnext

end Sound

/-! ## Moves -/

namespace Workspace

/-- A move of a located node into a container outside it is refused or has a valid plan. -/
theorem planBetween_cases {workspace : Workspace} (hroot : workspace.outline.Consistent)
    {node container : Located} (hnode : node ∈ workspace.outline.located)
    (hcontainer : container ∈ workspace.outline.located)
    (houtside : ¬node.path <+: container.path) (target : String) :
    (∃ refusal, workspace.planBetween node.address target node container = .error refusal) ∨
      ∃ plan, workspace.planBetween node.address target node container = .ok plan ∧
        plan.Valid workspace.outline := by
  unfold planBetween
  cases hparent : workspace.outline.locateParent? node.address with
  | none => exact .inl ⟨_, rfl⟩
  | some found =>
    obtain ⟨parent, index⟩ := found
    obtain ⟨hmem, child, hchild, haddress⟩ := hroot.locateParent?_eq_some_iff.mp hparent
    obtain rfl := hroot.eq_of_address
      (child_mem_located hmem (List.mem_of_getElem? hchild)) hnode haddress
    dsimp only
    split
    · exact .inl ⟨_, rfl⟩
    · rename_i hkind
      split
      · exact .inl ⟨_, rfl⟩
      · rename_i htaken
        have hkind' : container.node.label.kind.isContainer = true := by simpa using hkind
        refine .inr ⟨_, rfl, hnode, hmem, hcontainer, hchild, rfl, houtside, hkind', ?_⟩
        intro other hother hkey
        simp only [List.any_eq_true, Bool.and_eq_true, decide_eq_true_eq, not_exists,
          not_and, not_not] at htaken
        have hplace := htaken other hother hkey
        rwa [hkey] at hplace

/-- In a consistent outline a move is refused or has a plan that is valid, and no address is
unreadable. -/
theorem plan_cases {workspace : Workspace} (hroot : workspace.outline.Consistent)
    (source target : String) :
    (∃ refusal, workspace.plan source target = .error (.refused refusal)) ∨
      ∃ plan, workspace.plan source target = .ok plan ∧ plan.Valid workspace.outline := by
  unfold plan
  cases hsource : workspace.outline.locate? source with
  | none => exact .inl ⟨_, rfl⟩
  | some node =>
    cases htarget : workspace.outline.locate? target with
    | none => exact .inl ⟨_, rfl⟩
    | some container =>
      obtain ⟨hnode, rfl⟩ := hroot.locate?_eq_some_iff.mp hsource
      obtain ⟨hcontainer, rfl⟩ := hroot.locate?_eq_some_iff.mp htarget
      have hcovers : Address.covers node.address container.address =
          .ok (following? node.path container.path).isSome := by
        rw [hroot.address_eq hnode, hroot.address_eq hcontainer, Address.covers_address]
      simp only [hcovers, Except.mapError, bind, Except.bind]
      split
      · exact .inl ⟨_, rfl⟩
      · rename_i hnone
        have houtside : ¬node.path <+: container.path := by
          rwa [← following?_eq_none_iff, ← Option.not_isSome_iff_eq_none]
        rcases planBetween_cases hroot hnode hcontainer houtside container.address with
          ⟨refusal, hrefused⟩ | ⟨plan, hok, hvalid⟩
        · exact .inl ⟨refusal, by rw [hrefused]⟩
        · exact .inr ⟨plan, by rw [hok], hvalid⟩

/-- A plan moves the node that it is made for into the container that it is made for. -/
theorem eq_of_planBetween {workspace : Workspace} {source target : String}
    {node container : Located} {plan : Plan}
    (hok : workspace.planBetween source target node container = .ok plan) :
    plan.source = node ∧ plan.target = container := by
  unfold planBetween at hok
  split at hok
  · cases hok
  · split at hok
    · cases hok
    · split at hok
      · cases hok
      · rw [← Except.ok.inj hok]
        exact ⟨rfl, rfl⟩

/-- A plan moves the node at the one address that is asked for into the container at the other. -/
theorem locate?_of_plan {workspace : Workspace} {source target : String} {plan : Plan}
    (hok : workspace.plan source target = .ok plan) :
    workspace.outline.locate? source = some plan.source ∧
      workspace.outline.locate? target = some plan.target := by
  unfold Workspace.plan at hok
  split at hok
  · rename_i node container hnode hcontainer
    obtain ⟨below, -, hok⟩ := exists_of_bind_eq_ok hok
    split at hok
    · cases hok
    · obtain ⟨hsource, htarget⟩ := eq_of_planBetween (ok_of_mapError hok)
      rw [hsource, htarget]
      exact ⟨hnode, hcontainer⟩
  · cases hok

/-- A move that is carried out was planned, and it is entered in the ledger. -/
theorem exists_plan_of_moveInto {workspace next : Workspace} {source target : String}
    {record : Record} (hmove : workspace.moveInto source target = .ok (record, next)) :
    ∃ plan, workspace.plan source target = .ok plan ∧
      workspace.ledger.relocate plan.move = .ok (record, next.ledger) ∧
      next.outline = plan.apply record.address workspace.outline := by
  unfold moveInto at hmove
  obtain ⟨plan, hplan, hmove⟩ := exists_of_bind_eq_ok hmove
  obtain ⟨⟨entered, ledger⟩, hrelocate, hmove⟩ := exists_of_bind_eq_ok hmove
  obtain ⟨rfl, rfl⟩ := Prod.mk.inj (Except.ok.inj hmove)
  exact ⟨plan, hplan, ok_of_mapError hrelocate, rfl⟩

/-- A planned move with paths instead of addresses. -/
def Plan.transfer (plan : Plan) : Transfer :=
  { source := plan.source.path
    parent := plan.target.path
    key := plan.source.node.key
    intoArray := plan.target.node.label.kind.isArray }

namespace Plan

/-- The move of a plan leads to its new path. -/
theorem transfer_target (plan : Plan) : plan.transfer.target = plan.newPath :=
  (newPath_eq plan).symm

/-- A place of the node is reached by some steps from the node. -/
theorem exists_steps_of_mem {plan : Plan} {spot : Path × Label}
    (hspot : spot ∈ (spots plan.source.path plan.source.node).map unmarked) :
    ∃ steps, spot.1 = plan.transfer.source ++ steps := by
  obtain ⟨⟨place, label⟩, hmem, rfl⟩ := Multiset.mem_map.mp hspot
  obtain ⟨_, hfound, -⟩ := mem_spots.mp hmem
  obtain ⟨steps, hsteps⟩ := prefix_of_mem_walk hfound
  exact ⟨steps, hsteps.symm⟩

/-- Where a part of the node is shown after the move, with the address of its new place. -/
theorem movedTo_eq (plan : Plan) {spot : Path × Label} {steps : Path}
    (hsteps : spot.1 = plan.transfer.source ++ steps) :
    movedTo plan.newPath plan.source.path.length spot =
      (plan.newPath ++ steps,
        { spot.2 with address := (plan.newPath ++ steps).address }) := by
  have hsource : plan.transfer.source = plan.source.path := rfl
  rw [movedTo, hsteps, hsource, List.drop_left]

variable {document : Json} {traces : List Trace} {workspace : Workspace} {plan : Plan}
  (h : Sound document traces workspace) (hplan : plan.Valid workspace.outline)

include h hplan

/-- The ledger sees a plan as the move along its paths. -/
theorem move_eq : plan.move = plan.transfer.move := by
  rw [move, Transfer.move, h.consistent.address_eq hplan.source_mem,
    h.consistent.address_eq hplan.target_mem]
  rfl

/-- What is left is what was there before, apart from the places of the node. -/
theorem places_detached :
    (plan.detached workspace.outline).places +
      (spots plan.source.path plan.source.node).map unmarked = workspace.outline.places := by
  rw [places, places, ← Multiset.map_add, spots_detached h.consistent hplan]

/-- Of what is left, nothing is at or below the old or the new place of the node. -/
theorem outside_of_detached {spot : Path × Label}
    (hspot : spot ∈ (plan.detached workspace.outline).places) :
    ¬plan.transfer.source <+: spot.1 ∧ ¬plan.transfer.target <+: spot.1 := by
  obtain ⟨found, hfound, rfl⟩ := exists_of_mem_places hspot
  rw [transfer_target]
  exact ⟨not_leads_source h.consistent hplan (mem_located.mp hfound),
    not_leads_newPath h.consistent hplan (mem_located.mp hfound)⟩

/-- A valid plan is a clear move for the traces. -/
theorem clear : plan.transfer.Clear traces where
  field := ⟨_, _, hplan.source_path⟩
  free := by
    intro trace htrace hsource
    obtain ⟨spot, hspot, hpath⟩ := h.told.shown trace htrace
    rw [← places_detached h hplan] at hspot
    rcases Multiset.mem_add.mp hspot with hleft | hmoved
    · rw [← hpath]
      exact (outside_of_detached h hplan hleft).2
    · obtain ⟨steps, hsteps⟩ := exists_steps_of_mem hmoved
      exact absurd ⟨steps, by rw [← hsteps, hpath]⟩ hsource

end Plan

end Workspace

namespace Sound

variable {document : Json} {traces : List Trace} {workspace : Workspace}
  (h : Sound document traces workspace)

include h

/-- The places after a planned move. -/
theorem places_apply {plan : Workspace.Plan} (hplan : plan.Valid workspace.outline) :
    (plan.apply plan.newPath.address workspace.outline).places =
      (plan.detached workspace.outline).places +
        ((spots plan.source.path plan.source.node).map unmarked).map
          (movedTo plan.newPath plan.source.path.length) := by
  rw [places, (Workspace.Plan.apply_spec h.consistent hplan).2, Multiset.map_add, Multiset.map_map,
    Multiset.map_map]
  rfl

/-- A place is among the places after a planned move when it was left or when it is that of a moved
part. -/
theorem mem_places_apply {plan : Workspace.Plan} (hplan : plan.Valid workspace.outline)
    {spot : Path × Label} :
    spot ∈ (plan.apply plan.newPath.address workspace.outline).places ↔
      spot ∈ (plan.detached workspace.outline).places ∨
        ∃ old ∈ (spots plan.source.path plan.source.node).map unmarked,
          movedTo plan.newPath plan.source.path.length old = spot := by
  rw [h.places_apply hplan, Multiset.mem_add, Multiset.mem_map]

/-- A place is among the places before a planned move when it is left or is that of a part to be
moved. -/
theorem mem_places_before {plan : Workspace.Plan} (hplan : plan.Valid workspace.outline)
    {spot : Path × Label} :
    spot ∈ workspace.outline.places ↔
      spot ∈ (plan.detached workspace.outline).places ∨
        spot ∈ (spots plan.source.path plan.source.node).map unmarked := by
  rw [← plan.places_detached h hplan, Multiset.mem_add]

/-- What is left or moved lives where it lived. -/
theorem livesAt_apply {plan : Workspace.Plan} (hplan : plan.Valid workspace.outline)
    {spot : Path × Label}
    (hspot : spot ∈ (plan.apply plan.newPath.address workspace.outline).places) :
    LivesAt (plan.transfer.apply traces) spot.1 spot.2.origin := by
  have hclear := plan.clear h hplan
  rcases (h.mem_places_apply hplan).mp hspot with hleft | ⟨old, hold, rfl⟩
  · obtain ⟨hsource, htarget⟩ := plan.outside_of_detached h hplan hleft
    have hhome := h.told.home spot ((h.mem_places_before hplan).mpr (.inl hleft))
    exact Transfer.livesAt_outside hclear hsource htarget hhome
  · obtain ⟨steps, hsteps⟩ := Workspace.Plan.exists_steps_of_mem hold
    have hhome := h.told.home old ((h.mem_places_before hplan).mpr (.inr hold))
    rw [hsteps] at hhome
    have hmoved := Transfer.livesAt_target hclear h.apart hhome
    rw [plan.transfer_target] at hmoved
    rw [plan.movedTo_eq hsteps]
    exact hmoved

/-- Every trace after a planned move is that of a place after it. -/
theorem shown_apply {plan : Workspace.Plan} (hplan : plan.Valid workspace.outline) {trace : Trace}
    (htrace : trace ∈ plan.transfer.apply traces) :
    ∃ spot ∈ (plan.apply plan.newPath.address workspace.outline).places, spot.1 = trace.path := by
  have hclear := plan.clear h hplan
  rcases List.mem_append.mp htrace with hother | hmoved
  · obtain ⟨old, hold, -, hcarry⟩ := (Transfer.mem_others hclear).mp ⟨trace, hother, rfl⟩
    obtain ⟨spot, hspot, hpath⟩ := h.told.shown old hold
    rcases (h.mem_places_before hplan).mp hspot with hleft | hinside
    · have hsource := (plan.outside_of_detached h hplan hleft).1
      refine ⟨spot, (h.mem_places_apply hplan).mpr (.inl hleft), ?_⟩
      rw [hpath] at hsource ⊢
      rw [← hcarry, Transfer.carry_of_outside hsource]
    · obtain ⟨steps, hsteps⟩ := Workspace.Plan.exists_steps_of_mem hinside
      refine ⟨_, (h.mem_places_apply hplan).mpr (.inr ⟨spot, hinside, rfl⟩), ?_⟩
      rw [← hcarry, ← hpath, plan.movedTo_eq hsteps, hsteps, Transfer.carry_append,
        plan.transfer_target]
  · have hself : unmarked (plan.source.path, plan.source.node.label) ∈
        (spots plan.source.path plan.source.node).map unmarked :=
      Multiset.mem_map_of_mem _ (mem_spots.mpr ⟨_, mem_walk_self _ _, rfl⟩)
    refine ⟨_, (h.mem_places_apply hplan).mpr (.inr ⟨_, hself, rfl⟩), ?_⟩
    rw [List.mem_singleton.mp hmoved, Transfer.moved_path, plan.transfer_target]
    simp [movedTo, unmarked]

/-- The traces after a planned move tell of the places after it. -/
theorem told_apply {plan : Workspace.Plan} (hplan : plan.Valid workspace.outline) :
    Told (plan.transfer.apply traces)
      (plan.apply plan.newPath.address workspace.outline).places where
  addressed := by
    intro spot hspot
    rcases (h.mem_places_apply hplan).mp hspot with hleft | ⟨old, -, rfl⟩
    · exact h.told.addressed spot ((h.mem_places_before hplan).mpr (.inl hleft))
    · rfl
  home := fun _ hspot => h.livesAt_apply hplan hspot
  shown := fun _ htrace => h.shown_apply hplan htrace

/-- A plan that is made is valid. -/
theorem valid_of_plan {source target : String} {plan : Workspace.Plan}
    (hok : workspace.plan source target = .ok plan) : plan.Valid workspace.outline := by
  rcases Workspace.plan_cases h.consistent source target with
    ⟨refusal, hrefused⟩ | ⟨planned, hplanned, hvalid⟩
  · rw [hok] at hrefused
    cases hrefused
  · rwa [Except.ok.inj (hok.symm.trans hplanned)]

/-- A planned move is carried out, and its traces keep the workspace sound. -/
theorem moveInto_of_plan {source target : String} {plan : Workspace.Plan}
    (hok : workspace.plan source target = .ok plan) (hplan : plan.Valid workspace.outline) :
    ∃ next, workspace.moveInto source target = .ok ((plan.transfer.moved traces).record, next) ∧
      Sound document (plan.transfer.apply traces) next := by
  have hclear := plan.clear h hplan
  have hledger := Transfer.relocate_ledger hclear h.apart
  unfold Workspace.moveInto
  rw [hok]
  simp only [bind, Except.bind, plan.move_eq h hplan, h.ledger, hledger, Except.mapError,
    Trace.record_address, Transfer.moved_path, plan.transfer_target]
  refine ⟨_, rfl, ?_, rfl, ?_, h.told_apply hplan, ?_⟩
  · exact (Workspace.Plan.apply_spec h.consistent hplan).1
  · exact Transfer.apart_apply hclear h.apart
  · rw [h.places_apply hplan, ← h.kept, ← plan.places_detached h hplan, Multiset.map_add,
      Multiset.map_add, Multiset.map_map _ (movedTo _ _)]
    rfl

/-- Moving a node into another container is refused or keeps a workspace sound. -/
theorem moveInto (source target : String) :
    (∃ refusal, workspace.moveInto source target = .error (.refused refusal)) ∨
      ∃ record next traces', workspace.moveInto source target = .ok (record, next) ∧
        Sound document traces' next := by
  rcases Workspace.plan_cases h.consistent source target with
    ⟨refusal, hrefused⟩ | ⟨plan, hok, hplan⟩
  · refine .inl ⟨refusal, ?_⟩
    unfold Workspace.moveInto
    rw [hrefused]
    rfl
  · obtain ⟨next, hnext, hsound⟩ := h.moveInto_of_plan hok hplan
    exact .inr ⟨_, next, _, hnext, hsound⟩

/-- An edit that is not a move keeps a workspace sound with the same traces. -/
theorem edit_of_not_move {step : Edit} (hstep : step.isMove = false) :
    ∃ next, workspace.edit step = .ok next ∧ Sound document traces next := by
  cases step with
  | toggle address =>
    cases hnext : workspace.toggle? address with
    | none => exact ⟨workspace, by simp [Workspace.edit, hnext], h⟩
    | some next => exact ⟨next, by simp [Workspace.edit, hnext], h.toggle hnext⟩
  | reorder source target after =>
    cases hnext : workspace.reorder source target after with
    | error refusal => exact ⟨workspace, by simp [Workspace.edit, hnext], h⟩
    | ok next => exact ⟨next, by simp [Workspace.edit, hnext], h.reorder hnext⟩
  | moveInto source target => cases hstep

/-- Every edit keeps a workspace sound. -/
theorem edit (step : Edit) :
    ∃ next traces', workspace.edit step = .ok next ∧ Sound document traces' next := by
  cases hstep : step.isMove with
  | false =>
    obtain ⟨next, hnext, hsound⟩ := h.edit_of_not_move hstep
    exact ⟨next, traces, hnext, hsound⟩
  | true =>
    cases step with
    | toggle address => cases hstep
    | reorder source target after => cases hstep
    | moveInto source target =>
      rcases h.moveInto source target with
        ⟨refusal, hnext⟩ | ⟨record, next, traces', hnext, hsound⟩
      · exact ⟨workspace, traces, by simp [Workspace.edit, hnext], h⟩
      · exact ⟨next, traces', by simp [Workspace.edit, hnext], hsound⟩

/-- Every run of edits ends in a sound workspace. -/
theorem run (steps : List Edit) :
    ∃ next traces', workspace.run steps = .ok next ∧ Sound document traces' next := by
  induction steps generalizing workspace traces with
  | nil => exact ⟨workspace, traces, rfl, h⟩
  | cons step steps ih =>
    obtain ⟨next, traces', hnext, hsound⟩ := h.edit step
    obtain ⟨last, traces'', hlast, hfinal⟩ := ih hsound
    refine ⟨last, traces'', ?_, hfinal⟩
    rw [Workspace.run, List.foldlM_cons, hnext]
    exact hlast

end Sound

/-- Every run of edits on a document ends in a sound workspace. -/
theorem sound_run {document : Json} (hdocument : document.WellFormed) (steps : List Edit) :
    ∃ workspace traces, (Workspace.ofDocument document).run steps = .ok workspace ∧
      Sound document traces workspace :=
  (Sound.ofDocument hdocument).run steps

end Projector
