import Projector.Proofs.Reachability
import Projector.Proofs.Views

/-!
# Moving a node in a reachable outline

In whatever reachable workspace, a move is carried out when both addresses are those of nodes, the
first one is not the root and does not lead to the second one, and the second one is a container
without another child that has the key of the first. All other moves are refused and change nothing.
What is carried out is told by what is shown afterwards: the moved node is the last child of the
container and shows, at every depth, what it showed before at its old place, apart from addresses.
Its old parent shows one key less, and everything else shows what it showed.
-/

namespace Projector

open Node

/-! ## Views after a move -/

namespace View

/-- The view of a node that has lost the child with some key. -/
def without (key : String) (view : View) : View := { view with keys := view.keys.erase key }

/-- The view of a container that a child with some key was put into. -/
def taking (key : String) (view : View) : View :=
  { label := opened view.label, keys := view.keys ++ [key] }

/-- What becomes of the view at a place when a child with some key goes from one node to another. -/
def passing (key : String) (parent target place : Path) (view : View) : View :=
  let left := if place = parent then view.without key else view
  if place = target then left.taking key else left

end View

/-- What an outline shows after a node was moved to another path. -/
structure Node.Moves (before after : Node) (moved parent container : Located) (path : Path) :
    Prop where
  /-- The moved node and all below it show what they showed, with other addresses. -/
  below : ∀ rest, after.viewAt? (path ++ rest) =
    (before.viewAt? (moved.path ++ rest)).map fun view => view.shownAt (path ++ rest)
  /-- Nothing is shown at the old places. -/
  gone : ∀ rest, ¬path <+: moved.path ++ rest → after.viewAt? (moved.path ++ rest) = none
  /-- Only the old parent and the container show something else. -/
  elsewhere : ∀ place, ¬moved.path <+: place → ¬path <+: place → after.viewAt? place =
    (before.viewAt? place).map (View.passing moved.node.key parent.path container.path place)

namespace Workspace.Plan

variable {plan : Plan} {root : Node} (hroot : root.Consistent) (hplan : plan.Valid root)

include hroot hplan

/-- What the outline shows without the node that is about to move. -/
theorem viewAt?_detached (place : Path) : (plan.detached root).viewAt? place =
    if plan.source.path <+: place then none
    else if place = plan.parent.path then
      some (plan.parent.node.view.without plan.source.node.key)
    else root.viewAt? place := by
  rw [detached, hroot.wellFormed.viewAt?_detach hplan.parent_mem hplan.child, hplan.source_path]
  rfl

/-- The container as it is without the node, and what it becomes with the node. -/
theorem exists_attached : ∃ container ∈ (plan.detached root).located,
    container.path = plan.target.path ∧ container.node.label = plan.target.node.label ∧
    (Node.attach (readdress plan.newPath.address plan.source.node) container.node).WellFormed := by
  obtain ⟨node, hnode, hlabel⟩ := exists_target hroot hplan
  have hformed := (wellFormed_detached hroot hplan).of_mem_walk hnode
  have hmoved := hroot.wellFormed.of_mem_walk (mem_located.mp hplan.source_mem)
  refine ⟨⟨plan.target.path, node⟩, mem_located.mpr hnode, rfl, hlabel,
    hformed.attach (hmoved.readdress _) (hlabel ▸ hplan.container) ?_⟩
  intro child hchild hkey
  have hplace := mem_walk_child hnode hchild
  rw [hlabel, hkey, key_readdress, ← newPath_eq plan] at hplace
  exact newPath_free hroot hplan hplace

/-- What the outline shows after the move, in terms of what is left without the node. -/
theorem viewAt?_apply (place : Path) :
    (plan.apply plan.newPath.address root).viewAt? place =
      if plan.newPath <+: place then
        viewFrom? plan.newPath (readdress plan.newPath.address plan.source.node) place
      else if place = plan.target.path then
        ((plan.detached root).viewAt? place).map (View.taking plan.source.node.key)
      else (plan.detached root).viewAt? place := by
  obtain ⟨container, hmem, hpath, hlabel, hattached⟩ := exists_attached hroot hplan
  have hformed := wellFormed_detached hroot hplan
  have hnew : container.childPath plan.source.node.key = plan.newPath := by
    rw [childPath_eq, hpath, hlabel, ← newPath_eq]
  have hview := hformed.viewAt?_attach hmem hattached place
  rw [key_readdress, hnew, hpath] at hview
  rw [show plan.apply plan.newPath.address root = (plan.detached root).updateAt
    (Node.attach (readdress plan.newPath.address plan.source.node))
    (Path.names plan.target.path) from rfl, hview]
  split
  · rfl
  · split
    · rename_i hself
      rw [hself, ← hpath, hformed.viewAt?_eq hmem]
      rfl
    · rfl

omit hroot in
/-- A container that is not the parent of the node has no child with its key. -/
theorem key_not_mem_target (hne : plan.target.path ≠ plan.parent.path) :
    plan.source.node.key ∉ plan.target.node.children.map key := by
  intro hmem
  obtain ⟨child, hchild, hkey⟩ := List.mem_map.mp hmem
  have hpath := hplan.free child hchild hkey
  rw [newPath, hplan.source_path] at hpath
  exact hne (parent_path_eq hplan.target_mem hplan.parent_mem hpath).1

/-- What a valid plan does. -/
theorem moves_apply : root.Moves (plan.apply plan.newPath.address root) plan.source plan.parent
    plan.target plan.newPath where
  below := by
    intro rest
    have hsource := (mem_located.mp hplan.source_mem)
    have hformed := hroot.wellFormed.of_mem_walk hsource
    rw [viewAt?_apply hroot hplan, if_pos (List.prefix_append _ _),
      hformed.viewFrom?_readdress plan.newPath plan.source.path,
      hroot.wellFormed.viewAt?_of_leads hplan.source_mem (List.prefix_append _ _)]
  gone := by
    intro rest hrest
    have htarget : plan.source.path ++ rest ≠ plan.target.path := fun h =>
      hplan.outside (h ▸ List.prefix_append _ _)
    rw [viewAt?_apply hroot hplan, if_neg hrest, if_neg htarget, viewAt?_detached hroot hplan,
      if_pos (List.prefix_append _ _)]
  elsewhere := by
    intro place hsource hnew
    have hleft : (plan.detached root).viewAt? place = (root.viewAt? place).map fun view =>
        if place = plan.parent.path then view.without plan.source.node.key else view := by
      rw [viewAt?_detached hroot hplan, if_neg hsource]
      split
      · rename_i hparent
        rw [hparent, hroot.wellFormed.viewAt?_eq hplan.parent_mem]
        rfl
      · simp
    rw [viewAt?_apply hroot hplan, if_neg hnew, hleft]
    unfold View.passing
    split
    · rw [Option.map_map]
      rfl
    · rfl

end Workspace.Plan

/-! ## When a move is possible -/

/-- What a move asks for: the nodes at its two addresses, of which the first one is not the root and
does not lead to the second one, which is a container without another child that has its key. -/
structure Node.Movable (root : Node) (source target : String) (moved container : Located) :
    Prop where
  moved_mem : moved ∈ root.located
  container_mem : container ∈ root.located
  moved_address : moved.address = source
  container_address : container.address = target
  not_root : moved.path ≠ []
  not_inside : (container.path, container.node) ∉ walk moved.path moved.node
  kind : container.node.label.kind.isContainer = true
  free : ∀ child ∈ container.node.children, child.key = moved.node.key →
    (⟨container.childPath child.key, child⟩ : Located) = moved

namespace Workspace

variable {workspace : Workspace} {source target : String} (hroot : workspace.outline.Consistent)

include hroot

/-- What is planned is possible. -/
theorem movable_of_plan {plan : Plan} (hok : workspace.plan source target = .ok plan)
    (hplan : plan.Valid workspace.outline) :
    workspace.outline.Movable source target plan.source plan.target := by
  obtain ⟨hsource, htarget⟩ := locate?_of_plan hok
  refine ⟨hplan.source_mem, hplan.target_mem, ?_, ?_, ?_, ?_, hplan.container, ?_⟩
  · exact (hroot.locate?_eq_some_iff.mp hsource).2
  · exact (hroot.locate?_eq_some_iff.mp htarget).2
  · rw [hplan.source_path]
    simp [Located.childPath]
  · exact fun h => hplan.outside (prefix_of_mem_walk h)
  · intro child hchild hkey
    refine hroot.eq_of_path (child_mem_located hplan.target_mem hchild) hplan.source_mem ?_
    rw [hkey]
    exact hplan.free child hchild hkey

/-- What is possible is planned. -/
theorem exists_plan_of_movable {moved container : Located}
    (h : workspace.outline.Movable source target moved container) :
    ∃ plan, workspace.plan source target = .ok plan := by
  obtain ⟨hmoved, hcontainer, rfl, rfl, hne, houtside, hkind, hfree⟩ := h
  have hleads : ¬moved.path <+: container.path := fun hleads => houtside
    (hroot.wellFormed.mem_walk_of_leads (mem_located.mp hmoved) (mem_located.mp hcontainer) hleads)
  have hcovers : Address.covers moved.address container.address = .ok false := by
    rw [hroot.address_eq hmoved, hroot.address_eq hcontainer, Address.covers_address,
      following?_eq_none_iff.mpr hleads]
    rfl
  obtain ⟨parent, index, hparent, -, -, -⟩ := hroot.exists_locateParent? hmoved hne
  have htaken : (container.node.children.any fun child =>
      child.key = moved.node.key && container.childPath child.key ≠ moved.path) = false := by
    rw [List.any_eq_false]
    intro child hchild
    simp only [Bool.and_eq_true, decide_eq_true_eq, not_and, not_not]
    exact fun hkey => congrArg Located.path (hfree child hchild hkey)
  have hbetween : ∃ plan, workspace.planBetween moved.address container.address moved container =
      .ok plan := by
    rw [planBetween, hparent]
    simp only [hkind, htaken]
    exact ⟨_, rfl⟩
  obtain ⟨plan, hok⟩ := hbetween
  refine ⟨plan, ?_⟩
  rw [Workspace.plan, hroot.locate?_eq_some_iff.mpr ⟨hmoved, rfl⟩,
    hroot.locate?_eq_some_iff.mpr ⟨hcontainer, rfl⟩, hcovers]
  simp only [bind, Except.bind, Except.mapError, hok]
  rfl

end Workspace

/-- A move that is carried out in a sound workspace follows a valid plan, which says what is shown
and where the traces are afterwards. -/
theorem Sound.exists_moves {document : Json} {traces : List Trace} {workspace next : Workspace}
    (h : Sound document traces workspace) {source target : String} {record : Record}
    (hmove : workspace.moveInto source target = .ok (record, next)) :
    ∃ plan, workspace.plan source target = .ok plan ∧ plan.Valid workspace.outline ∧
      record.address = plan.newPath.address ∧
      Sound document (plan.transfer.apply traces) next ∧
      workspace.outline.Moves next.outline plan.source plan.parent plan.target plan.newPath := by
  obtain ⟨plan, hok, -, houtline⟩ := Workspace.exists_plan_of_moveInto hmove
  have hplan := h.valid_of_plan hok
  obtain ⟨last, hlast, hsound⟩ := h.moveInto_of_plan hok hplan
  obtain ⟨rfl, rfl⟩ := Prod.mk.inj (Except.ok.inj (hmove.symm.trans hlast))
  have haddress : (plan.transfer.moved traces).record.address = plan.newPath.address := by
    rw [Trace.record_address, Transfer.moved_path, plan.transfer_target]
  refine ⟨plan, hok, hplan, haddress, hsound, ?_⟩
  rw [houtline, haddress]
  exact Workspace.Plan.moves_apply h.consistent hplan

/-- In every reachable workspace a move is carried out exactly when it is possible, and a move that
is not possible is refused and changes nothing. A move that is carried out gives the address that
the node is shown at from then on, as the last child of its container. The node and all below it
show what they showed, apart from addresses, its old parent has one child less, and all other nodes
show at the same places what they showed, except that the container is expanded and not selected. No
node is lost and none appears twice. -/
theorem moveInto_reachable {document : Json} (hdocument : document.WellFormed)
    {workspace : Workspace} (h : Reachable document workspace) (source target : String) :
    ((∃ record next, workspace.moveInto source target = .ok (record, next)) ↔
      ∃ moved container, workspace.outline.Movable source target moved container) ∧
    (∀ failure, workspace.moveInto source target = .error failure →
      (∃ refusal, failure = .refused refusal) ∧
        workspace.edit (.moveInto source target) = .ok workspace) ∧
    ∀ record next, workspace.moveInto source target = .ok (record, next) →
      workspace.edit (.moveInto source target) = .ok next ∧
      (next.outline.located.map Located.origin).Perm
        (workspace.outline.located.map Located.origin) ∧
      ∃ moved parent container, workspace.outline.Movable source target moved container ∧
        parent ∈ workspace.outline.located ∧ moved.node ∈ parent.node.children ∧
        moved.path = parent.childPath moved.node.key ∧
        record.address = (container.childPath moved.node.key).address ∧
        workspace.outline.Moves next.outline moved parent container
          (container.childPath moved.node.key) := by
  obtain ⟨traces, hsound⟩ := h.sound hdocument
  have hroot := hsound.consistent
  refine ⟨⟨?_, ?_⟩, ?_, ?_⟩
  · rintro ⟨record, next, hmove⟩
    obtain ⟨plan, hok, hplan, -⟩ := hsound.exists_moves hmove
    exact ⟨_, _, Workspace.movable_of_plan hroot hok hplan⟩
  · rintro ⟨moved, container, hmovable⟩
    obtain ⟨plan, hok⟩ := Workspace.exists_plan_of_movable hroot hmovable
    obtain ⟨next, hnext, -⟩ := hsound.moveInto_of_plan hok (hsound.valid_of_plan hok)
    exact ⟨_, next, hnext⟩
  · intro failure hfailure
    rcases hsound.moveInto source target with ⟨refusal, hrefused⟩ | ⟨record, next, -, hok, -⟩
    · rw [hrefused] at hfailure
      exact ⟨⟨refusal, (Except.error.inj hfailure).symm⟩, by simp [Workspace.edit, hrefused]⟩
    · rw [hok] at hfailure
      cases hfailure
  · intro record next hmove
    obtain ⟨plan, hok, hplan, haddress, hnext, hmoves⟩ := hsound.exists_moves hmove
    refine ⟨by simp [Workspace.edit, hmove], hnext.origins_perm.trans hsound.origins_perm.symm,
      plan.source, plan.parent, plan.target, Workspace.movable_of_plan hroot hok hplan,
      hplan.parent_mem, List.mem_of_getElem? hplan.child, hplan.source_path, haddress, hmoves⟩

/-- A container that holds a field moves into another container. -/
theorem moveInto_reachable_containers : containers.WellFormed ∧
    Reachable containers (.ofDocument containers) ∧
    ∃ record next, (Workspace.ofDocument containers).moveInto "$.a" "$.c" = .ok (record, next) ∧
      record.address = "$.c.a" ∧
      next.outline.located.map Located.address = ["$", "$.b", "$.c", "$.c.a", "$.c.a.x"] ∧
      ∃ moved parent container, (Workspace.ofDocument containers).outline.Moves next.outline moved
        parent container (container.childPath moved.node.key) := by
  have hmove : ((Workspace.ofDocument containers).moveInto "$.a" "$.c").toOption.map
      (fun result => (result.1.address, result.2.outline.located.map Located.address)) =
        some ("$.c.a", ["$", "$.b", "$.c", "$.c.a", "$.c.a.x"]) := by
    decide +kernel
  obtain ⟨⟨record, next⟩, hok, hresult⟩ := exists_eq_ok hmove
  obtain ⟨haddress, haddresses⟩ := Prod.mk.inj hresult
  obtain ⟨-, -, hmoved⟩ := moveInto_reachable wellFormed_containers .opened "$.a" "$.c"
  obtain ⟨-, -, moved, parent, container, -, -, -, -, -, hmoves⟩ := hmoved record next hok
  exact ⟨wellFormed_containers, .opened, record, next, hok, haddress, haddresses, moved, parent,
    container, hmoves⟩

end Projector
