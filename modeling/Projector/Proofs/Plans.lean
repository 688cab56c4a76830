import Projector.Proofs.Lookups
import Projector.Workspace

/-!
# Carrying out a planned move

A plan moves a node that is not the root into a container outside it that has no other child with
its key. Taking the node out leaves nothing at or below its place, and nothing was at or below the
place it moves to, so the outline after the move has the places it had before, except that those of
the moved node are found at the new place.
-/

namespace Projector

open Node

/-- What is at a place, without the marks of expansion and selection. -/
def unmarked (spot : Path × Label) : Path × Label :=
  (spot.1, { spot.2 with expanded := false, selected := false })

namespace Workspace.Plan

/-- The path that the moved node is shown at after the move. -/
def newPath (plan : Plan) : Path := plan.target.childPath plan.source.node.key

/-- What a plan is made for. -/
structure Valid (plan : Plan) (root : Node) : Prop where
  source_mem : plan.source ∈ root.located
  parent_mem : plan.parent ∈ root.located
  target_mem : plan.target ∈ root.located
  child : plan.parent.node.children[plan.index]? = some plan.source.node
  source_path : plan.source.path = plan.parent.childPath plan.source.node.key
  outside : ¬plan.source.path <+: plan.target.path
  container : plan.target.node.label.kind.isContainer = true
  free : ∀ child ∈ plan.target.node.children, child.key = plan.source.node.key →
    plan.newPath = plan.source.path

/-- The outline without the node that is about to move. -/
def detached (plan : Plan) (root : Node) : Node :=
  root.updateAt (detach plan.index) (Path.names plan.parent.path)

/-- A path to a field that leads to a node or further leads to a node. -/
theorem exists_mem_walk_of_leads {root : Node} {place front : Path} {key : String} {found : Node}
    (hfound : (place, found) ∈ walk [] root) (hleads : front ++ [.field key] <+: place) :
    ∃ node, (front ++ [.field key], node) ∈ walk [] root := by
  induction hlength : place.length using Nat.strong_induction_on generalizing place found with
  | _ length ih =>
    by_cases hplace : front ++ [.field key] = place
    · exact ⟨found, hplace ▸ hfound⟩
    · rcases exists_parent hfound with ⟨rfl, -⟩ | ⟨parent, node, hnode, -, rfl⟩
      · simp at hleads
      · rw [Address.below, ← List.append_assoc, List.prefix_concat_iff] at hleads
        rcases hleads with heq | hleads
        · exact absurd (by rw [heq, Address.below, List.append_assoc]) hplace
        · refine ih parent.length ?_ hnode ?_ rfl
          · rw [← hlength]; simp [Address.below]
          · split at hleads
            · rw [List.prefix_concat_iff] at hleads
              rcases hleads with heq | hleads
              · simpa using (List.append_inj' heq rfl).2
              · exact hleads
            · simpa using hleads

/-- The new path, as the steps from the target. -/
theorem newPath_eq (plan : Plan) : plan.newPath = plan.target.path ++
    Address.below plan.target.node.label.kind.isArray plan.source.node.key :=
  childPath_eq _ _

variable {plan : Plan} {root : Node} (hroot : root.Consistent) (hplan : plan.Valid root)

include hroot hplan

/-- Taking the node out takes its places and no others out. -/
theorem spots_detached :
    spots [] (plan.detached root) + spots plan.source.path plan.source.node = spots [] root := by
  have hparent : ([] ++ plan.parent.path, plan.parent.node) ∈ walk [] root :=
    mem_located.mp hplan.parent_mem
  have hkeeps : Keeps (detach plan.index) := keeps_rearrange _
  have hupdate := spots_updateAt hkeeps hroot.wellFormed hparent
  have hdetach := spots_detach plan.parent.path hplan.child
  rw [← childPath_eq, ← hplan.source_path] at hdetach
  rw [List.nil_append, ← hdetach, ← add_assoc] at hupdate
  rw [detached]
  refine add_right_cancel (b := spots plan.parent.path (detach plan.index plan.parent.node)) ?_
  rw [← hupdate]
  abel

/-- Without the node the outline is still well formed. -/
theorem wellFormed_detached : (plan.detached root).WellFormed :=
  hroot.wellFormed.updateAt (keeps_rearrange _) (mem_located.mp hplan.parent_mem)
    ((hroot.wellFormed.of_mem_walk (mem_located.mp hplan.parent_mem)).detach _)

/-- Every place that is left was there before. -/
theorem mem_of_detached {place : Path} {node : Node}
    (h : (place, node) ∈ walk [] (plan.detached root)) :
    ∃ found, (place, found) ∈ walk [] root ∧ found.label = node.label := by
  have hspot : (place, node.label) ∈ spots [] root := by
    rw [← spots_detached hroot hplan]
    exact Multiset.mem_add.mpr (.inl (mem_spots.mpr ⟨node, h, rfl⟩))
  exact mem_spots.mp hspot

/-- Nothing is left at or below the place of the node. -/
theorem not_leads_source {place : Path} {node : Node}
    (h : (place, node) ∈ walk [] (plan.detached root)) : ¬plan.source.path <+: place := by
  intro hleads
  rw [hplan.source_path] at hleads
  obtain ⟨other, hother⟩ := exists_mem_walk_of_leads h hleads
  have hnodup : ((spots [] root).map Prod.fst).Nodup := by
    have hpaths := hroot.wellFormed.nodup_paths []
    rwa [spots, Multiset.map_coe, List.map_map, Multiset.coe_nodup]
  rw [← spots_detached hroot hplan, Multiset.map_add, Multiset.nodup_add] at hnodup
  refine Multiset.disjoint_left.mp hnodup.2.2
    (Multiset.mem_map.mpr ⟨(_, other.label), mem_spots.mpr ⟨other, hother, rfl⟩, rfl⟩)
    (Multiset.mem_map.mpr ⟨(plan.source.path, plan.source.node.label), ?_, hplan.source_path⟩)
  exact mem_spots.mpr ⟨_, mem_walk_self _ _, rfl⟩

/-- Nothing is left at the place that the node moves to. -/
theorem newPath_free {node : Node} : (plan.newPath, node) ∉ walk [] (plan.detached root) := by
  intro h
  obtain ⟨found, hfound, -⟩ := mem_of_detached hroot hplan h
  have hmem : ⟨plan.newPath, found⟩ ∈ root.located := mem_located.mpr hfound
  have hsource := not_leads_source hroot hplan h
  rcases exists_parent_located hmem with heq | ⟨parent, hparent, hchild, hpath⟩
  · have hnil := (Located.mk.inj heq).1
    simp [newPath, Located.childPath] at hnil
  · obtain ⟨hsame, hkey⟩ := parent_path_eq hplan.target_mem hparent hpath
    rw [← hroot.eq_of_path hplan.target_mem hparent hsame] at hchild
    exact hsource (hplan.free found hchild hkey.symm ▸ List.prefix_rfl)

/-- Nothing is left at or below the place that the node moves to. -/
theorem not_leads_newPath {place : Path} {node : Node}
    (h : (place, node) ∈ walk [] (plan.detached root)) : ¬plan.newPath <+: place := by
  intro hleads
  obtain ⟨other, hother⟩ := exists_mem_walk_of_leads h hleads
  exact newPath_free hroot hplan hother

/-- The target is still there. -/
theorem exists_target : ∃ node, (plan.target.path, node) ∈ walk [] (plan.detached root) ∧
    node.label = plan.target.node.label := by
  refine mem_spots.mp ?_
  have hspot : (plan.target.path, plan.target.node.label) ∈ spots [] root :=
    mem_spots.mpr ⟨_, mem_located.mp hplan.target_mem, rfl⟩
  rw [← spots_detached hroot hplan] at hspot
  rcases Multiset.mem_add.mp hspot with h | h
  · exact h
  · obtain ⟨_, hfound, -⟩ := mem_spots.mp h
    exact absurd (prefix_of_mem_walk hfound) hplan.outside

/-- After the move the outline is well formed, and its places are those that were left and those of
the moved node, below the new place. -/
theorem apply_spec :
    (plan.apply plan.newPath.address root).WellFormed ∧
      (spots [] (plan.apply plan.newPath.address root)).map unmarked =
        (spots [] (plan.detached root) + (spots plan.source.path plan.source.node).map
          (movedTo plan.newPath plan.source.path.length)).map unmarked := by
  obtain ⟨node, hnode, hlabel⟩ := exists_target hroot hplan
  have hformed := wellFormed_detached hroot hplan
  have hmoved := hroot.wellFormed.of_mem_walk (mem_located.mp hplan.source_mem)
  let moved := readdress plan.newPath.address plan.source.node
  have hattach : (attach moved node).WellFormed := by
    have hkind : node.label.kind.isContainer = true := by
      rw [hlabel]
      exact hplan.container
    refine (hformed.of_mem_walk hnode).attach (hmoved.readdress _) hkind ?_
    intro child hchild hkey
    have hplace := mem_walk_child hnode hchild
    rw [hlabel, hkey, key_readdress, ← newPath_eq plan] at hplace
    exact newPath_free hroot hplan hplace
  refine ⟨hformed.updateAt (keeps_attach _) hnode hattach, ?_⟩
  have hplace : ([] ++ plan.target.path, node) ∈ walk [] (plan.detached root) := hnode
  have hupdate := spots_updateAt (keeps_attach moved) hformed hplace
  have hspots := spots_attach plan.target.path moved node
  rw [hlabel, key_readdress, ← newPath_eq plan, spots_readdress _ plan.source.path] at hspots
  have hopened : (spots plan.target.path (attach moved node)).map unmarked =
      (spots plan.target.path node + (spots plan.source.path plan.source.node).map
        (movedTo plan.newPath plan.source.path.length)).map unmarked := by
    have hmap := congrArg (Multiset.map unmarked) hspots
    simp only [Multiset.map_add, Multiset.map_singleton] at hmap ⊢
    refine add_right_cancel (b := {unmarked (plan.target.path, plan.target.node.label)}) ?_
    rw [hmap, show unmarked (plan.target.path, opened plan.target.node.label) =
      unmarked (plan.target.path, plan.target.node.label) from rfl]
    abel
  have hmap := congrArg (Multiset.map unmarked) hupdate
  simp only [Multiset.map_add, List.nil_append] at hmap hopened ⊢
  rw [hopened] at hmap
  refine add_right_cancel (b := (spots plan.target.path node).map unmarked) ?_
  rw [show plan.apply plan.newPath.address root = (plan.detached root).updateAt (attach moved)
    (Path.names plan.target.path) from rfl, hmap]
  abel

end Workspace.Plan

end Projector
