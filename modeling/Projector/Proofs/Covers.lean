import Projector.Proofs.Projections
import Projector.Proofs.Scopes

/-!
# Fields that cover a part of an outline

Fields as they are seen from a place cover what is chosen there when they are exactly the chosen
nodes at or below it. Inside a list the fields of its group cover the elements again. The ways that
the fields go show all fronts of the part: a field outside every list is a chosen node, and the keys
in front of a list lead to a list with something chosen inside.
-/

namespace Projector

open Node

namespace Synthesis

/-- Inside a list the ways to the fields of its group are those of different fields. -/
theorem Group.rests_sublist (items : List Item) (keys : List String) :
    (((ofKeys items keys).members.map Item.rest).map (elementsAt keys ++ ·)).Sublist
      (items.map Item.rest) := by
  rw [List.map_map]
  induction items with
  | nil => exact List.Sublist.slnil
  | cons item items ih =>
    have hmembers : (ofKeys (item :: items) keys).members =
        ((item.placed?.toList.filter fun placed => placed.keys = keys).map Placed.member) ++
          (ofKeys items keys).members := by
      cases hplaced : item.placed? with
      | none => simp [ofKeys, gather, hplaced]
      | some placed =>
        by_cases hkeys : placed.keys = keys <;> simp [ofKeys, gather, hplaced, hkeys]
    rw [hmembers, List.map_append, List.map_cons]
    cases hplaced : item.placed? with
    | none => exact ih.cons _
    | some placed =>
      by_cases hkeys : placed.keys = keys
      · obtain ⟨inside, hrest, -, hmember⟩ := Item.placed?_eq_some_iff.mp hplaced
        have hway : elementsAt keys ++ placed.member.rest = item.rest := by
          rw [hmember, hrest, hkeys]
        simpa [hkeys, hway] using ih.cons_cons item.rest
      · simpa [hkeys] using ih.cons item.rest

/-- Fields seen from a place of an outline that are exactly its chosen nodes there, each once, and
that are all reached in a scope. -/
structure Covers (root : Node) (home : Path → Path) (scope : Scope) (base : Path)
    (items : List Item) : Prop where
  shown : Shown home base items
  nodup : (items.map Item.rest).Nodup
  chosen : ∀ rest, (∃ item ∈ items, item.rest = rest) ↔
    ∃ node, (base ++ rest, node) ∈ walk [] root ∧ node.isChosen = true
  reached : ∀ item ∈ items, scope.reachesAlong item.arrays item.source = true
  fresh : ∀ item ∈ items, item.arrays.Nodup ∧
    ∀ list ∈ item.arrays, scope ≠ .element (list ++ [.each])

namespace Covers

variable {root : Node} {home : Path → Path} {scope : Scope} {base : Path} {items : List Item}
  (h : Covers root home scope base items)

include h

/-- A list on the way to a field is reached, and it is not the one whose element is at hand. -/
theorem reaches_list {item : Item} (hitem : item ∈ items) {keys : List String} {inside : Path}
    (hrest : item.rest = elementsAt keys ++ inside) :
    scope.reaches (home (base ++ keys.map .field)) = true ∧
      scope ≠ .element (home (base ++ keys.map .field) ++ [.each]) := by
  have harrays := arrays_eq_cons (h.shown.seen item hitem) hrest
  have hreached := h.reached item hitem
  rw [harrays, Scope.reachesAlong, Bool.and_eq_true] at hreached
  exact ⟨hreached.1, (h.fresh item hitem).2 _ (by rw [harrays]; exact List.mem_cons_self)⟩

/-- The value of a field outside every list is reached. -/
theorem reaches_source {item : Item} (hitem : item ∈ items)
    (heach : Path.hasEach item.rest = false) : scope.reaches item.source = true := by
  have hreached := h.reached item hitem
  rwa [(h.shown.seen item hitem).arrays, lists_of_not_hasEach _ heach] at hreached

/-- The fields of a group cover the elements of its list. -/
theorem members (keys : List String) :
    Covers root home (.element (home (base ++ keys.map .field) ++ [.each]))
      (base ++ elementsAt keys) (Group.ofKeys items keys).members where
  shown := h.shown.members keys
  nodup := ((Group.rests_sublist items keys).nodup h.nodup).of_map
  chosen := by
    intro rest
    rw [List.append_assoc, ← h.chosen]
    constructor
    · rintro ⟨member, hmember, rfl⟩
      obtain ⟨item, hitem, hrest, -⟩ := Group.mem_members_ofKeys.mp hmember
      exact ⟨item, hitem, hrest⟩
    · rintro ⟨item, hitem, hrest⟩
      exact ⟨_, Group.member_mem hitem hrest, rfl⟩
  reached := by
    intro member hmember
    obtain ⟨item, hitem, hrest, hmember⟩ := Group.mem_members_ofKeys.mp hmember
    have hreached := h.reached item hitem
    rw [arrays_eq_cons (h.shown.seen item hitem) hrest, Scope.reachesAlong,
      Bool.and_eq_true] at hreached
    rw [hmember]
    exact hreached.2
  fresh := by
    intro member hmember
    obtain ⟨item, hitem, hrest, hmember⟩ := Group.mem_members_ofKeys.mp hmember
    have harrays := arrays_eq_cons (h.shown.seen item hitem) hrest
    have hnodup := (h.fresh item hitem).1
    rw [harrays] at hnodup
    obtain ⟨hnew, hothers⟩ := List.nodup_cons.mp hnodup
    rw [hmember]
    refine ⟨hothers, fun list hlist hsame => ?_⟩
    have heq := Scope.element.inj hsame
    rw [List.append_cancel_right_eq] at heq
    rw [← heq] at hlist
    exact hnew hlist

/-- A field outside every list is a chosen node. -/
theorem exists_chosen {item : Item} (hitem : item ∈ items) :
    ∃ node, (base ++ item.rest, node) ∈ walk [] root ∧ node.isChosen = true :=
  (h.chosen item.rest).mp ⟨item, hitem, rfl⟩

/-- The keys in front of a list lead to a list with something chosen inside. -/
theorem exists_list (hroot : root.WellFormed) {item : Item} (hitem : item ∈ items)
    {keys : List String} {inside : Path} (hrest : item.rest = elementsAt keys ++ inside) :
    ∃ node, (base ++ keys.map .field, node) ∈ walk [] root ∧ node.label.kind.isArray = true ∧
      node.hasSelection = true ∧ ¬node.isChosen = true := by
  obtain ⟨found, hfound, hchosen⟩ := h.exists_chosen hitem
  have hplace : base ++ item.rest = base ++ keys.map .field ++ [.each] ++ inside := by
    simp [hrest, elementsAt]
  rw [hplace] at hfound
  obtain ⟨node, hnode, harray⟩ := Node.exists_list hfound (List.prefix_append _ _)
  have hbelow := hroot.mem_walk_of_leads hnode hfound
    ((List.prefix_append _ _).trans (List.prefix_append _ _))
  refine ⟨node, hnode, harray, (hasSelection_iff _).mpr ⟨_, _, hbelow, hchosen⟩, fun hself => ?_⟩
  have hempty := children_of_isChosen (hroot.of_mem_walk hnode) hself
  rcases mem_walk_iff.mp hbelow with ⟨hsame, -⟩ | ⟨child, hchild, -⟩
  · simp at hsame
  · rw [hempty] at hchild
    cases hchild

/-- A front is a field outside every list, or a list on the way to some field. -/
theorem front_cases {keys : List String} {node : Node}
    (hnode : (base ++ keys.map .field, node) ∈ walk [] root) (hfront : node.isFront = true) :
    (node.isChosen = true ∧ ∃ item ∈ items, item.rest = keys.map .field) ∨
      ∃ item ∈ items, ∃ inside, item.rest = elementsAt keys ++ inside := by
  by_cases hchosen : node.isChosen = true
  · exact .inl ⟨hchosen, (h.chosen _).mpr ⟨node, hnode, hchosen⟩⟩
  · rw [isFront, Bool.or_eq_true, Bool.and_eq_true] at hfront
    obtain ⟨harray, hselection⟩ := hfront.resolve_left hchosen
    obtain ⟨place, found, hfound, hfoundChosen⟩ := (hasSelection_iff _).mp hselection
    right
    rcases mem_walk_iff.mp hfound with ⟨-, rfl⟩ | ⟨child, hchild, hbelow⟩
    · exact absurd hfoundChosen hchosen
    · obtain ⟨steps, rfl⟩ := prefix_of_mem_walk hbelow
      have hplace : base ++ (elementsAt keys ++ (.field child.key :: steps)) =
          base ++ keys.map .field ++ Address.below node.label.kind.isArray child.key ++ steps := by
        simp [elementsAt, Address.below, harray]
      obtain ⟨item, hitem, hrest⟩ := (h.chosen _).mpr
        ⟨found, by rw [hplace]; exact mem_walk_trans hnode hfound, hfoundChosen⟩
      exact ⟨item, hitem, _, hrest⟩

end Covers

end Synthesis

end Projector
