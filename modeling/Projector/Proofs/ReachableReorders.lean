import Projector.Proofs.Reachability
import Projector.Proofs.Views

/-!
# Reordering siblings of reachable outlines

In whatever reachable workspace, moving a node next to another one is carried out when the two
addresses are those of two different children of one node, and is refused otherwise. Carried out, it
changes the order of these children and nothing else: the moved child then stands right before or
right after the other one, and the others keep their order.
-/

namespace Projector

open Node

/-! ## The positions of the two siblings -/

namespace Node

/-- The position that an item moves to, among the others, to stand right before or right after the
item at another position. -/
def positionBeside (source target : Nat) (after : Bool) : Nat :=
  let gap := if source < target then target - 1 else target
  if after then gap + 1 else gap

/-- An item is inserted right behind some items. -/
theorem insertIdx_length_append {α : Type} (front back : List α) (item : α) :
    (front ++ back).insertIdx front.length item = front ++ item :: back := by
  induction front with
  | nil => simp
  | cons first front ih => simp [ih]

/-- The position of an item among the others, once the item at another position is taken out. -/
theorem getElem?_eraseIdx_gap {α : Type} {items : List α} {source target : Nat} {other : α}
    (hother : items[target]? = some other) (hne : source ≠ target) :
    (items.eraseIdx source)[if source < target then target - 1 else target]? = some other := by
  rw [List.getElem?_eraseIdx]
  by_cases hlt : source < target
  · rwa [if_pos hlt, if_neg (by omega), Nat.sub_add_cancel (by omega)]
  · rwa [if_neg hlt, if_pos (by omega)]

/-- An item that is shifted beside another one is right before or right after it, and without it
the others are as they were. -/
theorem shift_beside {α : Type} {items : List α} {source target : Nat} {item other : α}
    (hitem : items[source]? = some item) (hother : items[target]? = some other)
    (hne : source ≠ target) (after : Bool) : ∃ front back,
      items.eraseIdx source = front ++ other :: back ∧
      shift items source (positionBeside source target after) =
        front ++ (if after then [other, item] else [item, other]) ++ back := by
  obtain ⟨hgap, hrest⟩ := List.getElem?_eq_some_iff.mp (getElem?_eraseIdx_gap hother hne)
  generalize hposition : (if source < target then target - 1 else target) = gap at hgap hrest
  have hfront : ((items.eraseIdx source).take gap).length = gap :=
    List.length_take_of_le hgap.le
  have hsplit : items.eraseIdx source = (items.eraseIdx source).take gap ++
      other :: (items.eraseIdx source).drop (gap + 1) := by
    rw [← hrest, List.getElem_cons_drop, List.take_append_drop]
  refine ⟨_, _, hsplit, ?_⟩
  simp only [shift, hitem, positionBeside, hposition]
  generalize (items.eraseIdx source).take gap = front at hfront hsplit
  rw [hsplit, ← hfront]
  cases after with
  | false => simpa using insertIdx_length_append front (other :: _) item
  | true => simpa using insertIdx_length_append (front ++ [other]) _ item

/-- The position beside an item is one of the positions of the items. -/
theorem positionBeside_lt {source target length : Nat} (hsource : source < length)
    (htarget : target < length) (hne : source ≠ target) (after : Bool) :
    positionBeside source target after < length := by
  simp only [positionBeside]
  split <;> split <;> omega

end Node

/-! ## What a carried out reorder changes -/

/-- Two children of a node at different positions, by their addresses. -/
structure Node.Siblings (root : Node) (source target : String) (parent : Located)
    (first second : Node) : Prop where
  parent_mem : parent ∈ root.located
  first_mem : first ∈ parent.node.children
  second_mem : second ∈ parent.node.children
  ne : first ≠ second
  first_address : first.label.address = source
  second_address : second.label.address = target

namespace Workspace

variable {workspace : Workspace} {source target : String} {after : Bool}

/-- When two addresses are those of different children of a node, a reorder is carried out. -/
theorem reorder_eq_ok (hroot : workspace.outline.Consistent) {parent : Located}
    {first second : Node} (h : workspace.outline.Siblings source target parent first second) :
    ∃ sourceIndex targetIndex, sourceIndex ≠ targetIndex ∧
      parent.node.children[sourceIndex]? = some first ∧
      parent.node.children[targetIndex]? = some second ∧
      workspace.reorder source target after = .ok (workspace.withOutline (updateAt
        (rearrange fun children => shift children sourceIndex
          (positionBeside sourceIndex targetIndex after)) (Path.names parent.path))) := by
  obtain ⟨sourceIndex, hfirst⟩ := List.getElem?_of_mem h.first_mem
  obtain ⟨targetIndex, hsecond⟩ := List.getElem?_of_mem h.second_mem
  have hsource : workspace.outline.locateParent? source = some (parent, sourceIndex) :=
    hroot.locateParent?_eq_some_iff.mpr ⟨h.parent_mem, first, hfirst, h.first_address⟩
  have htarget : workspace.outline.locateParent? target = some (parent, targetIndex) :=
    hroot.locateParent?_eq_some_iff.mpr ⟨h.parent_mem, second, hsecond, h.second_address⟩
  have hne : source ≠ target := by
    rintro rfl
    rw [hsource] at htarget
    obtain ⟨-, rfl⟩ := Prod.mk.inj (Option.some.inj htarget)
    exact h.ne (Option.some.inj (hfirst.symm.trans hsecond))
  refine ⟨sourceIndex, targetIndex, ?_, hfirst, hsecond, ?_⟩
  · rintro rfl
    exact h.ne (Option.some.inj (hfirst.symm.trans hsecond))
  · rw [reorder, if_neg hne, hsource, htarget]
    simp only [if_pos, positionBeside]

/-- A reorder that is carried out is between different children of a node. -/
theorem siblings_of_reorder (hroot : workspace.outline.Consistent) {next : Workspace}
    (hnext : workspace.reorder source target after = .ok next) :
    ∃ parent first second, workspace.outline.Siblings source target parent first second := by
  unfold reorder at hnext
  split at hnext
  · cases hnext
  rename_i hne
  split at hnext
  · rename_i parent sourceIndex other targetIndex hsource htarget
    split at hnext
    · rename_i hpath
      obtain ⟨hparent, first, hfirst, rfl⟩ := hroot.locateParent?_eq_some_iff.mp hsource
      obtain ⟨hother, second, hsecond, rfl⟩ := hroot.locateParent?_eq_some_iff.mp htarget
      obtain rfl := hroot.eq_of_path hparent hother hpath
      exact ⟨parent, first, second, hparent, List.mem_of_getElem? hfirst,
        List.mem_of_getElem? hsecond, fun h => hne (by rw [h]), rfl, rfl⟩
    · cases hnext
  · cases hnext

end Workspace

namespace Workspace

/-- What a reorder changes: the first child stands beside the second one, the others keep their
order, and every other place shows what it showed. -/
structure Beside (workspace next : Workspace) (parent : Located) (first second : Node)
    (after : Bool) : Prop where
  children : ∃ before behind front back,
    parent.node.children = before ++ first :: behind ∧
    before ++ behind = front ++ second :: back ∧
    ∃ rearranged ∈ next.outline.located, rearranged.path = parent.path ∧
      rearranged.node.label = parent.node.label ∧
      rearranged.node.children =
        front ++ (if after then [second, first] else [first, second]) ++ back
  elsewhere : ∀ place, place ≠ parent.path →
    next.outline.viewAt? place = workspace.outline.viewAt? place
  ledger : next.ledger = workspace.ledger

/-- A reorder that is carried out puts the first child beside the second one. -/
theorem beside_of_siblings {workspace next : Workspace} (hroot : workspace.outline.Consistent)
    {source target : String} {after : Bool} {parent : Located} {first second : Node}
    (h : workspace.outline.Siblings source target parent first second)
    (hnext : workspace.reorder source target after = .ok next) :
    workspace.Beside next parent first second after := by
  obtain ⟨sourceIndex, targetIndex, hne, hfirst, hsecond, hok⟩ := reorder_eq_ok hroot h
  obtain rfl := Except.ok.inj (hok.symm.trans hnext)
  obtain ⟨hlt, hfirst'⟩ := List.getElem?_eq_some_iff.mp hfirst
  obtain ⟨front, back, hothers, hshift⟩ := shift_beside hfirst hsecond hne after
  have hperm := shift_perm parent.node.children sourceIndex
    (positionBeside_lt hlt (List.getElem?_eq_some_iff.mp hsecond).1 hne after)
  have hmem := hroot.wellFormed.mem_located_updateAt h.parent_mem (keeps_rearrange fun children =>
    shift children sourceIndex (positionBeside sourceIndex targetIndex after))
  refine ⟨⟨parent.node.children.take sourceIndex, parent.node.children.drop (sourceIndex + 1),
    front, back, ?_, ?_, _, hmem, rfl, ?_, ?_⟩, ?_, rfl⟩
  · rw [← hfirst', List.getElem_cons_drop, List.take_append_drop]
  · rw [← hothers, List.eraseIdx_eq_take_drop_succ]
  · cases parent.node
    rfl
  · rw [← hshift]
    cases parent.node
    rfl
  · intro place hplace
    rw [withOutline, hroot.wellFormed.viewAt?_rearrange h.parent_mem hperm, if_neg hplace]

end Workspace

/-- In every reachable workspace a reorder is carried out exactly when its addresses are those of
two different children of one node. Then the first child stands right after or right before the
second one, the other children keep their order, and nothing else changes: every other place shows
what it showed, and the ledger is the same. A reorder that is refused changes nothing. -/
theorem reorder_reachable {document : Json} (hdocument : document.WellFormed)
    {workspace : Workspace} (h : Reachable document workspace) (source target : String)
    (after : Bool) :
    ((∃ next, workspace.reorder source target after = .ok next) ↔
      ∃ parent first second, workspace.outline.Siblings source target parent first second) ∧
    (∀ next, workspace.reorder source target after = .ok next →
      workspace.edit (.reorder source target after) = .ok next ∧
      ∃ parent first second, workspace.outline.Siblings source target parent first second ∧
        workspace.Beside next parent first second after) ∧
    ∀ refusal, workspace.reorder source target after = .error refusal →
      workspace.edit (.reorder source target after) = .ok workspace := by
  obtain ⟨traces, hsound⟩ := h.sound hdocument
  have hroot := hsound.consistent
  refine ⟨⟨?_, ?_⟩, ?_, ?_⟩
  · rintro ⟨next, hnext⟩
    exact Workspace.siblings_of_reorder hroot hnext
  · rintro ⟨parent, first, second, hsiblings⟩
    obtain ⟨_, _, -, -, -, hok⟩ := Workspace.reorder_eq_ok hroot hsiblings
    exact ⟨_, hok⟩
  · intro next hnext
    obtain ⟨parent, first, second, hsiblings⟩ := Workspace.siblings_of_reorder hroot hnext
    refine ⟨by simp [Workspace.edit, hnext], parent, first, second, hsiblings, ?_⟩
    exact Workspace.beside_of_siblings hroot hsiblings hnext
  · intro refusal hrefused
    simp [Workspace.edit, hrefused]

/-- The first of three siblings moves right behind the last one, and everything else is shown as it
was. -/
theorem reorder_reachable_containers : containers.WellFormed ∧
    Reachable containers (.ofDocument containers) ∧
    ∃ next, (Workspace.ofDocument containers).reorder "$.a" "$.c" true = .ok next ∧
      next.outline.children.map key = ["b", "c", "a"] ∧
      ∃ parent first second,
        (Workspace.ofDocument containers).outline.Siblings "$.a" "$.c" parent first second ∧
        (Workspace.ofDocument containers).Beside next parent first second true := by
  have hkeys : ((Workspace.ofDocument containers).reorder "$.a" "$.c" true).toOption.map
      (fun next => next.outline.children.map key) = some ["b", "c", "a"] := by
    decide +kernel
  obtain ⟨next, hnext, hnextKeys⟩ := exists_eq_ok hkeys
  obtain ⟨-, hok, -⟩ := reorder_reachable wellFormed_containers .opened "$.a" "$.c" true
  exact ⟨wellFormed_containers, .opened, next, hnext, hnextKeys, (hok next hnext).2⟩

end Projector
