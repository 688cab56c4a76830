import Mathlib.Data.List.Induction
import Mathlib.Data.List.Nodup
import Projector.Selection
import Projector.Synthesis.Group

/-!
# What groups hold

Grouping makes one group for each way to an outermost list that some field goes, with all fields
that go this way, as seen from an element. When the fields tell of all their lists where these
live, so do the groups.
-/

namespace Projector.Synthesis

/-! ## Splitting paths -/

/-- A path is split at its first list. -/
theorem splitEach?_eq_some_iff {path inside : Path} {keys : List String} :
    splitEach? path = some (keys, inside) ↔ path = elementsAt keys ++ inside := by
  refine ⟨splitEach?_eq_some, ?_⟩
  rintro rfl
  induction keys with
  | nil => rfl
  | cons key keys ih => simpa [elementsAt, splitEach?] using ih

/-- A path that goes through no list is not split. -/
theorem splitEach?_eq_none_iff {path : Path} :
    splitEach? path = none ↔ Path.hasEach path = false := by
  induction path with
  | nil => simp [splitEach?, Path.hasEach]
  | cons segment path ih =>
    cases segment with
    | each => simp [splitEach?, Path.hasEach, Segment.isEach]
    | field name => simpa [splitEach?, Path.hasEach, Segment.isEach] using ih

/-- The lists on a path are its outermost one and those inside the elements of that one. -/
theorem lists_elementsAt (base : Path) (keys : List String) (inside : Path) :
    Path.lists base (elementsAt keys ++ inside) =
      (base ++ keys.map .field) :: Path.lists (base ++ elementsAt keys) inside := by
  induction keys generalizing base with
  | nil => simp [elementsAt, Path.lists]
  | cons key keys ih =>
    have hstep := ih (base ++ [.field key])
    simpa [elementsAt, Path.lists] using hstep

/-- There are no lists on a path that goes through none. -/
theorem lists_of_not_hasEach (base : Path) {path : Path} (h : Path.hasEach path = false) :
    Path.lists base path = [] := by
  induction path generalizing base with
  | nil => rfl
  | cons segment path ih =>
    cases segment with
    | each => simp [Path.hasEach, Segment.isEach] at h
    | field name =>
      rw [Path.lists]
      exact ih _ (by simpa [Path.hasEach, Segment.isEach] using h)

/-- A path that goes through no list is one of fields. -/
theorem eq_map_field_of_not_hasEach {path : Path} (h : Path.hasEach path = false) :
    path = (Path.names path).map .field := by
  induction path with
  | nil => rfl
  | cons segment path ih =>
    cases segment with
    | each => simp [Path.hasEach, Segment.isEach] at h
    | field name =>
      have hrest := ih (by simpa [Path.hasEach, Segment.isEach] using h)
      simpa [Path.names, Segment.name?] using hrest

/-- A path of fields goes through no list. -/
theorem hasEach_map_field (keys : List String) :
    Path.hasEach (keys.map .field) = false := by
  simp [Path.hasEach, Segment.isEach]

/-- The names on a path of fields. -/
theorem names_map_field (keys : List String) : Path.names (keys.map .field) = keys := by
  induction keys with
  | nil => rfl
  | cons key keys ih => simpa [Path.names, Segment.name?] using ih

/-! ## First occurrences -/

section FirstOccurrences

variable {α κ : Type} [BEq κ] [LawfulBEq κ]

/-- A last item is kept when it occurs for the first time. -/
theorem eraseDups_concat (items : List κ) (item : κ) :
    (items ++ [item]).eraseDups =
      if item ∈ items then items.eraseDups else items.eraseDups ++ [item] := by
  rw [List.eraseDups_append]
  by_cases h : item ∈ items <;> simp [List.removeAll, List.filter, h, List.eraseDups_cons]

/-- The first occurrences of items are different. -/
theorem nodup_eraseDups (items : List κ) : items.eraseDups.Nodup := by
  induction items using List.reverseRecOn with
  | nil => exact List.nodup_nil
  | append_singleton items item ih =>
    rw [eraseDups_concat]
    split
    · exact ih
    · rename_i hnew
      rw [← List.mem_eraseDups] at hnew
      exact List.nodup_append.mpr ⟨ih, List.nodup_singleton item, by
        rintro other hother _ hitem rfl
        exact hnew (List.mem_singleton.mp hitem ▸ hother)⟩

/-- A key occurs before another when some item under it comes before all items under the other. -/
theorem pairwise_eraseDups_filterMap {related : α → α → Prop} {items : List α}
    (h : items.Pairwise related) (key? : α → Option κ) :
    (items.filterMap key?).eraseDups.Pairwise fun key other => ∃ item ∈ items,
      key? item = some key ∧ ∀ next ∈ items, key? next = some other → related item next := by
  induction items using List.reverseRecOn with
  | nil => exact List.Pairwise.nil
  | append_singleton items last ih =>
    obtain ⟨hitems, -, hlast⟩ := List.pairwise_append.mp h
    have hold := (ih hitems).imp fun {key other} hbefore =>
      show ∃ item ∈ items ++ [last], key? item = some key ∧
          ∀ next ∈ items ++ [last], key? next = some other → related item next by
        obtain ⟨item, hitem, hkey, hnext⟩ := hbefore
        refine ⟨item, List.mem_append_left _ hitem, hkey, fun next hmem hother => ?_⟩
        rcases List.mem_append.mp hmem with hmem | hmem
        · exact hnext next hmem hother
        · exact hlast item hitem next hmem
    cases hkey : key? last with
    | none => simpa [List.filterMap_append, hkey] using hold
    | some key =>
      rw [List.filterMap_append, List.filterMap_cons_some hkey, List.filterMap_nil,
        eraseDups_concat]
      split
      · exact hold
      · rename_i hnew
        refine List.pairwise_append.mpr ⟨hold, List.pairwise_singleton _ _, ?_⟩
        intro other hother _ hsame
        obtain rfl := List.mem_singleton.mp hsame
        obtain ⟨item, hitem, hotherKey⟩ := List.mem_filterMap.mp (List.mem_eraseDups.mp hother)
        refine ⟨item, List.mem_append_left _ hitem, hotherKey, fun next hmem hnext => ?_⟩
        rcases List.mem_append.mp hmem with hmem | hmem
        · exact absurd (List.mem_filterMap.mpr ⟨next, hmem, hnext⟩) hnew
        · exact hlast item hitem next hmem

end FirstOccurrences

/-! ## Grouping -/

/-- All placed fields with some keys, as one group. -/
def Group.gather (placed : List Placed) (keys : List String) : Group :=
  let found := placed.filter fun one => one.keys = keys
  { keys, list? := found.findSome? Placed.list?, members := found.map Placed.member }

/-- A group with one more field. -/
def Group.extend (group : Group) (placed : Placed) : Group :=
  { group with
    list? := group.list? <|> placed.list?
    members := group.members ++ [placed.member] }

/-- One more placed field is gathered with those of the same keys. -/
theorem Group.gather_append (placed : List Placed) (one : Placed) (keys : List String) :
    gather (placed ++ [one]) keys =
      if one.keys = keys then (gather placed keys).extend one else gather placed keys := by
  by_cases h : one.keys = keys
  · simp only [gather, List.filter_append, h, List.findSome?_append, List.map_append, extend,
      decide_true, List.filter_cons_of_pos, List.filter_nil, List.findSome?_cons, if_true,
      List.findSome?_nil, List.map_cons, List.map_nil, Option.orElse_eq_orElse,
      Option.orElse_eq_or]
    cases one.list? <;> rfl
  · simp [gather, List.filter_append, h]

/-- A field is entered in the group with its keys, or in a new one behind the others. -/
theorem Group.enter_map {keyses : List (List String)} (hnodup : keyses.Nodup)
    (groupOf : List String → Group) (hkeys : ∀ keys, (groupOf keys).keys = keys) (one : Placed) :
    enter (keyses.map groupOf) one =
      (keyses.map fun keys =>
        if one.keys = keys then (groupOf keys).extend one else groupOf keys) ++
        if one.keys ∈ keyses then [] else
          [{ keys := one.keys, list? := one.list?, members := [one.member] }] := by
  induction keyses with
  | nil => simp [enter]
  | cons keys keyses ih =>
    obtain ⟨hnew, hrest⟩ := List.nodup_cons.mp hnodup
    rw [List.map_cons, enter, hkeys]
    by_cases h : one.keys = keys
    · subst h
      have hothers : (keyses.map fun keys =>
          if one.keys = keys then (groupOf keys).extend one else groupOf keys) =
            keyses.map groupOf :=
        List.map_congr_left fun other hother => if_neg (by rintro rfl; exact hnew hother)
      rw [List.map_cons, hothers]
      simp [extend, hkeys]
    · have h' : ¬keys = one.keys := fun heq => h heq.symm
      simp [h, h', ih hrest]

/-- Entering fields one by one makes one group for every way that some field goes, in the order of
the first fields. -/
theorem Group.foldl_enter (placed : List Placed) :
    placed.foldl enter [] = (placed.map Placed.keys).eraseDups.map (gather placed) := by
  induction placed using List.reverseRecOn with
  | nil => rfl
  | append_singleton placed one ih =>
    have henter := enter_map (nodup_eraseDups (placed.map Placed.keys)) (gather placed)
      (fun _ => rfl) one
    have hgather : ((placed.map Placed.keys).eraseDups.map fun keys =>
        if one.keys = keys then (gather placed keys).extend one else gather placed keys) =
          (placed.map Placed.keys).eraseDups.map (gather (placed ++ [one])) :=
      List.map_congr_left fun keys _ => (gather_append placed one keys).symm
    rw [List.foldl_append, List.foldl_cons, List.foldl_nil, ih, henter, hgather, List.map_append,
      List.map_singleton, eraseDups_concat]
    simp only [List.mem_eraseDups]
    by_cases hold : one.keys ∈ placed.map Placed.keys
    · simp only [hold, if_true, List.append_nil]
    · have hnone : placed.filter (fun other => decide (other.keys = one.keys)) = [] := by
        rw [List.filter_eq_nil_iff]
        intro other hother hkeys
        exact hold (List.mem_map.mpr ⟨other, hother, by simpa using hkeys⟩)
      simp [hold, gather, List.filter_append, hnone]

/-- The group of the fields that go the same way to a list. -/
def Group.ofKeys (items : List Item) (keys : List String) : Group :=
  gather (items.filterMap Item.placed?) keys

/-- A field is placed at its first list. -/
theorem Item.placed?_eq_some_iff {item : Item} {placed : Placed} :
    item.placed? = some placed ↔ ∃ inside, item.rest = elementsAt placed.keys ++ inside ∧
      placed.list? = item.arrays.head? ∧
      placed.member = { item with rest := inside, arrays := item.arrays.drop 1 } := by
  simp only [placed?, Option.map_eq_some_iff, Prod.exists, splitEach?_eq_some_iff]
  constructor
  · rintro ⟨keys, inside, hrest, rfl⟩
    exact ⟨inside, hrest, rfl, rfl⟩
  · rintro ⟨inside, hrest, hlist, hmember⟩
    exact ⟨placed.keys, inside, hrest, by rw [← hlist, ← hmember]⟩

/-- The ways that some fields go to their first lists, in the order of the first fields. -/
def Group.keyses (items : List Item) : List (List String) :=
  (items.filterMap fun item => (splitEach? item.rest).map Prod.fst).eraseDups

/-- A way is listed when some field goes it. -/
theorem Group.mem_keyses {items : List Item} {keys : List String} :
    keys ∈ keyses items ↔ ∃ item ∈ items, ∃ inside, item.rest = elementsAt keys ++ inside := by
  simp [keyses, List.mem_eraseDups, List.mem_filterMap, splitEach?_eq_some_iff]

/-- There is one group for every way that some field goes to its first list. -/
theorem Group.ofItems_eq (items : List Item) :
    ofItems items = (keyses items).map (ofKeys items) := by
  have hkeys : (items.filterMap Item.placed?).map Placed.keys =
      items.filterMap fun item => (splitEach? item.rest).map Prod.fst := by
    rw [List.map_filterMap]
    refine List.filterMap_congr fun item _ => ?_
    rw [Item.placed?, Option.map_map]
    rfl
  rw [keyses, ← hkeys]
  exact foldl_enter _

/-- The fields of a group are those that go its way, as seen from an element. -/
theorem Group.mem_members_ofKeys {items : List Item} {keys : List String} {member : Item} :
    member ∈ (ofKeys items keys).members ↔
      ∃ item ∈ items, item.rest = elementsAt keys ++ member.rest ∧
        member = { item with rest := member.rest, arrays := item.arrays.drop 1 } := by
  simp only [ofKeys, gather, List.mem_map, List.mem_filter, List.mem_filterMap, decide_eq_true_eq]
  constructor
  · rintro ⟨placed, ⟨⟨item, hitem, hsome⟩, rfl⟩, rfl⟩
    obtain ⟨inside, hrest, -, hmember⟩ := Item.placed?_eq_some_iff.mp hsome
    rw [hmember]
    exact ⟨item, hitem, hrest, rfl⟩
  · rintro ⟨item, hitem, hrest, hmember⟩
    refine ⟨⟨keys, item.arrays.head?, member⟩, ⟨⟨item, hitem, ?_⟩, rfl⟩, rfl⟩
    exact Item.placed?_eq_some_iff.mpr ⟨member.rest, hrest, rfl, hmember⟩

/-- A field that goes the way of a group is in it, as seen from an element. -/
theorem Group.member_mem {items : List Item} {item : Item} (hitem : item ∈ items)
    {keys : List String} {inside : Path} (hrest : item.rest = elementsAt keys ++ inside) :
    { item with rest := inside, arrays := item.arrays.drop 1 } ∈ (ofKeys items keys).members :=
  mem_members_ofKeys.mpr ⟨item, hitem, hrest, rfl⟩

/-- What holds of fields as soon as it holds of those inside each of their lists holds of all
fields: inside a list paths are shorter. -/
@[elab_as_elim]
theorem induction_members {motive : List Item → Prop}
    (step : ∀ items, (∀ keys, (∃ item ∈ items, ∃ inside, item.rest = elementsAt keys ++ inside) →
      motive (Group.ofKeys items keys).members) → motive items) (items : List Item) :
    motive items := by
  induction hheight : height items using Nat.strongRecOn generalizing items with
  | _ _ ih =>
    refine step items fun keys hkeys => ih _ ?_ _ rfl
    rw [← hheight]
    refine Group.height_members_lt ?_
    rw [Group.ofItems_eq]
    exact List.mem_map_of_mem (Group.mem_keyses.mpr hkeys)

/-! ## Fields that tell of their lists -/

/-- A field as it is seen from a place in an outline: its value lives where the home of its path
is, and its lists where their homes are. -/
structure Item.SeenFrom (home : Path → Path) (base : Path) (item : Item) : Prop where
  source : item.source = home (base ++ item.rest)
  arrays : item.arrays = (Path.lists base item.rest).map home

/-- A field inside a list is seen from the elements of the list. -/
theorem Item.SeenFrom.member {home : Path → Path} {base : Path} {item : Item}
    (h : item.SeenFrom home base) {keys : List String} {inside : Path}
    (hrest : item.rest = elementsAt keys ++ inside) :
    Item.SeenFrom home (base ++ elementsAt keys)
      { item with rest := inside, arrays := item.arrays.drop 1 } where
  source := by rw [h.source, hrest, List.append_assoc]
  arrays := by rw [h.arrays, hrest, lists_elementsAt, List.map_cons, List.drop_one, List.tail_cons]

/-- The fields of a group are seen from the elements of its list. -/
theorem Group.seenFrom_members {home : Path → Path} {base : Path} {items : List Item}
    (h : ∀ item ∈ items, item.SeenFrom home base) {keys : List String} :
    ∀ member ∈ (ofKeys items keys).members, member.SeenFrom home (base ++ elementsAt keys) := by
  intro member hmember
  obtain ⟨item, hitem, hrest, heq⟩ := mem_members_ofKeys.mp hmember
  rw [heq]
  exact (h item hitem).member hrest

/-- A group whose fields tell of their lists knows where its list lives. -/
theorem Group.list?_ofKeys {home : Path → Path} {base : Path} {items : List Item}
    (h : ∀ item ∈ items, item.SeenFrom home base) {keys : List String}
    (hkeys : ∃ item ∈ items, ∃ inside, item.rest = elementsAt keys ++ inside) :
    (ofKeys items keys).list? = some (home (base ++ keys.map .field)) := by
  have hsome : ∀ placed ∈ items.filterMap Item.placed?, placed.keys = keys →
      placed.list? = some (home (base ++ keys.map .field)) := by
    rintro placed hplaced rfl
    obtain ⟨item, hitem, hplaced⟩ := List.mem_filterMap.mp hplaced
    obtain ⟨inside, hrest, hlist, -⟩ := Item.placed?_eq_some_iff.mp hplaced
    rw [hlist, (h item hitem).arrays, hrest, lists_elementsAt]
    rfl
  obtain ⟨item, hitem, inside, hrest⟩ := hkeys
  have hmem : ∃ placed ∈ items.filterMap Item.placed?, placed.keys = keys :=
    ⟨⟨keys, item.arrays.head?, { item with rest := inside, arrays := item.arrays.drop 1 }⟩,
      List.mem_filterMap.mpr ⟨item, hitem, Item.placed?_eq_some_iff.mpr ⟨inside, hrest, rfl, rfl⟩⟩,
      rfl⟩
  obtain ⟨placed, hplaced, hkeys⟩ := hmem
  cases hfound : (ofKeys items keys).list? with
  | none =>
    have hnone := List.findSome?_eq_none_iff.mp hfound placed
      (List.mem_filter.mpr ⟨hplaced, by simpa using hkeys⟩)
    rw [hsome placed hplaced hkeys] at hnone
    cases hnone
  | some list =>
    obtain ⟨other, hother, hlist⟩ := List.exists_of_findSome?_eq_some hfound
    obtain ⟨hother, hsame⟩ := List.mem_filter.mp hother
    rw [← hlist, hsome other hother (by simpa using hsame)]

end Projector.Synthesis
