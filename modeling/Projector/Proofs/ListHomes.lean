import Projector.Proofs.Arrangements

/-!
# Where lists are taken to live

What a list construction runs through is decided by the first field behind the list that tells where
the list lives. When no field tells, the list is looked for at the same keys inside what the list
around it runs through. Both are described here for every path at once, as seen from the place where
all fields are shown, and the query of the fields depends on nothing else that they say of their
lists.
-/

namespace Projector.Synthesis

/-! ## What fields tell -/

/-- Where the list at a path lives, if a field is shown inside it and tells. -/
def Item.tells (place : Path) (item : Item) : Option Path :=
  if place ++ [.each] <+: item.rest then item.arrays[place.count .each]? else none

/-- Where the list at a path lives, as told by the first field that does. -/
def told (items : List Item) (place : Path) : Option Path := items.findSome? (Item.tells place)

/-- A way to a list goes through one list more than the place it leads to from there. -/
theorem count_elementsAt_append (keys : List String) (place : Path) :
    (elementsAt keys ++ place).count .each = place.count .each + 1 := by
  rw [elementsAt, List.count_append, List.count_append, count_each_map_field]
  simp [Nat.add_comm]

/-- What the fields of a group tell is what all fields tell, further inside. -/
theorem told_members (items : List Item) (keys : List String) (place : Path) :
    told (Group.ofKeys items keys).members place = told items (elementsAt keys ++ place) := by
  have hmember : ∀ item : Item, (item.member? keys).bind (Item.tells place) =
      item.tells (elementsAt keys ++ place) := by
    intro item
    rw [Item.tells, count_elementsAt_append, List.append_assoc]
    cases hinside : following? (elementsAt keys) item.rest with
    | none =>
      have hnot := following?_eq_none_iff.mp hinside
      rw [if_neg fun h => hnot ((List.prefix_append _ _).trans h), Item.member?, hinside]
      rfl
    | some inside =>
      rw [Item.member?, hinside, following?_eq_some_iff.mp hinside]
      simp only [Option.map_some, Option.bind_some, Item.tells, List.getElem?_drop,
        List.prefix_append_right_inj, Nat.add_comm 1]
  rw [told, told, Group.members_ofKeys, ← List.head?_filterMap, List.filterMap_filterMap,
    List.head?_filterMap]
  exact congrArg (fun tells => items.findSome? tells) (funext hmember)

/-- Where the list of a group lives is what all fields tell. -/
theorem list?_ofKeys_eq_told (items : List Item) (keys : List String) :
    (Group.ofKeys items keys).list? = told items (keys.map .field) := by
  rw [Group.ofKeys, Group.gather, told, ← List.head?_filterMap, ← List.filterMap_eq_filter,
    List.filterMap_filterMap, List.filterMap_filterMap, List.head?_filterMap]
  refine congrArg (fun tells => items.findSome? tells)
    (funext fun item => Option.ext fun list => ?_)
  simp only [Option.bind_eq_some_iff, Item.placed?_eq_some_iff, Option.guard_eq_some_iff,
    decide_eq_true_eq, Item.tells, Option.ite_none_right_eq_some, count_each_map_field,
    ← List.head?_eq_getElem?]
  constructor
  · rintro ⟨placed, ⟨inside, hrest, hlist, -⟩, _, ⟨rfl, rfl⟩, hsome⟩
    exact ⟨⟨inside, hrest.symm⟩, hlist ▸ hsome⟩
  · rintro ⟨⟨inside, hrest⟩, hhead⟩
    exact ⟨⟨keys, item.arrays.head?, { item with rest := inside, arrays := item.arrays.drop 1 }⟩,
      ⟨inside, hrest.symm, rfl, rfl⟩, _, ⟨rfl, rfl⟩, hhead⟩

/-! ## Following a path -/

/-- Where the list that a path leads to is taken to live, from a place that fields are shown at and
are read from. -/
def livesAlong (items : List Item) : (shown lives : Path) → Path → Path
  | shown, lives, [] => (told items shown).getD lives
  | shown, lives, .field name :: rest =>
    livesAlong items (shown ++ [.field name]) (lives ++ [.field name]) rest
  | shown, lives, .each :: rest =>
    livesAlong items (shown ++ [.each]) ((told items shown).getD lives ++ [.each]) rest

/-- Where the list at a path is taken to live, given where the scope of the fields is read from. -/
def livesAt (items : List Item) (base place : Path) : Path := livesAlong items [] base place

/-- Keys lead to the same keys, up to what is told. -/
theorem livesAlong_map_field (items : List Item) (shown lives : Path) (keys : List String) :
    livesAlong items shown lives (keys.map .field) =
      (told items (shown ++ keys.map .field)).getD (lives ++ keys.map .field) := by
  induction keys generalizing shown lives with
  | nil => simp [livesAlong]
  | cons key keys ih => simp [livesAlong, ih]

/-- Inside a list the path goes on from its elements. -/
theorem livesAlong_elementsAt (items : List Item) (shown lives : Path) (keys : List String)
    (inside : Path) : livesAlong items shown lives (elementsAt keys ++ inside) =
      livesAlong items (shown ++ elementsAt keys)
        (livesAlong items shown lives (keys.map .field) ++ [.each]) inside := by
  induction keys generalizing shown lives with
  | nil => simp [livesAlong, elementsAt]
  | cons key keys ih =>
    have hstep := ih (shown ++ [.field key]) (lives ++ [.field key])
    simpa [livesAlong, elementsAt] using hstep

/-- Seen from the elements of a list, the fields of a group tell the same. -/
theorem livesAlong_members (items : List Item) (keys : List String) (shown lives inside : Path) :
    livesAlong (Group.ofKeys items keys).members shown lives inside =
      livesAlong items (elementsAt keys ++ shown) lives inside := by
  induction inside generalizing shown lives with
  | nil => rw [livesAlong, livesAlong, told_members]
  | cons segment inside ih =>
    cases segment <;> simp only [livesAlong, ih, told_members, List.append_assoc]

/-- Where the list of a group is taken to live. -/
theorem home_ofKeys (scope : Scope) (items : List Item) (keys : List String) :
    (Group.ofKeys items keys).home scope = livesAt items scope.base (keys.map .field) := by
  rw [livesAt, livesAlong_map_field, List.nil_append, Group.home, list?_ofKeys_eq_told]
  rfl

/-- Where the lists inside the list of a group are taken to live. -/
theorem livesAt_members (items : List Item) (base : Path) (keys : List String) (inside : Path) :
    livesAt (Group.ofKeys items keys).members
        (livesAt items base (keys.map .field) ++ [.each]) inside =
      livesAt items base (elementsAt keys ++ inside) := by
  rw [livesAt, livesAlong_members, List.append_nil, livesAt, livesAt, livesAlong_elementsAt,
    List.nil_append]

/-- Fields become the product of their pieces, with a list construction for each way to an outermost
list, which runs through the elements of where this list is taken to live. -/
theorem emit_eq_livesAt (config : Config) (scope : Scope) (items : List Item) :
    emit config scope items = .product (wholes config scope items ++ plains config scope items ++
      (Group.keyses items).map fun keys => listQuery config scope keys
        (livesAt items scope.base (keys.map .field)) (Group.ofKeys items keys).members) := by
  rw [emit_eq_lists]
  simp only [home_ofKeys]

/-! ## Fields that tell of all their lists -/

/-- A field that is seen from a place tells where every list around it lives. -/
theorem Item.SeenFrom.tells {home : Path → Path} {base : Path} {item : Item}
    (h : item.SeenFrom home base) {place : Path} (hplace : place ++ [.each] <+: item.rest) :
    item.tells place = some (home (base ++ place)) := by
  rw [Item.tells, if_pos hplace, h.arrays, List.getElem?_map, getElem?_lists base hplace]
  rfl

/-- When every field tells where the lists around it live, each of these lists is known. -/
theorem told_eq_home {home : Path → Path} {base : Path} {items : List Item}
    (h : ∀ item ∈ items, item.SeenFrom home base) {place : Path}
    (hplace : ∃ item ∈ items, place ++ [.each] <+: item.rest) :
    told items place = some (home (base ++ place)) := by
  have hsame : ∀ item ∈ items, ∀ list, item.tells place = some list →
      list = home (base ++ place) := by
    intro item hitem list hlist
    by_cases hinside : place ++ [.each] <+: item.rest
    · rw [(h item hitem).tells hinside] at hlist
      exact (Option.some.inj hlist).symm
    · rw [Item.tells, if_neg hinside] at hlist
      cases hlist
  obtain ⟨item, hitem, hinside⟩ := hplace
  cases htold : told items place with
  | none =>
    have hnone := List.findSome?_eq_none_iff.mp htold item hitem
    rw [(h item hitem).tells hinside] at hnone
    cases hnone
  | some list =>
    obtain ⟨other, hother, hlist⟩ := List.exists_of_findSome?_eq_some htold
    rw [hsame other hother list hlist]

/-- A list of which some field tells is taken to live there. -/
theorem livesAlong_of_told {items : List Item} {shown list place : Path} (lives : Path)
    (h : told items (shown ++ place) = some list) : livesAlong items shown lives place = list := by
  induction place generalizing shown lives with
  | nil =>
    rw [List.append_nil] at h
    rw [livesAlong, h, Option.getD_some]
  | cons segment place ih =>
    rw [List.append_cons] at h
    cases segment <;> exact ih _ h

/-- When no list is told to live elsewhere than where it is shown, all are taken to live there. -/
theorem livesAlong_self {items : List Item}
    (h : ∀ place list, told items place = some list → list = place) (shown place : Path) :
    livesAlong items shown shown place = shown ++ place := by
  have hhome : ∀ shown, (told items shown).getD shown = shown := by
    intro shown
    cases htold : told items shown with
    | none => rfl
    | some list => exact h shown list htold
  induction place generalizing shown with
  | nil => rw [livesAlong, hhome, List.append_nil]
  | cons segment place ih =>
    cases segment with
    | field name => rw [livesAlong, ih, ← List.append_cons]
    | each => rw [livesAlong, hhome, ih, ← List.append_cons]

/-- A list is taken to live at the same place by fields that tell the same of it and of the lists
around it, or agree on these. -/
theorem livesAlong_congr {items others : List Item} {shown lives place : Path}
    (h : ∀ front, (front = place ∨ front ++ [.each] <+: place) →
      told items (shown ++ front) = told others (shown ++ front) ∨
        livesAlong items shown lives front = livesAlong others shown lives front) :
    livesAlong items shown lives place = livesAlong others shown lives place := by
  induction place generalizing shown lives with
  | nil =>
    rcases h [] (.inl rfl) with htold | hlives
    · rw [List.append_nil] at htold
      rw [livesAlong, livesAlong, htold]
    · exact hlives
  | cons segment place ih =>
    cases segment with
    | field name =>
      refine ih fun front hfront => ?_
      have hstep := h (.field name :: front) (by simpa using hfront)
      rwa [List.append_cons] at hstep
    | each =>
      have hself : (told items shown).getD lives = (told others shown).getD lives := by
        rcases h [] (.inr (by simp)) with htold | hlives
        · rw [List.append_nil] at htold
          rw [htold]
        · exact hlives
      rw [livesAlong, livesAlong, hself]
      refine ih fun front hfront => ?_
      have hstep := h (.each :: front) (by simpa using hfront)
      rwa [List.append_cons, livesAlong, livesAlong, hself] at hstep

/-- When every field tells where the lists around it live, these are taken to live there. -/
theorem livesAt_eq_home {home : Path → Path} {base : Path} {items : List Item}
    (h : ∀ item ∈ items, item.SeenFrom home base) {place : Path}
    (hplace : ∃ item ∈ items, place ++ [.each] <+: item.rest) (start : Path) :
    livesAt items start place = home (base ++ place) :=
  livesAlong_of_told start (told_eq_home h hplace)

/-! ## Fields that are changed where they are shown -/

/-- Fields that are changed where they are shown go the same ways to lists. -/
theorem keyses_map (change : Item → Item) (hrest : ∀ item, (change item).rest = item.rest)
    (items : List Item) : Group.keyses (items.map change) = Group.keyses items := by
  rw [Group.keyses, List.filterMap_map]
  exact congrArg List.eraseDups (List.filterMap_congr fun item _ => by
    rw [Function.comp_apply, hrest])

/-- The fields of a group after a change, given what the change is seen from an element. -/
theorem members_map {change inside : Item → Item} {keys : List String}
    (hmember : ∀ item, (change item).member? keys = (item.member? keys).map inside)
    (items : List Item) : (Group.ofKeys (items.map change) keys).members =
      (Group.ofKeys items keys).members.map inside := by
  rw [Group.members_ofKeys, Group.members_ofKeys, List.filterMap_map, List.map_filterMap]
  exact List.filterMap_congr fun item _ => hmember item

/-! ## What else fields say of their lists does not matter -/

/-- A field that says nothing of its lists. -/
def Item.bare (item : Item) : Item := { item with arrays := [] }

/-- The value of a field does not depend on its lists. -/
theorem wholes_map_bare (config : Config) (scope : Scope) (items : List Item) :
    wholes config scope (items.map Item.bare) = wholes config scope items := by
  rw [wholes, List.filter_map, List.map_map]
  rfl

/-- Nor does the object construction of the fields outside every list. -/
theorem plains_map_bare (config : Config) (scope : Scope) (items : List Item) :
    plains config scope (items.map Item.bare) = plains config scope items := by
  rw [plains, List.filterMap_map]
  rfl

/-- Nor do the ways that fields go to their lists. -/
theorem keyses_map_bare (items : List Item) :
    Group.keyses (items.map Item.bare) = Group.keyses items :=
  keyses_map Item.bare (fun _ => rfl) items

/-- The fields of a group, as they are when all fields say nothing of their lists. -/
theorem members_map_bare (items : List Item) (keys : List String) :
    (Group.ofKeys (items.map Item.bare) keys).members =
      (Group.ofKeys items keys).members.map Item.bare := by
  refine members_map (fun item => ?_) items
  rw [Item.member?, Item.member?, Option.map_map]
  rfl

/-- Fields that differ only in what they say of their lists make the same query as soon as every
list around one of them is taken to live at the same place. -/
theorem emit_congr (config : Config) {items others : List Item} (scope : Scope)
    (hbare : items.map Item.bare = others.map Item.bare)
    (hlives : ∀ place, (∃ item ∈ items, place ++ [.each] <+: item.rest) →
      livesAt items scope.base place = livesAt others scope.base place) :
    emit config scope items = emit config scope others := by
  induction items using induction_members generalizing others scope with
  | step items ih =>
    have hkeyses : Group.keyses items = Group.keyses others := by
      rw [← keyses_map_bare, hbare, keyses_map_bare]
    rw [emit_eq_livesAt, emit_eq_livesAt, ← wholes_map_bare, ← plains_map_bare, hbare,
      wholes_map_bare, plains_map_bare, ← hkeyses]
    congr 2
    refine List.map_congr_left fun keys hkeys => ?_
    have hway := Group.mem_keyses.mp hkeys
    have hhome : livesAt items scope.base (keys.map .field) =
        livesAt others scope.base (keys.map .field) := by
      obtain ⟨item, hitem, inside, hrest⟩ := hway
      exact hlives _ ⟨item, hitem, inside, hrest.symm⟩
    have hmembers : (Group.ofKeys items keys).members.map Item.bare =
        (Group.ofKeys others keys).members.map Item.bare := by
      rw [← members_map_bare, hbare, members_map_bare]
    have hinside := ih keys hway (.element (livesAt items scope.base (keys.map .field) ++ [.each]))
      hmembers ?_
    · rw [listQuery, listQuery, hinside, hhome]
    · rintro place ⟨member, hmember, hplace⟩
      obtain ⟨item, hitem, hrest, -⟩ := Group.mem_members_ofKeys.mp hmember
      have hdeeper := hlives (elementsAt keys ++ place) ⟨item, hitem, by
        rw [hrest, List.append_assoc]
        exact (List.prefix_append_right_inj _).mpr hplace⟩
      rw [base_element, livesAt_members, hhome, livesAt_members, hdeeper]

end Projector.Synthesis
