import Projector.Address.Path

/-!
# Grouping fields by their list

Fields that are shown inside lists are grouped by the outermost list on their way. Seen from an
element of that list their paths are shorter, which is why going into lists again and again ends.
-/

namespace Projector.Synthesis

/-- A selected field as seen from inside some lists. -/
structure Item where
  /-- The rest of the path it is shown at. -/
  rest : Path
  /-- The path in the document at which its value lives. -/
  source : Path
  /-- Its place among all selected fields. -/
  order : Int
  /-- Where the lists on the rest of the path live, from the outside in. -/
  arrays : List Path

/-- The keys in front of the first list on a path, and the path inside its elements. -/
def splitEach? : Path → Option (List String × Path)
  | [] => none
  | .each :: rest => some ([], rest)
  | .field name :: rest => (splitEach? rest).map fun (keys, inside) => (name :: keys, inside)

/-- The path of the elements of a list that some keys lead to. -/
def elementsAt (keys : List String) : Path := keys.map Segment.field ++ [.each]

/-- A split takes the path apart at its first list. -/
theorem splitEach?_eq_some {path inside : Path} {keys : List String}
    (h : splitEach? path = some (keys, inside)) : path = elementsAt keys ++ inside := by
  induction path generalizing keys with
  | nil => simp [splitEach?] at h
  | cons segment rest ih =>
      cases segment with
      | each =>
          simp only [splitEach?, Option.some.injEq, Prod.mk.injEq] at h
          simp [elementsAt, ← h.1, h.2]
      | field name =>
          simp only [splitEach?, Option.map_eq_some_iff, Prod.mk.injEq] at h
          obtain ⟨⟨front, found⟩, split, rfl, rfl⟩ := h
          simp [elementsAt, ih split]

/-- A field placed at its outermost list. -/
structure Placed where
  /-- The keys on the way to the list. -/
  keys : List String
  /-- Where the list lives, if the field tells. -/
  list? : Option Path
  /-- The field as seen from an element. -/
  member : Item

/-- Places a field that is shown inside a list. -/
def Item.placed? (item : Item) : Option Placed :=
  (splitEach? item.rest).map fun (keys, inside) =>
    { keys
      list? := item.arrays.head?
      member := { item with rest := inside, arrays := item.arrays.drop 1 } }

/-- The fields inside one list. -/
structure Group where
  /-- The keys on the way to the list. -/
  keys : List String
  /-- Where the list lives, if one of the fields tells. -/
  list? : Option Path
  /-- The fields as seen from an element. -/
  members : List Item

/-- Puts a field with the others of its list, or behind all groups if it is the first of its
list. -/
def Group.enter (groups : List Group) (placed : Placed) : List Group :=
  match groups with
  | [] => [{ keys := placed.keys, list? := placed.list?, members := [placed.member] }]
  | group :: rest =>
    if group.keys = placed.keys then
      { group with
        list? := group.list? <|> placed.list?
        members := group.members ++ [placed.member] } :: rest
    else group :: enter rest placed

/-- The groups of the fields that are shown inside lists, in the order of their first fields. -/
def Group.ofItems (items : List Item) : List Group :=
  (items.filterMap Item.placed?).foldl enter []

/-- What holds of the placed field and of all fields grouped before holds of all grouped fields. -/
theorem Group.forall_enter {property : Item → Prop} {groups : List Group} {placed : Placed}
    (new : property placed.member) (old : ∀ group ∈ groups, ∀ item ∈ group.members, property item) :
    ∀ group ∈ enter groups placed, ∀ item ∈ group.members, property item := by
  induction groups with
  | nil => simpa [enter] using new
  | cons first rest ih =>
      have inFirst := old first (by simp)
      have inRest := fun group (h : group ∈ rest) => old group (by simp [h])
      intro group member item
      simp only [enter] at member
      split at member
      · rcases List.mem_cons.mp member with rfl | member
        · simp only [List.mem_append, List.mem_singleton]
          rintro (h | rfl)
          · exact inFirst item h
          · exact new
        · exact inRest group member item
      · rcases List.mem_cons.mp member with rfl | member
        · exact inFirst item
        · exact ih inRest group member item

/-- What holds of every placed field holds of every grouped field. -/
theorem Group.forall_ofItems {property : Item → Prop} {items : List Item}
    (each : ∀ item ∈ items, ∀ placed, item.placed? = some placed → property placed.member) :
    ∀ group ∈ ofItems items, ∀ item ∈ group.members, property item := by
  have all : ∀ placed ∈ items.filterMap Item.placed?, property placed.member := by
    intro placed member
    obtain ⟨item, hitem, hplaced⟩ := List.mem_filterMap.mp member
    exact each item hitem placed hplaced
  unfold ofItems
  generalize items.filterMap Item.placed? = pending at all
  have go : ∀ groups : List Group,
      (∀ group ∈ groups, ∀ item ∈ group.members, property item) →
      ∀ group ∈ pending.foldl enter groups, ∀ item ∈ group.members, property item := by
    induction pending with
    | nil => exact fun groups old => old
    | cons placed rest ih =>
        intro groups old
        rw [List.foldl_cons]
        exact ih (fun other h => all other (by simp [h])) _
          (forall_enter (all placed (by simp)) old)
  exact go [] (by simp)

/-- One more than the length of the longest rest of a path among some fields, if there are any. -/
def height (items : List Item) : Nat :=
  items.foldr (fun item others => max (item.rest.length + 1) others) 0

/-- Every rest of a path is shorter than the fields are high. -/
theorem length_lt_height {items : List Item} {item : Item} (member : item ∈ items) :
    item.rest.length < height items := by
  induction items with
  | nil => simp at member
  | cons first rest ih =>
      simp only [height, List.foldr_cons] at ih ⊢
      rcases List.mem_cons.mp member with rfl | h
      · exact Nat.lt_of_lt_of_le (Nat.lt_succ_self _) (Nat.le_max_left _ _)
      · exact Nat.lt_of_lt_of_le (ih h) (Nat.le_max_right _ _)

/-- Fields whose rests of paths are all short are not high. -/
theorem height_lt {items : List Item} {bound : Nat} (positive : 0 < bound)
    (short : ∀ item ∈ items, item.rest.length + 1 < bound) : height items < bound := by
  induction items with
  | nil => simpa [height] using positive
  | cons first rest ih =>
      simp only [height, List.foldr_cons] at ih ⊢
      exact Nat.max_lt.mpr ⟨short first (by simp), ih fun item h => short item (by simp [h])⟩

/-- Seen from the elements of their list the fields of a group are less high. -/
theorem Group.height_members_lt {items : List Item} {group : Group}
    (member : group ∈ ofItems items) : height group.members < height items := by
  have short : ∀ item ∈ group.members, item.rest.length + 1 < height items := by
    suffices each : ∀ item ∈ items, ∀ placed, item.placed? = some placed →
        placed.member.rest.length + 1 < height items from forall_ofItems each group member
    intro item hitem placed hplaced
    simp only [Item.placed?, Option.map_eq_some_iff] at hplaced
    obtain ⟨⟨keys, inside⟩, split, rfl⟩ := hplaced
    have below := length_lt_height hitem
    rw [splitEach?_eq_some split] at below
    simp only [elementsAt, List.length_append, List.length_singleton] at below
    dsimp only
    omega
  refine height_lt ?_ short
  cases items with
  | nil => simp [ofItems] at member
  | cons first rest => exact Nat.lt_of_le_of_lt (Nat.zero_le _) (length_lt_height List.mem_cons_self)

end Projector.Synthesis
