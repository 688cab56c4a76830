import Projector.Proofs.Listings

/-!
# What a query is made of

Fields that tell where they and their lists live become a product of three kinds of pieces: the
fields shown at the scope itself, one object construction of the fields outside every list, and one
piece for each way to an outermost list, which runs through the elements of where this list lives
and does the same with the fields inside.
-/

namespace Projector.Synthesis

/-- Fields as they are seen from a place: each tells where it and its lists live, and none is shown
inside another. -/
structure Shown (home : Path → Path) (base : Path) (items : List Item) : Prop where
  seen : ∀ item ∈ items, item.SeenFrom home base
  apart : ∀ item ∈ items, ∀ other ∈ items, item.rest <+: other.rest → item.rest = other.rest

namespace Shown

variable {home : Path → Path} {base : Path} {items : List Item} (h : Shown home base items)

include h

/-- The fields of a group are seen from the elements of its list. -/
theorem members (keys : List String) :
    Shown home (base ++ elementsAt keys) (Group.ofKeys items keys).members where
  seen := Group.seenFrom_members h.seen
  apart := by
    intro member hmember other hother hleads
    obtain ⟨item, hitem, hrest, -⟩ := Group.mem_members_ofKeys.mp hmember
    obtain ⟨twin, htwin, htwinRest, -⟩ := Group.mem_members_ofKeys.mp hother
    have hsame := h.apart item hitem twin htwin (by
      rw [hrest, htwinRest]
      exact List.prefix_append_right_inj _ |>.mpr hleads)
    rwa [hrest, htwinRest, List.append_cancel_left_eq] at hsame

/-- A field that is shown at the place itself is the only one, when no two are shown at the same
place. -/
theorem eq_singleton (hnodup : (items.map Item.rest).Nodup) {item : Item} (hitem : item ∈ items)
    (hrest : item.rest = []) : items = [item] := by
  refine List.perm_singleton.mp ((List.perm_ext_iff_of_nodup hnodup.of_map
    (List.nodup_singleton item)).mpr fun other => ?_)
  rw [List.mem_singleton]
  constructor
  · intro hother
    refine List.inj_on_of_nodup_map hnodup hother hitem ?_
    exact (h.apart item hitem other hother (by rw [hrest]; exact List.nil_prefix)).symm
  · rintro rfl
    exact hitem

/-- Fields shown at the same place have the same value. -/
theorem value_eq (config : Config) (scope : Scope) {item other : Item} (hitem : item ∈ items)
    (hother : other ∈ items) (hrest : item.rest = other.rest) :
    item.value config scope = other.value config scope := by
  rw [Item.value, Item.value, (h.seen item hitem).source, (h.seen other hother).source, hrest]

end Shown

/-- The path from which a scope reads. -/
def Scope.base : Scope → Path
  | .document => []
  | .element base => base

/-- An element is read from the path of the elements of its list. -/
theorem base_element (base : Path) : (Scope.element base).base = base := rfl

/-- Where the list of a group is taken to live: where one of its fields says, and otherwise at the
same keys from where the scope is read. -/
def Group.home (scope : Scope) (group : Group) : Path :=
  group.list?.getD (scope.base ++ group.keys.map .field)

/-- A group runs through the elements of where its list is taken to live. -/
theorem Group.base_eq (scope : Scope) (group : Group) :
    group.base scope = group.home scope ++ [.each] := by
  unfold base home
  cases group.list? with
  | some list => rfl
  | none => cases scope <;> simp [Scope.base, elementsAt]

/-- The query of the fields inside a list: it runs through the elements of where the list lives and
makes of each what the fields are inside it. -/
def listQuery (config : Config) (scope : Scope) (keys : List String) (list : Path)
    (members : List Item) : Query :=
  wrap keys (.collect (.pipe (locate config scope (elementsAt keys) (list ++ [.each]))
    (emit config (.element (list ++ [.each])) members)))

/-- Fields become the product of their pieces, with one for each way to an outermost list. -/
theorem emit_eq_lists (config : Config) (scope : Scope) (items : List Item) :
    emit config scope items = .product (wholes config scope items ++ plains config scope items ++
      (Group.keyses items).map fun keys => listQuery config scope keys
        ((Group.ofKeys items keys).home scope) (Group.ofKeys items keys).members) := by
  have hlists : ((Group.ofItems items).map fun group =>
      listQuery config scope group.keys (group.home scope) group.members) =
        (Group.keyses items).map fun keys => listQuery config scope keys
          ((Group.ofKeys items keys).home scope) (Group.ofKeys items keys).members := by
    rw [Group.ofItems_eq, List.map_map]
    rfl
  rw [emit, ← hlists, ← List.attach_map_val (l := Group.ofItems items)]
  congr 2
  refine List.map_congr_left ?_
  rintro ⟨group, hgroup⟩ -
  simp only [Group.base_eq, listQuery]

/-- Fields that tell of their lists become the product of their pieces, with one for each way to an
outermost list. -/
theorem emit_eq (config : Config) (scope : Scope) {home : Path → Path} {base : Path}
    {items : List Item} (h : Shown home base items) :
    emit config scope items = .product (wholes config scope items ++ plains config scope items ++
      (Group.keyses items).map fun keys => listQuery config scope keys
        (home (base ++ keys.map .field)) (Group.ofKeys items keys).members) := by
  rw [emit_eq_lists]
  congr 2
  refine List.map_congr_left fun keys hkeys => ?_
  rw [Group.home, Group.list?_ofKeys h.seen (Group.mem_keyses.mp hkeys), Option.getD_some]

/-- Fields shown below the scope become the product of an object construction, if there is one, and
the pieces for the ways to lists. -/
theorem emit_of_below (config : Config) (scope : Scope) {home : Path → Path} {base : Path}
    {items : List Item} (h : Shown home base items) (hbelow : ∀ item ∈ items, item.rest ≠ []) :
    emit config scope items = .product (plains config scope items ++
      (Group.keyses items).map fun keys => listQuery config scope keys
        (home (base ++ keys.map .field)) (Group.ofKeys items keys).members) := by
  have hwholes : wholes config scope items = [] := by
    rw [wholes, List.map_eq_nil_iff, List.filter_eq_nil_iff]
    exact fun item hitem hrest => hbelow item hitem (List.isEmpty_iff.mp hrest)
  rw [emit_eq config scope h, hwholes, List.nil_append]

/-! ## Plain fields -/

/-- The fields shown below the scope and outside every list, by their key paths. -/
def plainLeaves (config : Config) (scope : Scope) (items : List Item) : Leaves Query :=
  fun path value => ∃ item ∈ items, item.rest = path.map .field ∧ path ≠ [] ∧
    value = item.value config scope

/-- A plain field has its key path, its value and its order. -/
theorem plain?_eq {config : Config} {scope : Scope} {item : Item} {key : String}
    {below : List String} (hrest : item.rest = (key :: below).map .field) :
    item.plain? config scope =
      some { key, below, value := item.value config scope, order := item.order } := by
  have heach : Path.hasEach item.rest = false := by rw [hrest, hasEach_map_field]
  have hnames : Path.names item.rest = key :: below := by rw [hrest, names_map_field]
  rw [Item.plain?, heach, hnames]
  rfl

/-- Every plain field is shown at its key path. -/
theorem rest_of_plain? {config : Config} {scope : Scope} {item : Item} {field : Trie.Item Query}
    (hfield : item.plain? config scope = some field) :
    item.rest = field.path.map .field ∧ field.value = item.value config scope := by
  unfold Item.plain? at hfield
  split at hfield
  · cases hfield
  · rename_i heach
    have hfields := eq_map_field_of_not_hasEach (by simpa using heach)
    cases hnames : Path.names item.rest with
    | nil =>
      rw [hnames] at hfield
      cases hfield
    | cons key below =>
      rw [hnames] at hfield hfields
      obtain rfl := Option.some.inj hfield
      exact ⟨hfields, rfl⟩

/-- The fields of the object construction are those shown outside every list. -/
theorem leavesOf_plain (config : Config) (scope : Scope) (items : List Item) :
    Trie.leavesOf (items.filterMap (Item.plain? config scope)) =
      plainLeaves config scope items := by
  funext path value
  refine propext ⟨?_, ?_⟩
  · rintro ⟨field, hfield, rfl, rfl⟩
    obtain ⟨item, hitem, hplain⟩ := List.mem_filterMap.mp hfield
    obtain ⟨hrest, hvalue⟩ := rest_of_plain? hplain
    exact ⟨item, hitem, hrest, by simp [Trie.Item.path], hvalue⟩
  · rintro ⟨item, hitem, hrest, hne, rfl⟩
    cases path with
    | nil => exact absurd rfl hne
    | cons key below =>
      exact ⟨_, List.mem_filterMap.mpr ⟨item, hitem, plain?_eq hrest⟩, rfl, rfl⟩

/-- What the value of every field holds, and an object construction as soon as its values do, the
object construction of the plain fields holds. -/
theorem forall_plains {property : Query → Prop} {config : Config} {scope : Scope}
    {items : List Item}
    (hobject : ∀ entries, (∀ entry ∈ entries, property entry.2) → property (.object entries))
    (hvalue : ∀ item ∈ items, property (item.value config scope)) :
    ∀ piece ∈ plains config scope items, property piece := by
  intro piece hpiece
  unfold plains at hpiece
  split at hpiece
  · cases hpiece
  · obtain rfl := List.mem_singleton.mp hpiece
    refine Trie.fold_of_forall hobject _ (Trie.forall_listingBelow_ofItems fun field hfield => ?_)
    obtain ⟨item, hitem, hplain⟩ := List.mem_filterMap.mp hfield
    exact (rest_of_plain? hplain).2 ▸ hvalue item hitem

/-- Key paths are apart when paths along them are not one inside the other. -/
theorem prefix_map_field {path other : List String} :
    path.map Segment.field <+: other.map Segment.field ↔ path <+: other := by
  refine ⟨fun h => ?_, fun h => h.map _⟩
  have hnames := h.filterMap Segment.name?
  simpa [List.filterMap_map, Function.comp_def, Segment.name?] using hnames

/-- There is no object construction when no field is shown outside every list, and otherwise it is
folded from a trie of exactly these fields. -/
theorem plains_cases (config : Config) (scope : Scope) {home : Path → Path} {base : Path}
    {items : List Item} (h : Shown home base items) :
    (plains config scope items = [] ∧ ∀ path value, ¬plainLeaves config scope items path value) ∨
      ∃ order children, plains config scope items =
          [Trie.fold .object id config.compressPaths children] ∧
        (Trie.branch order children).Spans (plainLeaves config scope items) ∧
        ∃ path value, plainLeaves config scope items path value := by
  have hcompatible : ∀ field ∈ items.filterMap (Item.plain? config scope),
      ∀ other ∈ items.filterMap (Item.plain? config scope), field.Compatible other := by
    intro field hfield other hother
    obtain ⟨item, hitem, hplain⟩ := List.mem_filterMap.mp hfield
    obtain ⟨twin, htwin, hplain'⟩ := List.mem_filterMap.mp hother
    obtain ⟨hrest, hvalue⟩ := rest_of_plain? hplain
    obtain ⟨hrest', hvalue'⟩ := rest_of_plain? hplain'
    by_cases hsame : item.rest = twin.rest
    · left
      refine ⟨?_, by rw [hvalue, hvalue', h.value_eq config scope hitem htwin hsame]⟩
      have hnames := congrArg Path.names hsame
      rwa [hrest, hrest', names_map_field, names_map_field] at hnames
    · right
      refine ⟨fun hleads => hsame (h.apart item hitem twin htwin ?_),
        fun hleads => hsame (h.apart twin htwin item hitem ?_).symm⟩
      · rw [hrest, hrest']
        exact prefix_map_field.mpr hleads
      · rw [hrest, hrest']
        exact prefix_map_field.mpr hleads
  have hspans := Trie.spans_ofItems hcompatible
  rw [leavesOf_plain] at hspans
  unfold plains
  split
  · rename_i hnone
    left
    refine ⟨rfl, fun path value hleaf => ?_⟩
    rw [← leavesOf_plain, hnone] at hleaf
    simp [Trie.leavesOf] at hleaf
  · rename_i hsome
    right
    refine ⟨_, _, rfl, hspans, ?_⟩
    obtain ⟨field, hfield⟩ := List.exists_mem_of_ne_nil _ hsome
    exact ⟨field.path, field.value, by rw [← leavesOf_plain]; exact ⟨field, hfield, rfl, rfl⟩⟩

end Projector.Synthesis
