import Projector.Proofs.Covers
import Projector.Proofs.FoldedSites

/-!
# How the fields of a scope are arranged

The fields of an outline are numbered as the outline shows them: those that share a front of their
paths come one after the other, and no front leads both to fields and to the elements of a list.
The same holds of the fields inside a list, as seen from its elements. So the ways to lists are
ordered like the fields that go them, and the fields outside every list form a trie that lists them
in their order.
-/

namespace Projector

/-- Some of the paths share their fronts as all of them do. -/
theorem Gathered.sublist {α : Type} {paths others : List (List α)} (h : Gathered paths)
    (hothers : others.Sublist paths) : Gathered others := by
  induction hothers with
  | slnil => exact h
  | cons path _ ih => exact ih (List.triplewise_cons.mp h).2
  | cons_cons path hothers ih =>
    obtain ⟨hfirst, hrest⟩ := List.triplewise_cons.mp h
    exact List.triplewise_cons.mpr ⟨hfirst.sublist hothers, ih hrest⟩

namespace Synthesis

/-- A path to the elements of a list goes to them by one way. -/
theorem keys_of_leads {path : Path} {keys : List String} (h : elementsAt keys <+: path) :
    (splitEach? path).map Prod.fst = some keys := by
  obtain ⟨inside, rfl⟩ := h
  rw [splitEach?_eq_some_iff.mpr rfl]
  rfl

/-- Two ways to the first list on a path are the same. -/
theorem eq_of_leads {path : Path} {keys others : List String} (h : elementsAt keys <+: path)
    (h' : elementsAt others <+: path) : keys = others :=
  Option.some_inj.mp ((keys_of_leads h).symm.trans (keys_of_leads h'))

/-- A way goes through lists when one of its parts does. -/
theorem hasEach_append (path rest : Path) :
    Path.hasEach (path ++ rest) = (Path.hasEach path || Path.hasEach rest) :=
  List.any_append

/-- A field that goes a way to a list, as seen from an element of the list. -/
def Item.member? (keys : List String) (item : Item) : Option Item :=
  (following? (elementsAt keys) item.rest).map fun inside =>
    { item with rest := inside, arrays := item.arrays.drop 1 }

/-- What a field seen from an element comes from. -/
theorem Item.member?_eq_some_iff {keys : List String} {item member : Item} :
    item.member? keys = some member ↔ item.rest = elementsAt keys ++ member.rest ∧
      member = { item with rest := member.rest, arrays := item.arrays.drop 1 } := by
  simp only [member?, Option.map_eq_some_iff, following?_eq_some_iff]
  constructor
  · rintro ⟨inside, hrest, rfl⟩
    exact ⟨hrest, rfl⟩
  · rintro ⟨hrest, hmember⟩
    exact ⟨member.rest, hrest, hmember.symm⟩

/-- The fields of a group are those that go its way, in their order. -/
theorem Group.members_ofKeys (items : List Item) (keys : List String) :
    (ofKeys items keys).members = items.filterMap (Item.member? keys) := by
  rw [ofKeys, gather, ← List.filterMap_eq_map, ← List.filterMap_eq_filter, List.filterMap_filterMap,
    List.filterMap_filterMap]
  refine List.filterMap_congr fun item _ => Option.ext fun member => ?_
  simp only [Item.member?_eq_some_iff, Option.bind_eq_some_iff, Item.placed?_eq_some_iff,
    Option.guard_eq_some_iff, decide_eq_true_eq, Function.comp_apply, Option.some.injEq]
  constructor
  · rintro ⟨_, ⟨placed, ⟨inside, hrest, -, hmember⟩, rfl, rfl⟩, rfl⟩
    rw [hmember]
    exact ⟨hrest, rfl⟩
  · rintro ⟨hrest, hmember⟩
    exact ⟨_, ⟨⟨keys, item.arrays.head?, member⟩, ⟨member.rest, hrest, rfl, hmember⟩, rfl, rfl⟩,
      rfl⟩

/-- Fields that are numbered in the order in which an outline shows them. -/
structure Laid (home : Path → Path) (base : Path) (items : List Item) : Prop
    extends Shown home base items where
  nodup : (items.map Item.rest).Nodup
  ascending : items.Pairwise fun item other => item.order < other.order
  gathered : Gathered (items.map Item.rest)
  kinds : ∀ item ∈ items, ∀ other ∈ items, ∀ (front : Path) (name : String),
    front ++ [.each] <+: item.rest → ¬front ++ [.field name] <+: other.rest

namespace Laid

variable {home : Path → Path} {base : Path} {items : List Item} (h : Laid home base items)

include h

/-- The fields of a group are numbered in the order in which the elements of the list show them. -/
theorem members (keys : List String) :
    Laid home (base ++ elementsAt keys) (Group.ofKeys items keys).members := by
  have hplaces := Group.rests_sublist items keys
  refine ⟨h.toShown.members keys, (hplaces.nodup h.nodup).of_map, ?_, ?_, ?_⟩
  · rw [Group.members_ofKeys]
    refine List.pairwise_filterMap.mpr (h.ascending.imp ?_)
    intro item other hlt member hmember twin htwin
    rw [(Item.member?_eq_some_iff.mp hmember).2, (Item.member?_eq_some_iff.mp htwin).2]
    exact hlt
  · refine (List.triplewise_map.mp (h.gathered.sublist hplaces)).imp ?_
    intro path between other hfronts front hpath hother
    have hfront := hfronts (elementsAt keys ++ front)
      ((List.prefix_append_right_inj _).mpr hpath) ((List.prefix_append_right_inj _).mpr hother)
    exact (List.prefix_append_right_inj _).mp hfront
  · intro member hmember twin htwin front name heach hfield
    obtain ⟨item, hitem, hrest, -⟩ := Group.mem_members_ofKeys.mp hmember
    obtain ⟨other, hother, hotherRest, -⟩ := Group.mem_members_ofKeys.mp htwin
    refine h.kinds item hitem other hother (elementsAt keys ++ front) name ?_ ?_
    · rw [hrest, List.append_assoc]
      exact (List.prefix_append_right_inj _).mpr heach
    · rw [hotherRest, List.append_assoc]
      exact (List.prefix_append_right_inj _).mpr hfield

/-- Fields of which one is numbered before the other stand in this order. -/
theorem getElem_lt {index index' : Nat} (hindex : index < items.length)
    (hindex' : index' < items.length) (hlt : items[index].order < items[index'].order) :
    index < index' := by
  by_contra hle
  rcases Nat.lt_or_eq_of_le (Nat.not_lt.mp hle) with hless | rfl
  · have hgreater := List.pairwise_iff_getElem.mp h.ascending index' index hindex' hindex hless
    omega
  · omega

/-- A front that two fields share is shared by the fields numbered between them. -/
theorem shared {item between other : Item} (hitem : item ∈ items) (hbetween : between ∈ items)
    (hother : other ∈ items) (hlt : item.order < between.order)
    (hlt' : between.order < other.order) {front : Path} (hfront : front <+: item.rest)
    (hfront' : front <+: other.rest) : front <+: between.rest := by
  obtain ⟨i, hi, rfl⟩ := List.getElem_of_mem hitem
  obtain ⟨j, hj, rfl⟩ := List.getElem_of_mem hbetween
  obtain ⟨k, hk, rfl⟩ := List.getElem_of_mem hother
  have hgathered := List.triplewise_iff_getElem.mp (List.triplewise_map.mp h.gathered) i j k
    (h.getElem_lt hi hj hlt) (h.getElem_lt hj hk hlt') hk
  exact hgathered front hfront hfront'

/-- The ways to lists are in the order of all fields that go them. -/
theorem pairwise_keyses : (Group.keyses items).Pairwise fun keys others =>
    ∀ item ∈ items, ∀ other ∈ items, elementsAt keys <+: item.rest →
      elementsAt others <+: other.rest → item.order < other.order := by
  have hfirst := pairwise_eraseDups_filterMap h.ascending fun item =>
    (splitEach? item.rest).map Prod.fst
  refine (hfirst.and (nodup_eraseDups _)).imp ?_
  rintro keys others ⟨⟨first, hmem, hkeys, hbefore⟩, hne⟩ item hitem other hother hlead hlead'
  have hfirstOther := hbefore other hother (keys_of_leads hlead')
  by_contra hle
  have hdiffer : other.order ≠ item.order := by
    intro heq
    have hindex := List.inj_on_of_nodup_map (List.pairwise_map.mpr
      (h.ascending.imp fun {a b} hlt => (ne_of_lt hlt : a.order ≠ b.order))) hother hitem heq
    rw [hindex] at hlead'
    exact hne (eq_of_leads hlead hlead')
  have hleadFirst : elementsAt keys <+: first.rest := by
    obtain ⟨⟨_, inside⟩, hsplit, rfl⟩ := Option.map_eq_some_iff.mp hkeys
    exact ⟨inside, (splitEach?_eq_some hsplit).symm⟩
  have hshared := h.shared hmem hother hitem hfirstOther (by omega) hleadFirst hlead
  exact hne (eq_of_leads hshared hlead')

/-- A field is shown at the scope itself, alone, or all are shown below the scope. -/
theorem whole_or_below :
    (∃ item, items = [item] ∧ item.rest = []) ∨ ∀ item ∈ items, item.rest ≠ [] := by
  by_cases hwhole : ∃ item ∈ items, item.rest = []
  · obtain ⟨item, hitem, hrest⟩ := hwhole
    exact .inl ⟨item, h.eq_singleton h.nodup hitem hrest, hrest⟩
  · exact .inr fun item hitem hrest => hwhole ⟨item, hitem, hrest⟩

/-- The keys to a list are not in front of other keys to a list. -/
theorem apart_keyses {keys others : List String} (hkeys : keys ∈ Group.keyses items)
    (hothers : others ∈ Group.keyses items) (hne : keys ≠ others) : ¬keys <+: others := by
  rintro ⟨more, rfl⟩
  obtain ⟨item, hitem, inside, hrest⟩ := Group.mem_keyses.mp hkeys
  obtain ⟨other, hother, rest, hotherRest⟩ := Group.mem_keyses.mp hothers
  cases more with
  | nil => exact hne (List.append_nil keys).symm
  | cons key more =>
    refine h.kinds item hitem other hother (keys.map .field) key ?_ ?_
    · rw [hrest]
      exact List.prefix_append _ _
    · rw [hotherRest]
      simp [elementsAt]

/-- The ways to lists are apart from each other. -/
theorem pairwise_apart_keyses : (Group.keyses items).Pairwise Leaves.Apart :=
  (nodup_eraseDups _).imp_of_mem fun hkeys hothers hne =>
    ⟨h.apart_keyses hkeys hothers hne, h.apart_keyses hothers hkeys hne.symm⟩

/-- The names of a field outside every list and the keys to a list are not in front of each
other. -/
theorem apart_outside {item : Item} (hitem : item ∈ items) {names keys : List String}
    (hrest : item.rest = names.map .field) (hkeys : keys ∈ Group.keyses items) :
    Leaves.Apart names keys := by
  obtain ⟨other, hother, inside, hotherRest⟩ := Group.mem_keyses.mp hkeys
  have hnames : ¬names <+: keys := by
    intro hleads
    have hlead : item.rest <+: other.rest := by
      rw [hrest, hotherRest, elementsAt, List.append_assoc]
      exact (prefix_map_field.mpr hleads).trans (List.prefix_append _ _)
    have heach := congrArg Path.hasEach (h.apart item hitem other hother hlead)
    rw [hrest, hotherRest, hasEach_map_field, hasEach_append] at heach
    simp [elementsAt, Path.hasEach, Segment.isEach] at heach
  refine ⟨hnames, ?_⟩
  rintro ⟨more, rfl⟩
  cases more with
  | nil => exact hnames (by rw [List.append_nil])
  | cons key more =>
    refine h.kinds other hother item hitem (keys.map .field) key ?_ ?_
    · rw [hotherRest]
      exact List.prefix_append _ _
    · rw [hrest]
      simp

end Laid

/-! ## Fields outside every list -/

/-- A plain field as a field of the object construction. -/
def Item.field (config : Config) (scope : Scope) (item : Item) : Trie.Item Query :=
  { key := (Path.names item.rest).headD "", below := (Path.names item.rest).tail
    value := item.value config scope, order := item.order }

/-- The path of a plain field. -/
theorem Item.path_field (config : Config) (scope : Scope) {item : Item} (hne : item.rest ≠ [])
    (heach : Path.hasEach item.rest = false) :
    (item.field config scope).path.map .field = item.rest := by
  have hfields := eq_map_field_of_not_hasEach heach
  cases hnames : Path.names item.rest with
  | nil =>
    rw [hnames] at hfields
    exact absurd hfields hne
  | cons key below =>
    rw [hnames] at hfields
    simp only [Trie.Item.path, Item.field, hnames, List.headD_cons, List.tail_cons]
    exact hfields.symm

/-- The fields of a scope that are shown outside every list. -/
def outside (items : List Item) : List Item := items.filter fun item => !Path.hasEach item.rest

/-- What it takes to be outside every list. -/
theorem mem_outside {items : List Item} {item : Item} :
    item ∈ outside items ↔ item ∈ items ∧ Path.hasEach item.rest = false := by
  simp [outside]

/-- The path of a field outside every list. -/
theorem Item.path_of_mem_outside (config : Config) (scope : Scope) {items : List Item}
    (hbelow : ∀ item ∈ items, item.rest ≠ []) {item : Item} (hitem : item ∈ outside items) :
    (item.field config scope).path.map .field = item.rest :=
  path_field config scope (hbelow item (mem_outside.mp hitem).1) (mem_outside.mp hitem).2

/-- The paths of the fields outside every list are the paths that are names only. -/
theorem exists_path_field_iff (config : Config) (scope : Scope) {items : List Item}
    (hbelow : ∀ item ∈ items, item.rest ≠ []) {names : List String} :
    (∃ item ∈ outside items, (item.field config scope).path = names) ↔
      ∃ item ∈ items, item.rest = names.map .field := by
  constructor
  · rintro ⟨item, hitem, rfl⟩
    exact ⟨item, (mem_outside.mp hitem).1,
      (Item.path_of_mem_outside config scope hbelow hitem).symm⟩
  · rintro ⟨item, hitem, hrest⟩
    have houtside := mem_outside.mpr ⟨hitem, by rw [hrest, hasEach_map_field]⟩
    have hpath := Item.path_of_mem_outside config scope hbelow houtside
    refine ⟨item, houtside, ?_⟩
    rw [← names_map_field (Trie.Item.path _), hpath, hrest, names_map_field]

/-- The fields of the object construction are those outside every list. -/
theorem filterMap_plain? (config : Config) (scope : Scope) {items : List Item}
    (hbelow : ∀ item ∈ items, item.rest ≠ []) :
    items.filterMap (Item.plain? config scope) =
      (outside items).map (Item.field config scope) := by
  rw [outside, ← List.filterMap_eq_map, ← List.filterMap_eq_filter, List.filterMap_filterMap]
  refine List.filterMap_congr fun item hitem => ?_
  cases heach : Path.hasEach item.rest with
  | true => simp [Item.plain?, heach, Option.guard]
  | false =>
    have hpath := Item.path_field config scope (hbelow item hitem) heach
    rw [plain?_eq hpath.symm]
    simp [heach, Item.field, Option.guard]

/-- Without fields outside every list there is no object construction. -/
theorem plains_of_outside_eq_nil (config : Config) (scope : Scope) {items : List Item}
    (hbelow : ∀ item ∈ items, item.rest ≠ []) (hnone : outside items = []) :
    plains config scope items = [] := by
  rw [plains, filterMap_plain? config scope hbelow, hnone]
  rfl

/-- The object construction of the fields outside every list is folded from their trie. -/
theorem plains_of_outside_ne_nil (config : Config) (scope : Scope) {items : List Item}
    (hbelow : ∀ item ∈ items, item.rest ≠ []) (hsome : outside items ≠ []) :
    plains config scope items = [Trie.fold .object id config.compressPaths
      (Trie.ofItems ((outside items).map (Item.field config scope))).children] := by
  rw [plains, filterMap_plain? config scope hbelow]
  split
  · rename_i hempty
    exact absurd (List.map_eq_nil_iff.mp hempty) hsome
  · rfl

/-- The trie of the fields outside every list lists them in their order. -/
theorem Laid.tidy_outside {home : Path → Path} {base : Path} {items : List Item}
    (h : Laid home base items) (config : Config) (scope : Scope)
    (hbelow : ∀ item ∈ items, item.rest ≠ []) :
    Trie.TidyBelow (Trie.ofItems ((outside items).map (Item.field config scope))).children ∧
      Trie.listingBelow (Trie.ofItems ((outside items).map (Item.field config scope))).children =
        ((outside items).map (Item.field config scope)).map Trie.Item.leaf := by
  have hpath : ∀ item ∈ outside items, (item.field config scope).path.map .field = item.rest :=
    fun _ => Item.path_of_mem_outside config scope hbelow
  have hsublist : (outside items).Sublist items := List.filter_sublist
  refine Trie.tidy_ofItems (List.pairwise_map.mpr (h.ascending.sublist hsublist)) ?_ ?_
  · have hapart : ∀ {item other : Item}, item ∈ outside items → other ∈ outside items →
        item.rest ≠ other.rest →
          ¬(item.field config scope).path <+: (other.field config scope).path := by
      intro item other hitem hother hne hleads
      rw [← prefix_map_field, hpath item hitem, hpath other hother] at hleads
      exact hne (h.apart item (mem_outside.mp hitem).1 other (mem_outside.mp hother).1 hleads)
    have hdiffer := (List.pairwise_map.mp h.nodup).sublist hsublist
    refine List.pairwise_map.mpr (hdiffer.imp_of_mem ?_)
    intro item other hitem hother hne
    exact ⟨hapart hitem hother hne, hapart hother hitem hne.symm⟩
  · have hgathered := h.gathered.sublist (hsublist.map Item.rest)
    have hrests : (outside items).map Item.rest =
        (((outside items).map (Item.field config scope)).map Trie.Item.path).map
          (List.map Segment.field) := by
      rw [List.map_map, List.map_map]
      exact List.map_congr_left fun item hitem => (hpath item hitem).symm
    rw [hrests] at hgathered
    refine (List.triplewise_map.mp hgathered).imp ?_
    intro path between other hfronts front hfront hfront'
    exact prefix_map_field.mp (hfronts _ (prefix_map_field.mpr hfront)
      (prefix_map_field.mpr hfront'))

end Synthesis

end Projector
