import Projector.Proofs.DottedValues
import Projector.Proofs.FoldedSites
import Projector.Proofs.GradedTries

/-!
# The layout of a folded trie

Folding a trie builds nested objects whatever object constructions and values are, so what it emits
is told by a layout: at which keys, in which order, which value is written. When the paths of the
fields are apart, each field is written once, at the keys of its path or at these with dots between
some of them, and the entries of every object stand in the order of the first fields below them. The
names of the keys do not count for the order.
-/

namespace Projector

open scoped List

/-- Values laid out in nested objects. -/
inductive Layout (α : Type)
  /-- A single value. -/
  | value (content : α)
  /-- An object with its entries in order. -/
  | object (fields : List (String × Layout α))

namespace Layout

variable {α β : Type}

mutual

/-- What a layout becomes, given what an object construction and a value become. -/
def eval (construct : Fields β → β) (write : α → β) : Layout α → β
  | .value content => write content
  | .object fields => construct (evalFields construct write fields)

/-- What the entries of an object become. -/
def evalFields (construct : Fields β → β) (write : α → β) : List (String × Layout α) → Fields β
  | [] => []
  | (key, field) :: rest => (key, eval construct write field) :: evalFields construct write rest

end

mutual

/-- The values of a layout with the keys that lead to them, in order. -/
def places : Layout α → List (List String × α)
  | .value content => [([], content)]
  | .object fields => placesBelow fields

/-- The values of the entries of an object. -/
def placesBelow : List (String × Layout α) → List (List String × α)
  | [] => []
  | (key, field) :: rest =>
    (places field).map (fun place => (key :: place.1, place.2)) ++ placesBelow rest

end

/-- The values of a layout, in order. -/
def contents (layout : Layout α) : List α := layout.places.map Prod.snd

/-- What a property says of the entries of every object of a layout. -/
inductive EveryLevel (property : List (String × Layout α) → Prop) : Layout α → Prop
  | value (content : α) : EveryLevel property (.value content)
  | object {fields : List (String × Layout α)} (hhere : property fields)
      (hfield : ∀ field ∈ fields, EveryLevel property field.2) :
      EveryLevel property (.object fields)

/-- Entries of which each has a value that is related to all values of the later entries. -/
def Ascends (related : α → α → Prop) (fields : List (String × Layout α)) : Prop :=
  fields.Pairwise fun field later =>
    ∃ content ∈ field.2.contents, ∀ other ∈ later.2.contents, related content other

/-- An object becomes the construction of what its entries become. -/
theorem eval_object (construct : Fields β → β) (write : α → β)
    (fields : List (String × Layout α)) : (object fields).eval construct write =
      construct (fields.map fun field => (field.1, field.2.eval construct write)) := by
  have hfields : evalFields construct write fields =
      fields.map fun field => (field.1, field.2.eval construct write) := by
    induction fields with
    | nil => rfl
    | cons field rest ih =>
      rw [evalFields, ih]
      rfl
  rw [eval, hfields]

/-- The values of an object are those of its entries, behind their keys. -/
theorem places_object (fields : List (String × Layout α)) : (object fields).places =
    fields.flatMap fun field => field.2.places.map fun place => (field.1 :: place.1, place.2) := by
  rw [places]
  induction fields with
  | nil => rfl
  | cons field rest ih =>
    rw [placesBelow, ih]
    rfl

end Layout

namespace Trie

variable {α β γ : Type}

/-! ## Changing values -/

mutual

/-- A trie with every value changed. -/
def map (change : α → γ) : Trie α → Trie γ
  | .leaf value order => .leaf (change value) order
  | .branch order children => .branch order (mapBelow change children)

/-- Children with every value changed. -/
def mapBelow (change : α → γ) : List (String × Trie α) → List (String × Trie γ)
  | [] => []
  | (key, child) :: rest => (key, map change child) :: mapBelow change rest

end

/-- A field with its value changed. -/
def Item.map (change : α → γ) (item : Item α) : Item γ :=
  { key := item.key, below := item.below, value := change item.value, order := item.order }

/-- What is read under a key is changed like all the rest. -/
theorem get?_mapBelow (change : α → γ) (children : Fields (Trie α)) (key : String) :
    Fields.get? (mapBelow change children) key = (Fields.get? children key).map (map change) := by
  induction children with
  | nil => rfl
  | cons child rest ih =>
    obtain ⟨other, child⟩ := child
    rw [mapBelow, Fields.get?, Fields.get?, ih]
    split <;> rfl

/-- Writing goes along with changing values. -/
theorem put_mapBelow (change : α → γ) (children : Fields (Trie α)) (key : String)
    (child : Trie α) : Fields.put (mapBelow change children) key (map change child) =
      mapBelow change (Fields.put children key child) := by
  induction children with
  | nil => rfl
  | cons first rest ih =>
    obtain ⟨other, first⟩ := first
    rw [mapBelow, Fields.put, Fields.put, ih]
    split <;> rfl

/-- So does putting a field in. -/
theorem plant_map (change : α → γ) (value : α) (order : Int) (path : List String)
    (known : Option (Trie α)) :
    plant (change value) order path (known.map (map change)) =
      map change (plant value order path known) := by
  induction path generalizing known with
  | nil => rfl
  | cons key path ih =>
    have halone : Trie.branch order [(key, plant (change value) order path none)] =
        map change (.branch order [(key, plant value order path none)]) := by
      rw [map, mapBelow, mapBelow]
      exact congrArg (fun child => Trie.branch order [(key, child)]) (ih none)
    match known with
    | none => exact halone
    | some (.leaf content first) => exact halone
    | some (.branch first children) =>
      rw [plant, map, ← put_mapBelow, ← ih, ← get?_mapBelow]
      rfl

/-- So does building a trie. -/
theorem ofItems_map (change : α → γ) (items : List (Item α)) :
    ofItems (items.map (Item.map change)) = map change (ofItems items) := by
  have hfoldl : ∀ (items : List (Item α)) (children : Fields (Trie α)),
      (items.map (Item.map change)).foldl insert (mapBelow change children) =
        mapBelow change (items.foldl insert children) := by
    intro items
    induction items with
    | nil => exact fun children => rfl
    | cons item items ih =>
      intro children
      have hinsert : insert (mapBelow change children) (item.map change) =
          mapBelow change (insert children item) := by
        rw [insert, insert, ← put_mapBelow, ← plant_map, ← get?_mapBelow]
        rfl
      rw [List.map_cons, List.foldl_cons, List.foldl_cons, hinsert, ih]
  have hsorted : sortByOrder Item.order (items.map (Item.map change)) =
      (sortByOrder Item.order items).map (Item.map change) :=
    sortByOrder_map (Item.map change) (fun _ => rfl) items
  rw [ofItems, ofItems, hsorted, map, List.head?_map, Option.map_map]
  exact congrArg _ (hfoldl _ [])

/-! ## What folding does to a layout -/

/-- An entry with its value changed. -/
def Folded.map (change : β → γ) (entry : Folded β) : Folded γ :=
  { key := entry.key, value := change entry.value, order := entry.order }

/-- The fields of entries are changed with their values. -/
theorem Folded.fields_map (change : β → γ) (entries : List (Folded β)) :
    Folded.fields (entries.map (Folded.map change)) =
      (Folded.fields entries).map fun field => (field.1, change field.2) := by
  rw [Folded.fields, sortByOrder_map (Folded.map change) (fun _ => rfl), Folded.fields,
    List.map_map, List.map_map]
  rfl

section Eval

variable (object : Fields β → β) (value : γ → β) (change : α → γ) (compress : Bool)

mutual

/-- Folding a trie with its values changed is folding it to a layout and writing this with its
values changed. -/
theorem foldEntry_map (key : String) : (trie : Trie α) →
    foldEntry object value compress key (map change trie) =
      (foldEntry .object .value compress key trie).map
        (Layout.eval object fun content => value (change content))
  | .leaf content order => rfl
  | .branch order children => by
    have hobject (entries : List (Folded (Layout α))) :
        object (Folded.fields (entries.map (Folded.map
          (Layout.eval object fun content => value (change content))))) =
          (Layout.object (Folded.fields entries)).eval object fun content =>
            value (change content) := by
      rw [Folded.fields_map, Layout.eval_object]
    have hentry := fun entries => congrArg (fun written => Folded.mk key written order)
      (hobject entries)
    rw [map]
    unfold foldEntry
    rw [foldEntries_map children]
    match compress, foldEntries Layout.object Layout.value compress children with
    | true, [only] => rfl
    | true, [] => exact hentry []
    | true, first :: next :: rest => exact hentry (first :: next :: rest)
    | false, entries => exact hentry entries

/-- The same for the entries of some children. -/
theorem foldEntries_map : (children : List (String × Trie α)) →
    foldEntries object value compress (mapBelow change children) =
      (foldEntries .object .value compress children).map
        (Folded.map (Layout.eval object fun content => value (change content)))
  | [] => rfl
  | (key, child) :: rest => by
    rw [mapBelow, foldEntries, foldEntries, foldEntry_map key child, foldEntries_map rest]
    rfl

end

/-- Folding a trie with its values changed is folding it to a layout and writing this with its
values changed. -/
theorem fold_map (trie : Trie α) :
    fold object value compress (map change trie).children =
      (fold Layout.object Layout.value compress trie.children).eval object fun content =>
        value (change content) := by
  have hchildren : (map change trie).children = mapBelow change trie.children := by
    cases trie <;> rfl
  rw [hchildren, fold, foldEntries_map, Folded.fields_map, fold, Layout.eval_object]

end Eval

/-- Keys that spell a path, with names joined by dots or, without compression, as they are. -/
def Spelled (compress : Bool) (keys path : List String) : Prop :=
  keys.flatMap parts = path.flatMap parts ∧ (compress = false → keys = path)

/-- A value of a layout is that of a leaf, at keys that spell its path. -/
def Spells (compress : Bool) (place : List String × α) (leaf : Leaf α) : Prop :=
  Spelled compress place.1 leaf.path ∧ place.2 = leaf.value

/-- What spells a leaf spells it below a key too. -/
theorem Spells.below {compress : Bool} {place : List String × α} {leaf : Leaf α}
    (h : Spells compress place leaf) (key : String) :
    Spells compress (key :: place.1, place.2) (leaf.below key) := by
  obtain ⟨⟨hparts, hkeys⟩, hvalue⟩ := h
  refine ⟨⟨?_, fun hcompress => congrArg _ (hkeys hcompress)⟩, hvalue⟩
  rw [Leaf.below, List.flatMap_cons, List.flatMap_cons, hparts]

/-- Under compression the key may be joined to the first one behind it. -/
theorem Spells.dotted {inner : String} {keys : List String} {value : α} {leaf : Leaf α}
    (h : Spells true (inner :: keys, value) leaf) (key : String) :
    Spells true (dotted key inner :: keys, value) (leaf.below key) := by
  obtain ⟨⟨hparts, -⟩, hvalue⟩ := h
  refine ⟨⟨?_, by simp⟩, hvalue⟩
  rw [Leaf.below, List.flatMap_cons, List.flatMap_cons, ← hparts, parts_dotted,
    List.flatMap_cons, List.append_assoc]

/-- The values of an object of children in ascending order are those of the children. -/
theorem spells_fields {compress : Bool} {children : Fields (Trie α)}
    (hascending : children.Pairwise fun child later => child.2.order ≤ later.2.order)
    (hchild : ∀ child ∈ children,
      let entry := foldEntry Layout.object Layout.value compress child.1 child.2
      List.Forall₂ (Spells compress)
        (entry.value.places.map fun place => (entry.key :: place.1, place.2))
        ((listing child.2).map (Leaf.below child.1))) :
    List.Forall₂ (Spells compress)
      (Layout.object (Folded.fields (foldEntries .object .value compress children))).places
      (listingBelow children) := by
  rw [fields_foldEntries hascending, Layout.places_object, List.flatMap_map,
    listingBelow_eq_flatMap]
  clear hascending
  induction children with
  | nil => exact .nil
  | cons child rest ih =>
    obtain ⟨hfirst, hrest⟩ := List.forall_mem_cons.mp hchild
    rw [List.flatMap_cons, List.flatMap_cons]
    exact List.rel_append hfirst (ih hrest)

/-- The entry of a graded trie spells its leaves, each once and in their order. -/
theorem Graded.spells {trie : Trie α} (h : Graded trie) (compress : Bool) (key : String) :
    let entry := foldEntry Layout.object Layout.value compress key trie
    List.Forall₂ (Spells compress)
      (entry.value.places.map fun place => (entry.key :: place.1, place.2))
      ((listing trie).map (Leaf.below key)) := by
  induction h generalizing key with
  | leaf value order => exact .cons ⟨⟨rfl, fun _ => rfl⟩, rfl⟩ .nil
  | @branch order children hhere hchild ih =>
    by_cases hjoin : compress = true ∧ ∃ only, children = [only]
    · obtain ⟨rfl, only, rfl⟩ := hjoin
      have honly := ih only (List.mem_singleton_self _) only.1
      rw [foldEntry_only, listing, listingBelow_eq_flatMap, List.flatMap_singleton]
      rw [List.forall₂_map_left_iff] at honly ⊢
      rw [List.forall₂_map_right_iff]
      exact honly.imp fun place leaf hspells => hspells.dotted key
    · have hfields := spells_fields hhere.ascending fun child hmem => ih child hmem child.1
      rw [foldEntry_branch Layout.object Layout.value key order hjoin, listing,
        List.forall₂_map_left_iff, List.forall₂_map_right_iff]
      exact hfields.imp fun place leaf hspells => hspells.below key

/-- The layout of a graded trie spells its leaves. -/
theorem Graded.spells_fold {order : Int} {children : Fields (Trie α)}
    (h : Graded (.branch order children)) (compress : Bool) :
    List.Forall₂ (Spells compress) (fold Layout.object Layout.value compress children).places
      (listingBelow children) := by
  cases h with
  | branch hhere hchild =>
    exact spells_fields hhere.ascending fun child hmem =>
      Graded.spells (hchild child hmem) compress child.1

/-- What spells leaves has their values. -/
theorem map_snd_eq {compress : Bool} {places : List (List String × α)} {leaves : List (Leaf α)}
    (h : List.Forall₂ (Spells compress) places leaves) :
    places.map Prod.snd = leaves.map Leaf.value := by
  induction h with
  | nil => rfl
  | cons hspells _ ih => rw [List.map_cons, List.map_cons, hspells.2, ih]

/-- Every place of what spells leaves spells one of them. -/
theorem exists_spells {compress : Bool} {places : List (List String × α)} {leaves : List (Leaf α)}
    (h : List.Forall₂ (Spells compress) places leaves) {place : List String × α}
    (hplace : place ∈ places) : ∃ leaf ∈ leaves, Spells compress place leaf := by
  induction h with
  | nil => cases hplace
  | @cons first leaf places leaves hspells _ ih =>
    rcases List.mem_cons.mp hplace with rfl | hplace
    · exact ⟨leaf, List.mem_cons_self, hspells⟩
    · obtain ⟨other, hother, hspells⟩ := ih hplace
      exact ⟨other, List.mem_cons_of_mem _ hother, hspells⟩

/-- The values of an entry are those of the leaves. -/
theorem Graded.contents_foldEntry {trie : Trie α} (h : Graded trie) (compress : Bool)
    (key : String) : (foldEntry Layout.object Layout.value compress key trie).value.contents =
      (listing trie).map Leaf.value := by
  have hvalues := map_snd_eq (h.spells compress key)
  rw [List.map_map, List.map_map] at hvalues
  exact hvalues

/-! ## The order of the entries -/

section Ascending

variable {related : α → α → Prop} {compress : Bool} {order : Int} {children : Fields (Trie α)}

/-- The entries of children that lead each other ascend, when all levels in their values do. -/
theorem ascends_fields (hled : Led related order children)
    (hchild : ∀ child ∈ children, EveryBranch (Led related) child.2)
    (hvalue : ∀ child ∈ children, (foldEntry Layout.object Layout.value compress child.1
      child.2).value.EveryLevel (Layout.Ascends related)) :
    (Layout.object (Folded.fields (foldEntries .object .value compress children))).EveryLevel
      (Layout.Ascends related) := by
  have hcontents : ∀ child ∈ children, (foldEntry Layout.object Layout.value compress child.1
      child.2).value.contents = (listing child.2).map Leaf.value := fun child hmem =>
    (hchild child hmem).graded.contents_foldEntry compress child.1
  cases (EveryBranch.branch hled hchild).graded with
  | branch hgrades _ =>
    rw [fields_foldEntries hgrades.ascending]
    refine .object (List.pairwise_map.mpr (hled.leads.imp_of_mem ?_))
      (List.forall_mem_map.mpr hvalue)
    rintro child later hmem hlater ⟨leaf, hleaf, hleads⟩
    rw [hcontents child hmem, hcontents later hlater]
    exact ⟨leaf.value, List.mem_map_of_mem hleaf, List.forall_mem_map.mpr fun other hother =>
      (hleads other hother).2⟩

/-- All levels in the entry of a trie ascend when the children of its branches lead each other. -/
theorem ascends_foldEntry {trie : Trie α} (h : EveryBranch (Led related) trie) (key : String) :
    (foldEntry Layout.object Layout.value compress key trie).value.EveryLevel
      (Layout.Ascends related) := by
  induction h generalizing key with
  | leaf value order => exact .value value
  | @branch order children hled hchild ih =>
    by_cases hjoin : compress = true ∧ ∃ only, children = [only]
    · obtain ⟨rfl, only, rfl⟩ := hjoin
      rw [foldEntry_only]
      exact ih only (List.mem_singleton_self _) only.1
    · rw [foldEntry_branch Layout.object Layout.value key order hjoin]
      exact ascends_fields hled hchild fun child hmem => ih child hmem child.1

/-- All levels of the layout of such a trie ascend. -/
theorem ascends_fold (h : EveryBranch (Led related) (.branch order children)) :
    (fold Layout.object Layout.value compress children).EveryLevel (Layout.Ascends related) := by
  cases h with
  | branch hled hchild =>
    exact ascends_fields hled hchild fun child hmem => ascends_foldEntry (hchild child hmem) child.1

end Ascending

/-! ## The layout of some fields -/

/-- A field that has itself as its value. -/
def Item.tagged (item : Item α) : Item (Item α) :=
  { key := item.key, below := item.below, value := item, order := item.order }

/-- One field stands before another in a list, and is not of higher order. -/
def Item.StandsBefore (sorted : List (Item α)) (item other : Item α) : Prop :=
  item.order ≤ other.order ∧ [item, other] <+ sorted

/-- What a layout tells of the folded trie of some fields: each of them is written once, at keys
that spell its path, and of two entries of an object the first field of the earlier one stands
before all fields of the later one. -/
structure LaysOut (items sorted : List (Item α)) (compress : Bool) (layout : Layout (Item α)) :
    Prop where
  fold_eq : ∀ (β : Type) (object : Fields β → β) (value : α → β),
    fold object value compress (ofItems items).children =
      layout.eval object fun item => value item.value
  contents : layout.contents ~ items
  spelled : ∀ place ∈ layout.places, Spelled compress place.1 place.2.path
  ascends : layout.EveryLevel (Layout.Ascends (Item.StandsBefore sorted))

/-- Fields whose paths are apart make a trie in which every branch has the least order of the leaves
below it and children in ascending order. Compressed or not, the entries of every object that it is
folded to stand in the order of the first fields below them, where fields ascend and those of equal
order stand as given. -/
theorem layout_ofItems {items : List (Item α)} (hne : items ≠ [])
    (hapart : items.Pairwise fun item other => Leaves.Apart item.path other.path) :
    Graded (ofItems items) ∧ ∃ sorted, Arranges Item.order items sorted ∧
      ∀ compress, ∃ layout, LaysOut items sorted compress layout := by
  have hgraded : Graded (ofItems items) :=
    (@led_ofItems _ (fun _ _ => True) _ hne hapart
      (List.pairwise_of_forall fun _ _ => trivial)).graded
  let sorted := sortByOrder Item.order items
  have harranges : Arranges Item.order items sorted := arranges_sortByOrder Item.order items
  -- Folding does not look into values, so the fields can be followed as their own values.
  let tagged := items.map Item.tagged
  have huntagged : tagged.map (Item.map Item.value) = items := by
    rw [List.map_map]
    exact List.map_id items
  have hled : EveryBranch (Led (Item.StandsBefore sorted)) (ofItems tagged) := by
    refine led_ofItems (by simpa [tagged] using hne) (List.pairwise_map.mpr hapart) ?_
    rw [sortByOrder_map Item.tagged fun _ => rfl, List.pairwise_map]
    exact harranges.ascending.and (List.pairwise_iff_forall_sublist.mpr id)
  have hlisting : listing (ofItems tagged) ~ tagged.map Item.leaf :=
    listing_ofItems_apart (List.pairwise_map.mpr hapart)
  refine ⟨hgraded, sorted, harranges, fun compress => ?_⟩
  let layout : Layout (Item α) := fold .object .value compress (ofItems tagged).children
  have hspells : List.Forall₂ (Spells compress) layout.places (listing (ofItems tagged)) :=
    Graded.spells_fold hled.graded compress
  refine ⟨layout, ?_, ?_, ?_, ascends_fold hled⟩
  · intro β object value
    rw [← fold_map, ← ofItems_map, huntagged]
  · rw [Layout.contents, map_snd_eq hspells]
    refine (hlisting.map Leaf.value).trans (.of_eq ?_)
    rw [List.map_map, List.map_map]
    exact List.map_id items
  · intro place hplace
    obtain ⟨leaf, hleaf, hspelled, hvalue⟩ := exists_spells hspells hplace
    obtain ⟨item, hitem, rfl⟩ := List.mem_map.mp (hlisting.mem_iff.mp hleaf)
    obtain ⟨item, -, rfl⟩ := List.mem_map.mp hitem
    rw [hvalue]
    exact hspelled

/-- Fields below two keys by turns, some of them of equal order, under keys that do not ascend. -/
theorem layout_ofItems_interleaved :
    let items : List (Item Nat) :=
      [⟨"m", ["k"], 0, 0⟩, ⟨"z", ["x"], 1, -1⟩, ⟨"a", [], 2, 0⟩, ⟨"m", ["b", "c"], 3, 1⟩,
        ⟨"z", ["d"], 4, 0⟩]
    items ≠ [] ∧ items.Pairwise (fun item other => Leaves.Apart item.path other.path) ∧
      Graded (ofItems items) ∧ ∃ sorted, Arranges Item.order items sorted ∧
        ∀ compress, ∃ layout, LaysOut items sorted compress layout := by
  intro items
  have hne : items ≠ [] := List.cons_ne_nil _ _
  have hapart : items.Pairwise fun item other => Leaves.Apart item.path other.path := by decide
  exact ⟨hne, hapart, layout_ofItems hne hapart⟩

end Trie

end Projector
