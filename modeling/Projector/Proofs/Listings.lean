import Mathlib.Data.List.Triplewise
import Projector.Proofs.Evaluations

/-!
# What a trie lists

The leaves of a trie are listed here in the order in which the trie stores them. Fields that are put
into a trie in ascending order are listed in this order, when fields that share a front of their key
paths come one after the other. Then the children of every branch are in ascending order too, and
folding the trie leaves them where they are.
-/

namespace Projector

/-- Whatever two paths share at the front is shared by all paths between them. -/
def Gathered {α : Type} (paths : List (List α)) : Prop :=
  paths.Triplewise fun path between other =>
    ∀ front, front <+: path → front <+: other → front <+: between

namespace Fields

/-- The last field is written in place. -/
theorem put_concat {α : Type} {fields : Fields α} {name : String} (h : name ∉ names fields)
    (old value : α) : put (fields ++ [(name, old)]) name value = fields ++ [(name, value)] := by
  induction fields with
  | nil => simp [put]
  | cons field rest ih =>
    obtain ⟨other, first⟩ := field
    simp only [names, List.map_cons, List.mem_cons, not_or] at h
    rw [List.cons_append, put, if_neg fun heq => h.1 heq.symm, ih h.2]
    rfl

/-- A field after a write is the written one or was there before. -/
theorem mem_put {α : Type} {fields : Fields α} {name : String} {value : α} {field : String × α}
    (h : field ∈ put fields name value) : field = (name, value) ∨ field ∈ fields := by
  induction fields with
  | nil => exact .inl (List.mem_singleton.mp h)
  | cons first rest ih =>
    obtain ⟨other, old⟩ := first
    rw [put] at h
    split at h
    · rcases List.mem_cons.mp h with rfl | hrest
      · exact .inl rfl
      · exact .inr (List.mem_cons_of_mem _ hrest)
    · rcases List.mem_cons.mp h with rfl | hrest
      · exact .inr List.mem_cons_self
      · exact (ih hrest).imp_right (List.mem_cons_of_mem _)

end Fields

namespace Trie

variable {α : Type}

/-- A leaf of a trie with its key path. -/
structure Leaf (α : Type) where
  /-- The keys that lead to the leaf. -/
  path : List String
  /-- What stands there. -/
  value : α
  /-- Its place among all fields. -/
  order : Int

/-- A leaf as seen from above a key. -/
def Leaf.below (key : String) (leaf : Leaf α) : Leaf α := { leaf with path := key :: leaf.path }

/-- The leaf that a field becomes. -/
def Item.leaf (item : Item α) : Leaf α :=
  { path := item.path, value := item.value, order := item.order }

mutual

/-- The leaves of a trie in the order in which they are stored. -/
def listing : Trie α → List (Leaf α)
  | .leaf value order => [{ path := [], value, order }]
  | .branch _ children => listingBelow children

/-- The leaves of some children. -/
def listingBelow : List (String × Trie α) → List (Leaf α)
  | [] => []
  | (key, child) :: rest => (listing child).map (Leaf.below key) ++ listingBelow rest

end

/-- The leaves of some children are those of each child, below its key. -/
theorem listingBelow_eq_flatMap (children : List (String × Trie α)) :
    listingBelow children =
      children.flatMap fun child => (listing child.2).map (Leaf.below child.1) := by
  induction children with
  | nil => rfl
  | cons child rest ih =>
    obtain ⟨key, child⟩ := child
    rw [listingBelow, ih, List.flatMap_cons]

/-- The leaves of a last child come last. -/
theorem listingBelow_concat (children : List (String × Trie α)) (key : String) (child : Trie α) :
    listingBelow (children ++ [(key, child)]) =
      listingBelow children ++ (listing child).map (Leaf.below key) := by
  simp [listingBelow_eq_flatMap]

/-- A trie whose branches have children, with different keys and in ascending order, and the order
of one of the leaves below them. -/
inductive Tidy : Trie α → Prop
  | leaf (value : α) (order : Int) : Tidy (.leaf value order)
  | branch {order : Int} {children : Fields (Trie α)}
      (horder : ∃ leaf ∈ listingBelow children, leaf.order = order)
      (hdistinct : Fields.Distinct children)
      (hascending : children.Pairwise fun child other => child.2.order < other.2.order)
      (hchild : ∀ child ∈ children, Tidy child.2) : Tidy (.branch order children)

/-- Children with different keys in ascending order, each of them a tidy trie. -/
structure TidyBelow (children : Fields (Trie α)) : Prop where
  distinct : Fields.Distinct children
  ascending : children.Pairwise fun child other => child.2.order < other.2.order
  child : ∀ child ∈ children, Tidy child.2

/-- The order of a tidy trie is that of one of its leaves. -/
theorem Tidy.exists_leaf {trie : Trie α} (h : Tidy trie) :
    ∃ leaf ∈ listing trie, leaf.order = trie.order := by
  cases h with
  | leaf value order => exact ⟨_, List.mem_singleton_self _, rfl⟩
  | branch horder => exact horder

/-- A leaf of a child is a leaf of the children, below its key. -/
theorem mem_listingBelow {children : List (String × Trie α)} {key : String} {child : Trie α}
    (hchild : (key, child) ∈ children) {leaf : Leaf α} (hleaf : leaf ∈ listing child) :
    leaf.below key ∈ listingBelow children := by
  rw [listingBelow_eq_flatMap]
  exact List.mem_flatMap.mpr ⟨_, hchild, List.mem_map_of_mem hleaf⟩

/-! ## Putting a field behind the others -/

/-- Leaves behind which a field can be put: its path is apart from theirs, they come before it, and
no leaf stands between it and one that it shares a front with. -/
structure Precede (leaves : List (Leaf α)) (path : List String) (order : Int) : Prop where
  apart : ∀ leaf ∈ leaves, Leaves.Apart leaf.path path
  earlier : ∀ leaf ∈ leaves, leaf.order < order
  gathered : leaves.Pairwise fun leaf next =>
    ∀ front, front <+: leaf.path → front <+: path → front <+: next.path

/-- What can be put behind the leaves of some children can be put behind those of the child with its
first key, as seen from this child. -/
theorem Precede.of_mem {children : Fields (Trie α)} {key : String} {path : List String}
    {order : Int}
    (h : Precede (listingBelow children) (key :: path) order) {child : Trie α}
    (hchild : (key, child) ∈ children) : Precede (listing child) path order where
  apart := fun leaf hleaf => Leaves.apart_cons.mp (h.apart _ (mem_listingBelow hchild hleaf))
  earlier := fun leaf hleaf => h.earlier (leaf.below key) (mem_listingBelow hchild hleaf)
  gathered := by
    have hsublist : ((listing child).map (Leaf.below key)).Sublist (listingBelow children) := by
      rw [listingBelow_eq_flatMap]
      exact List.sublist_flatten_of_mem (List.mem_map_of_mem hchild)
    refine (List.pairwise_map.mp (h.gathered.sublist hsublist)).imp ?_
    intro leaf next hfronts front hleaf hpath
    have hfront := hfronts (key :: front) ((List.prefix_cons_inj key).mpr hleaf)
      ((List.prefix_cons_inj key).mpr hpath)
    exact (List.prefix_cons_inj key).mp hfront

/-- The key of a field that can be put behind the leaves of some children is new, or that of the
last child. -/
theorem TidyBelow.cases_key {children : Fields (Trie α)} (h : TidyBelow children) {key : String}
    {path : List String} {order : Int}
    (hbehind : Precede (listingBelow children) (key :: path) order) :
    key ∉ Fields.names children ∨
      ∃ before known, children = before ++ [(key, known)] ∧ key ∉ Fields.names before := by
  by_cases hkey : key ∈ Fields.names children
  · right
    obtain ⟨known, hknown⟩ : ∃ known, (key, known) ∈ children := by simpa [Fields.names] using hkey
    obtain ⟨before, after, rfl⟩ := List.append_of_mem hknown
    have hdistinct := h.distinct
    simp only [Fields.Distinct, Fields.names, List.map_append, List.map_cons] at hdistinct
    obtain ⟨-, hafter, hbefore⟩ := List.nodup_append.mp hdistinct
    cases after with
    | nil => exact ⟨before, known, rfl, fun hmem => hbefore _ hmem _ (by simp) rfl⟩
    | cons next after =>
      -- A leaf of the next child would stand between those below the key and the field.
      obtain ⟨other, child⟩ := next
      obtain ⟨leaf, hleaf, -⟩ := (h.child (key, known) (by simp)).exists_leaf
      obtain ⟨twin, htwin, -⟩ := (h.child (other, child) (by simp)).exists_leaf
      have hgathered := hbehind.gathered
      simp only [listingBelow_eq_flatMap, List.flatMap_append, List.flatMap_cons,
        List.pairwise_append] at hgathered
      have hfront := hgathered.2.1.2.2 (leaf.below key) (List.mem_map_of_mem hleaf)
        (twin.below other) (List.mem_append_left _ (List.mem_map_of_mem htwin)) [key]
        (by simp [Leaf.below]) (by simp)
      simp only [Leaf.below, List.cons_prefix_cons, List.nil_prefix, and_true] at hfront
      rw [List.nodup_cons] at hafter
      exact absurd (by simp [hfront]) hafter.1
  · exact .inl hkey

/-- Tidy children with one more behind them are tidy. -/
theorem TidyBelow.concat {children : Fields (Trie α)} (h : TidyBelow children) {key : String}
    (hkey : key ∉ Fields.names children) {new : Trie α} (hnew : Tidy new)
    (hlast : ∀ child ∈ children, child.2.order < new.order) :
    TidyBelow (children ++ [(key, new)]) where
  distinct := by
    simp only [Fields.Distinct, Fields.names, List.map_append, List.map_cons, List.map_nil]
    refine List.nodup_append.mpr ⟨h.distinct, by simp, ?_⟩
    rintro name hname _ hsame rfl
    exact hkey (List.mem_singleton.mp hsame ▸ hname)
  ascending := List.pairwise_append.mpr ⟨h.ascending, List.pairwise_singleton _ _, by
    simpa using hlast⟩
  child := by
    intro child hchild
    rcases List.mem_append.mp hchild with hchild | hchild
    · exact h.child child hchild
    · rw [List.mem_singleton.mp hchild]
      exact hnew

/-- What stands at a place after a field was put there, given what stood there before. -/
structure Planted (leaf : Leaf α) (known : Option (Trie α)) (trie : Trie α) : Prop where
  tidy : Tidy trie
  order : trie.order = (known.map Trie.order).getD leaf.order
  listing : listing trie = (known.map Trie.listing).getD [] ++ [leaf]

/-- Children after a field was put behind their leaves. -/
theorem TidyBelow.put {children : Fields (Trie α)} (h : TidyBelow children) {key : String}
    {path : List String} {value : α} {order : Int}
    (hbehind : Precede (listingBelow children) (key :: path) order) {new : Trie α}
    (hnew : Planted { path, value, order } (Fields.get? children key) new) :
    TidyBelow (Fields.put children key new) ∧
      listingBelow (Fields.put children key new) =
        listingBelow children ++ [{ path := key :: path, value, order }] := by
  -- The child is written behind some others, which are all children or all but the last.
  obtain ⟨before, hput, hkey, hbefore, hlast, hlisting⟩ : ∃ before : Fields (Trie α),
      Fields.put children key new = before ++ [(key, new)] ∧ key ∉ Fields.names before ∧
        TidyBelow before ∧ (∀ child ∈ before, child.2.order < new.order) ∧
        listingBelow before ++ (listing new).map (Leaf.below key) =
          listingBelow children ++ [{ path := key :: path, value, order }] := by
    rcases h.cases_key hbehind with hkey | ⟨before, known, rfl, hkey⟩
    · have hnone := Fields.get?_eq_none_iff.mpr hkey
      rw [hnone] at hnew
      refine ⟨children, Fields.put_of_not_mem hkey new, hkey, h, ?_, ?_⟩
      · intro child hchild
        obtain ⟨leaf, hleaf, hleafOrder⟩ := (h.child child hchild).exists_leaf
        have hearlier := hbehind.earlier _ (mem_listingBelow hchild hleaf)
        rw [hnew.order, ← hleafOrder]
        exact hearlier
      · rw [hnew.listing]
        rfl
    · have hget : Fields.get? (before ++ [(key, known)]) key = some known :=
        Fields.get?_of_mem h.distinct (by simp)
      rw [hget] at hnew
      have hascending := List.pairwise_append.mp h.ascending
      have hdistinct := h.distinct
      simp only [Fields.Distinct, Fields.names, List.map_append] at hdistinct
      refine ⟨before, Fields.put_concat hkey known new, hkey,
        ⟨(List.nodup_append.mp hdistinct).1, hascending.1, fun child hchild =>
          h.child child (List.mem_append_left _ hchild)⟩, ?_, ?_⟩
      · intro child hchild
        rw [hnew.order]
        exact hascending.2.2 child hchild _ (List.mem_singleton_self _)
      · rw [hnew.listing, listingBelow_concat]
        simp [Leaf.below]
  rw [hput, listingBelow_concat, hlisting]
  exact ⟨hbefore.concat hkey hnew.tidy hlast, rfl⟩

/-- A field that is put behind all leaves that are there becomes the last leaf. -/
theorem planted_plant (value : α) (order : Int) (path : List String) (known : Option (Trie α))
    (htidy : ∀ trie ∈ known, Tidy trie)
    (hbehind : ∀ trie ∈ known, Precede (listing trie) path order) :
    Planted { path, value, order } known (plant value order path known) := by
  induction path generalizing known with
  | nil =>
    cases known with
    | none => exact ⟨.leaf value order, rfl, rfl⟩
    | some trie =>
      obtain ⟨leaf, hleaf, -⟩ := (htidy trie rfl).exists_leaf
      exact absurd ((hbehind trie rfl).apart leaf hleaf).symm (Leaves.not_apart_nil _)
  | cons key path ih =>
    cases known with
    | none =>
      obtain ⟨hnew, -, hlisting⟩ := ih none (by simp) (by simp)
      have hbelow : listingBelow [(key, plant value order path none)] =
          [{ path := key :: path, value, order }] := by
        simp [listingBelow, hlisting, Leaf.below]
      refine ⟨.branch ?_ ?_ ?_ ?_, rfl, hbelow⟩
      · rw [hbelow]
        exact ⟨_, List.mem_singleton_self _, rfl⟩
      · exact List.nodup_singleton key
      · exact List.pairwise_singleton _ _
      · simpa using hnew
    | some trie =>
      cases htidy trie rfl with
      | leaf content first =>
        have hapart := (hbehind _ rfl).apart _ (List.mem_singleton_self _)
        exact absurd hapart (Leaves.not_apart_nil _)
      | @branch first children horder hdistinct hascending hchild =>
        have hbelow : Precede (listingBelow children) (key :: path) order := hbehind _ rfl
        have hnew := ih (Fields.get? children key)
          (fun child hget => hchild _ (Fields.mem_of_get? hget))
          (fun child hget => hbelow.of_mem (Fields.mem_of_get? hget))
        obtain ⟨hput, hlisting⟩ := TidyBelow.put ⟨hdistinct, hascending, hchild⟩ hbelow hnew
        refine ⟨.branch ?_ hput.distinct hput.ascending hput.child, rfl, hlisting⟩
        obtain ⟨leaf, hleaf, hfirst⟩ := horder
        rw [hlisting]
        exact ⟨leaf, List.mem_append_left _ hleaf, hfirst⟩

/-! ## The trie of some fields -/

/-- Fields in ascending order whose paths are apart and come one after the other when they share a
front are listed in this order. -/
theorem tidy_foldl_insert {items : List (Item α)}
    (hascending : items.Pairwise fun item other => item.order < other.order)
    (hapart : items.Pairwise fun item other => Leaves.Apart item.path other.path)
    (hgathered : Gathered (items.map Item.path)) :
    TidyBelow (items.foldl insert []) ∧
      listingBelow (items.foldl insert []) = items.map Item.leaf := by
  induction items using List.reverseRecOn with
  | nil => exact ⟨⟨List.nodup_nil, .nil, by simp⟩, rfl⟩
  | append_singleton items item ih =>
    rw [List.pairwise_append] at hascending hapart
    rw [Gathered, List.map_append, List.triplewise_append] at hgathered
    obtain ⟨htidy, hlisting⟩ := ih hascending.1 hapart.1 hgathered.1
    have hbehind : Precede (listingBelow (items.foldl insert [])) (item.key :: item.below)
        item.order := by
      rw [hlisting]
      refine ⟨?_, ?_, ?_⟩
      · exact List.forall_mem_map.mpr fun other hother => hapart.2.2 other hother item (by simp)
      · exact List.forall_mem_map.mpr fun other hother => hascending.2.2 other hother item (by simp)
      · have hfronts := hgathered.2.2.2 item.path (by simp)
        rw [List.pairwise_map] at hfronts ⊢
        exact hfronts.imp fun h front hfront hpath => h front hfront hpath
    have hnew := planted_plant item.value item.order item.below
      (Fields.get? (items.foldl insert []) item.key)
      (fun child hget => htidy.child _ (Fields.mem_of_get? hget))
      (fun child hget => hbehind.of_mem (Fields.mem_of_get? hget))
    rw [List.foldl_append, List.map_append, ← hlisting]
    exact htidy.put hbehind hnew

/-- The trie of such fields is tidy and lists them in their order. -/
theorem tidy_ofItems {items : List (Item α)}
    (hascending : items.Pairwise fun item other => item.order < other.order)
    (hapart : items.Pairwise fun item other => Leaves.Apart item.path other.path)
    (hgathered : Gathered (items.map Item.path)) :
    TidyBelow (ofItems items).children ∧
      listingBelow (ofItems items).children = items.map Item.leaf := by
  have hsorted : sortByOrder Item.order items = items :=
    sortByOrder_eq (hascending.imp Int.le_of_lt)
  simp only [ofItems, hsorted, children]
  exact tidy_foldl_insert hascending hapart hgathered

/-! ## Where leaves come from -/

section Values

variable {property : α → Prop}

/-- What holds of the leaves of some children holds of the leaves of each child. -/
theorem forall_listingBelow_iff {children : List (String × Trie α)} :
    (∀ leaf ∈ listingBelow children, property leaf.value) ↔
      ∀ child ∈ children, ∀ leaf ∈ listing child.2, property leaf.value := by
  simp only [listingBelow_eq_flatMap, List.mem_flatMap, List.mem_map]
  constructor
  · exact fun h child hchild leaf hleaf => h (leaf.below child.1) ⟨child, hchild, leaf, hleaf, rfl⟩
  · rintro h _ ⟨child, hchild, leaf, hleaf, rfl⟩
    exact h child hchild leaf hleaf

/-- A child that is put among others brings no leaves but its own. -/
theorem forall_listingBelow_put {children : Fields (Trie α)} {key : String} {new : Trie α}
    (hold : ∀ leaf ∈ listingBelow children, property leaf.value)
    (hnew : ∀ leaf ∈ listing new, property leaf.value) :
    ∀ leaf ∈ listingBelow (Fields.put children key new), property leaf.value := by
  rw [forall_listingBelow_iff] at hold ⊢
  intro child hchild
  rcases Fields.mem_put hchild with rfl | hchild
  · exact hnew
  · exact hold child hchild

/-- A field that is put into a trie brings no leaf but itself. -/
theorem forall_listing_plant {value : α} (hvalue : property value) (order : Int)
    (path : List String) {known : Option (Trie α)}
    (hknown : ∀ trie ∈ known, ∀ leaf ∈ listing trie, property leaf.value) :
    ∀ leaf ∈ listing (plant value order path known), property leaf.value := by
  induction path generalizing known with
  | nil => simpa [plant, listing] using hvalue
  | cons key path ih =>
    have halone : ∀ leaf ∈ listing (.branch order [(key, plant value order path none)]),
        property leaf.value := by
      rw [listing, forall_listingBelow_iff]
      simpa using ih (by simp)
    cases known with
    | none => exact halone
    | some trie =>
      cases trie with
      | leaf content first => exact halone
      | branch first children =>
        have hbelow := hknown _ rfl
        rw [listing] at hbelow
        rw [plant, listing]
        refine forall_listingBelow_put hbelow (ih fun child hchild => ?_)
        exact forall_listingBelow_iff.mp hbelow _ (Fields.mem_of_get? hchild)

/-- The leaves of the trie of some fields are values of the fields. -/
theorem forall_listingBelow_ofItems {items : List (Item α)}
    (h : ∀ item ∈ items, property item.value) :
    ∀ leaf ∈ listingBelow (ofItems items).children, property leaf.value := by
  have hfold : ∀ (sorted : List (Item α)) (children : Fields (Trie α)),
      (∀ item ∈ sorted, property item.value) →
      (∀ leaf ∈ listingBelow children, property leaf.value) →
      ∀ leaf ∈ listingBelow (sorted.foldl insert children), property leaf.value := by
    intro sorted
    induction sorted with
    | nil => exact fun children _ hold => hold
    | cons item sorted ih =>
      intro children hsorted hold
      obtain ⟨hitem, hrest⟩ := List.forall_mem_cons.mp hsorted
      refine ih _ hrest (forall_listingBelow_put hold (forall_listing_plant hitem _ _ ?_))
      exact fun child hchild => forall_listingBelow_iff.mp hold _ (Fields.mem_of_get? hchild)
  refine hfold _ [] (fun item hitem => h item (mem_sortByOrder.mp hitem)) ?_
  simp [listingBelow]

end Values

section Folding

variable {β : Type} {object : Fields β → β} {value : α → β} {property : β → Prop}

mutual

/-- What object constructions hold as soon as their values do holds of the entry of a trie when it
holds of all its leaves. -/
theorem foldEntry_of_forall
    (hobject : ∀ fields, (∀ field ∈ fields, property field.2) → property (object fields))
    (compress : Bool) (key : String) : (trie : Trie α) →
    (∀ leaf ∈ listing trie, property (value leaf.value)) →
    property (foldEntry object value compress key trie).value
  | .leaf content order, h => h _ (List.mem_singleton_self _)
  | .branch order children, h => by
    have hentries := foldEntries_of_forall hobject compress children h
    unfold foldEntry
    split
    · rename_i only heq
      exact hentries only (heq ▸ List.mem_singleton_self _)
    · exact hobject _ fun field hfield => by
        obtain ⟨entry, hentry, rfl⟩ := mem_fields.mp hfield
        exact hentries entry hentry

/-- The same holds of the entries of some children. -/
theorem foldEntries_of_forall
    (hobject : ∀ fields, (∀ field ∈ fields, property field.2) → property (object fields))
    (compress : Bool) : (children : List (String × Trie α)) →
    (∀ leaf ∈ listingBelow children, property (value leaf.value)) →
    ∀ entry ∈ foldEntries object value compress children, property entry.value
  | [], _ => by simp [foldEntries]
  | (key, child) :: rest, h => by
    rw [listingBelow, List.forall_mem_append, List.forall_mem_map] at h
    rw [foldEntries, List.forall_mem_cons]
    exact ⟨foldEntry_of_forall hobject compress key child h.1,
      foldEntries_of_forall hobject compress rest h.2⟩

end

/-- The same holds of the object construction of some children. -/
theorem fold_of_forall
    (hobject : ∀ fields, (∀ field ∈ fields, property field.2) → property (object fields))
    (compress : Bool) {children : Fields (Trie α)}
    (h : ∀ leaf ∈ listingBelow children, property (value leaf.value)) :
    property (fold object value compress children) := by
  refine hobject _ fun field hfield => ?_
  obtain ⟨entry, hentry, rfl⟩ := mem_fields.mp hfield
  exact foldEntries_of_forall hobject compress children h entry hentry

end Folding

end Trie

end Projector
