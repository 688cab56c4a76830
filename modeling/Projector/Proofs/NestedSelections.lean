import Mathlib
import Projector.Proofs.CanonicalAddresses
import Projector.Proofs.EmittedTexts
import Projector.Proofs.ListHomes
import Projector.Proofs.Selections

/-!
# Selections inside a list

Fields that are shown where they live, in lists that are shown where they live, are read in the same
way wherever they are read from: as the same steps from the value at hand. So what is made of them
inside one element of a list is what would be made of them in a whole document, and the query of
such fields inside a list collects this for every element.
-/

namespace Projector

namespace Synthesis

/-! ## Fields that live where they are shown -/

/-- A field that lives where it is shown from a place, and says nothing of its lists. -/
def Item.nativeAt (base : Path) (item : Item) : Item :=
  { item with source := base ++ item.rest, arrays := [] }

/-- Such a field is read by its steps. -/
theorem value_nativeAt (config : Config) (scope : Scope) (item : Item) :
    (item.nativeAt scope.base).value config scope = .read .input item.rest := by
  cases scope with
  | document => exact if_pos rfl
  | element base =>
    have hrest : following? base (base ++ item.rest) = some item.rest :=
      following?_eq_some_iff.mpr rfl
    simp only [Item.value, Item.nativeAt, Scope.base, locate, hrest]

/-- So is a list at some keys. -/
theorem locate_native (config : Config) (scope : Scope) (keys : List String) :
    locate config scope (elementsAt keys) (scope.base ++ elementsAt keys) =
      .read .input (elementsAt keys) :=
  value_nativeAt config scope ⟨elementsAt keys, [], 0, []⟩

/-- Seen from an element, such a field lives where it is shown from the elements. -/
theorem member?_nativeAt (base : Path) (keys : List String) (item : Item) :
    (item.nativeAt base).member? keys =
      (item.member? keys).map (Item.nativeAt (base ++ elementsAt keys)) := by
  rw [Item.member?, Item.member?, Option.map_map]
  refine Option.map_congr fun inside hinside => ?_
  have hrest : item.rest = elementsAt keys ++ inside := following?_eq_some_iff.mp hinside
  simp [Item.nativeAt, hrest]

/-- Fields that say nothing of their lists tell nothing. -/
theorem told_nativeAt (base : Path) (items : List Item) (place : Path) :
    told (items.map (Item.nativeAt base)) place = none := by
  rw [told, List.findSome?_eq_none_iff]
  intro item hitem
  obtain ⟨other, -, rfl⟩ := List.mem_map.mp hitem
  simp [Item.tells, Item.nativeAt]

/-- The list of each way is taken to live at the same keys. -/
theorem livesAt_nativeAt (base : Path) (items : List Item) (keys : List String) :
    livesAt (items.map (Item.nativeAt base)) base (keys.map .field) = base ++ keys.map .field := by
  rw [livesAt, livesAlong_map_field, told_nativeAt, Option.getD_none]

/-- What fields that live where they are shown become, but for the fields inside lists. -/
theorem emit_map_nativeAt (config : Config) (scope : Scope) (items : List Item) :
    emit config scope (items.map (Item.nativeAt scope.base)) =
      .product (wholes config .document (items.map (Item.nativeAt [])) ++
        plains config .document (items.map (Item.nativeAt [])) ++
        (Group.keyses items).map fun keys =>
          wrap keys (.collect (.pipe (.read .input (elementsAt keys))
            (emit config (.element (scope.base ++ elementsAt keys))
              ((Group.ofKeys items keys).members.map
                (Item.nativeAt (scope.base ++ elementsAt keys))))))) := by
  have hvalue : ∀ item : Item, (item.nativeAt scope.base).value config scope =
      (item.nativeAt []).value config .document := fun item =>
    (value_nativeAt config scope item).trans (value_nativeAt config .document item).symm
  have hwholes : wholes config scope (items.map (Item.nativeAt scope.base)) =
      wholes config .document (items.map (Item.nativeAt [])) := by
    rw [wholes, wholes, List.filter_map, List.filter_map, List.map_map, List.map_map]
    exact List.map_congr_left fun item _ => hvalue item
  have hplains : plains config scope (items.map (Item.nativeAt scope.base)) =
      plains config .document (items.map (Item.nativeAt [])) := by
    have hfields : (items.map (Item.nativeAt scope.base)).filterMap (Item.plain? config scope) =
        (items.map (Item.nativeAt [])).filterMap (Item.plain? config .document) := by
      rw [List.filterMap_map, List.filterMap_map]
      refine List.filterMap_congr fun item _ => ?_
      rw [Function.comp_apply, Function.comp_apply, Item.plain?, Item.plain?, hvalue]
      rfl
    rw [plains, plains, hfields]
  rw [emit_eq_livesAt, hwholes, hplains, keyses_map (Item.nativeAt scope.base) fun _ => rfl]
  congr 2
  refine List.map_congr_left fun keys _ => ?_
  rw [listQuery, livesAt_nativeAt, members_map (member?_nativeAt scope.base keys),
    List.append_assoc]
  exact congrArg (fun run => wrap keys (.collect (.pipe run _))) (locate_native config scope keys)

/-- What is made of fields that live where they are shown does not depend on the scope. -/
theorem emit_nativeAt (config : Config) (scope : Scope) (items : List Item) :
    emit config scope (items.map (Item.nativeAt scope.base)) =
      emit config .document (items.map (Item.nativeAt [])) := by
  induction items using induction_members generalizing scope with
  | step items ih =>
    have hdocument := emit_map_nativeAt config .document items
    rw [Scope.base] at hdocument
    rw [emit_map_nativeAt, hdocument]
    congr 2
    refine List.map_congr_left fun keys hkeys => ?_
    have hinside := ih keys (Group.mem_keyses.mp hkeys)
    have hscope := hinside (.element (scope.base ++ elementsAt keys))
    have helement := hinside (.element ([] ++ elementsAt keys))
    rw [base_element] at hscope helement
    rw [hscope, helement]

/-! ## The same fields inside a list -/

/-- A field as it is shown inside the elements of a list. -/
def Item.within (keys : List String) (item : Item) : Item :=
  { item with rest := elementsAt keys ++ item.rest }

/-- Fields inside one list all go the way to it. -/
theorem keyses_map_within (keys : List String) {items : List Item} (hne : items ≠ []) :
    Group.keyses (items.map (Item.within keys)) = [keys] := by
  refine List.perm_singleton.mp ((List.perm_ext_iff_of_nodup (nodup_eraseDups _)
    (List.nodup_singleton keys)).mpr fun others => ?_)
  rw [← Group.keyses, Group.mem_keyses, List.mem_singleton]
  constructor
  · rintro ⟨item, hitem, inside, hrest⟩
    obtain ⟨other, -, rfl⟩ := List.mem_map.mp hitem
    exact eq_of_leads ⟨inside, hrest.symm⟩ (List.prefix_append (elementsAt keys) other.rest)
  · rintro rfl
    obtain ⟨item, hitem⟩ := List.exists_mem_of_ne_nil _ hne
    exact ⟨item.within others, List.mem_map_of_mem hitem, item.rest, rfl⟩

/-- Seen from an element they are the fields themselves. -/
theorem members_map_within (keys : List String) (items : List Item) :
    (Group.ofKeys (items.map (Item.within keys)) keys).members.map (Item.nativeAt []) =
      items.map (Item.nativeAt []) := by
  rw [Group.members_ofKeys, List.filterMap_map, List.map_filterMap, ← List.filterMap_eq_map]
  refine List.filterMap_congr fun item _ => ?_
  have hinside : following? (elementsAt keys) (item.within keys).rest = some item.rest :=
    following?_eq_some_iff.mpr rfl
  simp only [Function.comp_apply, Item.member?, hinside, Option.map_some]
  rfl

/-- The query of fields inside a list collects for each element what is made of the fields. -/
theorem emit_map_within (config : Config) (keys : List String) {items : List Item}
    (hne : items ≠ []) :
    emit config .document ((items.map (Item.within keys)).map (Item.nativeAt [])) =
      wrap keys (.collect (.pipe (.read .input (elementsAt keys))
        (emit config .document (items.map (Item.nativeAt []))))) := by
  have hwholes : wholes config .document ((items.map (Item.within keys)).map (Item.nativeAt [])) =
      [] := by
    rw [wholes, List.map_eq_nil_iff, List.filter_eq_nil_iff]
    simp [Item.nativeAt, Item.within, elementsAt]
  have hplains : plains config .document ((items.map (Item.within keys)).map (Item.nativeAt [])) =
      [] := by
    have hnone : ((items.map (Item.within keys)).map (Item.nativeAt [])).filterMap
        (Item.plain? config .document) = [] := by
      rw [List.filterMap_map, List.filterMap_map, List.filterMap_eq_nil_iff]
      intro item _
      have heach : Path.hasEach (elementsAt keys ++ item.rest) = true := by
        simp [elementsAt, Path.hasEach, Segment.isEach]
      exact if_pos heach
    rw [plains, hnone]
  have hemit := emit_map_nativeAt config .document (items.map (Item.within keys))
  have hinside := emit_nativeAt config (.element ([] ++ elementsAt keys))
    (Group.ofKeys (items.map (Item.within keys)) keys).members
  rw [members_map_within, base_element] at hinside
  rw [Scope.base, hwholes, hplains, keyses_map_within keys hne, List.map_singleton, hinside]
    at hemit
  exact hemit

/-- The text of a query wrapped in keys. -/
theorem render_wrap (keys : List String) (query : Query) :
    (wrap keys query).render = keys.foldr (fun key inside =>
      "\x7b" ++ renderKey key ++ ": " ++ inside ++ "\x7d") query.render := by
  induction keys with
  | nil => rfl
  | cons key keys ih =>
    have hwrap : wrap (key :: keys) query = .object [(key, wrap keys query)] := rfl
    rw [hwrap, List.foldr_cons, ← ih, Query.render, Query.renderEntries, Query.renderEntries,
      Query.renderObject]
    simp [String.append_assoc]

end Synthesis

/-! ## Entries inside a list -/

/-- An address as it is behind the elements of the list that some keys lead to. -/
def Address.within (keys : List String) (address : String) : String :=
  match Address.parse address with
  | .ok path => Path.address (Synthesis.elementsAt keys ++ path)
  | .error _ => address

/-- An entry with both addresses behind the elements of the list that some keys lead to. -/
def Entry.within (keys : List String) (entry : Entry) : Entry :=
  { entry with
    display := Address.within keys entry.display
    source := Address.within keys entry.source }

/-- An entry of a field that lives where it is shown, and says nothing of its lists. -/
structure Entry.IsNative (entry : Entry) : Prop where
  canonical : Address.IsCanonical entry.display
  source : entry.source = entry.display
  arrays : entry.arrays = []

/-- The item of such an entry. -/
def Entry.nativeItem (entry : Entry) : Synthesis.Item :=
  let path := (Address.parse entry.display).toOption.getD []
  { rest := path, source := path, order := entry.order, arrays := [] }

namespace Entry

variable {entry : Entry} (h : entry.IsNative)

include h

/-- Such an entry is read as its item. -/
theorem IsNative.ofEntry : Synthesis.Item.ofEntry entry = .ok entry.nativeItem := by
  obtain ⟨hcanonical, hsource, harrays⟩ := h
  obtain ⟨path, hpath⟩ := Address.isCanonical_iff.mp hcanonical
  rw [Synthesis.Item.ofEntry, nativeItem, hsource, harrays, ← hpath, Address.parse_address]
  rfl

/-- Behind the elements of a list it is read as its item inside the list. -/
theorem IsNative.ofEntry_within (keys : List String) :
    Synthesis.Item.ofEntry (entry.within keys) =
      .ok ((entry.nativeItem.within keys).nativeAt []) := by
  obtain ⟨hcanonical, hsource, harrays⟩ := h
  obtain ⟨path, hpath⟩ := Address.isCanonical_iff.mp hcanonical
  have hwithin : Address.within keys entry.display =
      Path.address (Synthesis.elementsAt keys ++ path) := by
    rw [Address.within, ← hpath, Address.parse_address]
  rw [Synthesis.Item.ofEntry, nativeItem, within, hsource, hwithin, harrays, ← hpath,
    Address.parse_address, Address.parse_address]
  rfl

end Entry

/-- Fields that live where they are shown need no root variable. -/
theorem Synthesis.ofItems_nativeAt (config : Config) {items : List Item} (hne : items ≠ []) :
    ofItems config (items.map (Item.nativeAt [])) =
      emit config .document (items.map (Item.nativeAt [])) := by
  have hsome : (items.map (Item.nativeAt [])).isEmpty = false := by
    rw [List.isEmpty_map, List.isEmpty_eq_false_iff]
    exact hne
  have hplace : (items.map (Item.nativeAt [])).any Item.isRelocated = false := by
    simp [Item.isRelocated, Item.nativeAt]
  unfold ofItems
  simp only [hsome, hplace, Bool.false_eq_true, if_false]

/-- The items of some entries in order, of fields that live where they are shown. -/
def nativeItems (entries : List Entry) : List Synthesis.Item :=
  (Trie.sortByOrder Entry.order entries).map Entry.nativeItem

section Native

variable (config : Config) {entries : List Entry} (hne : entries ≠ [])
  (hnative : ∀ entry ∈ entries, entry.IsNative)

include hne in
/-- There are as many items as entries, so there are some. -/
theorem nativeItems_ne_nil : nativeItems entries ≠ [] := by
  obtain ⟨entry, hentry⟩ := List.exists_mem_of_ne_nil _ hne
  exact List.ne_nil_of_mem (List.mem_map_of_mem (Trie.mem_sortByOrder.mpr hentry))

include hne hnative

/-- The query of entries of fields that live where they are shown. -/
theorem query_native : Synthesis.query config entries =
    .ok (Synthesis.emit config .document
      ((nativeItems entries).map (Synthesis.Item.nativeAt []))) := by
  have hitems : (Trie.sortByOrder Entry.order entries).mapM Synthesis.Item.ofEntry =
      .ok ((nativeItems entries).map (Synthesis.Item.nativeAt [])) := by
    rw [nativeItems, List.map_map]
    exact mapM_eq_ok fun entry hentry => (hnative entry (Trie.mem_sortByOrder.mp hentry)).ofEntry
  rw [Synthesis.query, hitems, ← Synthesis.ofItems_nativeAt config (nativeItems_ne_nil hne)]
  rfl

/-- The query of the same entries inside a list. -/
theorem query_within (keys : List String) :
    Synthesis.query config (entries.map (Entry.within keys)) =
      .ok (Synthesis.wrap keys (.collect (.pipe (.read .input (Synthesis.elementsAt keys))
        (Synthesis.emit config .document
          ((nativeItems entries).map (Synthesis.Item.nativeAt [])))))) := by
  have hsome := nativeItems_ne_nil hne
  have hsorted : Trie.sortByOrder Entry.order (entries.map (Entry.within keys)) =
      (Trie.sortByOrder Entry.order entries).map (Entry.within keys) :=
    Trie.sortByOrder_map (Entry.within keys) (fun _ => rfl) entries
  have hitems : ((Trie.sortByOrder Entry.order entries).map (Entry.within keys)).mapM
      Synthesis.Item.ofEntry = .ok (((nativeItems entries).map (Synthesis.Item.within keys)).map
        (Synthesis.Item.nativeAt [])) := by
    rw [nativeItems, List.map_map, List.map_map, List.mapM_map]
    exact mapM_eq_ok fun entry hentry =>
      (hnative entry (Trie.mem_sortByOrder.mp hentry)).ofEntry_within keys
  rw [Synthesis.query, hsorted, hitems, ← Synthesis.emit_map_within config keys hsome,
    ← Synthesis.ofItems_nativeAt config (by simpa using hsome)]
  rfl

end Native

/-- Synthesis is compositional in lists: for all options and all entries of fields that live where
they are shown and say nothing of their lists, there is an expression, and the expression of the
same fields inside a list runs through the elements of this list with the same expression, in
brackets and wrapped in an object construction for each key on the way to the list. -/
theorem nested_expression (config : Config) (keys : List String) {entries : List Entry}
    (hne : entries ≠ []) (hnative : ∀ entry ∈ entries, entry.IsNative) :
    ∃ text, Synthesis.expression config entries = .ok text ∧
      Synthesis.expression config (entries.map (Entry.within keys)) =
        .ok (keys.foldr (fun key inside => "\x7b" ++ renderKey key ++ ": " ++ inside ++ "\x7d")
          ("[" ++ Path.access "" (Synthesis.elementsAt keys) ++ " | " ++ text ++ "]")) := by
  refine ⟨_, congrArg (Except.map Query.render) (query_native config hne hnative), ?_⟩
  rw [Synthesis.expression, query_within config hne hnative, Except.map, Synthesis.render_wrap,
    Query.render, Query.render, Query.render_read_input]
  simp only [String.append_assoc]

/-- Entries of a field, of fields in a list and in a list inside it, and of the elements of a list,
out of order. -/
def record : List Entry :=
  [⟨"$.n[].m[].z", "$.n[].m[].z", "z", 2, []⟩, ⟨"$.x", "$.x", "x", 0, []⟩,
    ⟨"$.t[]", "$.t[]", "t", 3, []⟩, ⟨"$.n[].y", "$.n[].y", "y", 1, []⟩]

/-- The expression of these entries. -/
def recordText : String :=
  "\x7bx: .x\x7d * \x7bn: [.n[] | \x7by: .y\x7d * \x7bm: [.m[] | \x7bz: .z\x7d]\x7d]\x7d" ++
    " * \x7bt: [.t[] | .]\x7d"

/-- The entries inside a list are projected by the expression that they have by themselves. -/
theorem nested_expression_record : record ≠ [] ∧ (∀ entry ∈ record, entry.IsNative) ∧
    Synthesis.expression .standard record = .ok recordText ∧
    Synthesis.expression .standard (record.map (Entry.within ["a", "b c"])) =
      .ok ("\x7ba: \x7b\"b c\": [.a.\"b c\"[] | " ++ recordText ++ "]\x7d\x7d") := by
  have hne : record ≠ [] := List.cons_ne_nil _ _
  have hnative : ∀ entry ∈ record, entry.IsNative := by
    have hcanonical : ∀ entry ∈ record, Address.canonical entry.display = .ok entry.display := by
      decide +kernel
    intro entry hentry
    refine ⟨hcanonical entry hentry, ?_, ?_⟩
    · revert entry
      decide
    · revert entry
      decide
  have hrecord : Synthesis.expression .standard record = .ok recordText := by
    cbv
  obtain ⟨text, htext, hwithin⟩ := nested_expression .standard ["a", "b c"] hne hnative
  obtain rfl := Except.ok.inj (hrecord.symm.trans htext)
  refine ⟨hne, hnative, hrecord, hwithin.trans ?_⟩
  decide +kernel

end Projector
