import Projector.Proofs.Arrangements
import Projector.Proofs.EmittedValues
import Projector.Proofs.TwinQueries

/-!
# Emitted queries with compression and without

What is emitted for the fields of a scope with compression mirrors what is emitted without: both run
through the same lists, read the same values, and only the tries of the fields outside every list
are folded in different ways. Inside a list the same holds in each element, which carries the
induction on the height of the fields.
-/

namespace Projector.Synthesis

open Query

/-- The key paths at which the query of some fields writes: those of the fields outside every list,
and the ways to lists. -/
def fronts (items : List Item) : Set (List String) :=
  {path | (∃ item ∈ items, item.rest = path.map .field) ∨ path ∈ Group.keyses items}

/-- The query of a field writes somewhere. -/
theorem fronts_nonempty {items : List Item} (hne : items ≠ []) : (fronts items).Nonempty := by
  obtain ⟨item, hitem⟩ := List.exists_mem_of_ne_nil items hne
  cases hsplit : splitEach? item.rest with
  | none =>
    exact ⟨Path.names item.rest, .inl ⟨item, hitem,
      eq_map_field_of_not_hasEach (splitEach?_eq_none_iff.mp hsplit)⟩⟩
  | some split =>
    exact ⟨split.1, .inr (Group.mem_keyses.mpr ⟨item, hitem, split.2, splitEach?_eq_some hsplit⟩)⟩

/-- The names on the paths of some fields have no dots. -/
def DotFree (items : List Item) : Prop :=
  ∀ item ∈ items, ∀ name, .field name ∈ item.rest → '.' ∉ name.toList

/-- Inside a list the names on the paths have no dots either. -/
theorem DotFree.members {items : List Item} (h : DotFree items) (keys : List String) :
    DotFree (Group.ofKeys items keys).members := by
  intro member hmember name hname
  obtain ⟨item, hitem, hrest, -⟩ := Group.mem_members_ofKeys.mp hmember
  exact h item hitem name (by rw [hrest]; exact List.mem_append_right _ hname)

/-- The keys to a list have no dots. -/
theorem DotFree.keys {items : List Item} (h : DotFree items) {keys : List String}
    (hkeys : keys ∈ Group.keyses items) : ∀ key ∈ keys, '.' ∉ key.toList := by
  obtain ⟨item, hitem, inside, hrest⟩ := Group.mem_keyses.mp hkeys
  intro key hkey
  refine h item hitem key ?_
  rw [hrest, elementsAt]
  simp [hkey]

section Mirrors

variable {bound : Fields Json} {value : Json} {config : Config}

/-- What is read in a scope has no dots in its keys when the value and the document have none. -/
theorem undotted_locate
    (hbound : ∀ document, Fields.get? bound config.rootVariable = some document →
      document.Undotted)
    (hvalue : value.Undotted) (scope : Scope) (shown source : Path) :
    ∀ output ∈ ((locate config scope shown source).eval bound value).values, output.Undotted := by
  have hinput : ∀ start ∈ (Query.input.eval bound value).values, start.Undotted := by
    intro start hstart
    rw [Query.eval, Outputs.values_one, List.mem_singleton] at hstart
    exact hstart ▸ hvalue
  have hroot : ∀ start ∈ ((Query.var config.rootVariable).eval bound value).values,
      start.Undotted := by
    intro start hstart
    rw [Query.eval] at hstart
    cases hget : Fields.get? bound config.rootVariable with
    | none =>
      rw [hget] at hstart
      cases hstart
    | some document =>
      rw [hget] at hstart
      rw [List.mem_singleton.mp hstart]
      exact hbound document hget
  unfold locate
  split
  · split
    · exact Json.undotted_read hinput source
    · exact Json.undotted_read hroot source
  · split
    · exact Json.undotted_read hinput _
    · exact Json.undotted_read hroot source

/-- Wrapped queries have twin outputs when the queries have. -/
theorem mirrors_wrap {query other : Query} (h : Mirrors bound value [] {[]} query other)
    {keys : List String} (hfree : ∀ key ∈ keys, '.' ∉ key.toList) :
    Mirrors bound value [] {keys} (wrap keys query) (wrap keys other) := by
  induction keys with
  | nil => exact h
  | cons key keys ih =>
    have hinside := ih fun other hother => hfree other (List.mem_cons_of_mem _ hother)
    let pairing : Pairing := ⟨(key, wrap keys query), (key, wrap keys other), [], {keys}⟩
    have hholds : pairing.Holds bound value :=
      ⟨Trie.parts_of_dotFree (hfree key List.mem_cons_self), Set.singleton_nonempty _, hinside⟩
    have hpaths : {path | ∃ entry ∈ [pairing], path ∈ entry.leaves} = {key :: keys} := by
      ext path
      simp [pairing, Pairing.leaves, Json.pathsBehind]
    have hobject := @mirrors_object bound value [pairing] (by simpa using hholds) (by simp)
    rw [hpaths] at hobject
    exact hobject

/-- The object constructions of the fields outside every list have twin outputs. -/
theorem Laid.mirrors_plains {home : Path → Path} {base : Path} {items : List Item}
    (h : Laid home base items) (config : Config) (scope : Scope)
    (hbelow : ∀ item ∈ items, item.rest ≠ []) (hfree : DotFree items)
    (hbound : ∀ document, Fields.get? bound config.rootVariable = some document →
      document.Undotted) (hvalue : value.Undotted) :
    ∃ factors : List Factor,
      plains (config.withCompression true) scope items = factors.map Factor.joined ∧
      plains (config.withCompression false) scope items = factors.map Factor.plain ∧
      (∀ factor ∈ factors, factor.Holds bound value) ∧
      (factors.Pairwise fun factor other => Json.PathsApart factor.paths other.paths) ∧
      ∀ path, (∃ factor ∈ factors, path ∈ factor.paths) ↔
        ∃ item ∈ items, item.rest = path.map .field := by
  have hnames : ∀ path, (∃ item ∈ items, item.rest = path.map .field) ↔
      ∃ item ∈ outside items, (item.field config scope).path = path :=
    fun _ => (exists_path_field_iff config scope hbelow).symm
  by_cases hnone : outside items = []
  · refine ⟨[], plains_of_outside_eq_nil _ scope hbelow hnone,
      plains_of_outside_eq_nil _ scope hbelow hnone, by simp, by simp, fun path => ?_⟩
    rw [hnames, hnone]
    simp
  · obtain ⟨htidy, hlisting⟩ := h.tidy_outside config scope hbelow
    have hleaves : ∀ leaf ∈ Trie.listingBelow (Trie.ofItems
        ((outside items).map (Item.field config scope))).children, leaf.Undotted bound value := by
      intro leaf hmem
      rw [hlisting, List.map_map] at hmem
      obtain ⟨item, hitem, rfl⟩ := List.mem_map.mp hmem
      refine ⟨fun name hname => hfree item (mem_outside.mp hitem).1 name ?_,
        undotted_locate hbound hvalue scope _ _⟩
      rw [← Item.path_of_mem_outside config scope hbelow hitem]
      exact List.mem_map_of_mem hname
    let children := (Trie.ofItems ((outside items).map (Item.field config scope))).children
    let factor : Factor := ⟨Trie.fold .object id true children,
      Trie.fold .object id false children, Trie.pathsBelow children⟩
    have hpaths : ∀ path, path ∈ factor.paths ↔ ∃ item ∈ items, item.rest = path.map .field := by
      intro path
      rw [hnames]
      simp only [factor, children, Trie.pathsBelow, hlisting, List.map_map, Set.mem_ofPred_eq,
        List.mem_map, exists_exists_and_eq_and]
      rfl
    obtain ⟨item, hitem⟩ := List.exists_mem_of_ne_nil _ hnone
    refine ⟨[factor], plains_of_outside_ne_nil _ scope hbelow hnone,
      plains_of_outside_ne_nil _ scope hbelow hnone, List.forall_mem_singleton.mpr ⟨⟨_,
        (hpaths _).mpr ((hnames _).mpr ⟨item, hitem, rfl⟩)⟩, htidy.mirrors_fold hleaves⟩,
      List.pairwise_singleton _ _, fun path => ?_⟩
    rw [← hpaths]
    simp

/-- The products of the object constructions and of queries for the ways to lists have twin outputs
when the queries for each way have. -/
theorem Laid.mirrors_pieces {home : Path → Path} {base : Path} {items : List Item}
    (h : Laid home base items) (hne : items ≠ []) {factors : List Factor}
    (hholds : ∀ factor ∈ factors, factor.Holds bound value)
    (hapart : factors.Pairwise fun factor other => Json.PathsApart factor.paths other.paths)
    (hpaths : ∀ path, (∃ factor ∈ factors, path ∈ factor.paths) ↔
      ∃ item ∈ items, item.rest = path.map .field) {joinedOf plainOf : List String → Query}
    (hlists : ∀ keys ∈ Group.keyses items,
      Mirrors bound value [] {keys} (joinedOf keys) (plainOf keys)) :
    Mirrors bound value [] (fronts items)
      (.product (factors.map Factor.joined ++ (Group.keyses items).map joinedOf))
      (.product (factors.map Factor.plain ++ (Group.keyses items).map plainOf)) := by
  let lists : List Factor :=
    (Group.keyses items).map fun keys => ⟨joinedOf keys, plainOf keys, {keys}⟩
  have hall : {path | ∃ factor ∈ factors ++ lists, path ∈ factor.paths} = fronts items := by
    ext path
    simp only [List.mem_append, or_and_right, exists_or, hpaths, Set.mem_ofPred_eq, fronts, lists,
      List.mem_map, exists_exists_and_eq_and, Set.mem_singleton_iff, exists_eq_right']
  have hproduct := @mirrors_product bound value (factors ++ lists) ?_ ?_ ?_
  · rw [hall] at hproduct
    simp only [List.map_append, lists, List.map_map] at hproduct
    exact hproduct
  · intro hnil
    have hsome := fronts_nonempty hne
    rw [← hall, hnil] at hsome
    simp at hsome
  · intro factor hfactor
    rcases List.mem_append.mp hfactor with hfactor | hfactor
    · exact hholds factor hfactor
    · obtain ⟨keys, hkeys, rfl⟩ := List.mem_map.mp hfactor
      exact ⟨Set.singleton_nonempty _, hlists keys hkeys⟩
  · refine List.pairwise_append.mpr ⟨hapart, ?_, ?_⟩
    · refine List.pairwise_map.mpr (h.pairwise_apart_keyses.imp ?_)
      rintro keys others hapart _ rfl _ rfl
      exact hapart
    · intro factor hfactor list hlist path hpath
      obtain ⟨keys, hkeys, rfl⟩ := List.mem_map.mp hlist
      obtain ⟨item, hitem, hrest⟩ := (hpaths path).mp ⟨factor, hfactor, hpath⟩
      rintro _ rfl
      exact h.apart_outside hitem hrest hkeys

/-- What is emitted for fields with compression and what is emitted without have twin outputs. -/
theorem Laid.mirrors_emit {home : Path → Path} {scope : Scope} {base : Path} {items : List Item}
    (h : Laid home base items) (config : Config) (hne : items ≠ []) (hfree : DotFree items)
    (hbound : ∀ document, Fields.get? bound config.rootVariable = some document →
      document.Undotted) (hvalue : value.Undotted) :
    Mirrors bound value [] (fronts items) (emit (config.withCompression true) scope items)
      (emit (config.withCompression false) scope items) := by
  induction items using induction_members generalizing scope base value with
  | step items ih =>
    rcases h.whole_or_below with ⟨item, rfl, hrest⟩ | hbelow
    · have hfronts : fronts [item] = {[]} := by
        ext path
        simp [fronts, Group.mem_keyses, hrest, elementsAt]
      rw [hfronts, emit_whole _ scope hrest, emit_whole _ scope hrest]
      exact mirrors_self (undotted_locate hbound hvalue scope _ _)
    · obtain ⟨factors, hjoined, hplain, hholds, hapart, hpaths⟩ :=
        h.mirrors_plains config scope hbelow hfree hbound hvalue
      rw [emit_of_below _ scope h.toShown hbelow, emit_of_below _ scope h.toShown hbelow, hjoined,
        hplain]
      refine h.mirrors_pieces hne hholds hapart hpaths fun keys hkeys => ?_
      have hway := Group.mem_keyses.mp hkeys
      obtain ⟨item, hitem, inside, hrest⟩ := id hway
      have hsome := List.ne_nil_of_mem (Group.member_mem hitem hrest)
      refine mirrors_wrap (mirrors_collect (fronts (Group.ofKeys items keys).members)
        fun element helement => ?_) (hfree.keys hkeys)
      exact ih keys hway (h.members keys) hsome (hfree.members keys)
        (undotted_locate hbound hvalue scope _ _ element helement)

end Mirrors

end Projector.Synthesis
