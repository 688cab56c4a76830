import Projector.Proofs.Survivors

/-!
# The orders in a trie

When the paths of the fields are apart, no field ends another, and a branch has the order of the
field that it was made for, which is the least of all below it. Fields of different branches may be
put in by turns. Still the children of a branch stand in the order of their first fields, since a
child is made when its first field is put in, behind the children that are there.
-/

namespace Projector

namespace Fields

/-- What holds of each two fields in their order still does after a write when the written field
stands to the others as the one before it under its name, if there was one. -/
theorem pairwise_put {α : Type} {related : String × α → String × α → Prop} {fields : Fields α}
    {name : String} {value : α} (h : fields.Pairwise related)
    (hbefore : ∀ field ∈ fields, (∀ old, (name, old) ∈ fields → related field (name, old)) →
      related field (name, value))
    (hafter : ∀ field ∈ fields, ∀ old, (name, old) ∈ fields → related (name, old) field →
      related (name, value) field) :
    (put fields name value).Pairwise related := by
  induction fields with
  | nil => exact List.pairwise_singleton _ _
  | cons first rest ih =>
    obtain ⟨other, old⟩ := first
    obtain ⟨hfirst, hrest⟩ := List.pairwise_cons.mp h
    rw [put]
    split
    · rename_i heq
      subst heq
      refine List.pairwise_cons.mpr ⟨fun field hfield => ?_, hrest⟩
      exact hafter field (List.mem_cons_of_mem _ hfield) old List.mem_cons_self
        (hfirst field hfield)
    · rename_i hne
      have hmem : ∀ before, (name, before) ∈ (other, old) :: rest → (name, before) ∈ rest :=
        fun before hfield => List.mem_of_ne_of_mem
          (fun heq => hne (Prod.mk.inj heq).1.symm) hfield
      refine List.pairwise_cons.mpr ⟨fun field hfield => ?_, ih hrest ?_ ?_⟩
      · rcases mem_put hfield with rfl | hfield
        · exact hbefore _ List.mem_cons_self fun before hold => hfirst _ (hmem before hold)
        · exact hfirst field hfield
      · exact fun field hfield hold => hbefore field (List.mem_cons_of_mem _ hfield)
          fun before hbefore => hold before (hmem before hbefore)
      · exact fun field hfield before hold => hafter field (List.mem_cons_of_mem _ hfield) before
          (List.mem_cons_of_mem _ hold)

end Fields

namespace Trie

variable {α : Type} {related : α → α → Prop}

/-- Of what holds of a branch in any case, something follows for each branch. -/
theorem EveryBranch.imp {property weaker : Int → Fields (Trie α) → Prop} {trie : Trie α}
    (h : EveryBranch property trie)
    (himp : ∀ order children, property order children → weaker order children) :
    EveryBranch weaker trie := by
  induction h with
  | leaf value order => exact .leaf value order
  | branch hhere _ ih => exact .branch (himp _ _ hhere) ih

/-! ## What a field keeps -/

/-- One leaf comes before another, which is also related to it. -/
def Leaf.Before (related : α → α → Prop) (leaf other : Leaf α) : Prop :=
  leaf.order ≤ other.order ∧ related leaf.value other.value

/-- A branch with the least order of the leaves below it, of whose children each has a leaf that
comes before all leaves of the later children. -/
structure Led (related : α → α → Prop) (order : Int) (children : Fields (Trie α)) : Prop where
  distinct : Fields.Distinct children
  attained : ∃ leaf ∈ listingBelow children, leaf.order = order
  least : ∀ leaf ∈ listingBelow children, order ≤ leaf.order
  leads : children.Pairwise fun child later =>
    ∃ leaf ∈ listing child.2, ∀ other ∈ listing later.2, leaf.Before related other

/-- The order of a trie is the least of its leaves. -/
theorem EveryBranch.least_order {trie : Trie α} (h : EveryBranch (Led related) trie) :
    (∃ leaf ∈ listing trie, leaf.order = trie.order) ∧
      ∀ leaf ∈ listing trie, trie.order ≤ leaf.order := by
  cases h with
  | leaf value order => simp [listing, Trie.order]
  | branch hhere _ => exact ⟨hhere.attained, hhere.least⟩

/-- No branch of such a trie has two children with the same key. -/
theorem EveryBranch.keyed {trie : Trie α} (h : EveryBranch (Led related) trie) : Keyed trie :=
  h.imp fun _ _ hled => hled.distinct

/-- The leaves of what stands at a place are those of the trie there. -/
theorem mem_held {known : Option (Trie α)} {leaf : Leaf α} :
    leaf ∈ held known ↔ ∃ trie ∈ known, leaf ∈ listing trie := by
  cases known <;> simp [held]

/-- A field that is put in where its path meets no leaf is there beside all leaves. -/
theorem mem_listing_plant {path : List String} {known : Option (Trie α)}
    (hkeyed : ∀ trie ∈ known, Keyed trie)
    (hapart : ∀ leaf ∈ held known, Leaves.Apart leaf.path path) (value : α) (order : Int)
    (leaf : Leaf α) : leaf ∈ listing (plant value order path known) ↔
      leaf ∈ held known ∨ leaf = ⟨path, value, order⟩ := by
  have hunmet : unmet path (held known) = held known :=
    List.filter_eq_self.mpr fun leaf hleaf => by simpa using hapart leaf hleaf
  rw [(listing_plant value order path hkeyed).mem_iff, hunmet, List.mem_append,
    List.mem_singleton]

/-- The leaves of the child with a key are leaves of the children, below its key. -/
theorem mem_listingBelow_of_held {children : Fields (Trie α)} {key : String} {leaf : Leaf α}
    (h : leaf ∈ held (Fields.get? children key)) : leaf.below key ∈ listingBelow children := by
  obtain ⟨child, hget, hleaf⟩ := mem_held.mp h
  exact mem_listingBelow (Fields.mem_of_get? hget) hleaf

/-- Putting a field in behind all leaves that are there keeps a branch led. -/
theorem Led.insert {first : Int} {children : Fields (Trie α)} (h : Led related first children)
    (hchild : ∀ child ∈ children, EveryBranch (Led related) child.2) {item : Item α}
    (hapart : ∀ leaf ∈ listingBelow children, Leaves.Apart leaf.path item.path)
    (hlast : ∀ leaf ∈ listingBelow children, leaf.Before related item.leaf) :
    Led related first (insert children item) := by
  let known := Fields.get? children item.key
  let new := plant item.value item.order item.below known
  have hleaves : ∀ leaf, leaf ∈ listingBelow (Trie.insert children item) ↔
      leaf ∈ listingBelow children ∨ leaf = item.leaf := by
    refine @mem_listing_plant α item.path (some (.branch first children)) ?_ hapart item.value
      item.order
    rintro trie ⟨⟩
    exact .branch h.distinct fun child hmem => (hchild child hmem).keyed
  have hnew : ∀ leaf, leaf ∈ listing new ↔
      leaf ∈ held known ∨ leaf = ⟨item.below, item.value, item.order⟩ :=
    mem_listing_plant (fun child hget => (hchild _ (Fields.mem_of_get? hget)).keyed)
      (fun leaf hleaf => Leaves.apart_cons.mp (hapart _ (mem_listingBelow_of_held hleaf)))
      item.value item.order
  refine ⟨Fields.distinct_put _ _ h.distinct, ?_, ?_, ?_⟩
  · obtain ⟨leaf, hleaf, horder⟩ := h.attained
    exact ⟨leaf, (hleaves leaf).mpr (.inl hleaf), horder⟩
  · intro leaf hleaf
    rcases (hleaves leaf).mp hleaf with hleaf | rfl
    · exact h.least leaf hleaf
    · obtain ⟨leaf, hleaf, horder⟩ := h.attained
      rw [← horder]
      exact (hlast leaf hleaf).1
  · refine Fields.pairwise_put h.leads ?_ ?_
    · -- Any leaf of a child will do for a new child, and else the one that led the old child.
      intro child hmem hold
      obtain ⟨leaf, hleaf, hleads⟩ : ∃ leaf ∈ listing child.2, ∀ other ∈ held known,
          leaf.Before related other := by
        cases hget : known with
        | none =>
          obtain ⟨⟨leaf, hleaf, -⟩, -⟩ := (hchild child hmem).least_order
          exact ⟨leaf, hleaf, by simp [held]⟩
        | some old => exact hold old (Fields.mem_of_get? hget)
      refine ⟨leaf, hleaf, fun other hother => ?_⟩
      rcases (hnew other).mp hother with hother | rfl
      · exact hleads other hother
      · exact hlast (leaf.below child.1) (mem_listingBelow hmem hleaf)
    · rintro child - old hold ⟨leaf, hleaf, hleads⟩
      refine ⟨leaf, (hnew leaf).mpr (.inl (mem_held.mpr ⟨old, ?_, hleaf⟩)), hleads⟩
      exact Fields.get?_of_mem h.distinct hold

/-- Putting a field in behind all leaves that are there keeps every branch led. -/
theorem led_plant (value : α) (order : Int) (path : List String) {known : Option (Trie α)}
    (h : ∀ trie ∈ known, EveryBranch (Led related) trie)
    (hapart : ∀ leaf ∈ held known, Leaves.Apart leaf.path path)
    (hlast : ∀ leaf ∈ held known, leaf.Before related ⟨path, value, order⟩) :
    EveryBranch (Led related) (plant value order path known) := by
  induction path generalizing known with
  | nil => exact .leaf value order
  | cons key path ih =>
    have halone : EveryBranch (Led related)
        (.branch order [(key, plant value order path none)]) := by
      have hnew := @ih none (by simp) (by simp [held]) (by simp [held])
      have hleaves : ∀ leaf, leaf ∈ listingBelow [(key, plant value order path none)] ↔
          leaf ∈ [] ∨ leaf = ⟨key :: path, value, order⟩ :=
        @mem_listing_plant α (key :: path) none (by simp) (by simp [held]) value order
      refine .branch ⟨List.nodup_singleton key, ?_, ?_, List.pairwise_singleton _ _⟩
        (List.forall_mem_singleton.mpr hnew)
      · exact ⟨_, (hleaves _).mpr (.inr rfl), rfl⟩
      · intro leaf hleaf
        rw [((hleaves leaf).mp hleaf).resolve_left List.not_mem_nil]
    cases known with
    | none => exact halone
    | some trie =>
      cases h trie rfl with
      | leaf content first => exact halone
      | @branch first children hled hchild =>
        have hinserted := @Led.insert _ _ _ _ hled hchild ⟨key, path, value, order⟩ hapart hlast
        refine .branch hinserted fun child hmem => ?_
        rcases Fields.mem_put hmem with rfl | hmem
        · exact ih (fun child hget => hchild _ (Fields.mem_of_get? hget))
            (fun leaf hleaf => Leaves.apart_cons.mp (hapart _ (mem_listingBelow_of_held hleaf)))
            fun leaf hleaf => hlast (leaf.below key) (mem_listingBelow_of_held hleaf)
        · exact hchild child hmem

/-- Fields that are put in one behind the other, by paths that are apart, keep every branch led. -/
theorem led_foldl_insert {first : Item α} {items : List (Item α)}
    (hapart : (first :: items).Pairwise fun item other => Leaves.Apart item.path other.path)
    (hlast : (first :: items).Pairwise fun item other => item.leaf.Before related other.leaf) :
    EveryBranch (Led related) (.branch first.order ((first :: items).foldl Trie.insert [])) := by
  induction items using List.reverseRecOn with
  | nil =>
    exact @led_plant _ _ first.value first.order first.path none (by simp) (by simp [held])
      (by simp [held])
  | append_singleton items item ih =>
    rw [← List.cons_append, List.pairwise_append] at hapart hlast
    have hknown := ih hapart.1 hlast.1
    have hlisting := (listing_foldl_insert first.order (first :: items)).2
    rw [survivors_of_apart hapart.1] at hlisting
    have hleaf : ∀ leaf ∈ listingBelow ((first :: items).foldl Trie.insert []),
        ∃ other ∈ first :: items, other.leaf = leaf := fun leaf hleaf =>
      List.mem_map.mp (hlisting.mem_iff.mp hleaf)
    rw [← List.cons_append, List.foldl_append]
    refine @led_plant _ _ item.value item.order item.path
      (some (.branch first.order ((first :: items).foldl Trie.insert []))) ?_ ?_ ?_
    · rintro trie ⟨⟩
      exact hknown
    · intro leaf hmem
      obtain ⟨other, hother, rfl⟩ := hleaf leaf hmem
      exact hapart.2.2 other hother item (List.mem_singleton_self _)
    · intro leaf hmem
      obtain ⟨other, hother, rfl⟩ := hleaf leaf hmem
      exact hlast.2.2 other hother item (List.mem_singleton_self _)

/-- So does sorting fields by their order, when they are related in ascending order. -/
theorem led_ofItems {items : List (Item α)} (hne : items ≠ [])
    (hapart : items.Pairwise fun item other => Leaves.Apart item.path other.path)
    (hrelated : (sortByOrder Item.order items).Pairwise fun item other =>
      related item.value other.value) :
    EveryBranch (Led related) (ofItems items) := by
  have harranges := arranges_sortByOrder Item.order items
  have hsorted := (harranges.perm.pairwise_iff fun h => Leaves.Apart.symm h).mpr hapart
  have hlast := harranges.ascending.and hrelated
  cases hcases : sortByOrder Item.order items with
  | nil => exact absurd (List.nil_perm.mp (hcases ▸ harranges.perm)) hne
  | cons first rest =>
    rw [hcases] at hsorted hlast
    rw [ofItems, hcases]
    exact led_foldl_insert hsorted hlast

/-! ## Least orders -/

/-- A branch with the least order of the leaves below it and children in ascending order. -/
structure Grades (order : Int) (children : Fields (Trie α)) : Prop where
  attained : ∃ leaf ∈ listingBelow children, leaf.order = order
  least : ∀ leaf ∈ listingBelow children, order ≤ leaf.order
  ascending : children.Pairwise fun child later => child.2.order ≤ later.2.order

/-- A trie whose branches all have the least order of the leaves below them, and children in
ascending order. -/
def Graded (trie : Trie α) : Prop := EveryBranch Grades trie

/-- Children whose leaves lead each other are in ascending order. -/
theorem EveryBranch.graded {trie : Trie α} (h : EveryBranch (Led related) trie) : Graded trie := by
  induction h with
  | leaf value order => exact .leaf value order
  | branch hhere hchild ih =>
    refine .branch ⟨hhere.attained, hhere.least, hhere.leads.imp_of_mem ?_⟩ ih
    rintro child later hmem hlater ⟨leaf, hleaf, hleads⟩
    obtain ⟨⟨other, hother, horder⟩, -⟩ := (hchild later hlater).least_order
    calc child.2.order
      _ ≤ leaf.order := (hchild child hmem).least_order.2 leaf hleaf
      _ ≤ other.order := (hleads other hother).1
      _ = later.2.order := horder

end Trie

end Projector
