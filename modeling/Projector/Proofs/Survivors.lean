import Projector.Proofs.Listings
import Projector.Proofs.Sites

/-!
# Which fields a trie keeps

A field that is put into a trie ends every leaf whose path leads to its own or is led to by it, and
leaves all other leaves as they are. So when fields are put in one by one, exactly those stay that
no later one meets, whatever leaves and branches give way to each other in between. The fields of a
trie are put in by ascending order, and those of equal order as they were given.
-/

namespace Projector

namespace Fields

open scoped List

variable {α : Type} {fields : Fields α} {name : String}

/-- If a name is not there, all fields have other names. -/
theorem filter_ne_of_not_mem (h : name ∉ names fields) :
    (fields.filter fun field => field.1 ≠ name) = fields := by
  refine List.filter_eq_self.mpr fun field hfield => ?_
  have hne : field.1 ≠ name := by
    rintro rfl
    exact h (List.mem_map_of_mem hfield)
  simpa using hne

/-- After a write there are the written field and those with other names. -/
theorem put_perm (h : Distinct fields) (value : α) :
    put fields name value ~ (name, value) :: fields.filter fun field => field.1 ≠ name := by
  induction fields with
  | nil => exact .refl _
  | cons field rest ih =>
    obtain ⟨other, old⟩ := field
    obtain ⟨hother, hrest⟩ := List.nodup_cons.mp h
    rw [put]
    split
    · rename_i heq
      rw [List.filter_cons_of_neg (by simpa using heq), filter_ne_of_not_mem (heq ▸ hother)]
    · rename_i hne
      rw [List.filter_cons_of_pos (by simpa using hne)]
      exact ((ih hrest).cons _).trans (.swap _ _ _)

/-- Writing what is there changes nothing. -/
theorem put_get? {value : α} (h : get? fields name = some value) :
    put fields name value = fields := by
  induction fields with
  | nil => cases h
  | cons field rest ih =>
    obtain ⟨other, old⟩ := field
    rw [get?] at h
    rw [put]
    split at h
    · rename_i heq
      rw [if_pos heq, heq, Option.some.inj h]
    · rename_i hne
      rw [if_neg hne, ih h]

end Fields

namespace Trie

open scoped List

variable {α γ : Type}

/-! ## The order in which fields are put in -/

/-- Items that are sorted by an order: they ascend, and those of equal order stand as they were
given. -/
structure Arranges (order : γ → Int) (items sorted : List γ) : Prop where
  perm : sorted ~ items
  ascending : sorted.Pairwise fun item other => order item ≤ order other
  stable : ∀ rank, (sorted.filter fun item => order item = rank) =
    items.filter fun item => order item = rank

/-- Sorting items arranges them. -/
theorem arranges_sortByOrder (order : γ → Int) (items : List γ) :
    Arranges order items (sortByOrder order items) := by
  have hperm : sortByOrder order items ~ items := List.mergeSort_perm items _
  have htrans : ∀ a b c, decide (order a ≤ order b) = true → decide (order b ≤ order c) = true →
      decide (order a ≤ order c) = true := by
    simp only [decide_eq_true_eq]
    exact fun _ _ _ => Int.le_trans
  have htotal : ∀ a b, (decide (order a ≤ order b) || decide (order b ≤ order a)) = true := by
    simp only [Bool.or_eq_true, decide_eq_true_eq]
    exact fun a b => Int.le_total (order a) (order b)
  refine ⟨hperm, ?_, fun rank => ?_⟩
  · exact (List.pairwise_mergeSort htrans htotal items).imp fun hle => by simpa using hle
  · -- Items of one order are in ascending order already, so sorting keeps them in a row.
    have hties : (items.filter fun item => order item = rank).Pairwise fun item other =>
        decide (order item ≤ order other) = true := by
      refine List.pairwise_of_forall_mem_list fun item hitem other hother => ?_
      have hitem := (List.mem_filter.mp hitem).2
      have hother := (List.mem_filter.mp hother).2
      simp only [decide_eq_true_eq] at hitem hother ⊢
      rw [hitem, hother]
    have hsublist : (items.filter fun item => order item = rank).Sublist
        ((sortByOrder order items).filter fun item => order item = rank) := by
      have hkept := (List.sublist_mergeSort htrans htotal hties List.filter_sublist).filter
        fun item => order item = rank
      rw [sortByOrder]
      simpa only [List.filter_filter, Bool.and_self] using hkept
    exact (hsublist.eq_of_length (hperm.filter _).length_eq.symm).symm

/-! ## Putting a field in -/

/-- What a property says of each branch of a trie, given its order and children. -/
inductive EveryBranch (property : Int → Fields (Trie α) → Prop) : Trie α → Prop
  | leaf (value : α) (order : Int) : EveryBranch property (.leaf value order)
  | branch {order : Int} {children : Fields (Trie α)} (hhere : property order children)
      (hchild : ∀ child ∈ children, EveryBranch property child.2) :
      EveryBranch property (.branch order children)

/-- No branch has two children with the same key. -/
def Keyed (trie : Trie α) : Prop := EveryBranch (fun _ children => Fields.Distinct children) trie

/-- A field that is put in brings no key twice. -/
theorem keyed_plant (value : α) (order : Int) (path : List String) {known : Option (Trie α)}
    (h : ∀ trie ∈ known, Keyed trie) : Keyed (plant value order path known) := by
  induction path generalizing known with
  | nil => exact .leaf value order
  | cons key path ih =>
    have halone : Keyed (.branch order [(key, plant value order path none)]) :=
      .branch (List.nodup_singleton key) (List.forall_mem_singleton.mpr (ih (by simp)))
    cases known with
    | none => exact halone
    | some trie =>
      cases h trie rfl with
      | leaf content first => exact halone
      | @branch first children hdistinct hchild =>
        refine .branch (Fields.distinct_put _ _ hdistinct) fun child hmem => ?_
        rcases Fields.mem_put hmem with rfl | hmem
        · exact ih fun child hget => hchild _ (Fields.mem_of_get? hget)
        · exact hchild child hmem

/-- The leaves of what stands at a place, if anything does. -/
def held (known : Option (Trie α)) : List (Leaf α) := (known.map listing).getD []

/-- The leaves that a path does not meet. -/
def unmet (path : List String) (leaves : List (Leaf α)) : List (Leaf α) :=
  leaves.filter fun leaf => Leaves.Apart leaf.path path

/-- The empty path meets all leaves. -/
@[simp] theorem unmet_nil (leaves : List (Leaf α)) : unmet [] leaves = [] := by
  refine List.filter_eq_nil_iff.mpr fun leaf _ => ?_
  simpa using fun hapart : Leaves.Apart leaf.path [] => Leaves.not_apart_nil _ hapart.symm

/-- Below a key a path meets what it meets as seen from there. -/
theorem unmet_map_below (key : String) (path : List String) (leaves : List (Leaf α)) :
    unmet (key :: path) (leaves.map (Leaf.below key)) =
      (unmet path leaves).map (Leaf.below key) := by
  rw [unmet, List.filter_map]
  refine congrArg _ (List.filter_congr fun leaf _ => ?_)
  simp [Leaf.below, Leaves.apart_cons]

/-- A path below a key does not meet the leaves below other keys. -/
theorem unmet_listingBelow (key : String) (path : List String) (children : Fields (Trie α)) :
    let others := children.filter fun child => child.1 ≠ key
    unmet (key :: path) (listingBelow others) = listingBelow others := by
  refine List.filter_eq_self.mpr fun leaf hleaf => ?_
  rw [listingBelow_eq_flatMap] at hleaf
  obtain ⟨child, hchild, hleaf⟩ := List.mem_flatMap.mp hleaf
  obtain ⟨inner, -, rfl⟩ := List.mem_map.mp hleaf
  have hne : child.1 ≠ key := by simpa using (List.mem_filter.mp hchild).2
  simp [Leaves.Apart, Leaf.below, hne, hne.symm]

/-- The leaves of children do not depend on the order of the children, up to their own order. -/
theorem listingBelow_perm {children others : Fields (Trie α)} (h : children ~ others) :
    listingBelow children ~ listingBelow others := by
  rw [listingBelow_eq_flatMap, listingBelow_eq_flatMap]
  exact h.flatMap_right _

/-- The leaves of children are those of the child with a key and those of all others. -/
theorem listingBelow_perm_held {children : Fields (Trie α)} (h : Fields.Distinct children)
    (key : String) :
    listingBelow children ~ (held (Fields.get? children key)).map (Leaf.below key) ++
      listingBelow (children.filter fun child => child.1 ≠ key) := by
  cases hget : Fields.get? children key with
  | none =>
    rw [Fields.filter_ne_of_not_mem (Fields.get?_eq_none_iff.mp hget)]
    exact .refl _
  | some child =>
    have hperm := listingBelow_perm (@Fields.put_perm _ _ key h child)
    rwa [Fields.put_get? hget] at hperm

/-- A field that is put into a trie stands behind the leaves that it does not meet. -/
theorem listing_plant (value : α) (order : Int) (path : List String) {known : Option (Trie α)}
    (h : ∀ trie ∈ known, Keyed trie) :
    listing (plant value order path known) ~
      unmet path (held known) ++ [⟨path, value, order⟩] := by
  induction path generalizing known with
  | nil =>
    rw [unmet_nil]
    exact .refl _
  | cons key path ih =>
    have halone : listing (.branch order [(key, plant value order path none)]) ~
        [⟨key :: path, value, order⟩] := by
      have hbelow := (@ih none (by simp)).map (Leaf.below key)
      rw [listing, listingBelow, listingBelow, List.append_nil]
      exact hbelow
    cases known with
    | none => exact halone
    | some trie =>
      cases h trie rfl with
      | leaf content first =>
        have hmeets : unmet (key :: path) (held (some (.leaf content first))) = [] :=
          List.filter_cons_of_neg (by simpa using Leaves.not_apart_nil _)
        rw [hmeets]
        exact halone
      | @branch first children hdistinct hchild =>
        let known := Fields.get? children key
        let others := children.filter fun child => child.1 ≠ key
        have hnew := @ih known fun child hget => hchild _ (Fields.mem_of_get? hget)
        have hold := listingBelow_perm_held hdistinct key
        have hunmet : unmet (key :: path) ((held known).map (Leaf.below key) ++
            listingBelow others) =
            (unmet path (held known)).map (Leaf.below key) ++ listingBelow others := by
          rw [unmet, List.filter_append, ← unmet, ← unmet, unmet_map_below, unmet_listingBelow]
        let leaf : Leaf α := ⟨path, value, order⟩
        calc listingBelow (Fields.put children key (plant value order path known))
          _ ~ (listing (plant value order path known)).map (Leaf.below key) ++
              listingBelow others := listingBelow_perm (Fields.put_perm hdistinct _)
          _ ~ (unmet path (held known) ++ [leaf]).map (Leaf.below key) ++
              listingBelow others := (hnew.map _).append_right _
          _ ~ unmet (key :: path) ((held known).map (Leaf.below key) ++
              listingBelow others) ++ [leaf.below key] := by
            rw [hunmet, List.map_append, List.append_assoc, List.append_assoc]
            exact List.perm_append_comm.append_left _
          _ ~ unmet (key :: path) (listingBelow children) ++ [leaf.below key] :=
            (hold.symm.filter _).append_right _

/-! ## Putting fields in one by one -/

/-- The fields that no later one meets. -/
def survivors : List (Item α) → List (Item α)
  | [] => []
  | item :: later =>
    if ∀ other ∈ later, Leaves.Apart item.path other.path then item :: survivors later
    else survivors later

/-- A field behind all others stays, and ends those that it meets. -/
theorem survivors_concat (items : List (Item α)) (item : Item α) :
    survivors (items ++ [item]) =
      ((survivors items).filter fun other => Leaves.Apart other.path item.path) ++ [item] := by
  induction items with
  | nil => simp [survivors]
  | cons first items ih =>
    have hlater : (∀ other ∈ items ++ [item], Leaves.Apart first.path other.path) ↔
        (∀ other ∈ items, Leaves.Apart first.path other.path) ∧
          Leaves.Apart first.path item.path := by
      simp [or_imp, forall_and]
    rw [List.cons_append, survivors, survivors, ih]
    by_cases hitems : ∀ other ∈ items, Leaves.Apart first.path other.path
    · by_cases hitem : Leaves.Apart first.path item.path
      · rw [if_pos (hlater.mpr ⟨hitems, hitem⟩), if_pos hitems,
          List.filter_cons_of_pos (by simpa using hitem), List.cons_append]
      · rw [if_neg fun h => hitem (hlater.mp h).2, if_pos hitems,
          List.filter_cons_of_neg (by simpa using hitem)]
    · rw [if_neg fun h => hitems (hlater.mp h).1, if_neg hitems]

/-- Fields whose paths are apart all stay. -/
theorem survivors_of_apart {items : List (Item α)}
    (h : items.Pairwise fun item other => Leaves.Apart item.path other.path) :
    survivors items = items := by
  induction items with
  | nil => rfl
  | cons item items ih =>
    obtain ⟨hitem, hitems⟩ := List.pairwise_cons.mp h
    rw [survivors, if_pos hitem, ih hitems]

/-- Fields that are put in one by one leave those that no later one meets. -/
theorem listing_foldl_insert (order : Int) (items : List (Item α)) :
    Keyed (.branch order (items.foldl insert [])) ∧
      listingBelow (items.foldl insert []) ~ (survivors items).map Item.leaf := by
  induction items using List.reverseRecOn with
  | nil => exact ⟨.branch List.nodup_nil (by simp), .refl _⟩
  | append_singleton items item ih =>
    obtain ⟨hkeyed, hlisting⟩ := ih
    have hknown : ∀ trie ∈ some (Trie.branch order (items.foldl insert [])), Keyed trie := by
      rintro trie ⟨⟩
      exact hkeyed
    rw [List.foldl_append, survivors_concat]
    refine ⟨keyed_plant item.value item.order item.path hknown, ?_⟩
    refine (listing_plant item.value item.order item.path hknown).trans ?_
    rw [List.map_append]
    refine List.Perm.append_right _ ((hlisting.filter _).trans ?_)
    rw [List.filter_map]
    exact .refl _

/-- The leaves of a trie are the fields that no later one meets. -/
theorem listing_ofItems_survivors (items : List (Item α)) : listing (ofItems items) ~
    (survivors (sortByOrder Item.order items)).map Item.leaf :=
  (listing_foldl_insert 0 (sortByOrder Item.order items)).2

/-- If the paths of the fields are apart, the leaves are all fields. -/
theorem listing_ofItems_apart {items : List (Item α)}
    (h : items.Pairwise fun item other => Leaves.Apart item.path other.path) :
    listing (ofItems items) ~ items.map Item.leaf := by
  have hperm := (arranges_sortByOrder Item.order items).perm
  have hlisting := listing_ofItems_survivors items
  rw [survivors_of_apart ((hperm.pairwise_iff fun h => Leaves.Apart.symm h).mpr h)] at hlisting
  exact hlisting.trans (hperm.map _)

/-- The leaves of the trie of some fields, which may meet and be of equal order, are the fields, in
ascending order and those of equal order as given, that no later one meets. If no two fields meet,
none of them is lost. -/
theorem listing_ofItems (items : List (Item α)) :
    (∃ sorted, Arranges Item.order items sorted ∧
      listing (ofItems items) ~ (survivors sorted).map Item.leaf) ∧
    (items.Pairwise (fun item other => Leaves.Apart item.path other.path) →
      listing (ofItems items) ~ items.map Item.leaf) :=
  ⟨⟨_, arranges_sortByOrder Item.order items, listing_ofItems_survivors items⟩,
    listing_ofItems_apart⟩

/-- Fields below one key with another between them, two of them of equal order. -/
theorem listing_ofItems_interleaved :
    let items : List (Item Nat) :=
      [⟨"b", ["x"], 0, 2⟩, ⟨"a", [], 1, 2⟩, ⟨"b", ["y", "z"], 2, -1⟩]
    items.Pairwise (fun item other => Leaves.Apart item.path other.path) ∧
      listing (ofItems items) ~ items.map Item.leaf := by
  have hapart : [Item.mk "b" ["x"] 0 2, ⟨"a", [], 1, 2⟩, ⟨"b", ["y", "z"], 2, -1⟩].Pairwise
      fun item other => Leaves.Apart item.path other.path := by decide
  exact ⟨hapart, (listing_ofItems _).2 hapart⟩

-- A leaf gives way to a branch, a part of which gives way to a leaf that a longer path ends again.
example :
    let items : List (Item Nat) :=
      [⟨"a", [], 0, 0⟩, ⟨"a", ["b", "c"], 1, 0⟩, ⟨"a", ["d"], 2, 1⟩, ⟨"a", ["b"], 3, 2⟩,
        ⟨"a", ["b", "e"], 4, 2⟩]
    (survivors items).map Item.value = [2, 4] ∧
      (listingBelow (items.foldl insert [])).map Leaf.value = [4, 2] := by
  decide

end Trie

end Projector
