import Mathlib.Data.List.Induction
import Mathlib.Data.List.Infix
import Projector.Trie

/-!
# What a trie holds

A trie is described here by its leaves: which value stands at which key path. Fields whose paths do
not lead into each other are all there after they were put into a trie, and nothing else is. Folding
a trie into an object construction keeps the values of its leaves, whether paths are compressed or
not.
-/

namespace Projector

/-- Which values stand at which key paths. -/
abbrev Leaves (α : Type) := List String → α → Prop

namespace Leaves

variable {α : Type}

/-- The leaves below a key. -/
def below (leaves : Leaves α) (key : String) : Leaves α := fun path value =>
  leaves (key :: path) value

/-- A single leaf. -/
def single (path : List String) (value : α) : Leaves α := fun other content =>
  other = path ∧ content = value

/-- The leaves of both. -/
def both (leaves others : Leaves α) : Leaves α := fun path value =>
  leaves path value ∨ others path value

/-- The leaves as seen from in front of some keys. -/
def behind (keys : List String) (leaves : Leaves α) : Leaves α := fun path value =>
  ∃ rest, path = keys ++ rest ∧ leaves rest value

/-- Two key paths of which none leads to or into the other. -/
def Apart (path other : List String) : Prop := ¬path <+: other ∧ ¬other <+: path

/-- Paths below one key are apart when what follows the key is. -/
theorem apart_cons {key : String} {path other : List String} :
    Apart (key :: path) (key :: other) ↔ Apart path other := by
  simp [Apart, List.cons_prefix_cons]

/-- The empty path leads to every path. -/
theorem not_apart_nil (path : List String) : ¬Apart [] path := fun h => h.1 List.nil_prefix

/-- Being apart goes both ways. -/
theorem Apart.symm {path other : List String} (h : Apart path other) : Apart other path :=
  ⟨h.2, h.1⟩

/-- Leaves of which those of the one are apart from those of the other. -/
def Separate (leaves others : Leaves α) : Prop :=
  ∀ path value other content, leaves path value → others other content → Apart path other

/-- Being apart goes both ways. -/
theorem Separate.symm {leaves others : Leaves α} (h : leaves.Separate others) :
    others.Separate leaves :=
  fun path value other content hpath hother => (h other content path value hother hpath).symm

/-- Leaves below a key are apart when all leaves are. -/
theorem Separate.below {leaves others : Leaves α} (h : leaves.Separate others) (key : String) :
    (leaves.below key).Separate (others.below key) :=
  fun path value other content hpath hother =>
    apart_cons.mp (h (key :: path) value (key :: other) content hpath hother)

/-- Leaves are apart when they are apart behind the same keys. -/
theorem Separate.of_behind {leaves others : Leaves α} {keys : List String}
    (h : (leaves.behind keys).Separate (others.behind keys)) : leaves.Separate others := by
  intro path value other content hpath hother
  have hapart := h (keys ++ path) value (keys ++ other) content ⟨path, rfl, hpath⟩
    ⟨other, rfl, hother⟩
  simpa [Apart, List.prefix_append_right_inj] using hapart

/-- Leaves that are apart from some leaf do not stand at the empty path. -/
theorem Separate.not_nil {leaves others : Leaves α} (h : leaves.Separate others)
    (hsome : ∃ path value, others path value) (value : α) : ¬leaves [] value := by
  obtain ⟨other, content, hother⟩ := hsome
  exact fun hnil => not_apart_nil other (h [] value other content hnil hother)

/-- Behind no keys leaves are where they are. -/
@[simp] theorem behind_nil (leaves : Leaves α) : leaves.behind [] = leaves := by
  funext path value
  simp [behind]

/-- Leaves behind some keys and others in front of these are behind all of them. -/
theorem behind_behind (front keys : List String) (leaves : Leaves α) :
    (leaves.behind keys).behind front = leaves.behind (front ++ keys) := by
  funext path value
  simp [behind, List.append_assoc]

/-- A single leaf is behind the keys in front of it. -/
theorem behind_single (keys path : List String) (value : α) :
    (single path value).behind keys = single (keys ++ path) value := by
  funext other content
  simp [behind, single]

/-- What stands below a key in a single leaf. -/
theorem below_single (key : String) (path : List String) (value : α) :
    (single (key :: path) value).below key = single path value := by
  funext other content
  simp [below, single]

/-- Nothing stands below another key. -/
theorem not_single_of_ne {key other : String} (h : key ≠ other) (path rest : List String)
    (value content : α) : ¬single (key :: path) value (other :: rest) content := by
  rintro ⟨hpath, -⟩
  exact h (List.cons.inj hpath).1.symm

/-- What stands below a key in both. -/
theorem below_both (leaves others : Leaves α) (key : String) :
    (leaves.both others).below key = (leaves.below key).both (others.below key) := rfl

/-- Leaves of which there are none below a key add nothing there. -/
theorem both_of_none {leaves others : Leaves α} (h : ∀ path value, ¬others path value) :
    leaves.both others = leaves := by
  funext path value
  simp [both, h]

/-- Leaves of which there are none are added to others without change. -/
theorem none_both {leaves others : Leaves α} (h : ∀ path value, ¬leaves path value) :
    leaves.both others = others := by
  funext path value
  simp [both, h]

end Leaves

namespace Fields

variable {α : Type}

/-- What is read under a name is written somewhere under it. -/
theorem mem_of_get? {fields : Fields α} {name : String} {value : α}
    (h : get? fields name = some value) : (name, value) ∈ fields := by
  induction fields with
  | nil => simp [get?] at h
  | cons field rest ih =>
    obtain ⟨other, first⟩ := field
    rw [get?] at h
    split at h
    · rename_i hname
      rw [hname, Option.some.inj h]
      exact List.mem_cons_self
    · exact List.mem_cons_of_mem _ (ih h)

/-- When names are distinct, what is written under a name is read. -/
theorem get?_of_mem {fields : Fields α} (hdistinct : Distinct fields) {name : String} {value : α}
    (h : (name, value) ∈ fields) : get? fields name = some value := by
  induction fields with
  | nil => simp at h
  | cons field rest ih =>
    obtain ⟨other, first⟩ := field
    obtain ⟨hnew, hrest⟩ := List.nodup_cons.mp hdistinct
    rcases List.mem_cons.mp h with heq | h
    · obtain ⟨rfl, rfl⟩ := Prod.mk.inj heq
      simp [get?]
    · have hne : other ≠ name := by
        rintro rfl
        exact hnew (List.mem_map.mpr ⟨_, h, rfl⟩)
      rw [get?, if_neg hne]
      exact ih hrest h

/-- A name is read exactly when it is there. -/
theorem isSome_get?_iff {fields : Fields α} {name : String} :
    (get? fields name).isSome = true ↔ name ∈ names fields := by
  induction fields with
  | nil => simp [get?, names]
  | cons field rest ih =>
    obtain ⟨other, first⟩ := field
    by_cases h : other = name
    · simp [get?, names, h]
    · have h' : ¬name = other := fun heq => h heq.symm
      simp only [get?, if_neg h, ih, names, List.map_cons, List.mem_cons, h', false_or]

/-- A name that is not there is not read. -/
theorem get?_eq_none_iff {fields : Fields α} {name : String} :
    get? fields name = none ↔ name ∉ names fields := by
  rw [← isSome_get?_iff, Option.not_isSome_iff_eq_none]

end Fields

namespace Leaves

variable {α β : Type}

/-- What some leaves put at a place: nothing when there are none, and else a part that is as a
property tells of the leaves. -/
def Fills (property : Leaves α → β → Prop) (leaves : Leaves α) : Option β → Prop
  | none => ∀ path value, ¬leaves path value
  | some part => (∃ path value, leaves path value) ∧ property leaves part

/-- Fields are filled by leaves for each name when every name with leaves is one of theirs and every
one of them has leaves. -/
theorem fills_at_iff {property : Leaves α → β → Prop} {leavesAt : String → Leaves α}
    {fields : Fields β} :
    (∀ name, (leavesAt name).Fills property (Fields.get? fields name)) ↔
      (∀ name path value, leavesAt name path value → (Fields.get? fields name).isSome = true) ∧
      (∀ name part, Fields.get? fields name = some part → ∃ path value, leavesAt name path value) ∧
      ∀ name part, Fields.get? fields name = some part → property (leavesAt name) part := by
  constructor
  · intro h
    refine ⟨?_, ?_, ?_⟩
    · intro name path value hleaf
      have hname := h name
      cases hget : Fields.get? fields name with
      | none =>
        rw [hget] at hname
        exact absurd hleaf (hname path value)
      | some part => rfl
    · intro name part hget
      have hname := h name
      rw [hget] at hname
      exact hname.1
    · intro name part hget
      have hname := h name
      rw [hget] at hname
      exact hname.2
  · rintro ⟨hcovered, hinhabited, hpart⟩ name
    cases hget : Fields.get? fields name with
    | none =>
      intro path value hleaf
      have hsome := hcovered name path value hleaf
      simp [hget] at hsome
    | some part => exact ⟨hinhabited name part hget, hpart name part hget⟩

/-- Fields are filled name by name when every leaf is below the name of one of them and every one
of them has leaves below it. -/
theorem fills_iff {property : Leaves α → β → Prop} {leaves : Leaves α} {fields : Fields β} :
    (∀ name, (leaves.below name).Fills property (Fields.get? fields name)) ↔
      (∀ name path value, leaves (name :: path) value →
        (Fields.get? fields name).isSome = true) ∧
      (∀ name part, Fields.get? fields name = some part →
        ∃ path value, leaves (name :: path) value) ∧
      ∀ name part, Fields.get? fields name = some part → property (leaves.below name) part :=
  fills_at_iff

/-- Leaves behind a key fill the one field with that key. -/
theorem fills_behind {property : Leaves α → β → Prop} {leaves : Leaves α} {part : β}
    (hsome : ∃ path value, leaves path value) (h : property leaves part) (key name : String) :
    ((leaves.behind [key]).below name).Fills property (Fields.get? [(key, part)] name) := by
  rw [Fields.get?]
  split
  · rename_i hname
    have hbelow : (leaves.behind [key]).below name = leaves := by
      funext path value
      simp [behind, below, hname]
    rw [hbelow]
    exact ⟨hsome, h⟩
  · rename_i hne
    rintro path value ⟨rest, heq, -⟩
    exact hne (List.cons.inj heq).1.symm

end Leaves

namespace Trie

variable {α β : Type}

/-- A trie that holds exactly these leaves. -/
inductive Spans : Leaves α → Trie α → Prop
  | leaf {leaves : Leaves α} {value : α} {order : Int} (hself : leaves [] value)
      (honly : ∀ path other, leaves path other → path = [] ∧ other = value) :
      Spans leaves (.leaf value order)
  | branch {leaves : Leaves α} {order : Int} {children : Fields (Trie α)}
      (hnone : ∀ value, ¬leaves [] value) (hdistinct : Fields.Distinct children)
      (hcovered : ∀ key path value, leaves (key :: path) value →
        (Fields.get? children key).isSome = true)
      (hinhabited : ∀ key child, Fields.get? children key = some child →
        ∃ path value, leaves (key :: path) value)
      (hchild : ∀ key child, Fields.get? children key = some child →
        Spans (leaves.below key) child) :
      Spans leaves (.branch order children)

/-- A branch holds some leaves when its children are filled by those below their keys. -/
theorem Spans.of_fills {leaves : Leaves α} {order : Int} {children : Fields (Trie α)}
    (hnone : ∀ value, ¬leaves [] value) (hdistinct : Fields.Distinct children)
    (h : ∀ key, (leaves.below key).Fills Spans (Fields.get? children key)) :
    Spans leaves (.branch order children) := by
  obtain ⟨hcovered, hinhabited, hchild⟩ := Leaves.fills_iff.mp h
  exact .branch hnone hdistinct hcovered hinhabited hchild

/-! ## Putting fields in -/

/-- A field that is put where nothing was is alone there. -/
theorem spans_plant_none (value : α) (order : Int) (path : List String) :
    (plant value order path none).Spans (Leaves.single path value) := by
  induction path with
  | nil => exact .leaf ⟨rfl, rfl⟩ fun _ _ h => h
  | cons key path ih =>
    have hfills := Leaves.fills_behind ⟨path, value, rfl, rfl⟩ ih key
    rw [Leaves.behind_single] at hfills
    simp only [plant]
    exact .of_fills (by simp [Leaves.single]) (by simp [Fields.Distinct, Fields.names]) hfills

/-- A field is put beside others when it is one of them or its path is apart from theirs. -/
theorem Spans.plant {leaves : Leaves α} {known : Trie α} (h : known.Spans leaves) (value : α)
    (order : Int) (path : List String)
    (hapart : ∀ other content, leaves other content →
      (other = path ∧ content = value) ∨ Leaves.Apart other path) :
    (Trie.plant value order path (some known)).Spans (leaves.both (Leaves.single path value)) := by
  induction path generalizing known leaves with
  | nil =>
    refine .leaf (.inr ⟨rfl, rfl⟩) fun other content hother => ?_
    rcases hother with hother | hother
    · exact (hapart other content hother).resolve_right fun h => Leaves.not_apart_nil _ h.symm
    · exact hother
  | cons key path ih =>
    cases h with
    | leaf hself honly =>
      rcases hapart [] _ hself with ⟨heq, -⟩ | hself
      · cases heq
      · exact absurd hself (Leaves.not_apart_nil _)
    | @branch _ first children hnone hdistinct hcovered hinhabited hchild =>
      have hfills := Leaves.fills_iff.mpr ⟨hcovered, hinhabited, hchild⟩
      rw [Trie.plant]
      refine .of_fills ?_ (Fields.distinct_put _ _ hdistinct) fun other => ?_
      · rintro content (hcontent | ⟨heq, -⟩)
        · exact hnone content hcontent
        · cases heq
      · rw [Fields.get?_put, Leaves.below_both]
        split
        · rename_i hkey
          rw [← hkey, Leaves.below_single]
          refine ⟨⟨path, value, .inr ⟨rfl, rfl⟩⟩, ?_⟩
          have hbelow := hfills key
          cases hknown : Fields.get? children key with
          | none =>
            rw [hknown] at hbelow
            rw [Leaves.none_both hbelow]
            exact spans_plant_none value order path
          | some known =>
            refine ih (hchild key known hknown) fun rest content hrest => ?_
            rcases hapart _ _ hrest with ⟨heq, hcontent⟩ | hrest
            · exact .inl ⟨(List.cons.inj heq).2, hcontent⟩
            · exact .inr (Leaves.apart_cons.mp hrest)
        · rename_i hne
          have hnew : ∀ rest content,
              ¬(Leaves.single (key :: path) value).below other rest content := fun rest content =>
            Leaves.not_single_of_ne hne path rest value content
          rw [Leaves.both_of_none hnew]
          exact hfills other

/-- The path of a field. -/
def Item.path (item : Item α) : List String := item.key :: item.below

/-- Two fields that are the same or have paths apart. -/
def Item.Compatible (item other : Item α) : Prop :=
  (item.path = other.path ∧ item.value = other.value) ∨ Leaves.Apart item.path other.path

/-- The leaves of some fields. -/
def leavesOf (items : List (Item α)) : Leaves α := fun path value =>
  ∃ item ∈ items, path = item.path ∧ value = item.value

/-- Fields that are put in one by one are all there. -/
theorem spans_foldl_insert (order : Int) {items : List (Item α)}
    (h : ∀ item ∈ items, ∀ other ∈ items, item.Compatible other) :
    (Trie.branch order (items.foldl insert [])).Spans (leavesOf items) := by
  induction items using List.reverseRecOn with
  | nil =>
    exact .branch (by simp [leavesOf]) (by simp [Fields.Distinct, Fields.names])
      (by simp [leavesOf]) (by simp [Fields.get?]) (by simp [Fields.get?])
  | append_singleton items item ih =>
    have hitems := ih fun one hone other hother =>
      h one (List.mem_append_left _ hone) other (List.mem_append_left _ hother)
    have hplant := hitems.plant item.value item.order item.path (by
      rintro path value ⟨other, hother, rfl, rfl⟩
      exact h other (List.mem_append_left _ hother) item (by simp))
    have hleaves : (leavesOf items).both (Leaves.single item.path item.value) =
        leavesOf (items ++ [item]) := by
      funext path value
      simp [leavesOf, Leaves.both, Leaves.single, or_and_right, exists_or]
    rw [hleaves] at hplant
    rw [List.foldl_append, List.foldl_cons, List.foldl_nil]
    exact hplant

/-- Sorting keeps the items. -/
theorem mem_sortByOrder {γ : Type} {order : γ → Int} {items : List γ} {item : γ} :
    item ∈ sortByOrder order items ↔ item ∈ items :=
  (List.mergeSort_perm items _).mem_iff

/-- Items that are in ascending order already stay as they are. -/
theorem sortByOrder_eq {γ : Type} {order : γ → Int} {items : List γ}
    (h : items.Pairwise fun item other => order item ≤ order other) :
    sortByOrder order items = items :=
  List.mergeSort_of_pairwise (h.imp fun hle => by simpa using hle)

/-- Items that are changed without their orders are sorted as before. -/
theorem sortByOrder_map {γ δ : Type} {order : γ → Int} {newOrder : δ → Int} (change : γ → δ)
    (h : ∀ item, newOrder (change item) = order item) (items : List γ) :
    sortByOrder newOrder (items.map change) = (sortByOrder order items).map change := by
  refine (List.map_mergeSort fun first _ second _ => ?_).symm
  rw [h, h]

/-- The trie of some fields holds exactly these. -/
theorem spans_ofItems {items : List (Item α)}
    (h : ∀ item ∈ items, ∀ other ∈ items, item.Compatible other) :
    (ofItems items).Spans (leavesOf items) := by
  have hleaves : leavesOf items = leavesOf (sortByOrder Item.order items) := by
    funext path value
    simp [leavesOf, mem_sortByOrder]
  rw [hleaves]
  exact spans_foldl_insert _ fun item hitem other hother =>
    h item (mem_sortByOrder.mp hitem) other (mem_sortByOrder.mp hother)

/-! ## Folding -/

/-- The entries of some children are those of each child. -/
theorem foldEntries_eq_map (object : Fields β → β) (value : α → β) (compress : Bool)
    (children : List (String × Trie α)) : foldEntries object value compress children =
      children.map fun child => foldEntry object value compress child.1 child.2 := by
  induction children with
  | nil => rfl
  | cons child rest ih =>
    obtain ⟨key, child⟩ := child
    rw [foldEntries, ih]
    rfl

/-- The fields of an object construction are those of its entries. -/
theorem mem_fields {entries : List (Folded β)} {field : String × β} :
    field ∈ Folded.fields entries ↔ ∃ entry ∈ entries, (entry.key, entry.value) = field := by
  simp [Folded.fields, mem_sortByOrder]

section Folding

variable {object : Fields β → β} {value : α → β} {property : β → Prop}
  (hobject : ∀ fields, property (object fields) ↔ ∀ field ∈ fields, property field.2)

include hobject

/-- What holds of an object construction exactly when it holds of its fields holds of the one that
entries make exactly when it holds of the entries. -/
theorem object_fields_iff (entries : List (Folded β)) :
    property (object (Folded.fields entries)) ↔ ∀ entry ∈ entries, property entry.value := by
  rw [hobject]
  simp [mem_fields]

/-- The same holds of the entry of a branch, compressed or not. -/
theorem foldEntry_branch_iff (compress : Bool) (key : String) (order : Int)
    (children : List (String × Trie α)) :
    property (foldEntry object value compress key (.branch order children)).value ↔
      ∀ entry ∈ foldEntries object value compress children, property entry.value := by
  unfold foldEntry
  split
  · rename_i only heq
    simp [heq]
  · exact object_fields_iff hobject _

omit hobject in
/-- The entries of children are those of the leaves below them. -/
theorem foldEntries_iff {leaves : Leaves α} {children : Fields (Trie α)} {compress : Bool}
    (hnone : ∀ content, ¬leaves [] content) (hdistinct : Fields.Distinct children)
    (hcovered : ∀ key path content, leaves (key :: path) content →
      (Fields.get? children key).isSome = true)
    (hentry : ∀ key child, Fields.get? children key = some child →
      (property (foldEntry object value compress key child).value ↔
        ∀ path content, leaves.below key path content → property (value content))) :
    (∀ entry ∈ foldEntries object value compress children, property entry.value) ↔
      ∀ path content, leaves path content → property (value content) := by
  rw [foldEntries_eq_map]
  constructor
  · intro h path content hpath
    cases path with
    | nil => exact absurd hpath (hnone content)
    | cons key path =>
      obtain ⟨child, hget⟩ := Option.isSome_iff_exists.mp (hcovered key path content hpath)
      have hvalue := h _ (List.mem_map_of_mem (Fields.mem_of_get? hget))
      exact (hentry key child hget).mp hvalue path content hpath
  · intro h entry hmem
    obtain ⟨⟨key, child⟩, hmember, rfl⟩ := List.mem_map.mp hmem
    have hget := Fields.get?_of_mem hdistinct hmember
    exact (hentry key child hget).mpr fun path content hpath => h _ content hpath

/-- The same holds of the entry of a trie exactly when it holds of the leaves. -/
theorem Spans.foldEntry_iff {leaves : Leaves α} {trie : Trie α} (h : trie.Spans leaves)
    (compress : Bool) (key : String) :
    property (foldEntry object value compress key trie).value ↔
      ∀ path content, leaves path content → property (value content) := by
  induction h generalizing key with
  | leaf hself honly =>
    rw [foldEntry]
    exact ⟨fun h path content hpath => by rw [(honly path content hpath).2]; exact h,
      fun h => h [] _ hself⟩
  | branch hnone hdistinct hcovered _ _ ih =>
    rw [foldEntry_branch_iff hobject]
    exact foldEntries_iff hnone hdistinct hcovered fun key child hget => ih key child hget key

/-- The same holds of the object construction that a branch is folded into. -/
theorem Spans.fold_iff {leaves : Leaves α} {order : Int} {children : Fields (Trie α)}
    (h : (Trie.branch order children).Spans leaves) (compress : Bool) :
    property (fold object value compress children) ↔
      ∀ path content, leaves path content → property (value content) := by
  cases h with
  | branch hnone hdistinct hcovered _ hchild =>
    rw [fold, object_fields_iff hobject]
    exact foldEntries_iff hnone hdistinct hcovered fun key child hget =>
      (hchild key child hget).foldEntry_iff hobject compress key

end Folding

end Trie

end Projector
