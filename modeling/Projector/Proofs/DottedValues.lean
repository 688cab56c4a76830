import Projector.Proofs.SpannedValues
import Projector.Proofs.WrittenPaths

/-!
# Values with dotted keys

A key that names were joined to stands for objects inside each other, one for each name. Unfolding a
value splits all its keys at their dots and merges what comes of the fields of each object. A value
with dotted keys is described by leaves too, at the names that its keys stand for; unfolding it
gives a value that is built from these leaves, provided that no field writes into another.
-/

namespace Projector

namespace Trie

/-- A key has at least one part. -/
theorem parts_ne_nil (key : String) : parts key ≠ [] := by
  rw [parts, List.splitOn]
  simp

/-- A key without dots is its only part. -/
theorem parts_of_dotFree {key : String} (h : '.' ∉ key.toList) : parts key = [key] :=
  @parts_joined [key] (by simp) (by simpa using h)

/-- The parts of two keys that are joined by a dot are those of both. -/
theorem parts_dotted (outer inner : String) :
    parts (dotted outer inner) = parts outer ++ parts inner := by
  have hchars : (dotted outer inner).toList = outer.toList ++ '.' :: inner.toList := by
    simp [dotted]
  rw [parts, parts, parts, hchars, List.splitOn, List.splitOnP_append_cons _ _ (by simp),
    List.map_append]
  rfl

end Trie

namespace Json

/-! ## Unfolding -/

mutual

/-- A value with every key split at its dots into objects inside each other, where objects under the
same key are merged. -/
def unfolded : Json → Json
  | .arr items => .arr (unfoldedItems items)
  | .obj fields => unfoldedOnto (.obj []) fields
  | value => value

/-- Items with every key split at its dots. -/
def unfoldedItems : List Json → List Json
  | [] => []
  | item :: rest => unfolded item :: unfoldedItems rest

/-- A value over which fields are written with every key split at its dots. -/
def unfoldedOnto (known : Json) : List (String × Json) → Json
  | [] => known
  | (key, value) :: rest =>
    unfoldedOnto (overlay (some known) (nested (Trie.parts key) (unfolded value))) rest

end

/-- Items are unfolded one by one. -/
theorem unfoldedItems_eq_map (items : List Json) : unfoldedItems items = items.map unfolded := by
  induction items with
  | nil => rfl
  | cons item rest ih => rw [unfoldedItems, ih, List.map_cons]

mutual

/-- No key in the value has a dot. -/
def DotFree : Json → Prop
  | .arr items => DotFreeItems items
  | .obj fields => DotFreeFields fields
  | _ => True

/-- No key in an item of a list has a dot. -/
def DotFreeItems : List Json → Prop
  | [] => True
  | item :: rest => item.DotFree ∧ DotFreeItems rest

/-- No key of some fields, and no key in their values, has a dot. -/
def DotFreeFields : List (String × Json) → Prop
  | [] => True
  | (key, value) :: rest => '.' ∉ key.toList ∧ value.DotFree ∧ DotFreeFields rest

end

/-- The items of a list have no dots in their keys when this holds of each. -/
theorem dotFreeItems_iff {items : List Json} :
    DotFreeItems items ↔ ∀ item ∈ items, item.DotFree := by
  induction items with
  | nil => simp [DotFreeItems]
  | cons item rest ih => simp [DotFreeItems, ih]

/-- Fields have no dots in their keys when this holds of each field and its value. -/
theorem dotFreeFields_iff {fields : List (String × Json)} :
    DotFreeFields fields ↔ ∀ field ∈ fields, '.' ∉ field.1.toList ∧ field.2.DotFree := by
  induction fields with
  | nil => simp [DotFreeFields]
  | cons field rest ih =>
    obtain ⟨key, value⟩ := field
    simp only [DotFreeFields, ih, List.forall_mem_cons, and_assoc]

/-- A field with a new name is written behind the others. -/
theorem mergeFields_new {known : Fields Json} {name : String} (h : name ∉ Fields.names known)
    (value : Json) : mergeFields known [(name, value)] = known ++ [(name, value)] := by
  rw [mergeFields, mergeFields, Fields.get?_eq_none_iff.mpr h, overlay_none,
    Fields.put_of_not_mem h]

mutual

/-- Unfolding changes nothing where no key has a dot. -/
theorem unfolded_of_dotFree : ∀ (value : Json), value.WellFormed → value.DotFree →
    value.unfolded = value
  | .arr items, h, hfree => by
    rw [unfolded, unfoldedItems_of_dotFree items h hfree]
  | .obj fields, h, hfree => by
    have hnames : (Fields.names ([] : Fields Json) ++ Fields.names fields).Nodup := h.1
    rw [unfolded, unfoldedOnto_of_dotFree [] fields hnames h.2 hfree, List.nil_append]
  | .null, _, _ => rfl
  | .bool _, _, _ => rfl
  | .int _, _, _ => rfl
  | .double _, _, _ => rfl
  | .str _, _, _ => rfl
  | .torn _, _, _ => rfl

/-- Unfolding changes no items where no key has a dot. -/
theorem unfoldedItems_of_dotFree : ∀ (items : List Json), WellFormedItems items →
    DotFreeItems items → unfoldedItems items = items
  | [], _, _ => rfl
  | item :: rest, h, hfree => by
    rw [unfoldedItems, unfolded_of_dotFree item h.1 hfree.1,
      unfoldedItems_of_dotFree rest h.2 hfree.2]

/-- Fields with new names and no dots are written behind the others. -/
theorem unfoldedOnto_of_dotFree : ∀ (known fields : List (String × Json)),
    (Fields.names known ++ Fields.names fields).Nodup → WellFormedFields fields →
    DotFreeFields fields → unfoldedOnto (.obj known) fields = .obj (known ++ fields)
  | known, [], _, _, _ => by rw [unfoldedOnto, List.append_nil]
  | known, (key, value) :: rest, hdistinct, h, hfree => by
    have hnew : key ∉ Fields.names known := by
      intro hmem
      exact (List.nodup_append.mp hdistinct).2.2 key hmem key (by simp [Fields.names]) rfl
    have hwritten : overlay (some (.obj known)) (nested (Trie.parts key) value) =
        .obj (known ++ [(key, value)]) := by
      rw [Trie.parts_of_dotFree hfree.1, ← mergeFields_new hnew]
      rfl
    rw [unfoldedOnto, unfolded_of_dotFree value h.1 hfree.2.1, hwritten,
      unfoldedOnto_of_dotFree (known ++ [(key, value)]) rest
        (by simpa [Fields.names] using hdistinct) h.2 hfree.2.2, List.append_assoc]
    rfl

end

/-- A field of an object is built from one of its leaves. -/
theorem Spans.exists_leaf {leaves : Leaves Json} {fields : Fields Json}
    (h : Spans leaves (.obj fields)) (hnone : ∀ content, ¬leaves [] content) {name : String}
    (hname : name ∈ Fields.names fields) : ∃ path content, leaves (name :: path) content := by
  obtain ⟨value, hvalue⟩ := Option.isSome_iff_exists.mp (Fields.isSome_get?_iff.mpr hname)
  cases h with
  | leaf hself => exact absurd hself (hnone _)
  | object _ _ _ hinhabited => exact hinhabited name value hvalue

/-! ## Leaves of values with dotted keys -/

/-- A value with dotted keys that stands for exactly these leaves: each of its fields stands for
some of them, behind the parts of its key and apart from those of the other fields. -/
inductive Dotted : Leaves Json → Json → Prop
  | leaf {leaves : Leaves Json} {value result : Json} (hself : leaves [] value)
      (honly : ∀ path other, leaves path other → path = [] ∧ other = value)
      (hsame : value.Same result.unfolded) : Dotted leaves result
  | object {leaves : Leaves Json} {fields : Fields Json} (leavesAt : String → Leaves Json)
      (hdistinct : Fields.Distinct fields)
      (hleaves : ∀ path value, leaves path value ↔
        ∃ key, (leavesAt key).behind (Trie.parts key) path value)
      (hcovered : ∀ key path value, leavesAt key path value →
        (Fields.get? fields key).isSome = true)
      (hinhabited : ∀ key value, Fields.get? fields key = some value →
        ∃ path content, leavesAt key path content)
      (hfield : ∀ key value, Fields.get? fields key = some value → Dotted (leavesAt key) value)
      (hapart : ∀ key other, key ≠ other → ((leavesAt key).behind (Trie.parts key)).Separate
        ((leavesAt other).behind (Trie.parts other))) :
      Dotted leaves (.obj fields)

namespace Dotted

/-- What stands for leaves below keys is an object. -/
theorem exists_fields {leaves : Leaves Json} {value : Json} (h : Dotted leaves value)
    (hnone : ∀ content, ¬leaves [] content) : ∃ fields, value = .obj fields := by
  cases h with
  | leaf hself => exact absurd hself (hnone _)
  | @object _ fields => exact ⟨fields, rfl⟩

/-- A field of an object stands for one of its leaves. -/
theorem exists_leaf {leaves : Leaves Json} {fields : Fields Json} (h : Dotted leaves (.obj fields))
    (hnone : ∀ content, ¬leaves [] content) {key : String} (hkey : key ∈ Fields.names fields) :
    ∃ path content, leaves (Trie.parts key ++ path) content := by
  obtain ⟨value, hvalue⟩ := Option.isSome_iff_exists.mp (Fields.isSome_get?_iff.mpr hkey)
  cases h with
  | leaf hself => exact absurd hself (hnone _)
  | object leavesAt _ hleaves _ hinhabited =>
    obtain ⟨path, content, hleaf⟩ := hinhabited key value hvalue
    exact ⟨path, content, (hleaves _ _).mpr ⟨key, path, rfl, hleaf⟩⟩

/-- An object stands for its leaves when its fields are filled by leaves behind their keys. -/
theorem of_fills {leaves : Leaves Json} {fields : Fields Json} (leavesAt : String → Leaves Json)
    (hdistinct : Fields.Distinct fields)
    (hleaves : ∀ path value, leaves path value ↔
      ∃ key, (leavesAt key).behind (Trie.parts key) path value)
    (h : ∀ key, (leavesAt key).Fills Dotted (Fields.get? fields key))
    (hapart : ∀ key other, key ≠ other → ((leavesAt key).behind (Trie.parts key)).Separate
      ((leavesAt other).behind (Trie.parts other))) : Dotted leaves (.obj fields) := by
  obtain ⟨hcovered, hinhabited, hfield⟩ := Leaves.fills_at_iff.mp h
  exact .object leavesAt hdistinct hleaves hcovered hinhabited hfield hapart

/-- The object with no fields stands for no leaves. -/
theorem empty : Dotted (fun _ _ => False) (.obj []) :=
  .of_fills (fun _ _ _ => False) List.nodup_nil (by simp [Leaves.behind]) (fun _ _ _ => id)
    (by rintro key other - path value rest content ⟨_, -, ⟨⟩⟩)

/-- An object with one field stands for the leaves of the field behind the parts of its key. -/
theorem field {leaves : Leaves Json} {value : Json} (h : Dotted leaves value)
    (hsome : ∃ path content, leaves path content) (key : String) :
    Dotted (leaves.behind (Trie.parts key)) (.obj [(key, value)]) := by
  refine .of_fills (fun name path content => name = key ∧ leaves path content)
    (by simp [Fields.Distinct, Fields.names]) ?_ ?_ ?_
  · intro path content
    constructor
    · rintro ⟨rest, rfl, hleaf⟩
      exact ⟨key, rest, rfl, rfl, hleaf⟩
    · rintro ⟨_, rest, rfl, rfl, hleaf⟩
      exact ⟨rest, rfl, hleaf⟩
  · intro name
    rw [Fields.get?]
    split
    · rename_i hname
      subst hname
      simpa [Leaves.Fills] using ⟨hsome, h⟩
    · rename_i hne
      rintro path content ⟨rfl, -⟩
      exact hne rfl
  · rintro name other hne path content rest content' ⟨_, -, rfl, -⟩ ⟨_, -, rfl, -⟩
    exact absurd rfl hne

/-- The product of two objects whose leaves are apart stands for the leaves of both. -/
theorem merge {leaves others : Leaves Json} {older fields : Fields Json}
    (hother : Dotted others (.obj fields)) (h : Dotted leaves (.obj older))
    (hnone : ∀ value, ¬leaves [] value) (hnone' : ∀ value, ¬others [] value)
    (hapart : leaves.Separate others) :
    Dotted (leaves.both others) (.obj (mergeFields older fields)) := by
  generalize hresult : Json.obj fields = result at hother
  induction hother generalizing leaves older fields with
  | leaf hself => exact absurd hself (hnone' _)
  | @object others fields' newAt hdistinct hleaves hcovered hinhabited hfield hkeys ih =>
    obtain rfl : fields = fields' := by simpa using hresult
    cases h with
    | leaf hself => exact absurd hself (hnone _)
    | object oldAt hdistinct' hleaves' hcovered' hinhabited' hfield' hkeys' =>
      have hfills := Leaves.fills_at_iff.mpr ⟨hcovered, hinhabited, hfield⟩
      have hfills' := Leaves.fills_at_iff.mpr ⟨hcovered', hinhabited', hfield'⟩
      -- The leaves behind any two keys, one of each object, are apart.
      have hcross : ∀ key other, ((oldAt key).behind (Trie.parts key)).Separate
          ((newAt other).behind (Trie.parts other)) :=
        fun key other path value rest content hpath hrest =>
          hapart path value rest content ((hleaves' _ _).mpr ⟨key, hpath⟩)
            ((hleaves _ _).mpr ⟨other, hrest⟩)
      have hsplit : ∀ key path value,
          ((oldAt key).both (newAt key)).behind (Trie.parts key) path value ↔
            (oldAt key).behind (Trie.parts key) path value ∨
              (newAt key).behind (Trie.parts key) path value := by
        intro key path value
        simp only [Leaves.behind, Leaves.both, and_or_left, exists_or]
      refine .of_fills (fun key => (oldAt key).both (newAt key))
        (distinct_mergeFields hdistinct' fields) ?_ (fun key => ?_) ?_
      · intro path value
        simp only [hsplit, exists_or, Leaves.both, hleaves, hleaves']
      · refine fills_mergeFields hdistinct (hfills' key) (hfills key) ?_
        intro old newer hname hsome' hsome hdotted' hdotted
        -- Both objects go on below the key, so neither has a leaf there.
        have hbelow := (hcross key key).of_behind
        have hold := hbelow.not_nil hsome
        have hnew := hbelow.symm.not_nil hsome'
        obtain ⟨oldFields, rfl⟩ := hdotted'.exists_fields hold
        obtain ⟨newFields, rfl⟩ := hdotted.exists_fields hnew
        exact ih key _ hname hdotted' hold hnew hbelow rfl
      · intro key other hne path value rest content hpath hrest
        rcases (hsplit key path value).mp hpath with hpath | hpath <;>
          rcases (hsplit other rest content).mp hrest with hrest | hrest
        · exact hkeys' key other hne path value rest content hpath hrest
        · exact hcross key other path value rest content hpath hrest
        · exact (hcross other key rest content path value hrest hpath).symm
        · exact hkeys key other hne path value rest content hpath hrest

end Dotted

/-- Fields that are written over an object with every key split at its dots add their leaves. -/
theorem spans_unfoldedOnto {leavesAt : String → Leaves Json} {leaves : Leaves Json}
    {known fields : Fields Json} (hknown : Spans leaves (.obj known))
    (hnone : ∀ value, ¬leaves [] value)
    (hfields : ∀ field ∈ fields, (∃ path value, leavesAt field.1 path value) ∧
      Spans (leavesAt field.1) field.2.unfolded)
    (hapart : ∀ field ∈ fields,
      leaves.Separate ((leavesAt field.1).behind (Trie.parts field.1)))
    (hkeys : fields.Pairwise fun field other =>
      ((leavesAt field.1).behind (Trie.parts field.1)).Separate
        ((leavesAt other.1).behind (Trie.parts other.1))) :
    Spans (leaves.both fun path value =>
        ∃ field ∈ fields, (leavesAt field.1).behind (Trie.parts field.1) path value)
      (unfoldedOnto (.obj known) fields) := by
  induction fields generalizing leaves known with
  | nil =>
    rw [unfoldedOnto, Leaves.both_of_none (by simp)]
    exact hknown
  | cons field rest ih =>
    obtain ⟨key, value⟩ := field
    obtain ⟨hfirst, hrest⟩ := List.pairwise_cons.mp hkeys
    obtain ⟨hsome, hspans⟩ := hfields _ List.mem_cons_self
    have hbehind := hspans.behind hsome (Trie.parts key)
    have hsome' : ∃ path content, (leavesAt key).behind (Trie.parts key) path content := by
      obtain ⟨path, content, hleaf⟩ := hsome
      exact ⟨_, content, path, rfl, hleaf⟩
    have hnone' : ∀ content, ¬(leavesAt key).behind (Trie.parts key) [] content := by
      rintro content ⟨path, hpath, -⟩
      exact Trie.parts_ne_nil key (List.append_eq_nil_iff.mp hpath.symm).1
    have hfirstApart := hapart _ List.mem_cons_self
    obtain ⟨written, hwritten⟩ := hbehind.exists_fields hnone'
    rw [hwritten] at hbehind
    have hmerged := hbehind.merge hknown hnone hnone' hfirstApart
    have hoverlay : overlay (some (.obj known)) (nested (Trie.parts key) value.unfolded) =
        .obj (mergeFields known written) := by
      rw [hwritten]
      rfl
    have hleaves : (leaves.both fun path content => ∃ field ∈ (key, value) :: rest,
        (leavesAt field.1).behind (Trie.parts field.1) path content) =
        (leaves.both ((leavesAt key).behind (Trie.parts key))).both fun path content =>
          ∃ field ∈ rest, (leavesAt field.1).behind (Trie.parts field.1) path content := by
      funext path content
      simp [Leaves.both, or_assoc]
    rw [unfoldedOnto, hoverlay, hleaves]
    refine ih hmerged ?_ (fun other hother => hfields other (by simp [hother])) ?_ hrest
    · rintro content (hcontent | hcontent)
      · exact hnone content hcontent
      · exact hnone' content hcontent
    · rintro other hother path content further content' (hpath | hpath) hfurther
      · exact hapart other (by simp [hother]) path content further content' hpath hfurther
      · exact hfirst other hother path content further content' hpath hfurther

/-- Unfolding a value that stands for leaves gives one that is built from them. -/
theorem Dotted.spans {leaves : Leaves Json} {value : Json} (h : Dotted leaves value) :
    Spans leaves value.unfolded := by
  induction h with
  | leaf hself honly hsame => exact .leaf hself honly hsame
  | @object leaves fields leavesAt hdistinct hleaves hcovered hinhabited _ hapart ih =>
    have hempty : Spans (fun _ _ => False) (.obj []) :=
      .of_fills (fun _ => id) List.nodup_nil fun _ _ _ => id
    have hwritten := @spans_unfoldedOnto leavesAt _ _ fields hempty
      (fun _ => id) ?_ (fun _ _ _ _ _ _ => False.elim) ?_
    · have heq : (Leaves.both (fun _ _ => False) fun path value => ∃ field ∈ fields,
          (leavesAt field.1).behind (Trie.parts field.1) path value) = leaves := by
        rw [Leaves.none_both (fun _ _ => id)]
        funext path value
        refine propext ⟨?_, fun hleaf => ?_⟩
        · rintro ⟨field, -, hleaf⟩
          exact (hleaves path value).mpr ⟨field.1, hleaf⟩
        · obtain ⟨key, rest, rfl, hbelow⟩ := (hleaves path value).mp hleaf
          obtain ⟨part, hpart⟩ := Option.isSome_iff_exists.mp (hcovered key rest value hbelow)
          exact ⟨(key, part), Fields.mem_of_get? hpart, rest, rfl, hbelow⟩
      rw [heq] at hwritten
      exact hwritten
    · intro field hfield
      have hget := Fields.get?_of_mem hdistinct hfield
      exact ⟨hinhabited _ _ hget, ih _ _ hget⟩
    · refine (List.pairwise_map.mp hdistinct).imp ?_
      exact fun hne => hapart _ _ hne

end Json

end Projector
