import Mathlib.Data.Set.Basic
import Projector.Proofs.DottedValues
import Projector.Proofs.FoldedSites

/-!
# Outputs with dotted keys and without

Two queries that differ only in how they join keys have outputs that correspond to each other: they
come in the same order, end with the same failure, and every output of the first stands for the
leaves that the output of the second is built from. This is shown here for object constructions,
products, lists and folded tries, given the parts of the queries correspond in this way.
-/

namespace Projector

namespace Query.Outputs

/-- Outputs that are in relation one by one, and the same failure behind them, if there is one. -/
structure Agree (related : Json → Json → Prop) (outputs others : Outputs) : Prop where
  values : List.Forall₂ related outputs.values others.values
  failure : outputs.failure = others.failure

variable {related after : Json → Json → Prop} {outputs others : Outputs}

/-- Single outputs agree when they are in relation. -/
theorem agree_one {value other : Json} (h : related value other) :
    Agree related (one value) (one other) :=
  ⟨.cons h .nil, rfl⟩

/-- Outputs agree with themselves when each is in relation with itself. -/
theorem agree_self (h : ∀ value ∈ outputs.values, related value value) :
    Agree related outputs outputs :=
  ⟨List.forall₂_same.mpr h, rfl⟩

/-- Outputs that agree, in front of others that agree. -/
theorem Agree.append (h : Agree related outputs others) {next next' : Outputs}
    (hnext : Agree related next next') :
    Agree related (outputs.append next) (others.append next') := by
  unfold Outputs.append
  rw [← h.failure]
  cases hfailure : outputs.failure with
  | some failure => exact h
  | none => exact ⟨List.rel_append h.values hnext.values, hnext.failure⟩

/-- Going on from outputs that agree in ways that agree. -/
theorem Agree.bind (h : Agree related outputs others) {next next' : Json → Outputs}
    (hnext : ∀ value other, related value other → Agree after (next value) (next' other)) :
    Agree after (outputs.bind next) (others.bind next') := by
  obtain ⟨values, failure⟩ := outputs
  obtain ⟨values', failure'⟩ := others
  obtain ⟨hvalues, hfailure⟩ := h
  dsimp only at hvalues hfailure
  subst hfailure
  unfold Outputs.bind
  induction hvalues with
  | nil => exact ⟨.nil, rfl⟩
  | cons hvalue _ ih => exact (hnext _ _ hvalue).append ih

/-- Going on with single outputs changes nothing. -/
theorem bind_one_self (outputs : Outputs) : outputs.bind one = outputs := by
  obtain ⟨values, failure⟩ := outputs
  unfold Outputs.bind
  induction values with
  | nil => rfl
  | cons value values ih =>
    rw [ofEach, ih]
    rfl

/-- What is done to each of the others keeps outputs in agreement. -/
theorem Agree.map_right (h : Agree related outputs others) {change : Json → Json}
    (hchange : ∀ value other, related value other → after value (change other)) :
    Agree after outputs (others.bind fun other => one (change other)) := by
  rw [← bind_one_self outputs]
  exact h.bind fun value other hvalue => agree_one (hchange value other hvalue)

/-- Outputs that agree as lists. -/
theorem Agree.collected (h : Agree related outputs others)
    (hlists : ∀ items items', List.Forall₂ related items items' →
      after (.arr items) (.arr items')) :
    Agree after outputs.collected others.collected := by
  unfold Outputs.collected
  rw [← h.failure]
  cases outputs.failure with
  | some failure => exact ⟨.nil, rfl⟩
  | none => exact agree_one (hlists _ _ h.values)

/-- Outputs stay in agreement when fewer values are told apart. -/
theorem Agree.imp (h : Agree related outputs others)
    (hrelated : ∀ value other, related value other → after value other) :
    Agree after outputs others :=
  ⟨h.values.imp hrelated, h.failure⟩

/-- The results of outputs that agree: the same failure, or values in relation. -/
theorem Agree.result (h : Agree related outputs others) :
    (∃ failure, outputs.result = .error failure ∧ others.result = .error failure) ∨
      ∃ values values', outputs.result = .ok values ∧ others.result = .ok values' ∧
        List.Forall₂ related values values' := by
  unfold Outputs.result
  rw [← h.failure]
  cases outputs.failure with
  | some failure => exact .inl ⟨failure, rfl, rfl⟩
  | none => exact .inr ⟨_, _, rfl, rfl, h.values⟩

/-- What comes of going on with outputs comes of one of them. -/
theorem exists_of_mem_bind {next : Json → Outputs} {value : Json}
    (h : value ∈ (outputs.bind next).values) :
    ∃ first ∈ outputs.values, value ∈ (next first).values := by
  obtain ⟨values, failure⟩ := outputs
  unfold Outputs.bind at h
  induction values with
  | nil => cases h
  | cons first rest ih =>
    have hsplit : value ∈ (next first).values ∨
        value ∈ (ofEach next failure rest).values := by
      rw [ofEach, Outputs.append] at h
      cases hfailure : (next first).failure with
      | some failure =>
        rw [hfailure] at h
        exact .inl h
      | none =>
        rw [hfailure] at h
        exact List.mem_append.mp h
    rcases hsplit with hvalue | hvalue
    · exact ⟨first, List.mem_cons_self, hvalue⟩
    · obtain ⟨other, hother, hvalue⟩ := ih hvalue
      exact ⟨other, List.mem_cons_of_mem _ hother, hvalue⟩

end Query.Outputs

/-! ## Values without dots -/

namespace Json

/-- A value as a document without dots in its keys may hold it. -/
structure Undotted (value : Json) : Prop where
  wellFormed : value.WellFormed
  dotFree : value.DotFree

/-- A step into a value without dots in its keys gives such values. -/
theorem Undotted.stepInto {value output : Json} (h : value.Undotted) {segment : Segment}
    (houtput : output ∈ (Query.stepInto segment value).values) : output.Undotted := by
  obtain ⟨hformed, hfree⟩ := h
  cases segment with
  | field name =>
    cases value with
    | obj fields =>
      obtain rfl : output = (Fields.get? fields name).getD .null := by
        simpa [Query.stepInto] using houtput
      cases hget : Fields.get? fields name with
      | none => exact ⟨trivial, trivial⟩
      | some part =>
        have hmem := Fields.mem_of_get? hget
        exact ⟨wellFormedFields_iff.mp hformed.2 _ hmem, (dotFreeFields_iff.mp hfree _ hmem).2⟩
    | null =>
      obtain rfl : output = .null := by simpa [Query.stepInto] using houtput
      exact ⟨trivial, trivial⟩
    | _ => simp [Query.stepInto, Query.Outputs.fail] at houtput
  | each =>
    cases value with
    | arr items =>
      exact ⟨wellFormedItems_iff.mp hformed _ houtput, dotFreeItems_iff.mp hfree _ houtput⟩
    | obj fields =>
      obtain ⟨field, hfield, rfl⟩ := List.mem_map.mp houtput
      exact ⟨wellFormedFields_iff.mp hformed.2 _ hfield, (dotFreeFields_iff.mp hfree _ hfield).2⟩
    | _ => simp [Query.stepInto, Query.Outputs.fail] at houtput

/-- What is read from values without dots in their keys are such values. -/
theorem undotted_read {bound : Fields Json} {value : Json} {base : Query}
    (hbase : ∀ start ∈ (base.eval bound value).values, start.Undotted) (path : Path) :
    ∀ output ∈ ((base.read path).eval bound value).values, output.Undotted := by
  induction path generalizing base with
  | nil => exact hbase
  | cons segment path ih =>
    refine ih fun output houtput => ?_
    rw [Query.eval] at houtput
    obtain ⟨start, hstart, houtput⟩ := Query.Outputs.exists_of_mem_bind houtput
    exact (hbase start hstart).stepInto houtput

/-! ## Twins -/

/-- A value with dotted keys that stands for leaves at some paths, and a value that is built from
these leaves behind further keys. -/
def Twins (front : List String) (paths : Set (List String)) (value other : Json) : Prop :=
  ∃ leaves : Leaves Json, (∀ path, (∃ content, leaves path content) ↔ path ∈ paths) ∧
    Dotted leaves value ∧ Spans (leaves.behind front) other

/-- The paths behind some keys. -/
def pathsBehind (front : List String) (paths : Set (List String)) : Set (List String) :=
  {path | ∃ rest ∈ paths, path = front ++ rest}

/-- The paths behind a key are those behind the keys after it, with the key in front. -/
theorem mem_pathsBehind_cons {name : String} {front path : List String}
    {paths : Set (List String)} : path ∈ pathsBehind (name :: front) paths ↔
      ∃ rest ∈ pathsBehind front paths, path = name :: rest := by
  constructor
  · rintro ⟨rest, hrest, rfl⟩
    exact ⟨_, ⟨rest, hrest, rfl⟩, rfl⟩
  · rintro ⟨_, ⟨rest, hrest, rfl⟩, rfl⟩
    exact ⟨rest, hrest, rfl⟩

/-- Paths of which those of the one set are apart from those of the other. -/
def PathsApart (paths others : Set (List String)) : Prop :=
  ∀ path ∈ paths, ∀ other ∈ others, Leaves.Apart path other

namespace Twins

variable {front : List String} {paths others : Set (List String)} {value other : Json}

/-- Unfolding the first of two twins gives the second, the order of keys aside. -/
theorem same (h : Twins [] paths value other) : value.unfolded.Same other := by
  obtain ⟨leaves, -, hdotted, hspans⟩ := h
  rw [Leaves.behind_nil] at hspans
  exact hdotted.spans.same hspans

/-- A value without dots in its keys is its own twin. -/
theorem of_undotted (h : value.Undotted) : Twins [] {[]} value value := by
  refine ⟨Leaves.single [] value, by simp [Leaves.single], ?_, ?_⟩
  · refine .leaf ⟨rfl, rfl⟩ (fun _ _ hleaf => hleaf) ?_
    rw [unfolded_of_dotFree value h.wellFormed h.dotFree]
    exact .refl value
  · rw [Leaves.behind_nil]
    exact .leaf ⟨rfl, rfl⟩ (fun _ _ hleaf => hleaf) (.refl value)

/-- Lists of twins are twins. -/
theorem of_items {items items' : List Json} (h : List.Forall₂ (Twins [] paths) items items') :
    Twins [] {[]} (.arr items) (.arr items') := by
  have hsame : Same (.arr items') (Json.unfolded (.arr items)) := by
    rw [unfolded, unfoldedItems_eq_map]
    refine .of_forall₂ (List.forall₂_map_right_iff.mpr (h.flip.imp ?_))
    exact fun _ _ hitem => (Twins.same hitem).symm
  refine ⟨Leaves.single [] (.arr items'), by simp [Leaves.single],
    .leaf ⟨rfl, rfl⟩ (fun _ _ hleaf => hleaf) hsame, ?_⟩
  rw [Leaves.behind_nil]
  exact .leaf ⟨rfl, rfl⟩ (fun _ _ hleaf => hleaf) (.refl _)

/-- Below one more key the second twin has the leaves behind it. -/
theorem nested (h : Twins front paths value other) (hsome : paths.Nonempty) (key : String) :
    Twins (key :: front) paths value (.obj [(key, other)]) := by
  obtain ⟨leaves, hpaths, hdotted, hspans⟩ := h
  obtain ⟨path, hpath⟩ := hsome
  obtain ⟨content, hleaf⟩ := (hpaths path).mpr hpath
  refine ⟨leaves, hpaths, hdotted, ?_⟩
  have hbehind := hspans.behind ⟨front ++ path, content, path, rfl, hleaf⟩ [key]
  rwa [Leaves.behind_behind] at hbehind

/-- Fields whose keys stand for the same names, with twins as their values, are twins. -/
theorem field (h : Twins front paths value other) (hsome : paths.Nonempty) {key name : String}
    (hkey : Trie.parts key = name :: front) :
    Twins [] (pathsBehind (name :: front) paths) (.obj [(key, value)]) (.obj [(name, other)]) := by
  obtain ⟨leaves, hpaths, hdotted, hspans⟩ := h.nested hsome name
  obtain ⟨path, hpath⟩ := hsome
  obtain ⟨content, hleaf⟩ := (hpaths path).mpr hpath
  have hfield := hdotted.field ⟨path, content, hleaf⟩ key
  rw [hkey] at hfield
  refine ⟨leaves.behind (name :: front), fun way => ?_, hfield, by simpa using hspans⟩
  constructor
  · rintro ⟨content, rest, rfl, hrest⟩
    exact ⟨rest, (hpaths rest).mp ⟨content, hrest⟩, rfl⟩
  · rintro ⟨rest, hrest, rfl⟩
    obtain ⟨content, hrest⟩ := (hpaths rest).mpr hrest
    exact ⟨content, rest, rfl, hrest⟩

/-- Twins with leaves below keys are objects. -/
theorem exists_fields (h : Twins [] paths value other) (hnone : [] ∉ paths) :
    ∃ fields fields', value = .obj fields ∧ other = .obj fields' := by
  obtain ⟨leaves, hpaths, hdotted, hspans⟩ := h
  have hnil : ∀ content, ¬leaves [] content := fun content hleaf =>
    hnone ((hpaths []).mp ⟨content, hleaf⟩)
  rw [Leaves.behind_nil] at hspans
  obtain ⟨fields, rfl⟩ := hdotted.exists_fields hnil
  obtain ⟨fields', rfl⟩ := hspans.exists_fields hnil
  exact ⟨fields, fields', rfl, rfl⟩

/-- The products of twins with leaves apart from each other are twins. -/
theorem merge {fields fields' older older' : Fields Json}
    (h : Twins [] paths (.obj older) (.obj older'))
    (h' : Twins [] others (.obj fields) (.obj fields')) (hnone : [] ∉ paths) (hnone' : [] ∉ others)
    (hapart : PathsApart paths others) :
    Twins [] (paths ∪ others) (.obj (mergeFields older fields))
      (.obj (mergeFields older' fields')) := by
  obtain ⟨leaves, hpaths, hdotted, hspans⟩ := h
  obtain ⟨leaves', hpaths', hdotted', hspans'⟩ := h'
  rw [Leaves.behind_nil] at hspans hspans'
  have hnil : ∀ content, ¬leaves [] content := fun content hleaf =>
    hnone ((hpaths []).mp ⟨content, hleaf⟩)
  have hnil' : ∀ content, ¬leaves' [] content := fun content hleaf =>
    hnone' ((hpaths' []).mp ⟨content, hleaf⟩)
  have hseparate : leaves.Separate leaves' := fun path content path' content' hleaf hleaf' =>
    hapart path ((hpaths path).mp ⟨content, hleaf⟩) path' ((hpaths' path').mp ⟨content', hleaf'⟩)
  refine ⟨leaves.both leaves', fun path => ?_, hdotted'.merge hdotted hnil hnil' hseparate, ?_⟩
  · rw [Set.mem_union, ← hpaths, ← hpaths', ← exists_or]
    rfl
  · rw [Leaves.behind_nil]
    exact hspans'.merge hspans hnil hnil' hseparate

/-- Writing fields whose keys stand for the same names, with twins as their values, into twins. -/
theorem put {fields fields' : Fields Json} (h : Twins [] paths (.obj fields) (.obj fields'))
    (hnone : [] ∉ paths) (hvalue : Twins front others value other) (hsome : others.Nonempty)
    {key name : String} (hkey : Trie.parts key = name :: front)
    (hnew : ∀ path, name :: path ∉ paths) :
    Twins [] (paths ∪ pathsBehind (name :: front) others) (.obj (Fields.put fields key value))
      (.obj (Fields.put fields' name other)) := by
  have hfresh : key ∉ Fields.names fields ∧ name ∉ Fields.names fields' := by
    obtain ⟨leaves, hpaths, hdotted, hspans⟩ := h
    rw [Leaves.behind_nil] at hspans
    have hnil : ∀ content, ¬leaves [] content := fun content hleaf =>
      hnone ((hpaths []).mp ⟨content, hleaf⟩)
    constructor
    · intro hmem
      obtain ⟨path, content, hleaf⟩ := hdotted.exists_leaf hnil hmem
      rw [hkey] at hleaf
      exact hnew _ ((hpaths _).mp ⟨content, hleaf⟩)
    · intro hmem
      obtain ⟨path, content, hleaf⟩ := hspans.exists_leaf hnil hmem
      exact hnew _ ((hpaths _).mp ⟨content, hleaf⟩)
  have hmerged := h.merge (hvalue.field hsome hkey) hnone ?_ ?_
  · rw [mergeFields_new hfresh.1, mergeFields_new hfresh.2] at hmerged
    rwa [Fields.put_of_not_mem hfresh.1, Fields.put_of_not_mem hfresh.2]
  · rintro ⟨rest, -, hpath⟩
    cases hpath
  · rintro path hpath _ ⟨rest, -, rfl⟩
    cases path with
    | nil => exact absurd hpath hnone
    | cons head path =>
      have hne : head ≠ name := by
        rintro rfl
        exact hnew path hpath
      simp [Leaves.Apart, List.cons_prefix_cons, hne, hne.symm]

end Twins

end Json

end Projector
