import Mathlib.Data.List.Forall2
import Projector.Proofs.Tries
import Projector.Query.Eval

/-!
# Objects by their leaves

Two values are the same when they differ at most in the order of keys. An object that is built from
values at key paths is described by these leaves: leaves determine it up to the order of keys, and
the product of two objects whose leaves are apart has the leaves of both.
-/

namespace Projector

namespace Json

/-- Two values that are equal, the order of keys aside. -/
inductive Same : Json → Json → Prop
  | refl (value : Json) : Same value value
  | arr {items others : List Json} (hlength : items.length = others.length)
      (hitems : ∀ (index : Nat) (item other : Json), items[index]? = some item →
        others[index]? = some other → Same item other) :
      Same (.arr items) (.arr others)
  | obj {fields others : Fields Json}
      (hnames : (Fields.names fields).Perm (Fields.names others))
      (hvalues : ∀ name value other, Fields.get? fields name = some value →
        Fields.get? others name = some other → Same value other) :
      Same (.obj fields) (.obj others)

namespace Same

/-- Being the same goes both ways. -/
theorem symm {value other : Json} (h : Same value other) : Same other value := by
  induction h with
  | refl value => exact .refl value
  | arr hlength _ ih =>
    exact .arr hlength.symm fun index item other hitem hother => ih index other item hother hitem
  | obj hnames _ ih =>
    exact .obj hnames.symm fun name value other hvalue hother => ih name other value hother hvalue

/-- What is the same as the same is the same. -/
theorem trans {value other last : Json} (h : Same value other) (h' : Same other last) :
    Same value last := by
  induction h generalizing last with
  | refl value => exact h'
  | @arr items others hlength hitems ih =>
    cases h' with
    | refl => exact .arr hlength hitems
    | @arr _ lasts hlength' hitems' =>
      refine .arr (hlength.trans hlength') fun index item last hitem hlast => ?_
      have hindex : index < others.length := by
        have hlt := (List.getElem?_eq_some_iff.mp hitem).1
        omega
      have hother : others[index]? = some others[index] := List.getElem?_eq_getElem hindex
      exact ih index item _ hitem hother (hitems' index _ last hother hlast)
  | @obj fields others hnames hvalues ih =>
    cases h' with
    | refl => exact .obj hnames hvalues
    | @obj _ lasts hnames' hvalues' =>
      refine .obj (hnames.trans hnames') fun name value last hvalue hlast => ?_
      have hsome : (Fields.get? others name).isSome = true := by
        rw [Fields.isSome_get?_iff, ← hnames.mem_iff, ← Fields.isSome_get?_iff, hvalue]
        rfl
      obtain ⟨other, hother⟩ := Option.isSome_iff_exists.mp hsome
      exact ih name value other hvalue hother (hvalues' name other last hother hlast)

/-- Lists of items that are the same are the same. -/
theorem of_forall₂ {items others : List Json} (h : List.Forall₂ Same items others) :
    Same (.arr items) (.arr others) := by
  obtain ⟨hlength, hget⟩ := List.forall₂_iff_get.mp h
  refine .arr hlength fun index item other hitem hother => ?_
  obtain ⟨hindex, rfl⟩ := List.getElem?_eq_some_iff.mp hitem
  obtain ⟨hindex', rfl⟩ := List.getElem?_eq_some_iff.mp hother
  exact hget index hindex hindex'

end Same

/-! ## Leaves of objects -/

/-- A value that is built from exactly these leaves, which are the same as what stands there. -/
inductive Spans : Leaves Json → Json → Prop
  | leaf {leaves : Leaves Json} {value result : Json} (hself : leaves [] value)
      (honly : ∀ path other, leaves path other → path = [] ∧ other = value)
      (hsame : value.Same result) : Spans leaves result
  | object {leaves : Leaves Json} {fields : Fields Json} (hnone : ∀ value, ¬leaves [] value)
      (hdistinct : Fields.Distinct fields)
      (hcovered : ∀ name path value, leaves (name :: path) value →
        (Fields.get? fields name).isSome = true)
      (hinhabited : ∀ name value, Fields.get? fields name = some value →
        ∃ path content, leaves (name :: path) content)
      (hfield : ∀ name value, Fields.get? fields name = some value →
        Spans (leaves.below name) value) :
      Spans leaves (.obj fields)

/-- An object is built from some leaves when its fields are filled by those below their names. -/
theorem Spans.of_fills {leaves : Leaves Json} {fields : Fields Json}
    (hnone : ∀ value, ¬leaves [] value) (hdistinct : Fields.Distinct fields)
    (h : ∀ name, (leaves.below name).Fills Spans (Fields.get? fields name)) :
    Spans leaves (.obj fields) := by
  obtain ⟨hcovered, hinhabited, hfield⟩ := Leaves.fills_iff.mp h
  exact .object hnone hdistinct hcovered hinhabited hfield

/-- Leaves determine the value, the order of keys aside. -/
theorem Spans.same {leaves : Leaves Json} {value other : Json} (h : Spans leaves value)
    (h' : Spans leaves other) : value.Same other := by
  induction h generalizing other with
  | leaf hself honly hsame =>
    cases h' with
    | leaf hself' _ hsame' =>
      rw [(honly _ _ hself').2] at hsame'
      exact hsame.symm.trans hsame'
    | object hnone => exact absurd hself (hnone _)
  | @object leaves fields hnone hdistinct hcovered hinhabited _ ih =>
    cases h' with
    | leaf hself' => exact absurd hself' (hnone _)
    | @object _ others _ hdistinct' hcovered' hinhabited' hfield' =>
      refine .obj ((List.perm_ext_iff_of_nodup hdistinct hdistinct').mpr fun name => ?_)
        fun name value other hvalue hother => ih name value hvalue (hfield' name other hother)
      rw [← Fields.isSome_get?_iff, ← Fields.isSome_get?_iff]
      constructor
      · intro hsome
        obtain ⟨value, hvalue⟩ := Option.isSome_iff_exists.mp hsome
        obtain ⟨path, content, hleaf⟩ := hinhabited name value hvalue
        exact hcovered' name path content hleaf
      · intro hsome
        obtain ⟨value, hvalue⟩ := Option.isSome_iff_exists.mp hsome
        obtain ⟨path, content, hleaf⟩ := hinhabited' name value hvalue
        exact hcovered name path content hleaf

/-- What is built from leaves that stand below keys is an object. -/
theorem Spans.exists_fields {leaves : Leaves Json} {value : Json} (h : Spans leaves value)
    (hnone : ∀ content, ¬leaves [] content) : ∃ fields, value = .obj fields := by
  cases h with
  | leaf hself => exact absurd hself (hnone _)
  | @object _ fields => exact ⟨fields, rfl⟩

/-! ## The product of objects -/

/-- What is read after fields were written over those of an object. -/
theorem get?_mergeFields (known : Fields Json) {fields : Fields Json}
    (hdistinct : Fields.Distinct fields) (name : String) :
    Fields.get? (mergeFields known fields) name =
      match Fields.get? fields name with
      | none => Fields.get? known name
      | some value => some (overlay (Fields.get? known name) value) := by
  induction fields generalizing known with
  | nil => simp [mergeFields, Fields.get?]
  | cons field rest ih =>
    obtain ⟨other, value⟩ := field
    obtain ⟨hnew, hrest⟩ := List.nodup_cons.mp hdistinct
    rw [mergeFields, ih _ hrest, Fields.get?]
    by_cases h : other = name
    · subst h
      have hnone : Fields.get? rest other = none := Fields.get?_eq_none_iff.mpr hnew
      simp [hnone, Fields.get?_put]
    · simp [h, Fields.get?_put]

/-- Writing fields over others keeps names distinct. -/
theorem distinct_mergeFields {known : Fields Json} (hknown : Fields.Distinct known)
    (fields : Fields Json) : Fields.Distinct (mergeFields known fields) := by
  induction fields generalizing known with
  | nil => simpa [mergeFields] using hknown
  | cons field rest ih =>
    obtain ⟨name, value⟩ := field
    rw [mergeFields]
    exact ih (Fields.distinct_put _ _ hknown)

/-- What is written where nothing was stays as it is. -/
theorem overlay_none (value : Json) : overlay none value = value := by
  cases value <;> rfl

/-- What two objects hold under a name, as their leaves have it, goes into their product as the
leaves of both have it, provided that this is so when both hold something there. -/
theorem fills_mergeFields {property : Leaves Json → Json → Prop} {leaves others : Leaves Json}
    {older fields : Fields Json} (hdistinct : Fields.Distinct fields) {name : String}
    (hold : leaves.Fills property (Fields.get? older name))
    (hnew : others.Fills property (Fields.get? fields name))
    (hboth : ∀ old newer, Fields.get? fields name = some newer →
      (∃ path content, leaves path content) → (∃ path content, others path content) →
      property leaves old → property others newer →
      property (leaves.both others) (overlay (some old) newer)) :
    (leaves.both others).Fills property (Fields.get? (mergeFields older fields) name) := by
  rw [get?_mergeFields older hdistinct]
  cases hname : Fields.get? fields name with
  | none =>
    rw [hname] at hnew
    rw [Leaves.both_of_none hnew]
    exact hold
  | some newer =>
    rw [hname] at hnew
    obtain ⟨⟨path, content, hleaf⟩, hpart⟩ := hnew
    refine ⟨⟨path, content, .inr hleaf⟩, ?_⟩
    cases hname' : Fields.get? older name with
    | none =>
      rw [hname'] at hold
      rw [Leaves.none_both hold, overlay_none]
      exact hpart
    | some old =>
      rw [hname'] at hold
      exact hboth old newer hname hold.1 ⟨path, content, hleaf⟩ hold.2 hpart

/-- The product of two objects whose leaves are apart has the leaves of both. -/
theorem Spans.merge {leaves others : Leaves Json} {older fields : Fields Json}
    (hother : Spans others (.obj fields)) (h : Spans leaves (.obj older))
    (hnone : ∀ value, ¬leaves [] value) (hnone' : ∀ value, ¬others [] value)
    (hapart : leaves.Separate others) :
    Spans (leaves.both others) (.obj (mergeFields older fields)) := by
  generalize hresult : Json.obj fields = result at hother
  induction hother generalizing leaves older fields with
  | leaf hself => exact absurd hself (hnone' _)
  | @object others fields' _ hdistinct hcovered hinhabited hfield ih =>
    obtain rfl : fields = fields' := by simpa using hresult
    cases h with
    | leaf hself => exact absurd hself (hnone _)
    | object _ hdistinct' hcovered' hinhabited' hfield' =>
      have hfills := Leaves.fills_iff.mpr ⟨hcovered, hinhabited, hfield⟩
      have hfills' := Leaves.fills_iff.mpr ⟨hcovered', hinhabited', hfield'⟩
      refine .of_fills ?_ (distinct_mergeFields hdistinct' fields) fun name => ?_
      · rintro value (hvalue | hvalue)
        · exact hnone value hvalue
        · exact hnone' value hvalue
      · rw [Leaves.below_both]
        refine fills_mergeFields hdistinct (hfills' name) (hfills name) ?_
        intro old newer hname hsome' hsome hspans' hspans
        -- Both objects go on below the name, so neither has a leaf there.
        have hbelow := hapart.below name
        have hold := hbelow.not_nil hsome
        have hnew := hbelow.symm.not_nil hsome'
        obtain ⟨oldFields, rfl⟩ := hspans'.exists_fields hold
        obtain ⟨newFields, rfl⟩ := hspans.exists_fields hnew
        exact ih name _ hname hspans' hold hnew hbelow rfl

/-- A value below some keys, the first one outermost. -/
def nested (keys : List String) (value : Json) : Json :=
  keys.foldr (fun key inside => .obj [(key, inside)]) value

/-- A value below some keys is built from its leaves behind them. -/
theorem Spans.behind {leaves : Leaves Json} {value : Json} (h : Spans leaves value)
    (hsome : ∃ path content, leaves path content) (keys : List String) :
    Spans (leaves.behind keys) (nested keys value) := by
  induction keys with
  | nil => simpa [nested] using h
  | cons key keys ih =>
    have hsome' : ∃ path content, leaves.behind keys path content := by
      obtain ⟨path, content, hleaf⟩ := hsome
      exact ⟨keys ++ path, content, path, rfl, hleaf⟩
    have hfills := Leaves.fills_behind hsome' ih key
    rw [Leaves.behind_behind] at hfills
    refine .of_fills ?_ (by simp [Fields.Distinct, Fields.names]) hfills
    rintro content ⟨path, hpath, -⟩
    simp at hpath

/-- A value below some keys is a single leaf. -/
theorem spans_nested (keys : List String) {value result : Json} (hsame : value.Same result) :
    Spans (Leaves.single keys value) (nested keys result) := by
  have hleaf : Spans (Leaves.single [] value) result := .leaf ⟨rfl, rfl⟩ (fun _ _ h => h) hsame
  have hbehind := hleaf.behind ⟨[], value, rfl, rfl⟩ keys
  rwa [Leaves.behind_single, List.append_nil] at hbehind

end Json

end Projector
