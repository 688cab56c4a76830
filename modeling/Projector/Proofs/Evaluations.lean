import Projector.Proofs.Groups
import Projector.Proofs.Projections
import Projector.Synthesis.Emit

/-!
# Evaluating well-typed queries

An evaluation is tame when fields are only taken of objects and nothing and only lists are iterated.
A tame evaluation of steps, lists, object constructions and products gives what one expects: steps
follow fields, and pieces that build objects with leaves apart have a product with all their leaves.
-/

namespace Projector

/-- A step can be taken into a value: only objects and nothing have fields, and only lists have
elements. -/
def Segment.fits (segment : Segment) (value : Json) : Bool :=
  match segment, value with
  | .field _, .obj _ => true
  | .field _, .null => true
  | .each, .arr _ => true
  | _, _ => false

namespace Fields

/-- A new name is written behind the others. -/
theorem put_of_not_mem {α : Type} {fields : Fields α} {name : String}
    (h : name ∉ names fields) (value : α) :
    put fields name value = fields ++ [(name, value)] := by
  induction fields with
  | nil => rfl
  | cons field rest ih =>
    obtain ⟨other, old⟩ := field
    simp only [names, List.map_cons, List.mem_cons, not_or] at h
    rw [put, if_neg fun heq => h.1 heq.symm, ih h.2]
    rfl

end Fields

namespace Query

mutual

/-- Whether all steps that are taken while a query is evaluated can be taken. -/
def isTame (bound : Fields Json) : Query → Json → Bool
  | .input, _ => true
  | .var _, _ => true
  | .step base segment, value =>
    isTame bound base value && (eval bound base value).values.all segment.fits
  | .collect body, value => isTame bound body value
  | .object entries, value => areTame bound entries value
  | .times left right, value =>
    isTame bound right value &&
      ((eval bound right value).values.isEmpty || isTame bound left value)
  | .pipe first next, value =>
    isTame bound first value && (eval bound first value).values.all (isTame bound next)
  | .bind name body, value => isTame ((name, value) :: bound) body value

/-- The same for the values of an object construction. -/
def areTame (bound : Fields Json) : List (String × Query) → Json → Bool
  | [], _ => true
  | (_, entry) :: rest, value =>
    isTame bound entry value &&
      ((eval bound entry value).values.isEmpty || areTame bound rest value)

end

/-! ## Outputs -/

namespace Outputs

/-- Going on with a single output. -/
@[simp] theorem bind_one (value : Json) (next : Json → Outputs) :
    (one value).bind next = next value := by
  unfold bind one ofEach append
  cases hnext : next value with
  | mk values failure => cases failure <;> simp [ofEach]

/-- A single output is one value. -/
@[simp] theorem values_one (value : Json) : (one value).values = [value] := rfl

/-- Single outputs are the same when their values are. -/
theorem one_inj {value other : Json} : one value = one other ↔ value = other := by
  simp [one]

/-- Going on with some outputs, each of which has a single output. -/
theorem bind_all {next : Json → Outputs} {related : Json → Json → Prop} {items : List Json}
    (h : ∀ item ∈ items, ∃ output, next item = one output ∧ related item output) :
    ∃ outputs, (all items).bind next = all outputs ∧ List.Forall₂ related items outputs := by
  induction items with
  | nil => exact ⟨[], rfl, .nil⟩
  | cons item items ih =>
    obtain ⟨output, hnext, hrelated⟩ := h item (by simp)
    obtain ⟨outputs, hrest, hall⟩ := ih fun other hother => h other (by simp [hother])
    refine ⟨output :: outputs, ?_, .cons hrelated hall⟩
    simp only [bind, all] at hrest ⊢
    rw [ofEach, hnext, hrest]
    rfl

/-- Some outputs as one list. -/
@[simp] theorem collected_all (items : List Json) : (all items).collected = one (.arr items) := rfl

end Outputs

/-! ## Steps -/

/-- Steps from a query are tame only when the query is. -/
theorem isTame_of_read {bound : Fields Json} {base : Query} {path : Path} {value : Json}
    (h : (read base path).isTame bound value = true) : base.isTame bound value = true := by
  induction path generalizing base with
  | nil => exact h
  | cons segment path ih =>
    have hstep : (step base segment).isTame bound value = true := ih h
    rw [isTame, Bool.and_eq_true] at hstep
    exact hstep.1

/-- A step into a field of an object or nothing. -/
theorem stepInto_field {name : String} {value : Json}
    (h : (Segment.field name).fits value = true) :
    stepInto (.field name) value = .one (value.field name) := by
  cases value <;> simp_all [Segment.fits, stepInto, Json.field]

/-- Steps into fields follow these. -/
theorem eval_read {bound : Fields Json} {base : Query} {value start : Json}
    (hbase : base.eval bound value = .one start) (names : List String)
    (htame : (read base (names.map .field)).isTame bound value = true) :
    (read base (names.map .field)).eval bound value = .one (start.follow names) := by
  induction names generalizing base start with
  | nil => exact hbase
  | cons name names ih =>
    have hstep : (step base (.field name)).isTame bound value = true := isTame_of_read htame
    rw [isTame, hbase, Bool.and_eq_true] at hstep
    have hfits : (Segment.field name).fits start = true := by simpa using hstep.2
    refine ih ?_ htame
    rw [eval, hbase, Outputs.bind_one, stepInto_field hfits]

/-- Steps to the elements of a list that fields lead to. -/
theorem eval_read_elements {bound : Fields Json} {base : Query} {value start : Json}
    (hbase : base.eval bound value = .one start) (names : List String)
    (htame : (read base (names.map .field ++ [.each])).isTame bound value = true) :
    ∃ elements, start.follow names = .arr elements ∧
      (read base (names.map .field ++ [.each])).eval bound value = .all elements := by
  have hread : read base (names.map .field ++ [.each]) =
      .step (read base (names.map .field)) .each := by
    rw [read, List.foldl_append]
    rfl
  rw [hread, isTame, Bool.and_eq_true] at htame
  have hlist := eval_read hbase names htame.1
  rw [hlist] at htame
  have hfits : Segment.each.fits (start.follow names) = true := by simpa using htame.2
  rw [hread, eval, hlist, Outputs.bind_one]
  cases hstart : start.follow names with
  | arr elements => exact ⟨elements, rfl, rfl⟩
  | _ => simp [hstart, Segment.fits] at hfits

/-! ## Object constructions -/

/-- An object construction whose entries have different keys and one output each. -/
theorem evalEntries_eq {bound : Fields Json} {value : Json} {related : String → Json → Prop}
    {entries : List (String × Query)} {fields : Fields Json}
    (hdistinct : (Fields.names fields ++ Fields.names entries).Nodup)
    (htame : areTame bound entries value = true)
    (h : ∀ entry ∈ entries, entry.2.isTame bound value = true →
      ∃ output, entry.2.eval bound value = .one output ∧ related entry.1 output) :
    ∃ outputs : Fields Json,
      evalEntries bound entries fields value = .one (.obj (fields ++ outputs)) ∧
        Fields.names outputs = Fields.names entries ∧
        ∀ output ∈ outputs, related output.1 output.2 := by
  induction entries generalizing fields with
  | nil => exact ⟨[], by simp [evalEntries], rfl, by simp⟩
  | cons entry rest ih =>
    obtain ⟨key, entry⟩ := entry
    rw [areTame, Bool.and_eq_true] at htame
    obtain ⟨output, houtput, hrelated⟩ := h _ List.mem_cons_self htame.1
    dsimp only at houtput
    have hrest : areTame bound rest value = true := by simpa [houtput] using htame.2
    have hnew : key ∉ Fields.names fields := by
      intro hmem
      exact (List.nodup_append.mp hdistinct).2.2 key hmem key (by simp [Fields.names]) rfl
    have hput := Fields.put_of_not_mem hnew output
    have hdistinct' : (Fields.names (fields ++ [(key, output)]) ++ Fields.names rest).Nodup := by
      simpa [Fields.names] using hdistinct
    obtain ⟨outputs, heval, hnames, hall⟩ :=
      ih hdistinct' hrest fun other hother => h other (by simp [hother])
    refine ⟨(key, output) :: outputs, ?_, ?_, ?_⟩
    · rw [evalEntries, houtput, Outputs.bind_one, hput, heval]
      simp
    · rw [Fields.names, List.map_cons, ← Fields.names, hnames]
      rfl
    · intro other hother
      rcases List.mem_cons.mp hother with rfl | hother
      · exact hrelated
      · exact hall other hother

/-- The outputs of the queries at some leaves. -/
def outputsAt (bound : Fields Json) (value : Json) (leaves : Leaves Query) : Leaves Json :=
  fun path output => ∃ query, leaves path query ∧ query.eval bound value = .one output

/-- A value is built from the outputs of the queries at some leaves, whose evaluation is tame. -/
def SpansOutputs (bound : Fields Json) (value : Json) (leaves : Leaves Query) (output : Json) :
    Prop :=
  Json.Spans (outputsAt bound value leaves) output ∧
    ∀ path query, leaves path query → query.isTame bound value = true

/-- The fields of an object construction have the keys of the children that they are made of. -/
theorem mem_fields_foldEntries {children : Fields (Trie Query)} {field : String × Query} :
    field ∈ Trie.Folded.fields (Trie.foldEntries .object id false children) ↔
      ∃ child ∈ children,
        (child.1, (Trie.foldEntry Query.object id false child.1 child.2).value) = field := by
  have hkey : ∀ child : String × Trie Query,
      (Trie.foldEntry Query.object id false child.1 child.2).key = child.1 := by
    rintro ⟨key, child⟩
    cases child <;> rfl
  rw [Trie.mem_fields, Trie.foldEntries_eq_map]
  simp only [List.mem_map, exists_exists_and_eq_and, hkey]

/-- An object construction of children with different keys has different keys. -/
theorem distinct_fields_foldEntries {children : Fields (Trie Query)}
    (hdistinct : Fields.Distinct children) :
    Fields.Distinct (Trie.Folded.fields (Trie.foldEntries Query.object id false children)) := by
  have hkeys : (Trie.foldEntries Query.object id false children).map Trie.Folded.key =
      Fields.names children := by
    rw [Trie.foldEntries_eq_map, List.map_map]
    refine List.map_congr_left ?_
    rintro ⟨key, child⟩ -
    cases child <;> rfl
  have hperm : (Fields.names (Trie.Folded.fields
      (Trie.foldEntries Query.object id false children))).Perm (Fields.names children) := by
    rw [← hkeys, Fields.names, Trie.Folded.fields, List.map_map]
    exact (List.mergeSort_perm _ _).map _
  exact hperm.nodup_iff.mpr hdistinct

/-- The object construction of some children has an output with one field for each child, when every
child has an output. -/
theorem eval_fields_foldEntries {bound : Fields Json} {value : Json}
    {related : String → Json → Prop} {children : Fields (Trie Query)}
    (hdistinct : Fields.Distinct children)
    (hchild : ∀ key child, Fields.get? children key = some child →
      (Trie.foldEntry .object id false key child).value.isTame bound value = true →
      ∃ output, (Trie.foldEntry .object id false key child).value.eval bound value = .one output ∧
        related key output)
    (htame : (object (Trie.Folded.fields
      (Trie.foldEntries .object id false children))).isTame bound value = true) :
    ∃ outputs, (object (Trie.Folded.fields
        (Trie.foldEntries .object id false children))).eval bound value = .one (.obj outputs) ∧
      Fields.Distinct outputs ∧
      (∀ key, (Fields.get? outputs key).isSome = (Fields.get? children key).isSome) ∧
      ∀ key output, Fields.get? outputs key = some output → related key output := by
  have hnames := distinct_fields_foldEntries hdistinct
  have hmem : ∀ key, key ∈ Fields.names (Trie.Folded.fields
      (Trie.foldEntries Query.object id false children)) ↔ key ∈ Fields.names children := by
    intro key
    simp only [Fields.names, List.mem_map, mem_fields_foldEntries, exists_exists_and_eq_and]
  generalize hfields : Trie.Folded.fields (Trie.foldEntries Query.object id false children) = fields
    at hnames htame hmem ⊢
  have heach : ∀ field ∈ fields, field.2.isTame bound value = true →
      ∃ output, field.2.eval bound value = .one output ∧ related field.1 output := by
    intro field hfield htame
    rw [← hfields, mem_fields_foldEntries] at hfield
    obtain ⟨⟨key, child⟩, hchildren, rfl⟩ := hfield
    exact hchild key child (Fields.get?_of_mem hdistinct hchildren) htame
  have hfresh : (Fields.names ([] : Fields Json) ++ Fields.names fields).Nodup := by
    rw [Fields.names, List.map_nil, List.nil_append]
    exact hnames
  obtain ⟨outputs, heval, hsame, hrelated⟩ := evalEntries_eq hfresh htame heach
  refine ⟨outputs, heval, ?_, fun key => ?_, fun key output houtput => ?_⟩
  · rw [Fields.Distinct, hsame]
    exact hnames
  · rw [Bool.eq_iff_iff, Fields.isSome_get?_iff, Fields.isSome_get?_iff, hsame, hmem]
  · exact hrelated _ (Fields.mem_of_get? houtput)

/-- The object construction of children whose leaves have an output each has one that is built from
theirs, when the same holds of every child. -/
theorem eval_object_foldEntries {bound : Fields Json} {value : Json} {leaves : Leaves Query}
    {children : Fields (Trie Query)} (hnone : ∀ query, ¬leaves [] query)
    (hdistinct : Fields.Distinct children)
    (hcovered : ∀ key path query, leaves (key :: path) query →
      (Fields.get? children key).isSome = true)
    (hinhabited : ∀ key child, Fields.get? children key = some child →
      ∃ path query, leaves (key :: path) query)
    (hleaf : ∀ path query, leaves path query → query.isTame bound value = true →
      ∃ output, query.eval bound value = .one output)
    (hchild : ∀ key child, Fields.get? children key = some child →
      (Trie.foldEntry .object id false key child).value.isTame bound value = true →
      ∃ output, (Trie.foldEntry .object id false key child).value.eval bound value = .one output ∧
        SpansOutputs bound value (leaves.below key) output)
    (htame : (object (Trie.Folded.fields
      (Trie.foldEntries .object id false children))).isTame bound value = true) :
    ∃ output, (object (Trie.Folded.fields
        (Trie.foldEntries .object id false children))).eval bound value = .one output ∧
      SpansOutputs bound value leaves output := by
  obtain ⟨outputs, heval, hdistinct', hsame, hspans⟩ :=
    eval_fields_foldEntries hdistinct hchild htame
  have hread : ∀ key path query, leaves (key :: path) query →
      ∃ output, Fields.get? outputs key = some output := by
    intro key path query hquery
    exact Option.isSome_iff_exists.mp (by rw [hsame]; exact hcovered key path query hquery)
  refine ⟨.obj outputs, heval, .object ?_ hdistinct' ?_ ?_ ?_, ?_⟩
  · rintro output ⟨query, hquery, -⟩
    exact hnone query hquery
  · rintro key path output ⟨query, hquery, -⟩
    rw [hsame]
    exact hcovered key path query hquery
  · intro key output houtput
    obtain ⟨child, hget⟩ : ∃ child, Fields.get? children key = some child :=
      Option.isSome_iff_exists.mp (by rw [← hsame, houtput]; rfl)
    obtain ⟨path, query, hquery⟩ := hinhabited key child hget
    have htame := (hspans key output houtput).2 path query hquery
    obtain ⟨content, hcontent⟩ := hleaf _ query hquery htame
    exact ⟨path, content, query, hquery, hcontent⟩
  · intro key output houtput
    exact (hspans key output houtput).1
  · intro path query hquery
    cases path with
    | nil => exact absurd hquery (hnone query)
    | cons key path =>
      obtain ⟨output, houtput⟩ := hread key path query hquery
      exact (hspans key output houtput).2 path query hquery

/-- The entry of a trie whose leaves have an output each has one that is built from theirs. -/
theorem eval_foldEntry {bound : Fields Json} {value : Json} {leaves : Leaves Query}
    {trie : Trie Query} (hspans : trie.Spans leaves)
    (hleaf : ∀ path query, leaves path query → query.isTame bound value = true →
      ∃ output, query.eval bound value = .one output) (key : String)
    (htame : (Trie.foldEntry .object id false key trie).value.isTame bound value = true) :
    ∃ output, (Trie.foldEntry .object id false key trie).value.eval bound value = .one output ∧
      SpansOutputs bound value leaves output := by
  induction hspans generalizing key with
  | @leaf leaves query order hself honly =>
    rw [Trie.foldEntry] at htame ⊢
    obtain ⟨output, houtput⟩ := hleaf [] query hself htame
    refine ⟨output, houtput, .leaf ⟨query, hself, houtput⟩ ?_ (.refl _), ?_⟩
    · rintro path other ⟨query', hquery', hother⟩
      obtain ⟨rfl, rfl⟩ := honly path query' hquery'
      exact ⟨rfl, Outputs.one_inj.mp (hother.symm.trans houtput)⟩
    · intro path query' hquery'
      rw [(honly path query' hquery').2]
      exact htame
  | @branch leaves order children hnone hdistinct hcovered hinhabited _ ih =>
    refine eval_object_foldEntries hnone hdistinct hcovered hinhabited hleaf ?_ htame
    intro name child hchild hbelow
    exact ih name child hchild (fun path query hquery => hleaf _ query hquery) name hbelow

/-- The object construction that a trie is folded into has an output that is built from those of
the leaves. -/
theorem eval_fold {bound : Fields Json} {value : Json} {leaves : Leaves Query} {order : Int}
    {children : Fields (Trie Query)} (hspans : (Trie.branch order children).Spans leaves)
    (hleaf : ∀ path query, leaves path query → query.isTame bound value = true →
      ∃ output, query.eval bound value = .one output)
    (htame : (Trie.fold .object id false children).isTame bound value = true) :
    ∃ output, (Trie.fold .object id false children).eval bound value = .one output ∧
      SpansOutputs bound value leaves output :=
  eval_foldEntry hspans hleaf "" htame

/-! ## Products -/

/-- A query whose tame evaluation has one output, which is built from exactly these leaves. -/
def Builds (bound : Fields Json) (value : Json) (query : Query) (leaves : Leaves Json) : Prop :=
  query.isTame bound value = true →
    ∃ output, query.eval bound value = .one output ∧ Json.Spans leaves output

/-- The product of two queries that build leaves apart from each other builds the leaves of both. -/
theorem Builds.times {bound : Fields Json} {value : Json} {left right : Query}
    {leaves others : Leaves Json} (h : Builds bound value left leaves)
    (h' : Builds bound value right others) (hnone : ∀ content, ¬leaves [] content)
    (hnone' : ∀ content, ¬others [] content)
    (hapart : leaves.Separate others) :
    Builds bound value (.times left right) (leaves.both others) := by
  intro htame
  rw [isTame, Bool.and_eq_true] at htame
  obtain ⟨newer, hright, hspans'⟩ := h' htame.1
  have hleft : left.isTame bound value = true := by simpa [hright] using htame.2
  obtain ⟨older, hleft, hspans⟩ := h hleft
  obtain ⟨newFields, rfl⟩ := hspans'.exists_fields hnone'
  obtain ⟨oldFields, rfl⟩ := hspans.exists_fields hnone
  refine ⟨_, ?_, hspans'.merge hspans hnone hnone' hapart⟩
  rw [eval, hright, Outputs.bind_one, hleft, Outputs.bind_one]
  rfl

/-- A piece of a product, with the leaves that it builds. -/
abbrev Piece := Query × Leaves Json

/-- Pieces with leaves apart from each other. -/
def Piece.Apart (piece other : Piece) : Prop :=
  ∀ path content path' content', piece.2 path content → other.2 path' content' →
    Leaves.Apart path path'

/-- The leaves of some pieces. -/
def leavesOf (pieces : List Piece) : Leaves Json := fun path content =>
  ∃ piece ∈ pieces, piece.2 path content

/-- A product to which more pieces are added builds the leaves of all. -/
theorem builds_foldl_times {bound : Fields Json} {value : Json} {first : Piece}
    {pieces : List Piece} (hbuilds : ∀ piece ∈ first :: pieces, Builds bound value piece.1 piece.2)
    (hinhabited : ∀ piece ∈ first :: pieces, ∃ path content, piece.2 path content)
    (hapart : (first :: pieces).Pairwise Piece.Apart) :
    Builds bound value ((pieces.map Prod.fst).foldl .times first.1)
      (leavesOf (first :: pieces)) := by
  induction pieces generalizing first with
  | nil =>
    have hleaves : leavesOf [first] = first.2 := by
      funext path content
      simp [leavesOf]
    rw [hleaves]
    exact hbuilds first (by simp)
  | cons piece pieces ih =>
    obtain ⟨hfirst, hrest⟩ := List.pairwise_cons.mp hapart
    obtain ⟨hpiece, hpieces⟩ := List.pairwise_cons.mp hrest
    have hfirstPiece : first.2.Separate piece.2 := hfirst piece (by simp)
    let both : Piece := (.times first.1 piece.1, first.2.both piece.2)
    have hboth : Builds bound value both.1 both.2 :=
      (hbuilds first (by simp)).times (hbuilds piece (by simp))
        (hfirstPiece.not_nil (hinhabited piece (by simp)))
        (hfirstPiece.symm.not_nil (hinhabited first (by simp))) hfirstPiece
    have hleaves : leavesOf (first :: piece :: pieces) = leavesOf (both :: pieces) := by
      funext path content
      simp [leavesOf, both, Leaves.both, or_assoc]
    rw [hleaves]
    refine @ih both ?_ ?_ ?_
    · intro other hother
      rcases List.mem_cons.mp hother with rfl | hother
      · exact hboth
      · exact hbuilds other (by simp [hother])
    · intro other hother
      rcases List.mem_cons.mp hother with rfl | hother
      · obtain ⟨path, content, hleaf⟩ := hinhabited first (by simp)
        exact ⟨path, content, .inl hleaf⟩
      · exact hinhabited other (by simp [hother])
    · refine List.pairwise_cons.mpr ⟨fun other hother path content path' content' h h' => ?_,
        hpieces⟩
      rcases h with h | h
      · exact hfirst other (by simp [hother]) path content path' content' h h'
      · exact hpiece other hother path content path' content' h h'

/-- The product of pieces with leaves apart from each other builds the leaves of all. -/
theorem builds_product {bound : Fields Json} {value : Json} {pieces : List Piece}
    (hne : pieces ≠ []) (hbuilds : ∀ piece ∈ pieces, Builds bound value piece.1 piece.2)
    (hinhabited : ∀ piece ∈ pieces, ∃ path content, piece.2 path content)
    (hapart : pieces.Pairwise Piece.Apart) :
    Builds bound value (product (pieces.map Prod.fst)) (leavesOf pieces) := by
  cases pieces with
  | nil => exact absurd rfl hne
  | cons first pieces => exact builds_foldl_times hbuilds hinhabited hapart

end Query

end Projector
