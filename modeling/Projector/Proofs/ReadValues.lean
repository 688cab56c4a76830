import Projector.Proofs.Scopes

/-!
# All values at a path

A path with steps to elements leads to any number of values, in the order of the document. A tame
reading has them all as its outputs: those in the element at hand for what lives in the elements
that a scope reads from, and those in the whole document for what lives elsewhere. What a scope
reaches is a single value.
-/

namespace Projector

namespace Json

/-- The values that a path leads to. -/
def valuesAt : Json → Path → List Json
  | value, [] => [value]
  | value, .field name :: rest => valuesAt (value.field name) rest
  | value, .each :: rest => value.items.flatMap fun item => valuesAt item rest

/-- The values that a path leads to are those that its end leads to from those of its front. -/
theorem valuesAt_append (value : Json) (path rest : Path) :
    value.valuesAt (path ++ rest) = (value.valuesAt path).flatMap (·.valuesAt rest) := by
  induction path generalizing value with
  | nil => simp [valuesAt]
  | cons segment path ih =>
    cases segment with
    | field name => exact ih _
    | each =>
      rw [List.cons_append, valuesAt, valuesAt, List.flatMap_assoc]
      exact congrArg value.items.flatMap (funext ih)

/-- Fields lead to a single value. -/
theorem valuesAt_map_field (value : Json) (names : List String) :
    value.valuesAt (names.map .field) = [value.follow names] := by
  induction names generalizing value with
  | nil => rfl
  | cons name names ih => exact ih _

/-- What lives in fields behind a path is what these fields hold in each of the values there. -/
theorem valuesAt_append_map_field (value : Json) (path : Path) (names : List String) :
    value.valuesAt (path ++ names.map .field) =
      (value.valuesAt path).map fun start => start.follow names := by
  rw [valuesAt_append]
  simp only [valuesAt_map_field, ← List.map_eq_flatMap]

end Json

namespace Query

/-- Going on with some outputs, each of which has some outputs and does not fail. -/
theorem Outputs.bind_all_eq {next : Json → Outputs} {block : Json → List Json} {items : List Json}
    (h : ∀ item ∈ items, next item = .all (block item)) :
    (Outputs.all items).bind next = .all (items.flatMap block) := by
  induction items with
  | nil => rfl
  | cons item items ih =>
    have hrest := ih fun other hother => h other (by simp [hother])
    simp only [bind, all] at hrest ⊢
    rw [ofEach, h item (by simp), hrest]
    rfl

/-- A step that can be taken gives what the segment leads to. -/
theorem stepInto_eq_all {segment : Segment} {value : Json} (h : segment.fits value = true) :
    stepInto segment value = .all (value.valuesAt [segment]) := by
  cases segment with
  | field name => exact stepInto_field h
  | each =>
    cases value with
    | arr items => simp [stepInto, Json.valuesAt, Json.items]
    | _ => simp [Segment.fits] at h

/-- Steps along a path give what the path leads to from each of the values where they start. -/
theorem eval_read_all {bound : Fields Json} {base : Query} {path : Path} {value : Json}
    {starts : List Json} (hbase : base.eval bound value = .all starts)
    (htame : (read base path).isTame bound value = true) :
    (read base path).eval bound value = .all (starts.flatMap (·.valuesAt path)) := by
  induction path generalizing base starts with
  | nil => simpa [read, Json.valuesAt] using hbase
  | cons segment path ih =>
    have hstep : (step base segment).isTame bound value = true := isTame_of_read htame
    rw [isTame, hbase, Bool.and_eq_true] at hstep
    have hfits : ∀ start ∈ starts, stepInto segment start = .all (start.valuesAt [segment]) :=
      fun start hstart => stepInto_eq_all (List.all_eq_true.mp hstep.2 start hstart)
    have hvalues : (step base segment).eval bound value =
        .all (starts.flatMap (·.valuesAt [segment])) := by
      rw [eval, hbase, Outputs.bind_all_eq hfits]
    have hread : (read base (segment :: path)).eval bound value =
        .all ((starts.flatMap (·.valuesAt [segment])).flatMap (·.valuesAt path)) := ih hvalues htame
    rw [hread, List.flatMap_assoc]
    congr 2
    funext start
    exact (start.valuesAt_append [segment] path).symm

/-- Steps along a path from a single value give what the path leads to from it. -/
theorem eval_read_one {bound : Fields Json} {base : Query} {path : Path} {value start : Json}
    (hbase : base.eval bound value = .one start)
    (htame : (read base path).isTame bound value = true) :
    (read base path).eval bound value = .all (start.valuesAt path) := by
  have hstarts : base.eval bound value = .all [start] := hbase
  rw [eval_read_all hstarts htame, List.flatMap_singleton]

end Query

namespace Synthesis

/-- What a scope reads from a path: in an element what lives there, and everything else in the whole
document. -/
def Scope.valuesAt (scope : Scope) (document value : Json) (source : Path) : List Json :=
  match scope with
  | .document => document.valuesAt source
  | .element base =>
    match following? base source with
    | some rest => value.valuesAt rest
    | none => document.valuesAt source

/-- A scope is a part of a document: the whole document or some element. -/
def Scope.Fits (scope : Scope) (document value : Json) : Prop :=
  scope = .document → value = document

variable {config : Config} {bound : Fields Json} {document value : Json} {scope : Scope}

/-- A tame reading gives all that lives at its path. -/
theorem eval_locate_all (hfits : scope.Fits document value) {shown source : Path}
    (hreadable : Readable config bound document (locate config scope shown source))
    (htame : (locate config scope shown source).isTame bound value = true) :
    (locate config scope shown source).eval bound value =
      .all (scope.valuesAt document value source) := by
  have hroot : Readable config bound document (absolute config source) →
      (absolute config source).isTame bound value = true →
      (absolute config source).eval bound value = .all (document.valuesAt source) :=
    fun hreadable htame => Query.eval_read_one hreadable.eval_root htame
  cases scope with
  | document =>
    rw [locate] at hreadable htame ⊢
    split at htame
    · rename_i hshown
      rw [if_pos hshown, Query.eval_read_one rfl htame, hfits rfl]
      rfl
    · rename_i hshown
      rw [if_neg hshown] at hreadable ⊢
      exact hroot hreadable htame
  | element base =>
    rw [locate] at hreadable htame ⊢
    rw [Scope.valuesAt]
    cases hrest : following? base source with
    | some rest =>
      rw [hrest] at htame
      exact Query.eval_read_one rfl htame
    | none =>
      rw [hrest] at hreadable htame
      exact hroot hreadable htame

/-- What a scope reaches is a single value. -/
theorem Scope.exists_value_of_reaches {source : Path} (h : scope.reaches source = true)
    (document value : Json) : ∃ output, scope.valuesAt document value source = [output] := by
  have hplain : ∀ (start : Json) (path : Path), Path.hasEach path = false →
      ∃ output, start.valuesAt path = [output] := by
    intro start path hpath
    rw [eq_map_field_of_not_hasEach hpath]
    exact ⟨_, start.valuesAt_map_field _⟩
  cases scope with
  | document =>
    obtain ⟨names, rfl⟩ := reaches_document.mp h
    exact hplain document _ (hasEach_map_field names)
  | element base =>
    rw [Scope.valuesAt]
    rw [Scope.reaches, Bool.or_eq_true, Bool.not_eq_true'] at h
    cases hrest : following? base source with
    | none =>
      rw [hrest] at h
      exact hplain document source (h.resolve_right (by simp))
    | some rest =>
      refine hplain value rest ?_
      rcases h with h | h
      · rw [following?_eq_some_iff.mp hrest] at h
        simp only [Path.hasEach, List.any_append, Bool.or_eq_false_iff] at h
        exact h.2
      · simpa [hrest] using h

end Synthesis

end Projector
