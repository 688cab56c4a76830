import Projector.Proofs.Closedness
import Projector.Proofs.Parsing

/-!
# Texts of emitted queries

Every query that is emitted for fields is written without brackets: pieces are terms, entries of
object constructions are terms, and only inside a list a pipe is written. So the text of the query
of a selection reads back as the query, whatever keys the document has.
-/

namespace Projector

namespace Query

/-- Steps from a term are a term. -/
theorem fits_read {base : Query} (h : Fits .term base) (path : Path) :
    Fits .term (read base path) := by
  induction path generalizing base with
  | nil => exact h
  | cons segment path ih => exact ih (h.step segment)

/-- An object construction is a term exactly when its values are. -/
theorem fits_object_iff (entries : List (String × Query)) :
    Fits .term (.object entries) ↔ ∀ entry ∈ entries, Fits .term entry.2 := by
  constructor
  · intro h
    cases h with
    | object hentries => exact hentries
  · exact .object

/-- A product of terms is written without brackets. -/
theorem fits_product {pieces : List Query} (h : ∀ piece ∈ pieces, Fits .term piece) :
    Fits .product (product pieces) := by
  have hfold : ∀ (pieces : List Query) (left : Query), Fits .product left →
      (∀ piece ∈ pieces, Fits .term piece) → Fits .product (pieces.foldl times left) := by
    intro pieces
    induction pieces with
    | nil => exact fun left hleft _ => hleft
    | cons piece pieces ih =>
      intro left hleft hpieces
      exact ih _ (hleft.times (hpieces piece (by simp)))
        fun other hother => hpieces other (by simp [hother])
  cases pieces with
  | nil => exact .term .input
  | cons first rest =>
    exact hfold rest first (.term (h first (by simp))) fun piece hpiece =>
      h piece (by simp [hpiece])

/-- What is read from a query other than the identity is written behind it. -/
theorem render_read {base : Query} (hbase : base ≠ .input) (path : Path) :
    (read base path).render = base.render ++ Path.chain path := by
  induction path generalizing base with
  | nil => simp [read]
  | cons segment path ih =>
    have hstep := ih (show Query.step base segment ≠ .input by simp)
    rw [read] at hstep
    rw [read, List.foldl_cons, hstep, render_step hbase, Path.chain_cons, String.append_assoc]

/-- What is read from the current value is written as an access without a base. -/
theorem render_read_input (path : Path) : (read .input path).render = Path.access "" path := by
  cases path with
  | nil => rfl
  | cons segment path =>
    have hstep := render_read (show Query.step .input segment ≠ .input by simp) path
    rw [read] at hstep
    rw [read, List.foldl_cons, hstep]
    cases segment <;> simp [render, stepStart, Path.access, String.append_assoc]

/-- What is read from a variable is written as an access from it. -/
theorem render_read_var (name : String) (path : Path) :
    (read (.var name) path).render = Path.access (renderVariable name) path := by
  have hname : renderVariable name ≠ "" := by
    intro h
    have hlist := congrArg String.toList h
    simp [renderVariable] at hlist
  rw [render_read (by simp), Path.access.eq_def, if_pos hname, render]

end Query

namespace Synthesis

open Query

/-- What is read in a scope is read by a term. -/
theorem fits_locate (config : Config) (scope : Scope) (shown source : Path) :
    Fits .term (locate config scope shown source) := by
  have hroot : Fits .term (absolute config source) :=
    fits_read (.var config.rootVariable_identifier) source
  unfold locate
  split
  · split
    · exact fits_read .input source
    · exact hroot
  · split
    · exact fits_read .input _
    · exact hroot

/-- A wrapped term is a term. -/
theorem fits_wrap {query : Query} (h : Fits .term query) (keys : List String) :
    Fits .term (wrap keys query) := by
  induction keys with
  | nil => exact h
  | cons key keys ih =>
    rw [wrap, List.foldr_cons, ← wrap, fits_object_iff]
    simpa using ih

/-- What is emitted for fields is a product of terms. -/
theorem fits_emit (config : Config) (scope : Scope) (items : List Item) :
    Fits .product (emit config scope items) := by
  induction items using induction_members generalizing scope with
  | step items ih =>
    have hvalue : ∀ item : Item, Fits .term (item.value config scope) :=
      fun item => fits_locate config scope item.rest item.source
    rw [emit_eq_lists]
    refine fits_product fun piece hpiece => ?_
    rcases List.mem_append.mp hpiece with hpiece | hlist
    · rcases List.mem_append.mp hpiece with hwhole | hplain
      · obtain ⟨item, -, rfl⟩ := List.mem_map.mp hwhole
        exact hvalue item
      · exact forall_plains (fun _ => .object) (fun item _ => hvalue item) piece hplain
    · obtain ⟨keys, hkeys, rfl⟩ := List.mem_map.mp hlist
      have hinside := ih keys (Group.mem_keyses.mp hkeys)
        (.element ((Group.ofKeys items keys).home scope ++ [.each]))
      exact fits_wrap (.collect (.pipe (.term (fits_locate config scope _ _))
        (.product hinside))) keys

/-- The query of fields is written without brackets, unless it binds a variable that cannot be
bound. -/
theorem fits_ofItems_of_bound {config : Config} {items : List Item}
    (hfree : items.any Item.isRelocated = true → config.rootVariable ≠ reservedVariable) :
    Fits .pipe (ofItems config items) := by
  have hbody : Fits .pipe (emit config .document items) :=
    .product (fits_emit config .document items)
  unfold ofItems
  split
  · exact .product (.term .input)
  · dsimp only
    split
    · rename_i hrelocated
      exact .bind config.rootVariable_identifier (hfree hrelocated) hbody
    · exact hbody

/-- The query of the fields of an outline is written without brackets, unless its variable cannot be
bound. -/
theorem fits_ofItems {config : Config} (hfree : config.rootVariable ≠ reservedVariable)
    {home : Path → Path} {items : List Item} (_ : Shown home [] items) :
    Fits .pipe (ofItems config items) :=
  fits_ofItems_of_bound fun _ => hfree

/-- When a variable that cannot be bound is to be bound, the query of fields binds it. -/
theorem ofItems_of_not_free {config : Config} {items : List Item}
    (h : ¬(items.any Item.isRelocated = true → config.rootVariable ≠ reservedVariable)) :
    ofItems config items = .bind reservedVariable (emit config .document items) := by
  obtain ⟨hrelocated, hreserved⟩ := Classical.not_imp.mp h
  rw [ne_eq, not_not] at hreserved
  have hsome : ¬items.isEmpty = true := by
    intro hnone
    rw [List.isEmpty_iff.mp hnone] at hrelocated
    cases hrelocated
  rw [ofItems, if_neg hsome, if_pos hrelocated, hreserved]

/-- The text of the query of fields is read as the query, unless it binds a variable that cannot be
bound. -/
theorem parse_ofItems (config : Config) (items : List Item) :
    parse (ofItems config items).render =
      if items.any Item.isRelocated = true → config.rootVariable ≠ reservedVariable then
        some (ofItems config items)
      else none := by
  by_cases hfree : items.any Item.isRelocated = true → config.rootVariable ≠ reservedVariable
  · rw [if_pos hfree, parse_render (fits_ofItems_of_bound hfree)]
  · rw [if_neg hfree, ofItems_of_not_free hfree,
      parse_render_reserved (.product (fits_emit config .document items))]

/-- The text of the query of fields compiles to the query when all its variables are bound, unless
it binds a variable that cannot be bound. -/
theorem compile_ofItems (config : Config) (items : List Item) :
    compile (ofItems config items).render =
      if (ofItems config items).isClosed [] = true ∧
          (items.any Item.isRelocated = true → config.rootVariable ≠ reservedVariable) then
        some (ofItems config items)
      else none := by
  rw [compile, parse_ofItems]
  by_cases hfree : items.any Item.isRelocated = true → config.rootVariable ≠ reservedVariable
  · rw [if_pos hfree, Option.bind_eq_bind, Option.bind_some]
    by_cases hclosed : (ofItems config items).isClosed [] = true
    · rw [if_pos hclosed, if_pos ⟨hclosed, hfree⟩]
    · rw [if_neg hclosed, if_neg fun hboth => hclosed hboth.1]
  · rw [if_neg hfree, if_neg fun hboth => hfree hboth.2]
    rfl

/-- The queries of fields have different texts when they are different. -/
theorem render_ofItems_inj {config : Config} {items others : List Item}
    (h : (ofItems config items).render = (ofItems config others).render) :
    ofItems config items = ofItems config others := by
  have hparse := parse_ofItems config items
  rw [h, parse_ofItems config others] at hparse
  by_cases hfree : items.any Item.isRelocated = true → config.rootVariable ≠ reservedVariable
  · rw [if_pos hfree] at hparse
    split at hparse
    · exact (Option.some.inj hparse).symm
    · cases hparse
  · rw [if_neg hfree] at hparse
    split at hparse
    · cases hparse
    · rename_i hotherFree
      rw [ofItems_of_not_free hfree, ofItems_of_not_free hotherFree] at h ⊢
      rw [render, render, String.append_right_inj] at h
      rw [render_inj (.product (fits_emit config .document items))
        (.product (fits_emit config .document others)) h]

end Synthesis

end Projector
