import Projector.Address.Arithmetic
import Projector.Proofs.AddressGrammar
import Projector.Proofs.Literals

/-!
# Addresses are read back

Reading the address of a path gives the path, whatever names the path goes through, so different
paths have different addresses. What is said about addresses of paths can therefore be said about
the paths: the address of a field below a parent, whether one address lies at or below another, and
the address of a part whose ancestor has moved.
-/

namespace Projector

namespace Text

/-- A bare name is an identifier. -/
theorem isIdentifier_of_isBare {name : String} (h : isBare name = true) :
    isIdentifier name = true := by
  rw [isBare, Bool.and_eq_true] at h
  exact h.1

end Text

namespace Path

@[simp] theorem chain_nil : chain [] = "" := rfl

@[simp] theorem chain_cons (segment : Segment) (path : Path) :
    chain (segment :: path) = segment.render ++ chain path := by
  simp [chain, String.join_cons]

/-- The text of two paths, one behind the other. -/
theorem chain_append (front rest : Path) : chain (front ++ rest) = chain front ++ chain rest := by
  simp [chain, String.join_append]

/-- The characters of an address. -/
theorem toList_address (path : Path) : (address path).toList = rootMark :: (chain path).toList := by
  simp [address]

end Path

namespace Address

/-- The address of a longer path starts with the address of its front. -/
theorem address_append (front rest : Path) :
    Path.address (front ++ rest) = Path.address front ++ Path.chain rest := by
  simp [Path.address, Path.chain_append, String.append_assoc]

/-- A step is written as a token of its own. -/
theorem exists_token (segment : Segment) :
    ∃ token : Token, token.chars = segment.render.toList ∧ token.segment = segment := by
  cases segment with
  | each => exact ⟨.each, by simp [Token.chars, Segment.render], rfl⟩
  | field name =>
    by_cases hbare : Text.isBare name = true
    · refine ⟨.bare name (Text.isIdentifier_of_isBare hbare), ?_, rfl⟩
      simp [Token.chars, Segment.render, renderKey, hbare]
    · obtain ⟨pieces, hbody, hdecode⟩ := Json.Literal.exists_pieces name.toList
      refine ⟨.quoted pieces, ?_, ?_⟩
      · simp [Token.chars, Segment.render, renderKey, hbare, Json.quote, Json.Literal.write_eq,
          hbody]
      · rw [Token.segment, hdecode, String.ofList_toList]

/-- The text of a path is a row of tokens that write its steps. -/
theorem exists_tokens (path : Path) :
    ∃ tokens, spelled tokens = (Path.chain path).toList ∧ tokens.map Token.segment = path := by
  induction path with
  | nil => exact ⟨[], by simp, rfl⟩
  | cons segment path ih =>
    obtain ⟨token, hchars, hsegment⟩ := exists_token segment
    obtain ⟨tokens, htext, hpath⟩ := ih
    refine ⟨token :: tokens, ?_, ?_⟩
    · rw [spelled_cons, hchars, htext, Path.chain_cons, String.toList_append]
    · rw [List.map_cons, hsegment, hpath]

/-- Reading the address of a path gives the path. -/
@[simp] theorem parse_address (path : Path) : parse (Path.address path) = .ok path := by
  obtain ⟨tokens, htext, hpath⟩ := exists_tokens path
  have hspells : Spells tokens (Path.address path) := by
    rw [Spells, Path.toList_address, htext]
  rw [parse_of_spells hspells, hpath]

/-- Different paths have different addresses. -/
theorem address_injective : Function.Injective Path.address := by
  intro path other h
  have hread := parse_address path
  rw [h, parse_address] at hread
  exact (Except.ok.inj hread).symm

@[simp] theorem address_inj {path other : Path} :
    Path.address path = Path.address other ↔ path = other :=
  address_injective.eq_iff

/-- The steps from a parent to one of its fields. -/
def below (inArray : Bool) (key : String) : Path :=
  (if inArray then [Segment.each] else []) ++ [Segment.field key]

/-- The steps to a field tell its parent, whether the parent is a list and the key, as long as no
parent ends at the elements of a list. -/
theorem below_inj {parent other : Path} {inArray inOther : Bool} {key otherKey : String}
    (hparent : ∀ front : Path, parent ≠ front ++ [.each])
    (hother : ∀ front : Path, other ≠ front ++ [.each])
    (h : parent ++ below inArray key = other ++ below inOther otherKey) :
    parent = other ∧ inArray = inOther ∧ key = otherKey := by
  unfold below at h
  rw [← List.append_assoc, ← List.append_assoc] at h
  obtain ⟨hfront, hkey⟩ := List.append_inj' h rfl
  have hkeys : key = otherKey := by simpa using hkey
  cases inArray with
  | false =>
    cases inOther with
    | false => exact ⟨by simpa using hfront, rfl, hkeys⟩
    | true => exact absurd (by simpa using hfront) (hparent other)
  | true =>
    cases inOther with
    | false => exact absurd (by simpa using hfront.symm) (hother parent)
    | true => exact ⟨by simpa using hfront, rfl, hkeys⟩

/-- The address of a field is that of its parent followed by the steps to the field. -/
@[simp] theorem child_address (parent : Path) (key : String) (inArray : Bool) :
    child (Path.address parent) key inArray = Path.address (parent ++ below inArray key) := by
  rw [address_append]
  cases inArray <;> simp [child, below, String.append_assoc]

/-- One address lies at or below another exactly when its path starts with the other path. -/
@[simp] theorem covers_address (ancestor path : Path) :
    covers (Path.address ancestor) (Path.address path) = .ok (following? ancestor path).isSome := by
  simp [covers, bind, Except.bind]

/-- Moving an ancestor replaces the front of a path. -/
theorem rebase_address (old new rest : Path) :
    rebase (Path.address (old ++ rest)) (Path.address old) (Path.address new) =
      .ok (Path.address (new ++ rest)) := by
  have hrest : following? old (old ++ rest) = some rest := following?_eq_some_iff.mpr rfl
  simp [rebase, bind, Except.bind, hrest]

end Address

end Projector
