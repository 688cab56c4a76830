import Projector.Proofs.CanonicalAddresses
import Projector.Proofs.Results

/-!
# Arithmetic on addresses that can be read

The address of a field is written by adding text to the address of its parent, which is not read for
it. The parent may be any address that can be read, also one that is not canonical: it is a row of
tokens, and the steps added to it are tokens of their own. So the address is read as the steps of
the parent followed by those to the field. Lying at or below an address is a question about steps as
well, and so is replacing an ancestor, which can be undone and goes along with adding a field.
-/

namespace Projector.Address

/-- Whether an address can be read. -/
def IsReadable (address : String) : Prop := ∃ path, parse address = .ok path

/-- An address that can be read is spelled by tokens. -/
theorem exists_tokens_of_parse {address : String} {path : Path} (h : parse address = .ok path) :
    ∃ tokens, Spells tokens address ∧ tokens.map Token.segment = path := by
  rcases spells_or_refuses address with ⟨tokens, htokens⟩ | ⟨fault, hfault, -⟩
  · rw [parse_of_spells htokens] at h
    exact ⟨tokens, htokens, Except.ok.inj h⟩
  · cases hfault.symm.trans h

/-! ## Fields below an address -/

/-- Steps written behind an address that can be read are read behind its own steps. -/
theorem parse_append_chain {address : String} {path : Path} (h : parse address = .ok path)
    (rest : Path) : parse (address ++ rest.chain) = .ok (path ++ rest) := by
  -- No token of the one text goes on into the other, since rows of tokens can be put together.
  obtain ⟨tokens, hspells, rfl⟩ := exists_tokens_of_parse h
  obtain ⟨more, hmore, hrest⟩ := exists_tokens rest
  have hboth : Spells (tokens ++ more) (address ++ rest.chain) := by
    rw [Spells, String.toList_append, hspells, ← hmore, spelled, spelled, spelled,
      List.flatMap_append, List.cons_append]
  rw [parse_of_spells hboth, List.map_append, hrest]

/-- The address of a field is that of its parent with the text of the steps to the field added. -/
theorem child_eq (parent key : String) (inArray : Bool) :
    child parent key inArray = parent ++ Path.chain (below inArray key) := by
  cases inArray <;> simp [child, below, String.append_assoc]

/-- The address of a field is read as the steps of its parent followed by those to the field. -/
theorem parse_child {parent : String} {path : Path} (h : parse parent = .ok path) (key : String)
    (inArray : Bool) : parse (child parent key inArray) = .ok (path ++ below inArray key) := by
  rw [child_eq]
  exact parse_append_chain h _

/-! ## Ancestors -/

/-- An address lies at or below another one exactly when its steps start with those of the other. -/
theorem covers_of_parse {ancestor address : String} {front path : Path}
    (hfront : parse ancestor = .ok front) (hpath : parse address = .ok path) :
    covers ancestor address = .ok (decide (front <+: path)) := by
  have hsome : (following? front path).isSome = decide (front <+: path) := by
    rw [Bool.eq_iff_iff, decide_eq_true_iff, Option.isSome_iff_ne_none, ne_eq,
      following?_eq_none_iff, Classical.not_not]
  simp [covers, hfront, hpath, bind, Except.bind, hsome]

/-- One address of a path lies at or below another exactly when its path starts with the other. -/
theorem covers_address_iff {front path : Path} :
    covers front.address path.address = .ok true ↔ front <+: path := by
  rw [covers_of_parse (parse_address front) (parse_address path), Except.ok.injEq,
    decide_eq_true_iff]

/-- One address of a path lies elsewhere exactly when its path does not start with the other. -/
theorem not_covers_address_iff {front path : Path} :
    covers front.address path.address = .ok false ↔ ¬front <+: path := by
  rw [covers_of_parse (parse_address front) (parse_address path), Except.ok.injEq,
    decide_eq_false_iff_not]

/-- When an address lies at or below another one, both can be read, and the steps of the one go on
from those of the other. -/
theorem exists_of_covers {ancestor address : String} (h : covers ancestor address = .ok true) :
    ∃ front rest, parse ancestor = .ok front ∧ parse address = .ok (front ++ rest) := by
  obtain ⟨front, hfront, h⟩ := exists_of_bind_eq_ok h
  obtain ⟨path, hpath, h⟩ := exists_of_bind_eq_ok h
  obtain ⟨rest, hrest⟩ := Option.isSome_iff_exists.mp (Except.ok.inj h)
  exact ⟨front, rest, hfront, following?_eq_some_iff.mp hrest ▸ hpath⟩

/-- What lies at or below an address lies at or below what that address lies at or below. -/
theorem covers_trans {ancestor middle address : String} (h : covers ancestor middle = .ok true)
    (h' : covers middle address = .ok true) : covers ancestor address = .ok true := by
  obtain ⟨front, rest, hfront, hmiddle⟩ := exists_of_covers h
  obtain ⟨_, more, hsame, haddress⟩ := exists_of_covers h'
  obtain rfl := Except.ok.inj (hmiddle.symm.trans hsame)
  rw [covers_of_parse hfront haddress, decide_eq_true ⟨rest ++ more, by simp⟩]

/-- Two addresses that lie at or below each other have the same canonical address. -/
theorem canonical_eq_of_covers {address other : String} (h : covers address other = .ok true)
    (h' : covers other address = .ok true) : canonical address = canonical other := by
  obtain ⟨front, rest, hfront, hother⟩ := exists_of_covers h
  obtain ⟨_, more, hsame, haddress⟩ := exists_of_covers h'
  obtain rfl := Except.ok.inj (hother.symm.trans hsame)
  have hnil : rest ++ more = [] := by
    simpa using Except.ok.inj (hfront.symm.trans haddress)
  obtain ⟨rfl, rfl⟩ := List.append_eq_nil_iff.mp hnil
  rw [canonical, canonical, hfront, hother, List.append_nil]

/-! ## Replacing an ancestor -/

/-- An ancestor is replaced exactly in the addresses below it, and in their steps it is the front
that is replaced. -/
theorem rebase_eq_ok_iff {address old new moved : String} {path front target : Path}
    (haddress : parse address = .ok path) (hold : parse old = .ok front)
    (hnew : parse new = .ok target) :
    rebase address old new = .ok moved ↔
      ∃ rest, path = front ++ rest ∧ moved = Path.address (target ++ rest) := by
  cases hrest : following? front path with
  | none =>
    have hnot := following?_eq_none_iff.mp hrest
    refine iff_of_false ?_ fun ⟨rest, hpath, _⟩ => hnot ⟨rest, hpath.symm⟩
    simp [rebase, haddress, hold, bind, Except.bind, hrest]
  | some rest =>
    obtain rfl := following?_eq_some_iff.mp hrest
    simp [rebase, haddress, hold, hnew, bind, Except.bind, hrest, eq_comm]

/-- An ancestor can be replaced exactly in what lies at or below it. -/
theorem exists_rebase_iff {address old new : String} (haddress : IsReadable address)
    (hold : IsReadable old) (hnew : IsReadable new) :
    (∃ moved, rebase address old new = .ok moved) ↔ covers old address = .ok true := by
  obtain ⟨path, haddress⟩ := haddress
  obtain ⟨front, hold⟩ := hold
  obtain ⟨target, hnew⟩ := hnew
  rw [covers_of_parse hold haddress, Except.ok.injEq, decide_eq_true_iff]
  constructor
  · rintro ⟨moved, hmoved⟩
    obtain ⟨rest, rfl, -⟩ := (rebase_eq_ok_iff haddress hold hnew).mp hmoved
    exact List.prefix_append _ _
  · rintro ⟨rest, rfl⟩
    exact ⟨_, (rebase_eq_ok_iff haddress hold hnew).mpr ⟨rest, rfl, rfl⟩⟩

/-- After an ancestor was replaced, the address lies at or below what took its place, and replacing
that by the ancestor again gives the canonical form of the address. -/
theorem rebase_rebase {address old new moved : String} (haddress : IsReadable address)
    (hold : IsReadable old) (hnew : IsReadable new) (h : rebase address old new = .ok moved) :
    covers new moved = .ok true ∧ rebase moved new old = canonical address := by
  obtain ⟨path, haddress⟩ := haddress
  obtain ⟨front, hold⟩ := hold
  obtain ⟨target, hnew⟩ := hnew
  obtain ⟨rest, rfl, rfl⟩ := (rebase_eq_ok_iff haddress hold hnew).mp h
  have hmoved := parse_address (target ++ rest)
  constructor
  · rw [covers_of_parse hnew hmoved, decide_eq_true (List.prefix_append _ _)]
  · rw [canonical_of_parse haddress, rebase_eq_ok_iff hmoved hnew hold]
    exact ⟨rest, rfl, rfl⟩

/-- Replacing an ancestor in the address of a field is replacing it in that of the parent. -/
theorem rebase_child {parent old new : String} (hnew : IsReadable new)
    (h : covers old parent = .ok true) (key : String) (inArray : Bool) :
    ∃ moved, rebase parent old new = .ok moved ∧
      rebase (child parent key inArray) old new = .ok (child moved key inArray) := by
  obtain ⟨front, rest, hold, hparent⟩ := exists_of_covers h
  obtain ⟨target, hnew⟩ := hnew
  refine ⟨_, (rebase_eq_ok_iff hparent hold hnew).mpr ⟨rest, rfl, rfl⟩, ?_⟩
  rw [rebase_eq_ok_iff (parse_child hparent key inArray) hold hnew]
  refine ⟨rest ++ below inArray key, List.append_assoc _ _ _, ?_⟩
  rw [child_address, List.append_assoc]

/-- What is done to addresses that can be read, canonical or not, is done to their steps. Adding a
field adds the steps to it, whatever its key is. Lying at or below an address is a question about
steps, so it is reflexive, transitive, and antisymmetric up to canonical forms. Replacing an
ancestor succeeds exactly in what lies at or below it, gives an address at or below what takes its
place, is undone by the opposite replacement up to canonical form, and takes the address of a field
to that of the field below the address that the parent is taken to. -/
theorem arithmetic_by_steps :
    (∀ parent path key inArray, parse parent = .ok path →
      parse (child parent key inArray) = .ok (path ++ below inArray key)) ∧
    (∀ ancestor address front path, parse ancestor = .ok front → parse address = .ok path →
      covers ancestor address = .ok (decide (front <+: path))) ∧
    (∀ address, IsReadable address → covers address address = .ok true) ∧
    (∀ ancestor middle address, covers ancestor middle = .ok true →
      covers middle address = .ok true → covers ancestor address = .ok true) ∧
    (∀ address other, covers address other = .ok true → covers other address = .ok true →
      canonical address = canonical other) ∧
    (∀ address old new, IsReadable address → IsReadable old → IsReadable new →
      ((∃ moved, rebase address old new = .ok moved) ↔ covers old address = .ok true) ∧
        ∀ moved, rebase address old new = .ok moved →
          covers new moved = .ok true ∧ rebase moved new old = canonical address) ∧
    ∀ parent old new key inArray, IsReadable new → covers old parent = .ok true →
      ∃ moved, rebase parent old new = .ok moved ∧
        rebase (child parent key inArray) old new = .ok (child moved key inArray) := by
  refine ⟨fun _ _ key inArray h => parse_child h key inArray,
    fun _ _ _ _ hfront hpath => covers_of_parse hfront hpath, fun address ⟨path, hpath⟩ => ?_,
    fun _ _ _ => covers_trans, fun _ _ => canonical_eq_of_covers,
    fun _ _ _ haddress hold hnew => ⟨exists_rebase_iff haddress hold hnew,
      fun _ => rebase_rebase haddress hold hnew⟩,
    fun _ _ _ key inArray hnew h => rebase_child hnew h key inArray⟩
  rw [covers_of_parse hpath hpath, decide_eq_true List.prefix_rfl]

/-- An element of a list is reached through a quoted and through an escaped name. A field below the
one, with a key that looks like further steps, is moved away from the other, and back. -/
theorem arithmetic_by_steps_escaped :
    parse "$.\"a\"[]" = .ok [.field "a", .each] ∧
      covers "$.\"a\"[]" "$.\"a\"[]" = .ok true ∧ covers "$" "$.\"a\"[]" = .ok true ∧
      parse (child "$.\"a\"[]" "[].b" false) = .ok [.field "a", .each, .field "[].b"] ∧
      canonical "$.\"a\"[]" = canonical "$.\"\\u0061\"[]" ∧
      rebase "$.\"a\"[]" "$.\"\\u0061\"[]" "$.\"x\"" = .ok "$.x" ∧
      covers "$.\"x\"" "$.x" = .ok true ∧
      rebase "$.x" "$.\"x\"" "$.\"\\u0061\"[]" = canonical "$.\"a\"[]" ∧
      rebase (child "$.\"a\"[]" "[].b" false) "$.\"\\u0061\"[]" "$.\"x\"" =
        .ok (child "$.x" "[].b" false) := by
  obtain ⟨hchild, hcovers, hrefl, htrans, hantisymm, hrebase, hfield⟩ := arithmetic_by_steps
  have hread : parse "$.\"a\"[]" = .ok [.field "a", .each] := by decide +kernel
  have hescaped : parse "$.\"\\u0061\"[]" = .ok [.field "a", .each] := by decide +kernel
  have hnew : parse "$.\"x\"" = .ok [.field "x"] := by decide +kernel
  have hbelow := hcovers _ _ _ _ hescaped hread
  have habove := hcovers _ _ _ _ hread hescaped
  have hroot := hcovers _ _ _ _ (parse_address []) hescaped
  obtain ⟨moved, hmoved, hmovedField⟩ := hfield _ _ _ "[].b" false ⟨_, hnew⟩ hbelow
  have haddress : moved = "$.x" := by
    have hvalue : rebase "$.\"a\"[]" "$.\"\\u0061\"[]" "$.\"x\"" = .ok "$.x" := by decide +kernel
    exact Except.ok.inj (hmoved.symm.trans hvalue)
  subst haddress
  obtain ⟨hcovered, hback⟩ := (hrebase _ _ _ ⟨_, hread⟩ ⟨_, hescaped⟩ ⟨_, hnew⟩).2 _ hmoved
  exact ⟨hread, hrefl _ ⟨_, hread⟩, htrans _ _ _ hroot hbelow, hchild _ _ "[].b" false hread,
    hantisymm _ _ habove hbelow, hmoved, hcovered, hback, hmovedField⟩

end Projector.Address
