import Mathlib.Control.Monad.Basic
import Projector.Proofs.Addresses

/-!
# Canonical addresses

Some paths have several addresses that are read as them, for instance with a name in quotes that
needs none, or with a character of a name written by its code. Writing down what was read chooses
one of them, the canonical address of the path. Every path is read back from its canonical address,
and an address is canonical exactly when it is the address of some path.
-/

namespace Projector.Address

/-- The address that an address becomes when it is read and written again. -/
def canonical (address : String) : Except Fault String := (parse address).map Path.address

/-- Whether reading an address and writing it again changes nothing. -/
def IsCanonical (address : String) : Prop := canonical address = .ok address

instance (address : String) : Decidable (IsCanonical address) :=
  inferInstanceAs (Decidable (canonical address = .ok address))

/-- What is read from an address is written as its canonical address. -/
theorem canonical_of_parse {address : String} {path : Path} (h : parse address = .ok path) :
    canonical address = .ok path.address := by
  rw [canonical, h]
  rfl

/-- What is written for a path is canonical. -/
theorem isCanonical_address (path : Path) : IsCanonical path.address :=
  canonical_of_parse (parse_address path)

/-- The canonical addresses are those that paths are written as. -/
theorem isCanonical_iff {address : String} :
    IsCanonical address ↔ ∃ path : Path, path.address = address := by
  constructor
  · intro h
    unfold IsCanonical canonical at h
    cases hread : parse address with
    | error fault =>
      rw [hread] at h
      cases h
    | ok path =>
      rw [hread] at h
      exact ⟨path, Except.ok.inj h⟩
  · rintro ⟨path, rfl⟩
    exact isCanonical_address path

/-- Making a canonical address canonical changes nothing, and an address that cannot be read has
none. -/
theorem canonical_bind_canonical (address : String) :
    canonical address >>= canonical = canonical address := by
  cases hread : parse address with
  | error fault =>
    have hnone : canonical address = .error fault := by
      rw [canonical, hread]
      rfl
    rw [hnone]
    rfl
  | ok path =>
    rw [canonical_of_parse hread]
    exact isCanonical_address path

/-- Every path, whatever names it goes through, is read back from its address, so no two paths have
the same address. Any address that can be read at all has a canonical one that is read as the same
path, which is the address of that path, and making it canonical again changes nothing. -/
theorem addresses_read_back :
    (∀ path : Path, parse path.address = .ok path) ∧
      Function.Injective Path.address ∧
      (∀ address : String, IsCanonical address ↔ ∃ path : Path, path.address = address) ∧
      (∀ address path, parse address = .ok path →
        canonical address = .ok path.address ∧ IsCanonical path.address ∧
          parse path.address = parse address) ∧
      ∀ address, canonical address >>= canonical = canonical address := by
  refine ⟨parse_address, address_injective, fun _ => isCanonical_iff, ?_, canonical_bind_canonical⟩
  intro address path hread
  refine ⟨canonical_of_parse hread, isCanonical_address path, ?_⟩
  rw [parse_address, hread]

/-- A name in quotes that needs none and a name with a quote, a backslash and a line feed that are
written by their codes. -/
theorem addresses_read_back_quoted :
    parse "$.\"a\"[].\"\\u0022\\u005c\\u000a\"" =
        .ok [.field "a", .each, .field "\"\\\n"] ∧
      canonical "$.\"a\"[].\"\\u0022\\u005c\\u000a\"" = .ok "$.a[].\"\\\"\\\\\\n\"" ∧
      IsCanonical "$.a[].\"\\\"\\\\\\n\"" := by
  have hread : parse "$.\"a\"[].\"\\u0022\\u005c\\u000a\"" =
      .ok [.field "a", .each, .field "\"\\\n"] := by
    decide +kernel
  have hwritten : Path.address [.field "a", .each, .field "\"\\\n"] = "$.a[].\"\\\"\\\\\\n\"" := by
    decide +kernel
  obtain ⟨hcanonical, hfixed, -⟩ := addresses_read_back.2.2.2.1 _ _ hread
  rw [hwritten] at hcanonical hfixed
  exact ⟨hread, hcanonical, hfixed⟩

end Projector.Address
