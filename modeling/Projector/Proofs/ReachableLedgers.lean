import Projector.Proofs.Results
import Projector.Proofs.Runs

/-!
# Reachable ledgers

Whatever edits a document's outline went through, the ledger resolves the address of every node to
the address that the node had when the document was opened. As no edit makes or loses a node, the
addresses of the outline are resolved one to one to those of the fresh outline.
-/

namespace Projector

open Node

/-- The path in the document that a located node was built from. -/
def Located.origin (located : Located) : Path := located.node.label.origin

/-- A node of a fresh outline is where it was built. -/
theorem path_eq_origin {document : Json} (hdocument : document.WellFormed) {built : Located}
    (hbuilt : built ∈ (ofDocument document).located) : built.origin = built.path :=
  (fresh_ofDocument hdocument).original _ _ (mem_located.mp hbuilt)

namespace Sound

variable {document : Json} {traces : List Trace} {workspace : Workspace}
  (h : Sound document traces workspace)

include h

/-- Nodes live where they were built. -/
theorem homeOf_eq {found : Located} (hfound : found ∈ workspace.outline.located) :
    Trace.homeOf traces found.path = found.origin :=
  Trace.homeOf_eq h.apart (h.livesAt hfound)

/-- The ledger finds the origin of every node. -/
theorem resolve_eq {found : Located} (hfound : found ∈ workspace.outline.located) :
    workspace.ledger.resolve found.address = .ok found.origin.address := by
  rw [h.consistent.address_eq hfound, h.ledger, Trace.resolve_ledger, h.homeOf_eq hfound]

/-- Every node was there when the document was opened. -/
theorem exists_built {found : Located} (hfound : found ∈ workspace.outline.located) :
    ∃ built ∈ (Node.ofDocument document).located, built.origin = found.origin ∧
      built.node.key = found.node.key ∧ built.node.label.kind = found.node.label.kind := by
  have hmem := Multiset.mem_map_of_mem identity (mem_places hfound)
  rw [h.kept] at hmem
  obtain ⟨spot, hspot, hsame⟩ := Multiset.mem_map.mp hmem
  obtain ⟨built, hbuilt, rfl⟩ := exists_of_mem_places hspot
  obtain ⟨horigin, hrest⟩ := Prod.mk.inj hsame
  obtain ⟨hkey, hkind⟩ := Prod.mk.inj hrest
  exact ⟨built, hbuilt, horigin, hkey, hkind⟩

/-- The origins are those of the fresh outline, in another order. -/
theorem origins_perm : (workspace.outline.located.map Located.origin).Perm
    ((Node.ofDocument document).located.map Located.origin) := by
  have hkept := congrArg (Multiset.map Prod.fst) h.kept
  simp only [places, spots, Multiset.map_coe, List.map_map, Multiset.coe_eq_coe] at hkept
  simp only [located, List.map_map]
  exact hkept

/-- No two nodes were built at the same place. -/
theorem eq_of_origin (hdocument : document.WellFormed) {found other : Located}
    (hfound : found ∈ workspace.outline.located) (hother : other ∈ workspace.outline.located)
    (horigin : found.origin = other.origin) : found = other := by
  refine List.inj_on_of_nodup_map (h.origins_perm.nodup_iff.mpr ?_) hfound hother horigin
  rw [List.map_congr_left fun built hbuilt => path_eq_origin hdocument hbuilt]
  have hpaths := (fresh_ofDocument hdocument).wellFormed.nodup_paths []
  simpa [located, Function.comp_def] using hpaths

/-- Nodes that live at the same place are the same. -/
theorem eq_of_homeOf (hdocument : document.WellFormed) {found other : Located}
    (hfound : found ∈ workspace.outline.located) (hother : other ∈ workspace.outline.located)
    (hhome : Trace.homeOf traces found.path = Trace.homeOf traces other.path) : found = other := by
  rw [h.homeOf_eq hfound, h.homeOf_eq hother] at hhome
  exact h.eq_of_origin hdocument hfound hother hhome

end Sound

/-- After every run of edits the ledger resolves the address of each node to the one address that
the same node had in the fresh outline, and resolving all addresses gives each address of the fresh
outline once. -/
theorem resolve_run {document : Json} (hdocument : document.WellFormed) (steps : List Edit) :
    ∃ workspace, (Workspace.ofDocument document).run steps = .ok workspace ∧
      (∀ found ∈ workspace.outline.located, ∃ built ∈ (ofDocument document).located,
        (∀ other ∈ (ofDocument document).located, other.origin = found.origin ↔ other = built) ∧
        built.node.key = found.node.key ∧ built.node.label.kind = found.node.label.kind ∧
        workspace.ledger.resolve found.address = .ok built.address) ∧
      (workspace.outline.located.map Located.address).Nodup ∧
      ((ofDocument document).located.map Located.address).Nodup ∧
      ∃ sources, (workspace.outline.located.map Located.address).mapM workspace.ledger.resolve =
          .ok sources ∧
        sources.Perm ((ofDocument document).located.map Located.address) := by
  obtain ⟨workspace, traces, hrun, hsound⟩ := sound_run hdocument steps
  have hfresh := (Sound.ofDocument hdocument).consistent
  have haddress : ∀ built ∈ (ofDocument document).located,
      built.address = built.origin.address := by
    intro built hbuilt
    rw [path_eq_origin hdocument hbuilt]
    exact hfresh.address_eq hbuilt
  refine ⟨workspace, hrun, ?_, hsound.consistent.nodup_addresses, hfresh.nodup_addresses, ?_⟩
  · intro found hfound
    obtain ⟨built, hbuilt, horigin, hkey, hkind⟩ := hsound.exists_built hfound
    refine ⟨built, hbuilt, fun other hother => ⟨fun hsame => ?_, ?_⟩, hkey, hkind, ?_⟩
    · refine hfresh.eq_of_address hother hbuilt ?_
      rw [haddress other hother, haddress built hbuilt, hsame, horigin]
    · rintro rfl
      exact horigin
    · rw [hsound.resolve_eq hfound, haddress built hbuilt, horigin]
  · refine ⟨workspace.outline.located.map fun found => found.origin.address, ?_, ?_⟩
    · rw [List.mapM_map]
      exact mapM_eq_ok fun found hfound => hsound.resolve_eq hfound
    · rw [List.map_congr_left haddress]
      have hperm := hsound.origins_perm.map Path.address
      rwa [List.map_map, List.map_map] at hperm

/-- A document with a field in a container and two empty containers. -/
def containers : Json := .obj [("a", .obj [("x", .int 1)]), ("b", .obj []), ("c", .obj [])]

/-- The keys of each of its objects are different. -/
theorem wellFormed_containers : containers.WellFormed := by
  simp [containers, Json.WellFormed, Json.WellFormedFields, Fields.Distinct, Fields.names]

/-- Edits that move containers into each other and back out, and the field out of them to where a
container used to be. -/
def nestedMoves : List Edit :=
  [.moveInto "$.a" "$.b", .moveInto "$.b" "$.c", .moveInto "$.c.b.a" "$", .moveInto "$.a.x" "$.c.b",
    .moveInto "$.c.b.x" "$"]

/-- After all these moves every address still resolves to where its node was built. -/
theorem resolve_run_containers : containers.WellFormed ∧
    ∃ workspace, (Workspace.ofDocument containers).run nestedMoves = .ok workspace ∧
      ∃ sources, (workspace.outline.located.map Located.address).mapM workspace.ledger.resolve =
          .ok sources ∧
        sources.Perm ["$", "$.a", "$.a.x", "$.b", "$.c"] := by
  obtain ⟨workspace, hrun, -, -, -, sources, hsources, hperm⟩ :=
    resolve_run wellFormed_containers nestedMoves
  have haddresses : (ofDocument containers).located.map Located.address =
      ["$", "$.a", "$.a.x", "$.b", "$.c"] := by
    decide +kernel
  exact ⟨wellFormed_containers, workspace, hrun, sources, hsources, haddresses ▸ hperm⟩

end Projector
