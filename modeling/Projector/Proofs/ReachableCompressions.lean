import Projector.Proofs.CompressedQueries
import Projector.Proofs.ReachableSites

/-!
# Compression of reachable projections

When no key of the document has a dot, no name in a reachable outline has one. So the query of the
selection gives the same with compression as without, on the document: both fail in the same way, or
the values of the one are those of the other when their keys are split at the dots again.
-/

namespace Projector

open Node

namespace Node

/-- The node is reached under a key without dots. -/
def HasDotFreeKey (_ : Path) (label : Label) : Prop := '.' ∉ label.key.toList

/-- The nodes of a value without dots in its keys are reached under keys without dots. -/
theorem dotFree_build {key : String} (hkey : '.' ∉ key.toList) (address : String) (path : Path)
    {value : Json} (hvalue : value.DotFree) :
    Everywhere HasDotFreeKey path (build key address path value) := by
  refine (build.mutual_induct
    (fun key address path value => '.' ∉ key.toList → value.DotFree →
      ∀ place, Everywhere HasDotFreeKey place (build key address path value))
    (fun parent inArray base fields => Json.DotFreeFields fields →
      ∀ child ∈ buildFields parent inArray base fields,
        ∀ place, Everywhere HasDotFreeKey place child)
    ?object ?empty ?objects ?plain ?scalar ?none ?field).1 key address path value hkey hvalue path
  case object =>
    intro key address path fields hfields hkey hvalue place
    rw [build]
    exact everywhere_mk.mpr ⟨hkey, fun child hchild => hfields hvalue child hchild _⟩
  case empty =>
    intro key address path hkey _ place
    rw [build]
    exact everywhere_mk.mpr ⟨hkey, by simp⟩
  case objects =>
    intro key address path fields rest hfields hkey hvalue place
    rw [build]
    exact everywhere_mk.mpr ⟨hkey, fun child hchild => hfields hvalue.1 child hchild _⟩
  case plain =>
    intro key address path first rest hfirst hkey _ place
    rw [build.eq_4 _ _ _ _ _ hfirst]
    exact everywhere_mk.mpr ⟨hkey, by simp⟩
  case scalar =>
    intro key address path value hobject hempty hobjects hplain hkey _ place
    rw [build.eq_5 _ _ _ _ hobject hempty hobjects hplain]
    exact everywhere_mk.mpr ⟨hkey, by simp⟩
  case none =>
    intro parent inArray base _ child hchild
    cases hchild
  case field =>
    intro parent inArray base key value rest hvalue hrest hfree child hchild place
    rw [buildFields] at hchild
    rcases List.mem_cons.mp hchild with rfl | hchild
    · exact hvalue hfree.1 hfree.2.1 place
    · exact hrest hfree.2.2 child hchild place

/-- The nodes of a document without dots in its keys are reached under keys without dots. -/
theorem dotFree_ofDocument {document : Json} (hdocument : document.DotFree) :
    Everywhere HasDotFreeKey [] (ofDocument document) := by
  have hbuild := dotFree_build (by decide : '.' ∉ rootKey.toList) Address.root [] hdocument
  unfold ofDocument
  cases hroot : build rootKey Address.root [] document with
  | mk label children =>
    rw [hroot, everywhere_mk] at hbuild
    exact everywhere_mk.mpr hbuild

end Node

namespace Sound

variable {document : Json} {traces : List Trace} {workspace : Workspace}
  (h : Sound document traces workspace)

include h

/-- The nodes of a sound workspace are reached under keys without dots when the document has no dots
in its keys. -/
theorem dotFree_key (hfree : document.DotFree) {path : Path} {node : Node}
    (hnode : (path, node) ∈ walk [] workspace.outline) : '.' ∉ node.key.toList := by
  have hlocated : (⟨path, node⟩ : Located) ∈ workspace.outline.located := mem_located.mpr hnode
  have hmem := Multiset.mem_map_of_mem identity (mem_places hlocated)
  rw [h.kept] at hmem
  obtain ⟨spot, hspot, hsame⟩ := Multiset.mem_map.mp hmem
  obtain ⟨built, hbuilt, rfl⟩ := exists_of_mem_places hspot
  have hkey : built.node.key = node.key := (Prod.mk.inj (Prod.mk.inj hsame).2).1
  rw [← hkey]
  exact dotFree_ofDocument hfree _ _ (mem_located.mp hbuilt)

/-- The names on the paths of the items of a sound workspace have no dots. -/
theorem dotFree_items (hfree : document.DotFree) :
    Synthesis.DotFree (workspace.items (Trace.homeOf traces)) := by
  intro item hitem name hname
  obtain ⟨-, found, hfound, hrest⟩ := exists_chosen_of_mem_items hitem
  rw [hrest] at hname
  obtain ⟨front, rest, hpath⟩ := List.append_of_mem hname
  obtain ⟨node, hnode⟩ := Workspace.Plan.exists_mem_walk_of_leads
    (mem_located.mp (mem_chosen.mp hfound).1)
    (by rw [hpath]; exact ⟨rest, by simp⟩ : front ++ [.field name] <+: found.path)
  rcases path_eq_nil_or_field (mem_located.mpr hnode : (⟨_, node⟩ : Located) ∈ _) with
    hnil | ⟨before, hbefore⟩
  · simp at hnil
  · have hkey : name = node.key := by
      simpa using (List.append_inj' hbefore rfl).2
    rw [hkey]
    exact h.dotFree_key hfree hnode

/-- The query of a sound workspace gives the same with compression as without, when the document has
no dots in its keys. -/
theorem agree_ofItems (hdocument : document.WellFormed) (hfree : document.DotFree)
    (config : Config) :
    Query.Outputs.Agree (fun value other => value.unfolded.Same other)
      ((Synthesis.ofItems (config.withCompression true)
        (workspace.items (Trace.homeOf traces))).eval [] document)
      ((Synthesis.ofItems (config.withCompression false)
        (workspace.items (Trace.homeOf traces))).eval [] document) := by
  have hundotted : document.Undotted := ⟨hdocument, hfree⟩
  by_cases hne : workspace.items (Trace.homeOf traces) = []
  · rw [hne]
    exact Query.Outputs.agree_one (Json.Twins.of_undotted hundotted).same
  · have hemit : ∀ bound, (∀ value, Fields.get? bound config.rootVariable = some value →
        value = document) → Query.Outputs.Agree (fun value other => value.unfolded.Same other)
          ((Synthesis.emit (config.withCompression true) .document
            (workspace.items (Trace.homeOf traces))).eval bound document)
          ((Synthesis.emit (config.withCompression false) .document
            (workspace.items (Trace.homeOf traces))).eval bound document) := by
      intro bound hbound
      refine (h.laid_items.mirrors_emit config hne (h.dotFree_items hfree)
        (fun value hvalue => hbound value hvalue ▸ hundotted) hundotted).imp ?_
      exact fun value other htwins => Json.Twins.same htwins
    simp only [Synthesis.ofItems, if_neg (by simpa using hne :
      ¬(workspace.items (Trace.homeOf traces)).isEmpty = true)]
    by_cases hrelocated :
        (workspace.items (Trace.homeOf traces)).any Synthesis.Item.isRelocated = true
    · rw [if_pos hrelocated, if_pos hrelocated, Query.eval, Query.eval]
      refine hemit _ fun value hvalue => ?_
      simpa [Fields.get?, Config.withCompression, eq_comm] using hvalue
    · rw [if_neg hrelocated, if_neg hrelocated]
      exact hemit [] fun value hvalue => by cases hvalue

/-- The texts of the queries of a sound workspace with compression and without both compile, or none
of them does. -/
theorem compile_ofItems_withCompression (hdocument : document.WellFormed) (config : Config) :
    let queryOf := fun compressPaths => Synthesis.ofItems (config.withCompression compressPaths)
      (workspace.items (Trace.homeOf traces))
    (∀ compressPaths, Query.compile (queryOf compressPaths).render = none) ∨
      ∀ compressPaths, Query.compile (queryOf compressPaths).render =
        some (queryOf compressPaths) := by
  intro queryOf
  by_cases hcompiles :
      ((workspace.items (Trace.homeOf traces)).any Synthesis.Item.isRelocated = true ∨
        ∀ item ∈ workspace.items (Trace.homeOf traces), item.arrays = Path.lists [] item.rest) ∧
        ((workspace.items (Trace.homeOf traces)).any Synthesis.Item.isRelocated = true →
          config.rootVariable ≠ Query.reservedVariable)
  · right
    intro compressPaths
    rw [Synthesis.compile_ofItems]
    exact if_pos ⟨(h.isClosed_ofItems hdocument _).mpr hcompiles.1, hcompiles.2⟩
  · left
    intro compressPaths
    rw [Synthesis.compile_ofItems]
    exact if_neg fun hboth =>
      hcompiles ⟨(h.isClosed_ofItems hdocument _).mp hboth.1, hboth.2⟩

end Sound

/-- After every run of edits on a document without dots in its keys, the query of the selection with
compression carries the same information as the one without. Both texts compile or none does, and on
the document both fail in the same way, or they give as many values, of which those with compression
become those without when their keys are split at the dots and merged, the order of keys aside. -/
theorem compression_run {document : Json} (hdocument : document.WellFormed)
    (hfree : document.DotFree) (steps : List Edit) (config : Config) :
    ∃ workspace entries joined plain, (Workspace.ofDocument document).run steps = .ok workspace ∧
      workspace.selection = .ok entries ∧
      Synthesis.query (config.withCompression true) entries = .ok joined ∧
      Synthesis.expression (config.withCompression true) entries = .ok joined.render ∧
      Synthesis.query (config.withCompression false) entries = .ok plain ∧
      Synthesis.expression (config.withCompression false) entries = .ok plain.render ∧
      ((Query.compile joined.render = none ∧ Query.compile plain.render = none) ∨
        (Query.compile joined.render = some joined ∧ Query.compile plain.render = some plain)) ∧
      ((∃ failure, joined.run document = .error failure ∧ plain.run document = .error failure) ∨
        ∃ values others, joined.run document = .ok values ∧ plain.run document = .ok others ∧
          List.Forall₂ (fun value other => value.unfolded.Same other) values others) := by
  obtain ⟨workspace, traces, hrun, hsound⟩ := sound_run hdocument steps
  have hquery := fun config => query_entries config workspace (Trace.homeOf traces)
  refine ⟨workspace, _, _, _, hrun, hsound.selection_eq, hquery _, ?_, hquery _, ?_, ?_, ?_⟩
  · rw [Synthesis.expression, hquery]
    rfl
  · rw [Synthesis.expression, hquery]
    rfl
  · rcases hsound.compile_ofItems_withCompression hdocument config with hnone | hsome
    · exact .inl ⟨hnone true, hnone false⟩
    · exact .inr ⟨hsome true, hsome false⟩
  · exact (hsound.agree_ofItems hdocument hfree config).result

/-- The document with every chain of keys under one key. -/
def joinedChains : Json :=
  .obj [("a.b.c", .int 1), ("d", .arr [.obj [("e.f", .int 2), ("g", .int 3)]])]

/-- With compression the chains come out under one key each, without it they come out as they
are. -/
theorem compression_run_chains : chains.WellFormed ∧ chains.DotFree ∧
    ∃ workspace entries joined plain, (Workspace.ofDocument chains).run selectChains =
        .ok workspace ∧
      workspace.selection = .ok entries ∧
      Synthesis.query (Config.standard.withCompression true) entries = .ok joined ∧
      Synthesis.query (Config.standard.withCompression false) entries = .ok plain ∧
      joined.run chains = .ok [joinedChains] ∧ plain.run chains = .ok [chains] ∧
      joinedChains.unfolded.Same chains := by
  have hformed : chains.WellFormed := by
    simp [chains, Json.WellFormed, Json.WellFormedFields, Json.WellFormedItems, Fields.Distinct,
      Fields.names]
  have hfree : chains.DotFree := by
    simp [chains, Json.DotFree, Json.DotFreeFields, Json.DotFreeItems]
  have hmet : (do
      let workspace ← (Workspace.ofDocument chains).run selectChains
      let entries ← workspace.selection
      let joined ← Synthesis.query (Config.standard.withCompression true) entries
      let plain ← Synthesis.query (Config.standard.withCompression false) entries
      .ok (joined.run chains, plain.run chains)) =
        Except.ok (.ok [joinedChains], .ok [chains]) := by
    cbv
  obtain ⟨workspace, entries, joined, plain, hrun, hselection, hjoined, -, hplain, -, -, hgives⟩ :=
    compression_run hformed hfree selectChains .standard
  simp only [hrun, hselection, hjoined, hplain, bind, Except.bind, Except.ok.injEq,
    Prod.mk.injEq] at hmet
  obtain ⟨hvalue, hother⟩ := hmet
  rw [hvalue, hother] at hgives
  rcases hgives with ⟨failure, hfailure, -⟩ | ⟨values, others, hvalues, hothers, hsame⟩
  · cases hfailure
  · cases hvalues
    cases hothers
    exact ⟨hformed, hfree, workspace, entries, joined, plain, hrun, hselection, hjoined, hplain,
      hvalue, hother, (List.forall₂_cons.mp hsame).1⟩

end Projector
