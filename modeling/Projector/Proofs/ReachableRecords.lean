import Mathlib.Data.Finset.Card
import Projector.Proofs.ReachableOutlines
import Projector.Proofs.ReachableLedgers

/-!
# Records of reachable ledgers

Whatever edits a document's outline went through, the ledger has one record for every node that was
ever moved into a container, and no others. The record is found under the address that its node is
shown at, it tells the container and the key that the node has there, and it keeps the address that
the node had when the document was opened, however often the node or anything around it is moved.
-/

namespace Projector

open Node

/-! ## What was moved -/

namespace Workspace

/-- The origins of the nodes that an edit moves into a container: one when it is a move that is
carried out, and none otherwise. -/
def movedBy (workspace : Workspace) : Edit → List Path
  | .toggle _ => []
  | .reorder _ _ _ => []
  | .moveInto source target =>
    match workspace.moveInto source target with
    | .ok _ => ((workspace.outline.locate? source).map Located.origin).toList
    | .error _ => []

/-- An edit that is not a move moves nothing. -/
theorem movedBy_of_not_move {workspace : Workspace} {step : Edit} (hstep : step.isMove = false) :
    workspace.movedBy step = [] := by
  cases step with
  | toggle address => rfl
  | reorder source target after => rfl
  | moveInto source target => cases hstep

/-- The origins of the nodes that some edits move into a container, move by move. -/
def movedIn (workspace : Workspace) : List Edit → List Path
  | [] => []
  | step :: steps =>
    workspace.movedBy step ++
      match workspace.edit step with
      | .ok next => movedIn next steps
      | .error _ => []

end Workspace

/-- What some traces tell about the moves that led to them: every trace is that of a child of a
node, and the homes of the traces are the origins of what was moved. -/
structure Accounts (traces : List Trace) (moved : List Path) : Prop where
  parent : ∀ trace ∈ traces, ∀ front : Path, trace.parent ≠ front ++ [.each]
  moved : ∀ home, home ∈ traces.map Trace.home ↔ home ∈ moved

/-- Before any move there is nothing to tell. -/
theorem Accounts.nil : Accounts [] [] := ⟨by simp, by simp⟩

namespace Transfer

variable {transfer : Transfer} {traces : List Trace}

/-- A move adds the home of what it moves to the homes of the traces, if it is not among them. -/
theorem mem_homes_apply (hapart : Trace.Apart traces) {home : Path} :
    home ∈ (transfer.apply traces).map Trace.home ↔
      home ∈ traces.map Trace.home ∨ home = Trace.homeOf traces transfer.source := by
  simp only [apply, others, moved, List.map_append, List.map_map, List.mem_append, List.mem_map,
    List.mem_filter, decide_eq_true_eq, List.map_cons, List.map_nil, List.mem_singleton,
    Function.comp_apply, carryTrace]
  constructor
  · rintro (⟨trace, ⟨htrace, -⟩, rfl⟩ | rfl)
    · exact .inl ⟨trace, htrace, rfl⟩
    · exact .inr rfl
  · rintro (⟨trace, htrace, rfl⟩ | rfl)
    · by_cases hsource : trace.path = transfer.source
      · right
        rw [← hsource, Trace.homeOf_eq hapart (.recorded htrace)]
      · exact .inl ⟨trace, ⟨htrace, hsource⟩, rfl⟩
    · exact .inr rfl

/-- The parents of traces are still nodes after a move into a node. -/
theorem parent_apply (htarget : ∀ front, transfer.parent ≠ front ++ [.each])
    (hparent : ∀ trace ∈ traces, ∀ front : Path, trace.parent ≠ front ++ [.each]) :
    ∀ trace ∈ transfer.apply traces, ∀ front : Path, trace.parent ≠ front ++ [.each] := by
  intro trace htrace front heach
  rcases List.mem_append.mp htrace with hother | hmoved
  · obtain ⟨old, hold, rfl⟩ := List.mem_map.mp hother
    have hold := (List.mem_filter.mp hold).1
    by_cases hleads : transfer.source <+: old.parent
    · obtain ⟨steps, hsteps⟩ := hleads
      rw [carryTrace, ← hsteps, carry_append] at heach
      rcases List.eq_nil_or_concat' steps with rfl | ⟨before, last, rfl⟩
      · simp only [List.append_nil, target, Address.below, ← List.append_assoc] at heach
        simpa using (List.append_inj' heach rfl).2
      · rw [← List.append_assoc] at heach
        obtain ⟨-, hlast⟩ := List.append_inj' heach rfl
        refine hparent old hold (transfer.source ++ before) ?_
        rw [← hsteps, hlast, List.append_assoc]
    · rw [carryTrace, carry_of_outside hleads] at heach
      exact hparent old hold front heach
  · rw [List.mem_singleton.mp hmoved] at heach
    exact htarget front heach

end Transfer

namespace Sound

variable {document : Json} {traces : List Trace} {workspace : Workspace} {moved : List Path}
  (h : Sound document traces workspace)

include h

/-- A planned move adds the origin of its node to what was moved. -/
theorem accounts_apply {plan : Workspace.Plan} (hplan : plan.Valid workspace.outline)
    (hmoved : Accounts traces moved) :
    Accounts (plan.transfer.apply traces) (moved ++ [plan.source.origin]) where
  parent := Transfer.parent_apply (path_ne_each hplan.target_mem) hmoved.parent
  moved := by
    intro home
    rw [Transfer.mem_homes_apply h.apart, hmoved.moved, List.mem_append, List.mem_singleton,
      ← h.homeOf_eq hplan.source_mem]
    rfl

/-- Every edit keeps a workspace sound and its traces telling what was moved. -/
theorem edit_accounts (hmoved : Accounts traces moved) (step : Edit) :
    ∃ next traces', workspace.edit step = .ok next ∧ Sound document traces' next ∧
      Accounts traces' (moved ++ workspace.movedBy step) := by
  cases hstep : step.isMove with
  | false =>
    obtain ⟨next, hnext, hsound⟩ := h.edit_of_not_move hstep
    refine ⟨next, traces, hnext, hsound, ?_⟩
    rwa [Workspace.movedBy_of_not_move hstep, List.append_nil]
  | true =>
    cases step with
    | toggle address => cases hstep
    | reorder source target after => cases hstep
    | moveInto source target =>
      rcases Workspace.plan_cases h.consistent source target with
        ⟨refusal, hrefused⟩ | ⟨plan, hok, hplan⟩
      · have hnext : workspace.moveInto source target = .error (.refused refusal) := by
          rw [Workspace.moveInto, hrefused]
          rfl
        refine ⟨workspace, traces, by simp [Workspace.edit, hnext], h, ?_⟩
        simpa [Workspace.movedBy, hnext] using hmoved
      · obtain ⟨next, hnext, hsound⟩ := h.moveInto_of_plan hok hplan
        refine ⟨next, _, by simp [Workspace.edit, hnext], hsound, ?_⟩
        have hby : workspace.movedBy (.moveInto source target) = [plan.source.origin] := by
          simp [Workspace.movedBy, hnext, (Workspace.locate?_of_plan hok).1]
        rw [hby]
        exact h.accounts_apply hplan hmoved

/-- Every run of edits keeps a workspace sound and its traces telling what was moved. -/
theorem run_accounts (hmoved : Accounts traces moved) (steps : List Edit) :
    ∃ next traces', workspace.run steps = .ok next ∧ Sound document traces' next ∧
      Accounts traces' (moved ++ workspace.movedIn steps) := by
  induction steps generalizing workspace traces moved with
  | nil => exact ⟨workspace, traces, rfl, h, by simpa [Workspace.movedIn] using hmoved⟩
  | cons step steps ih =>
    obtain ⟨next, traces', hnext, hsound, hstep⟩ := h.edit_accounts hmoved step
    obtain ⟨last, traces'', hlast, hfinal, haccounts⟩ := ih hsound hstep
    refine ⟨last, traces'', ?_, hfinal, ?_⟩
    · rw [Workspace.run, List.foldlM_cons, hnext]
      exact hlast
    · rw [Workspace.movedIn, hnext, ← List.append_assoc]
      exact haccounts

end Sound

/-! ## What the records tell -/

/-- What a record tells about a node: the address it is shown at, where it was built, and of which
container it is a child under which key. -/
structure Record.Tells (record : Record) (root : Node) (found : Located) : Prop where
  shown : root.locate? record.address = some found
  home : record.home = found.origin.address
  key : record.key = found.node.key
  parent : ∃ parent index, root.locateParent? record.address = some (parent, index) ∧
    parent.node.children[index]? = some found.node ∧ record.parent = parent.address ∧
    record.intoArray = parent.node.label.kind.isArray

/-- The ledger of traces at different paths has each record under its address. -/
theorem Trace.get?_ledger {traces : List Trace} (hapart : Trace.Apart traces) (address : String)
    (record : Record) : (Trace.ledger traces).get? address = some record ↔
      record ∈ (Trace.ledger traces).records ∧ record.address = address := by
  constructor
  · intro hget
    exact ⟨List.mem_of_find?_eq_some hget, by simpa using List.find?_some hget⟩
  · rintro ⟨hrecord, rfl⟩
    cases hget : (Trace.ledger traces).get? record.address with
    | none => simpa using List.find?_eq_none.mp hget record hrecord
    | some other =>
      have haddress : other.address = record.address := by simpa using List.find?_some hget
      obtain ⟨trace, htrace, rfl⟩ := List.mem_map.mp (List.mem_of_find?_eq_some hget)
      obtain ⟨known, hknown, rfl⟩ := List.mem_map.mp hrecord
      rw [Trace.record_address, Trace.record_address, Address.address_inj] at haddress
      rw [hapart.eq htrace hknown haddress]

namespace Sound

variable {document : Json} {traces : List Trace} {workspace : Workspace} {moved : List Path}
  (h : Sound document traces workspace)

include h

/-- Every trace is at the path of a node and has the origin of that node as its home. -/
theorem exists_shown {trace : Trace} (htrace : trace ∈ traces) :
    ∃ found ∈ workspace.outline.located, found.path = trace.path ∧ found.origin = trace.home := by
  obtain ⟨spot, hspot, hpath⟩ := h.told.shown trace htrace
  obtain ⟨found, hfound, rfl⟩ := exists_of_mem_places hspot
  have hpath : found.path = trace.path := hpath
  refine ⟨found, hfound, hpath, ?_⟩
  rw [← h.homeOf_eq hfound, hpath, Trace.homeOf_eq h.apart (.recorded htrace)]

/-- The homes of different traces are different. -/
theorem nodup_homes (hdocument : document.WellFormed) : (traces.map Trace.home).Nodup := by
  refine List.Nodup.map_on ?_ (List.Nodup.of_map _ h.apart)
  intro trace htrace other hother hhome
  obtain ⟨found, hfound, hpath, horigin⟩ := h.exists_shown htrace
  obtain ⟨twin, htwin, htwinPath, htwinOrigin⟩ := h.exists_shown hother
  have hsame := h.eq_of_origin hdocument hfound htwin (by rw [horigin, htwinOrigin, hhome])
  exact h.apart.eq htrace hother (by rw [← hpath, ← htwinPath, hsame])

/-- The record of a trace tells about a node. -/
theorem exists_tells (haccounts : Accounts traces moved) {trace : Trace} (htrace : trace ∈ traces) :
    ∃ found, trace.record.Tells workspace.outline found ∧ found.origin = trace.home := by
  obtain ⟨found, hfound, hpath, horigin⟩ := h.exists_shown htrace
  have hne : found.path ≠ [] := by
    rw [hpath, Trace.path]
    simp [Address.below]
  obtain ⟨parent, index, hlocate, hparent, hchild, hplace⟩ :=
    h.consistent.exists_locateParent? hfound hne
  have hsteps : trace.parent ++ Address.below trace.intoArray trace.key =
      parent.path ++ Address.below parent.node.label.kind.isArray found.node.key := by
    rw [← childPath_eq, ← hplace, hpath]
    rfl
  obtain ⟨hcontainer, harray, hkey⟩ :=
    Address.below_inj (haccounts.parent trace htrace) (path_ne_each hparent) hsteps
  have haddress : trace.record.address = found.address := by
    rw [Trace.record_address, ← hpath, h.consistent.address_eq hfound]
  refine ⟨found, ⟨?_, ?_, hkey, parent, index, ?_, hchild, ?_, harray⟩, horigin⟩
  · exact h.consistent.locate?_eq_some_iff.mpr ⟨hfound, haddress.symm⟩
  · rw [horigin]
    rfl
  · rw [haddress]
    exact hlocate
  · rw [h.consistent.address_eq hparent, ← hcontainer]
    rfl

/-- Every record of the ledger is that of a trace and tells about a node. -/
theorem exists_tells_of_mem (haccounts : Accounts traces moved) {record : Record}
    (hrecord : record ∈ workspace.ledger.records) :
    ∃ trace ∈ traces, trace.record = record ∧
      ∃ found, record.Tells workspace.outline found ∧ found.origin = trace.home := by
  rw [h.ledger] at hrecord
  obtain ⟨trace, htrace, rfl⟩ := List.mem_map.mp hrecord
  exact ⟨trace, htrace, rfl, h.exists_tells haccounts htrace⟩

/-- A node that was moved before keeps a record with the same home. -/
theorem exists_kept {before : List Trace} {first more : List Path}
    (hbefore : Accounts before first) (haccounts : Accounts traces (first ++ more)) {trace : Trace}
    (htrace : trace ∈ before) :
    ∃ kept ∈ workspace.ledger.records, kept.home = trace.record.home ∧
      ∃ shown, kept.Tells workspace.outline shown ∧ shown.origin = trace.home := by
  have hkept : trace.home ∈ traces.map Trace.home :=
    (haccounts.moved _).mpr (List.mem_append_left _
      ((hbefore.moved _).mp (List.mem_map_of_mem htrace)))
  obtain ⟨other, hother, hhome⟩ := List.mem_map.mp hkept
  obtain ⟨shown, hshown, horigin⟩ := h.exists_tells haccounts hother
  refine ⟨other.record, ?_, ?_, shown, hshown, ?_⟩
  · rw [h.ledger]
    exact List.mem_map_of_mem hother
  · rw [Trace.record, Trace.record, hhome]
  · rw [horigin, hhome]

/-- The ledger has as many records as nodes were moved. -/
theorem length_records (hdocument : document.WellFormed) (haccounts : Accounts traces moved) :
    workspace.ledger.records.length = moved.toFinset.card := by
  have hmoved : (traces.map Trace.home).toFinset = moved.toFinset := by
    ext home
    rw [List.mem_toFinset, List.mem_toFinset]
    exact haccounts.moved home
  rw [← hmoved, List.toFinset_card_of_nodup (h.nodup_homes hdocument), h.ledger, Trace.ledger,
    List.length_map, List.length_map]

/-- The records live at the addresses of the origins of what was moved. -/
theorem map_home_records : workspace.ledger.records.map Record.home =
    (traces.map Trace.home).map Path.address := by
  rw [h.ledger, Trace.ledger, List.map_map, List.map_map]
  rfl

end Sound

/-- After every run of edits the ledger has each of its records under the address that the record
makes up, a node is shown there, and the record tells the parent and the key of that node. The
records have different homes, which are the origins of the nodes that the run moved, each once.
Whatever edits follow, the node keeps a record, and the record keeps its home. -/
theorem records_run {document : Json} (hdocument : document.WellFormed) (steps more : List Edit) :
    ∃ workspace later, (Workspace.ofDocument document).run steps = .ok workspace ∧
      (Workspace.ofDocument document).run (steps ++ more) = .ok later ∧
      (∀ address record, workspace.ledger.get? address = some record ↔
        record ∈ workspace.ledger.records ∧ record.address = address) ∧
      (∀ record ∈ workspace.ledger.records, ∃ found, record.Tells workspace.outline found ∧
        ∃ kept ∈ later.ledger.records, kept.home = record.home ∧
          ∃ shown, kept.Tells later.outline shown ∧ shown.origin = found.origin) ∧
      (workspace.ledger.records.map Record.home).Nodup ∧
      (∀ home, home ∈ workspace.ledger.records.map Record.home ↔
        home ∈ ((Workspace.ofDocument document).movedIn steps).map Path.address) ∧
      workspace.ledger.records.length =
        ((Workspace.ofDocument document).movedIn steps).toFinset.card := by
  obtain ⟨workspace, traces, hrun, hsound, haccounts⟩ :=
    (Sound.ofDocument hdocument).run_accounts .nil steps
  obtain ⟨later, traces', hmore, hlater, haccounts'⟩ := hsound.run_accounts haccounts more
  have hrest : (Workspace.ofDocument document).run (steps ++ more) = .ok later := by
    rw [Workspace.run, List.foldlM_append, ← Workspace.run, hrun]
    exact hmore
  refine ⟨workspace, later, hrun, hrest, ?_, ?_, ?_, ?_, ?_⟩
  · rw [hsound.ledger]
    exact Trace.get?_ledger hsound.apart
  · intro record hrecord
    obtain ⟨trace, htrace, rfl, found, htells, horigin⟩ :=
      hsound.exists_tells_of_mem haccounts hrecord
    refine ⟨found, htells, ?_⟩
    rw [horigin]
    exact hlater.exists_kept haccounts haccounts' htrace
  · rw [hsound.map_home_records]
    exact (hsound.nodup_homes hdocument).map Address.address_injective
  · intro home
    rw [hsound.map_home_records, List.mem_map, List.mem_map]
    simp only [haccounts.moved, List.nil_append]
  · exact hsound.length_records hdocument haccounts

/-- Five moves of three nodes leave three records. -/
theorem records_run_containers : containers.WellFormed ∧
    ∃ workspace, (Workspace.ofDocument containers).run nestedMoves = .ok workspace ∧
      (∀ record ∈ workspace.ledger.records, ∃ found, record.Tells workspace.outline found) ∧
      workspace.ledger.records.length = 3 := by
  obtain ⟨workspace, later, hrun, -, -, htells, -, -, hlength⟩ :=
    records_run wellFormed_containers nestedMoves []
  have hmoved : (Workspace.ofDocument containers).movedIn nestedMoves =
      [[.field "a"], [.field "b"], [.field "a"], [.field "a", .field "x"],
        [.field "a", .field "x"]] := by
    decide +kernel
  refine ⟨wellFormed_containers, workspace, hrun, fun record hrecord => ?_, ?_⟩
  · obtain ⟨found, htold, -⟩ := htells record hrecord
    exact ⟨found, htold⟩
  · rw [hlength, hmoved]
    decide

end Projector
