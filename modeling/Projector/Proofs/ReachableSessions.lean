import Mathlib
import Projector.Proofs.Displays
import Projector.Proofs.ReachableRecords
import Projector.Proofs.SessionEvents

/-!
# Reachable sessions

A session stores the selection of its outline and the expression of that selection, and derives them
again only when an event reports a change. What it stores is what would be derived now: the
operations that skip the derivation change nothing that it depends on. The ledger goes with the
outline: it resolves the addresses of the outline, its records tell about nodes of the outline, and
moves are entered in it.

There is one exception. A switch to a document that cannot be written stops when the outline has
been replaced and nothing else has, and the session stays apart from its outline until some other
document is taken over.
-/

namespace Projector

open Node

namespace Session

/-- What the selection and the expression of a session are derived from, as the traces of its moves
tell: its workspace is sound on its document, moves are made in it, and the document is written. -/
structure Based (session : Session) (traces : List Trace) (moved : List Path) : Prop where
  sound : Sound session.document traces session.workspace
  accounts : Accounts traces moved
  settled : session.former = none
  raw : session.document.written = .ok session.raw

/-- What holds of a session at all times, unless a switch of documents stopped half-way: the
selection and the expression are those of the workspace. -/
structure InStep (session : Session) (traces : List Trace) (moved : List Path) : Prop
    extends Based session traces moved where
  selection : session.workspace.selection = .ok session.selection
  expression : Synthesis.expression session.config session.selection = .ok session.expression

/-- On a sound workspace the selection and the expression can be derived. -/
theorem afterwards_eq {α : Type} (session : Session) (value : α) (notices : List Notice)
    {traces : List Trace} (hsound : Sound session.document traces session.workspace) :
    ∃ expression, Synthesis.expression session.config
        (session.workspace.entries (Trace.homeOf traces)) = .ok expression ∧
      session.afterwards value notices =
        { outcome := .ok value
          session := { session with
            selection := session.workspace.entries (Trace.homeOf traces), expression }
          notices } := by
  obtain ⟨expression, hexpression⟩ : ∃ expression, Synthesis.expression session.config
      (session.workspace.entries (Trace.homeOf traces)) = .ok expression := by
    rw [Synthesis.expression, query_entries]
    exact ⟨_, rfl⟩
  exact ⟨expression, hexpression, afterwards_eq_of hsound.selection_eq hexpression value notices⟩

/-- Once they are derived, the session is in step. -/
theorem Based.inStep_afterwards {α : Type} {session : Session} {traces : List Trace}
    {moved : List Path} (h : session.Based traces moved) (value : α) (notices : List Notice) :
    (session.afterwards value notices).outcome = .ok value ∧
      (session.afterwards value notices).session.workspace = session.workspace ∧
      (session.afterwards value notices).session.InStep traces moved := by
  obtain ⟨expression, hexpression, hreply⟩ := session.afterwards_eq value notices h.sound
  rw [hreply]
  exact ⟨rfl, rfl, ⟨h.sound, h.accounts, h.settled, h.raw⟩, h.sound.selection_eq, hexpression⟩

/-- A session that has taken a document over is in step. -/
theorem inStep_fresh {document : Json} (hformed : document.WellFormed)
    (hwritable : document.IsWritable) {session : Session}
    (hdocument : session.document = document ∧ session.raw = document.text)
    (hworkspace : session.workspace = .ofDocument document ∧ session.former = none)
    (hshown : session.selection = [] ∧ session.expression = ".") :
    session.InStep [] [] where
  sound := by
    rw [hdocument.1, hworkspace.1]
    exact Sound.ofDocument hformed
  accounts := .nil
  settled := hworkspace.2
  raw := by rw [hdocument.1, hdocument.2, hwritable.written_eq]
  selection := by rw [hworkspace.1, hshown.1, Workspace.selection_ofDocument]
  expression := by rw [hshown.1, hshown.2, expression_nil]

namespace InStep

variable {session : Session} {traces : List Trace} {moved : List Path}
  (h : session.InStep traces moved)

include h

/-- What concerns only the engine and requests with their answers keeps a session in step. -/
theorem other (engine : Engine) (latest : Nat) (result error : String) :
    { session with engine, latest, result, error }.InStep traces moved :=
  ⟨⟨h.sound, h.accounts, h.settled, h.raw⟩, h.selection, h.expression⟩

/-- A change of the workspace that keeps it sound is followed by deriving what is shown. -/
theorem change {workspace : Workspace} {traces' : List Trace} {moved' : List Path}
    (hsound : Sound session.document traces' workspace) (haccounts : Accounts traces' moved') :
    { session with workspace }.Based traces' moved' :=
  ⟨hsound, haccounts, h.settled, h.raw⟩

/-! ## Edits -/

/-- Turning a mark over keeps a session in step. -/
theorem toggle (address : String) :
    (session.toggle address).session.InStep traces moved ∧
      ∃ did, (session.toggle address).outcome = .ok did := by
  unfold Session.toggle
  cases hnext : session.workspace.toggle? address with
  | none => exact ⟨h, false, rfl⟩
  | some next =>
    obtain ⟨houtcome, -, hstep⟩ :=
      (h.change (h.sound.toggle hnext) h.accounts).inStep_afterwards true []
    exact ⟨hstep, true, houtcome⟩

/-- Moving a node next to a sibling keeps a session in step. -/
theorem reorder (source target : String) (after : Bool) :
    (session.reorder source target after).session.InStep traces moved ∧
      ∃ did, (session.reorder source target after).outcome = .ok did := by
  unfold Session.reorder
  rw [edited_eq h.settled]
  cases hnext : session.workspace.reorder source target after with
  | error refusal => exact ⟨h, false, rfl⟩
  | ok next =>
    dsimp only
    rw [withEdited_eq h.settled]
    obtain ⟨houtcome, -, hstep⟩ :=
      (h.change (h.sound.reorder hnext) h.accounts).inStep_afterwards true []
    exact ⟨hstep, true, houtcome⟩

/-- Moving a node into another container keeps a session in step with the moves it made. -/
theorem moveInto (source target : String) :
    (∃ traces' moved', (session.moveInto source target).session.InStep traces' moved') ∧
      ∃ did, (session.moveInto source target).outcome = .ok did := by
  obtain ⟨edited, traces', hedit, hsound, haccounts⟩ :=
    h.sound.edit_accounts h.accounts (.moveInto source target)
  unfold Session.moveInto
  rw [edited_eq h.settled]
  cases hmove : session.workspace.moveInto source target with
  | error failure =>
    cases failure with
    | refused refusal => exact ⟨⟨traces, moved, h⟩, false, rfl⟩
    | badAddress fault => simp [Workspace.edit, hmove] at hedit
  | ok result =>
    obtain ⟨record, next⟩ := result
    obtain rfl : next = edited := by simpa [Workspace.edit, hmove] using hedit
    dsimp only
    rw [withEdited_eq h.settled]
    obtain ⟨houtcome, -, hstep⟩ :=
      (h.change hsound haccounts).inStep_afterwards true [.moved source record.address]
    exact ⟨⟨traces', _, hstep⟩, true, houtcome⟩

/-- A move that nothing stands against is made in the outline of the session and entered in its
ledger. -/
theorem moveInto_of_plan {source target : String} {plan : Workspace.Plan}
    (hok : session.workspace.plan source target = .ok plan) :
    ∃ record ledger, session.workspace.ledger.relocate plan.move = .ok (record, ledger) ∧
      (session.moveInto source target).outcome = .ok true ∧
      (session.moveInto source target).session.workspace =
        { outline := plan.apply record.address session.workspace.outline, ledger } ∧
      ledger.get? record.address = some record := by
  have hvalid := h.sound.valid_of_plan hok
  obtain ⟨next, hmove, hsound⟩ := h.sound.moveInto_of_plan hok hvalid
  obtain ⟨planned, hplanned, hrelocate, houtline⟩ := Workspace.exists_plan_of_moveInto hmove
  obtain rfl := Except.ok.inj (hok.symm.trans hplanned)
  obtain ⟨houtcome, hworkspace, -⟩ :=
    (h.change hsound (h.sound.accounts_apply hvalid h.accounts)).inStep_afterwards true
      [.moved source (plan.transfer.moved traces).record.address]
  rw [Session.moveInto, edited_eq h.settled, hmove]
  dsimp only
  rw [withEdited_eq h.settled]
  refine ⟨_, next.ledger, hrelocate, houtcome, ?_, ?_⟩
  · rw [← houtline]
    exact hworkspace
  · rw [hsound.ledger, Trace.get?_ledger hsound.apart]
    exact ⟨List.mem_map_of_mem (List.mem_append_right _ (List.mem_singleton_self _)), rfl⟩

/-! ## Options and the display -/

/-- Turning compression on or off keeps a session in step. -/
theorem setCompression (enabled : Bool) :
    (session.setCompression enabled).session.InStep traces moved ∧
      (session.setCompression enabled).outcome = .ok () := by
  have hbased : { session with config := session.config.withCompression enabled }.Based
      traces moved := ⟨h.sound, h.accounts, h.settled, h.raw⟩
  obtain ⟨houtcome, -, hstep⟩ := hbased.inStep_afterwards () []
  exact ⟨hstep, houtcome⟩

/-- A change of what is shown keeps a session in step although it derives nothing again. -/
theorem display {change : Node → Node} (hchange : OnlyShows change) :
    (session.display change).session.InStep traces moved where
  sound := h.sound.display hchange
  accounts := h.accounts
  settled := h.settled
  raw := h.raw
  selection := (h.sound.selection_display hchange).trans h.selection
  expression := h.expression

/-! ## Requests -/

/-- Taking an answer keeps a session in step. -/
theorem complete (ticket : Ticket) (given fault : Option String) :
    (session.complete ticket given fault).session.InStep traces moved := by
  obtain ⟨result, error, hsession⟩ := session.exists_session_complete ticket given fault
  rw [hsession]
  exact h.other session.engine session.latest result error

/-- Running the expression keeps a session in step. -/
theorem execute : session.execute.session.InStep traces moved := by
  obtain ⟨engine, result, error, hsession⟩ := session.session_execute
  rw [hsession]
  exact h.other engine (session.latest + 1) result error

end InStep

/-! ## Documents -/

/-- Whether a session takes a document over for an event: the one that comes with the event, if it
can be written, or the one that it asks the disk for, if that is loaded. -/
def TakesOver (session : Session) : Event → Prop
  | .switchDocument document _ => document.IsWritable
  | .loadFile disk folder name => (session.loadFile disk folder name).outcome = .ok true
  | _ => False

/-- When a session has taken a document over, it is in step. -/
theorem inStep_of_takesOver {session : Session} {event : Event} (hevent : event.WellFormed)
    (htakes : session.TakesOver event) : (session.handle event).session.InStep [] [] := by
  cases event with
  | switchDocument document filename =>
    rw [handle, switchDocument_eq htakes]
    exact inStep_fresh hevent htakes ⟨rfl, rfl⟩ ⟨rfl, rfl⟩ ⟨rfl, rfl⟩
  | loadFile disk folder name =>
    rw [handle, session_map]
    rcases session.loadFile_cases disk folder name with ⟨hnot, -⟩ | ⟨-, document, hload, hsession⟩
    · exact absurd htakes hnot
    · rw [hsession]
      exact inStep_fresh (Json.readingKeeps_wellFormed.of_load hload)
        (Json.readingKeeps_isWritable.of_load hload) ⟨rfl, rfl⟩ ⟨rfl, rfl⟩ ⟨rfl, rfl⟩
  | _ => exact htakes.elim

/-- Moves are made in the outline that is shown right after a document was taken over, and otherwise
when they were before and no document comes with the event that cannot be written. -/
theorem former_handle (session : Session) (event : Event) :
    (session.handle event).session.former = none ↔
      session.TakesOver event ∨ session.former = none ∧ event.IsWritable := by
  have hedit : event.isEdit = true →
      ((session.handle event).session.former = none ↔ session.former = none) := by
    intro hedit
    obtain ⟨reply, hreply, hcases⟩ := session.handle_edit_cases hedit
    rw [hreply, session_map]
    rcases hcases with ⟨notices, rfl⟩ | ⟨fault, rfl⟩ | ⟨workspace, former, notices, hformer, rfl⟩
    · exact Iff.rfl
    · exact Iff.rfl
    · obtain ⟨selection, expression, hsession⟩ :=
        exists_session_afterwards { session with workspace, former } true notices
      rw [hsession]
      exact hformer
  cases event with
  | toggle address => simpa [TakesOver, Event.IsWritable] using hedit rfl
  | reorder source target after => simpa [TakesOver, Event.IsWritable] using hedit rfl
  | moveInto source target => simpa [TakesOver, Event.IsWritable] using hedit rfl
  | setCompression enabled =>
    obtain ⟨selection, expression, hsession⟩ := exists_session_afterwards
      { session with config := session.config.withCompression enabled } () []
    rw [handle, session_map, setCompression, hsession]
    simp [TakesOver, Event.IsWritable]
  | switchDocument document filename =>
    rw [handle, session_map]
    by_cases hdocument : document.IsWritable
    · rw [switchDocument_eq hdocument]
      simp [TakesOver, hdocument, switchedTo]
    · obtain ⟨fault, hswitch⟩ := session.switchDocument_of_not_isWritable hdocument filename
      rw [hswitch]
      simp [TakesOver, Event.IsWritable, hdocument, stoppedAt]
  | loadFile disk folder name =>
    rw [handle, session_map]
    rcases session.loadFile_cases disk folder name with
      ⟨hnot, -, error, hsession⟩ | ⟨htakes, document, -, hsession⟩
    · rw [hsession]
      simp [TakesOver, Event.IsWritable, hnot]
    · rw [hsession]
      simp [TakesOver, htakes, switchedTo]
  | complete ticket result error =>
    obtain ⟨_, _, hsession⟩ := session.exists_session_complete ticket result error
    rw [handle, session_map, hsession]
    simp [TakesOver, Event.IsWritable]
  | execute =>
    obtain ⟨_, _, _, hsession⟩ := session.session_execute
    rw [handle, session_map, hsession]
    simp [TakesOver, Event.IsWritable]
  | _ => simp [handle, session_map, TakesOver, Event.IsWritable, expandAll, collapseAll,
      collapseUnselected, display, unchanged, submit]

/-! ## Events -/

/-- An event whose document can be written keeps a session in step, and only one that asks the disk
or the engine may fail. -/
theorem InStep.handle {session : Session} {traces : List Trace} {moved : List Path}
    (h : session.InStep traces moved) {event : Event} (hevent : event.WellFormed)
    (hwritable : event.IsWritable) :
    (∃ traces' moved', (session.handle event).session.InStep traces' moved') ∧
      (event.asksOutside = false → ∃ value, (session.handle event).outcome = .ok value) := by
  cases event with
  | toggle address =>
    obtain ⟨hstep, hreturns⟩ := h.toggle address
    exact ⟨⟨traces, moved, hstep⟩, fun _ => Reply.exists_map_ok hreturns⟩
  | reorder source target after =>
    obtain ⟨hstep, hreturns⟩ := h.reorder source target after
    exact ⟨⟨traces, moved, hstep⟩, fun _ => Reply.exists_map_ok hreturns⟩
  | moveInto source target =>
    obtain ⟨hstep, hreturns⟩ := h.moveInto source target
    exact ⟨hstep, fun _ => Reply.exists_map_ok hreturns⟩
  | setCompression enabled =>
    obtain ⟨hstep, hreturns⟩ := h.setCompression enabled
    exact ⟨⟨traces, moved, hstep⟩, fun _ => Reply.exists_map_ok ⟨(), hreturns⟩⟩
  | expandAll => exact ⟨⟨traces, moved, h.display onlyShows_expandAll⟩, fun _ => ⟨_, rfl⟩⟩
  | collapseAll => exact ⟨⟨traces, moved, h.display onlyShows_collapseAll⟩, fun _ => ⟨_, rfl⟩⟩
  | collapseUnselected =>
    exact ⟨⟨traces, moved, h.display onlyShows_collapseUnselected⟩, fun _ => ⟨_, rfl⟩⟩
  | switchDocument document filename =>
    refine ⟨⟨[], [], inStep_of_takesOver hevent hwritable⟩, fun _ => ?_⟩
    rw [Session.handle, switchDocument_eq hwritable]
    exact ⟨_, rfl⟩
  -- The disk may be asked for a path name that it cannot have.
  | loadFile disk folder name =>
    refine ⟨?_, fun houtside => by cases houtside⟩
    by_cases htakes : session.TakesOver (.loadFile disk folder name)
    · exact ⟨[], [], inStep_of_takesOver hevent htakes⟩
    · rcases session.loadFile_cases disk folder name with ⟨-, -, error, hsession⟩ | ⟨hloaded, -⟩
      · rw [Session.handle, session_map, hsession]
        exact ⟨traces, moved, h.other session.engine session.latest session.result error⟩
      · exact absurd hloaded htakes
  | submit =>
    exact ⟨⟨traces, moved, h.other session.engine (session.latest + 1) session.result
      session.error⟩, fun _ => ⟨_, rfl⟩⟩
  | complete ticket result error =>
    refine ⟨⟨traces, moved, h.complete ticket result error⟩, fun _ => Reply.exists_map_ok ?_⟩
    unfold Session.complete
    split <;> exact ⟨_, rfl⟩
  -- The engine may have no room for a program.
  | execute =>
    exact ⟨⟨traces, moved, h.execute⟩, fun houtside => by cases houtside⟩

/-- Unless a switch of documents stopped half-way, a session is in step. -/
def Stands (session : Session) : Prop :=
  session.former = none → ∃ traces moved, session.InStep traces moved

/-- A session stands whatever event it handles. -/
theorem Stands.handle {session : Session} (h : session.Stands) {event : Event}
    (hevent : event.WellFormed) : (session.handle event).session.Stands := by
  intro hsettled
  rcases (session.former_handle event).mp hsettled with htakes | ⟨hbefore, hwritable⟩
  · exact ⟨[], [], inStep_of_takesOver hevent htakes⟩
  · obtain ⟨traces, moved, hstep⟩ := h hbefore
    exact (hstep.handle hevent hwritable).1

/-- A session stands whatever events it handles. -/
theorem Stands.after {session : Session} (h : session.Stands) {events : List Event}
    (hevents : ∀ event ∈ events, event.WellFormed) : (session.after events).Stands := by
  induction events generalizing session with
  | nil => exact h
  | cons event events ih =>
    exact ih (h.handle (hevents event (by simp))) fun other hother =>
      hevents other (by simp [hother])

/-- A session does not stop half-way at an event with which it takes a document over. -/
theorem TakesOver.not_stopsAt {session : Session} {event : Event} (h : session.TakesOver event) :
    ¬session.StopsAt event := by
  rw [stopsAt_iff, not_not]
  cases event with
  | switchDocument document filename => exact h
  | loadFile disk folder name => trivial
  | _ => exact h.elim

/-- Every event that the session stops at half-way is followed by one with which it takes a document
over. -/
def Recovers (session : Session) (events : List Event) : Prop :=
  ∀ front event back, events = front ++ event :: back → (session.after front).StopsAt event →
    ∃ middle other rest, back = middle ++ other :: rest ∧
      (session.after (front ++ event :: middle)).TakesOver other

/-- One more event: the session takes a document over, or it recovered before and does not stop
half-way. -/
theorem recovers_concat {session : Session} {events : List Event} {event : Event} :
    session.Recovers (events ++ [event]) ↔ (session.after events).TakesOver event ∨
      session.Recovers events ∧ ¬(session.after events).StopsAt event := by
  by_cases htakes : (session.after events).TakesOver event
  · -- Whatever the session stopped at before is followed by this event.
    refine iff_of_true ?_ (.inl htakes)
    intro front stopped back hevents hstops
    rcases List.eq_nil_or_concat back with rfl | ⟨middle, last, rfl⟩
    · obtain ⟨rfl, hlast⟩ := List.append_inj' hevents rfl
      obtain rfl := List.singleton_inj.mp hlast
      exact absurd hstops htakes.not_stopsAt
    · rw [List.concat_eq_append, ← List.cons_append, ← List.append_assoc] at hevents
      obtain ⟨hfront, hlast⟩ := List.append_inj' hevents rfl
      obtain rfl := List.singleton_inj.mp hlast
      exact ⟨middle, event, [], by simp, hfront ▸ htakes⟩
  · rw [or_iff_right htakes]
    constructor
    · intro h
      refine ⟨fun front stopped back hevents hstops => ?_, fun hstops => ?_⟩
      · obtain ⟨middle, other, rest, hback, hother⟩ :=
          h front stopped (back ++ [event]) (by simp [hevents]) hstops
        rcases List.eq_nil_or_concat rest with rfl | ⟨rest, last, rfl⟩
        · obtain ⟨rfl, hlast⟩ := List.append_inj' hback rfl
          obtain rfl := List.singleton_inj.mp hlast
          exact absurd (hevents ▸ hother) htakes
        · rw [List.concat_eq_append, ← List.cons_append, ← List.append_assoc] at hback
          exact ⟨middle, other, rest, (List.append_inj' hback rfl).1, hother⟩
      · obtain ⟨middle, other, rest, hback, -⟩ := h events event [] rfl hstops
        simp at hback
    · rintro ⟨h, hgoes⟩ front stopped back hevents hstops
      rcases List.eq_nil_or_concat back with rfl | ⟨back, last, rfl⟩
      · obtain ⟨rfl, hlast⟩ := List.append_inj' hevents rfl
        obtain rfl := List.singleton_inj.mp hlast
        exact absurd hstops hgoes
      · rw [List.concat_eq_append, ← List.cons_append, ← List.append_assoc] at hevents
        obtain ⟨middle, other, rest, rfl, hother⟩ :=
          h front stopped back (List.append_inj' hevents rfl).1 hstops
        exact ⟨middle, other, rest ++ [last], by simp, hother⟩

/-- A session recovers with every document that it takes over. -/
theorem recovers_append {session : Session} {front back : List Event} {event : Event}
    (htakes : (session.after front).TakesOver event) (h : ∀ other ∈ back, other.IsWritable) :
    session.Recovers (front ++ event :: back) := by
  induction back using List.reverseRecOn with
  | nil => exact recovers_concat.mpr (.inl htakes)
  | append_singleton back last ih =>
    rw [← List.cons_append, ← List.append_assoc]
    refine recovers_concat.mpr (.inr ⟨ih fun other hother => h other (by simp [hother]), ?_⟩)
    rw [stopsAt_iff, not_not]
    exact h last (by simp)

/-- Of a session that was just started, moves are made in the outline that is shown exactly when it
recovered from every event that it stopped at half-way. -/
theorem former_after {session : Session} (h : session.former = none) (events : List Event) :
    (session.after events).former = none ↔ session.Recovers events := by
  induction events using List.reverseRecOn with
  | nil => exact iff_of_true h fun front event back hnil => by simp at hnil
  | append_singleton events event ih =>
    rw [recovers_concat, stopsAt_iff, not_not, after_append, after_cons, after_nil, former_handle,
      ih]

/-! ## Coherence -/

/-- What a session shows belongs together: the selection and the expression are those that would be
derived from the outline, the ledger and the options now, and the ledger is that of the outline. -/
structure Coherent (session : Session) : Prop where
  /-- The selection is that of the outline. -/
  selection : session.workspace.selection = .ok session.selection
  /-- The expression is that of the selection. -/
  expression : Synthesis.expression session.config session.selection = .ok session.expression
  /-- Requests are about the document. -/
  raw : session.document.written = .ok session.raw
  /-- Moves are made in the outline that is shown. -/
  settled : session.former = none
  /-- The ledger says of every node of the outline where it was built. -/
  resolves : ∀ found ∈ session.workspace.outline.located,
    session.workspace.ledger.resolve found.address = .ok found.origin.address
  /-- The nodes are those of the outline that the document of the session is given. -/
  origins : (session.workspace.outline.located.map Located.origin).Perm
    ((Node.ofDocument session.document).located.map Located.origin)
  /-- Every record of the ledger tells about a node of the outline. -/
  tells : ∀ record ∈ session.workspace.ledger.records,
    ∃ found, record.Tells session.workspace.outline found
  /-- A move that nothing stands against is made in the outline and entered in the ledger. -/
  enters : ∀ source target plan, session.workspace.plan source target = .ok plan →
    ∃ record ledger, session.workspace.ledger.relocate plan.move = .ok (record, ledger) ∧
      (session.moveInto source target).outcome = .ok true ∧
      (session.moveInto source target).session.workspace =
        { outline := plan.apply record.address session.workspace.outline, ledger } ∧
      ledger.get? record.address = some record

/-- A session in step is coherent. -/
theorem InStep.coherent {session : Session} {traces : List Trace} {moved : List Path}
    (h : session.InStep traces moved) : session.Coherent where
  selection := h.selection
  expression := h.expression
  raw := h.raw
  settled := h.settled
  resolves := fun _ hfound => h.sound.resolve_eq hfound
  origins := h.sound.origins_perm
  tells := by
    intro record hrecord
    obtain ⟨-, -, -, found, htells, -⟩ := h.sound.exists_tells_of_mem h.accounts hrecord
    exact ⟨found, htells⟩
  enters := fun _ _ _ hplan => h.moveInto_of_plan hplan

end Session

/-- Whatever events a session handles, accepted or refused, it is coherent after them exactly when
every event that it stopped at half-way was followed by one with which it took a document over. It
stops half-way at documents that cannot be written. As long as it is coherent, an event returns
unless it asks the disk or the engine or comes with such a document. An edit that reports that it
changed nothing leaves the whole session as it was, coherent or not. -/
theorem coherent_run {document : Json} (hdocument : document.WellFormed)
    (hwritable : document.IsWritable) (config : Config) (engine : Engine)
    (filename : Option String) {events : List Event}
    (hevents : ∀ event ∈ events, event.WellFormed) :
    ∃ first, Session.start document config engine filename = .ok first ∧
      ((first.after events).Coherent ↔ first.Recovers events) ∧
      ∀ event, event.WellFormed →
        ((first.after events).Coherent → event.asksOutside = false → event.IsWritable →
          ∃ value, ((first.after events).handle event).outcome = .ok value) ∧
        (¬event.IsWritable → (first.after events).StopsAt event) ∧
        (event.isEdit = true →
          ((first.after events).handle event).outcome = .ok (.changed false) →
          ((first.after events).handle event).session = first.after events) := by
  obtain ⟨first, hstart, hfirst⟩ : ∃ first, Session.start document config engine filename =
      .ok first ∧ first.InStep [] [] :=
    ⟨_, Session.start_eq hwritable config engine filename,
      Session.inStep_fresh hdocument hwritable ⟨rfl, rfl⟩ ⟨rfl, rfl⟩ ⟨rfl, rfl⟩⟩
  have hstands : (first.after events).Stands :=
    Session.Stands.after (fun _ => ⟨[], [], hfirst⟩) hevents
  refine ⟨first, hstart, ⟨fun hcoherent => ?_, fun hrecovers => ?_⟩, fun event hevent =>
    ⟨fun hcoherent houtside hevent' => ?_, fun hnot => ?_, fun hedit hfalse => ?_⟩⟩
  · exact (Session.former_after hfirst.settled events).mp hcoherent.settled
  · obtain ⟨traces, moved, hstep⟩ :=
      hstands ((Session.former_after hfirst.settled events).mpr hrecovers)
    exact hstep.coherent
  · obtain ⟨traces, moved, hstep⟩ := hstands hcoherent.settled
    exact (hstep.handle hevent hevent').2 houtside
  · exact Session.stopsAt_iff.mpr hnot
  · exact Session.session_eq_of_not_changed hedit hfalse

/-- A document with an integer that has too many digits. -/
def longInteger : Json := .obj [("b", .int (Int.ofNat (Nat.pow 10 5000)))]

/-- A document with a text that is torn. -/
def tornText : Json := .obj [("b", .torn ⟨[0xD800], by decide, by decide⟩)]

/-- Events of all kinds: edits that are made and edits that are refused, changes of the options and
of the display, requests, a switch of documents that stops half-way and one that does not, and an
answer that comes after them. -/
def busyEvents : List Event :=
  [.toggle "$.a.x", .moveInto "$.a" "$.b", .moveInto "$.b" "$.b.a", .setCompression false,
    .collapseUnselected, .submit, .execute, .switchDocument tornText none, .toggle "$.b",
    .switchDocument (.obj [("z", .int 1)]) none, .complete ⟨1, ".", "null"⟩ (some "late") none,
    .toggle "$.z"]

/-- After all these events what the session shows belongs together. -/
theorem coherent_run_busyEvents : containers.WellFormed ∧ containers.IsWritable ∧
    (∀ event ∈ busyEvents, event.WellFormed) ∧
    ∃ first, Session.start containers .standard (.empty 1) none = .ok first ∧
      (first.after busyEvents).Coherent := by
  have hwritable : containers.IsWritable := by decide +kernel
  have hevents : ∀ event ∈ busyEvents, event.WellFormed := by
    simp [busyEvents, tornText, Event.WellFormed, Json.WellFormed, Json.WellFormedFields,
      Fields.Distinct, Fields.names]
  obtain ⟨first, hstart, hcoherent, -⟩ :=
    coherent_run wellFormed_containers hwritable .standard (.empty 1) none hevents
  refine ⟨wellFormed_containers, hwritable, hevents, first, hstart, hcoherent.mpr ?_⟩
  have htakes : (first.after (busyEvents.take 9)).TakesOver
      (.switchDocument (.obj [("z", .int 1)]) none) := by
    change Json.IsWritable _
    decide +kernel
  have hlater : ∀ event ∈ busyEvents.drop 10, event.IsWritable := by
    simp [busyEvents, Event.IsWritable]
  exact Session.recovers_append htakes hlater

/-- A session on a document is left with a selection and an expression that are not those of its
outline: it stops half-way at the document and answers the next event all the same. -/
def LeavesStale (document : Json) : Prop :=
  ∃ first, Session.start (.obj [("a", .int 1)]) .standard (.empty 1) none = .ok first ∧
    let toggled := first.after [.toggle "$.a"]
    let stopped := (toggled.handle (.switchDocument document none)).session
    let last := (stopped.handle .expandAll).session
    (∃ fault, (toggled.handle (.switchDocument document none)).outcome =
      .error (.writing fault)) ∧
    (stopped.handle .expandAll).outcome = .ok .done ∧
    last.workspace.selection = .ok [] ∧ last.selection.length = 1 ∧
    last.expression = "\x7ba: .a\x7d"

/-- Every document that cannot be written does so. -/
theorem leavesStale_of_not_isWritable {document : Json} (hformed : document.WellFormed)
    (hdocument : ¬document.IsWritable) : LeavesStale document := by
  have hfirst : Json.IsWritable (.obj [("a", .int 1)]) := by decide +kernel
  obtain ⟨first, hstart, htoggled⟩ : ∃ first,
      Session.start (.obj [("a", .int 1)]) .standard (.empty 1) none = .ok first ∧
        (first.after [.toggle "$.a"]).workspace.ledger = .empty ∧
        (first.after [.toggle "$.a"]).selection.length = 1 ∧
        (first.after [.toggle "$.a"]).expression = "\x7ba: .a\x7d" :=
    ⟨_, Session.start_eq hfirst .standard (.empty 1) none, by cbv, by cbv, by cbv⟩
  refine ⟨first, hstart, ?_⟩
  generalize first.after [.toggle "$.a"] = toggled at htoggled
  obtain ⟨hledger, hselection, hexpression⟩ := htoggled
  obtain ⟨fault, hswitch⟩ := toggled.switchDocument_of_not_isWritable hdocument none
  have hfresh : (toggled.stoppedAt document).workspace = .ofDocument document :=
    congrArg (Workspace.mk (ofDocument document)) hledger
  have hshown := (Sound.ofDocument hformed).selection_display onlyShows_expandAll
  rw [Workspace.selection_ofDocument] at hshown
  simp only [Session.handle, hswitch, Session.Reply.map]
  refine ⟨⟨fault, rfl⟩, rfl, ?_, hselection, hexpression⟩
  exact (congrArg (fun workspace => (workspace.withOutline expandAll).selection) hfresh).trans
    hshown

/-- An integer with too many digits and a torn text both leave a session stale. -/
theorem not_coherent_unwritten : LeavesStale longInteger ∧ LeavesStale tornText := by
  have hlong : longInteger.WellFormed := ⟨List.nodup_singleton _, trivial, trivial⟩
  have htorn : tornText.WellFormed := ⟨List.nodup_singleton _, trivial, trivial⟩
  exact ⟨leavesStale_of_not_isWritable hlong (by decide +kernel),
    leavesStale_of_not_isWritable htorn (by decide +kernel)⟩

end Projector
