import Projector.Proofs.Selections
import Projector.Proofs.WrittenDocuments
import Projector.Session

/-!
# Events of a session

A session handles one event after the other, with whatever arguments come with it. Each operation
of a session is described here by the parts of the session that it may change: edits and changes of
the options derive the selection and the expression again, a switch of documents starts over unless
the document cannot be written, and requests and answers concern only the engine, the number of the
latest request, and the result with its error.
-/

namespace Projector

/-- What a session is asked for. -/
inductive Event
  | toggle (address : String)
  | reorder (source target : String) (after : Bool)
  | moveInto (source target : String)
  | setCompression (enabled : Bool)
  | expandAll
  | collapseAll
  | collapseUnselected
  | switchDocument (document : Json) (filename : Option String)
  | loadFile (disk : Tree) (folder name : String)
  | submit
  | complete (ticket : Ticket) (result error : Option String)
  | execute

namespace Event

/-- What a session returns to an event. -/
inductive Value
  /-- Nothing is returned. -/
  | done
  /-- Whether something was changed. -/
  | changed (did : Bool)
  /-- A request was made. -/
  | issued (ticket : Ticket)
  /-- A request was answered. -/
  | answered (answer : Answer)

/-- Whether an event is an edit of the outline. -/
def isEdit : Event → Bool
  | .toggle _ => true
  | .reorder _ _ _ => true
  | .moveInto _ _ => true
  | _ => false

/-- Whether an event makes a request. -/
def isRequest : Event → Bool
  | .submit => true
  | .execute => true
  | _ => false

/-- Whether an event asks the disk or the engine, which may fail in ways of their own. -/
def asksOutside : Event → Bool
  | .loadFile _ _ _ => true
  | .execute => true
  | _ => false

/-- A document that comes with an event has different keys in every object. -/
def WellFormed : Event → Prop
  | .switchDocument document _ => document.WellFormed
  | _ => True

/-- A document that comes with an event can be written. -/
def IsWritable : Event → Prop
  | .switchDocument document _ => document.IsWritable
  | _ => True

end Event

namespace Session

/-- The same reply with another value. -/
def Reply.map {α β : Type} (change : α → β) (reply : Reply α) : Reply β :=
  { reply with outcome := reply.outcome.map change }

/-- What a session answers to an event. -/
def handle (session : Session) : Event → Reply Event.Value
  | .toggle address => (session.toggle address).map .changed
  | .reorder source target after => (session.reorder source target after).map .changed
  | .moveInto source target => (session.moveInto source target).map .changed
  | .setCompression enabled => (session.setCompression enabled).map fun _ => .done
  | .expandAll => session.expandAll.map fun _ => .done
  | .collapseAll => session.collapseAll.map fun _ => .done
  | .collapseUnselected => session.collapseUnselected.map fun _ => .done
  | .switchDocument document filename =>
    (session.switchDocument document filename).map fun _ => .done
  | .loadFile disk folder name => (session.loadFile disk folder name).map .changed
  | .submit => session.submit.2.unchanged (.issued session.submit.1) []
  | .complete ticket result error => (session.complete ticket result error).map .answered
  | .execute => session.execute.map .answered

/-- The session after some events. -/
def after (session : Session) (events : List Event) : Session :=
  events.foldl (fun session event => (session.handle event).session) session

@[simp] theorem after_nil (session : Session) : session.after [] = session := rfl

@[simp] theorem after_cons (session : Session) (event : Event) (events : List Event) :
    session.after (event :: events) = (session.handle event).session.after events := rfl

@[simp] theorem after_append (session : Session) (events more : List Event) :
    session.after (events ++ more) = (session.after events).after more :=
  List.foldl_append

@[simp] theorem session_map {α β : Type} (change : α → β) (reply : Reply α) :
    (reply.map change).session = reply.session := rfl

/-- A reply with another value returns when the reply does. -/
theorem Reply.exists_map_ok {α β : Type} {change : α → β} {reply : Reply α}
    (h : ∃ value, reply.outcome = .ok value) : ∃ value, (reply.map change).outcome = .ok value := by
  obtain ⟨value, hvalue⟩ := h
  exact ⟨change value, by rw [Reply.map, hvalue]; rfl⟩

/-- A reply with another value fails as the reply does. -/
theorem outcome_map_eq_error {α β : Type} {change : α → β} {reply : Reply α} {fault : Fault} :
    (reply.map change).outcome = .error fault ↔ reply.outcome = .error fault := by
  cases houtcome : reply.outcome <;> simp [Reply.map, houtcome, Except.map]

/-! ## Documents -/

/-- The session after a switch to a document that can be written. -/
def switchedTo (session : Session) (document : Json) (filename : Option String) : Session :=
  { session with
    document, raw := document.text, filename, workspace := .ofDocument document, former := none
    selection := [], expression := ".", latest := session.latest + 1 }

/-- The session after a switch to a document that cannot be written: it shows the outline of the
document, and all else but the number of the latest request is as it was, the outline that moves are
made in included. -/
def stoppedAt (session : Session) (document : Json) : Session :=
  { session with
    document, workspace := { session.workspace with outline := Node.ofDocument document }
    former := some (session.former.getD session.workspace.outline)
    latest := session.latest + 1 }

/-- An event is followed by the selection of the outline and its expression. -/
theorem afterwards_eq_of {α : Type} {session : Session} {selection : List Entry}
    {expression : String} (hselection : session.workspace.selection = .ok selection)
    (hexpression : Synthesis.expression session.config selection = .ok expression) (value : α)
    (notices : List Notice) :
    session.afterwards value notices =
      { outcome := .ok value, session := { session with selection, expression }, notices } := by
  simp only [afterwards, hselection, hexpression]

/-- The selection and the expression are derived again, or an address cannot be read on the way. -/
theorem afterwards_cases {α : Type} (session : Session) (value : α) (notices : List Notice) :
    (∃ selection expression, session.afterwards value notices =
      { outcome := .ok value, session := { session with selection, expression }, notices }) ∨
    ∃ fault selection, session.afterwards value notices =
      { outcome := .error (.address fault), session := { session with selection }, notices } := by
  unfold afterwards
  split
  · exact .inr ⟨_, session.selection, rfl⟩
  · dsimp only
    split
    · exact .inr ⟨_, _, rfl⟩
    · exact .inl ⟨_, _, rfl⟩

/-- What is derived again is at most the selection and the expression. -/
theorem exists_session_afterwards {α : Type} (session : Session) (value : α)
    (notices : List Notice) :
    ∃ selection expression, (session.afterwards value notices).session =
      { session with selection, expression } := by
  rcases session.afterwards_cases value notices with
    ⟨selection, expression, heq⟩ | ⟨fault, selection, heq⟩
  · exact ⟨selection, expression, by rw [heq]⟩
  · exact ⟨selection, session.expression, by rw [heq]⟩

/-- A document that can be written is taken over: nothing is selected in its outline. -/
theorem load_eq {document : Json} (hdocument : document.IsWritable) (session : Session)
    (filename : Option String) (notices : List Notice) :
    session.load document filename notices =
      { outcome := .ok ()
        session := { session with
          document, raw := document.text, filename, workspace := .ofDocument document
          former := none, selection := [], expression := "." }
        notices } := by
  let fresh : Session :=
    { session with
      document, raw := document.text, filename, workspace := .ofDocument document, former := none }
  have hselection : fresh.workspace.selection = .ok [] := Workspace.selection_ofDocument document
  have hexpression : Synthesis.expression fresh.config [] = .ok "." := expression_nil fresh.config
  rw [load, hdocument.written_eq]
  exact afterwards_eq_of hselection hexpression () notices

/-- A session can be started on every document that can be written. -/
theorem start_eq {document : Json} (hdocument : document.IsWritable) (config : Config)
    (engine : Engine) (filename : Option String) :
    start document config engine filename =
      .ok { document, raw := document.text, filename, workspace := .ofDocument document
            former := none, config, selection := [], expression := ".", engine, latest := 0
            result := "", error := "" } := by
  rw [start, load_eq hdocument]
  rfl

/-- There are sessions on these documents only. -/
theorem exists_start_iff {document : Json} {config : Config} {engine : Engine}
    {filename : Option String} :
    (∃ first, start document config engine filename = .ok first) ↔ document.IsWritable := by
  refine ⟨?_, fun hdocument => ⟨_, start_eq hdocument config engine filename⟩⟩
  rintro ⟨first, hstart⟩
  by_contra hdocument
  obtain ⟨fault, hfault⟩ := Json.exists_written_eq_error hdocument
  rw [start, load, hfault] at hstart
  cases hstart

/-- A switch to a document that can be written succeeds. -/
theorem switchDocument_eq {document : Json} (hdocument : document.IsWritable) (session : Session)
    (filename : Option String) :
    session.switchDocument document filename =
      { outcome := .ok (), session := session.switchedTo document filename
        notices := [.switching filename] } := by
  rw [switchDocument, load_eq hdocument]
  rfl

/-- A switch to any other document stops half-way. -/
theorem switchDocument_of_not_isWritable {document : Json} (hdocument : ¬document.IsWritable)
    (session : Session) (filename : Option String) :
    ∃ fault, session.switchDocument document filename =
      { outcome := .error (.writing fault), session := session.stoppedAt document
        notices := [.switching filename] } := by
  obtain ⟨fault, hfault⟩ := Json.exists_written_eq_error hdocument
  refine ⟨fault, ?_⟩
  rw [switchDocument, load, hfault]
  rfl

/-- Asking for a file changes at most the error of the session, or it switches to the document in
the file and says so. It never stops half-way, because what is read can be written. -/
theorem loadFile_cases (session : Session) (disk : Tree) (folder name : String) :
    ((session.loadFile disk folder name).outcome ≠ .ok true ∧
      (∀ fault, (session.loadFile disk folder name).outcome ≠ .error (.writing fault)) ∧
      ∃ error, (session.loadFile disk folder name).session = { session with error }) ∨
    ((session.loadFile disk folder name).outcome = .ok true ∧
      ∃ document, (Documents.load disk folder name).1 = .ok document ∧
        (session.loadFile disk folder name).session =
          session.switchedTo document (some name)) := by
  unfold loadFile
  split
  · exact .inl ⟨by simp [unchanged], by simp [unchanged], session.error, rfl⟩
  · rcases hload : Documents.load disk folder name with ⟨outcome, notices⟩
    cases outcome with
    | error failure =>
      cases failure with
      | document fault => exact .inl ⟨by simp [unchanged], by simp [unchanged], fault.message, rfl⟩
      | zeroInPath => exact .inl ⟨by simp, by simp, session.error, rfl⟩
    | ok document =>
      dsimp only
      rw [switchDocument_eq (Json.readingKeeps_isWritable.of_load (congrArg Prod.fst hload))]
      exact .inr ⟨rfl, document, rfl, rfl⟩

/-! ## Edits -/

/-- An event that is followed by a refreshment reports what it is said to report. -/
theorem value_of_afterwards {α : Type} {session : Session} {value reported : α}
    {notices : List Notice}
    (h : (session.afterwards value notices).outcome = .ok reported) : reported = value := by
  rcases session.afterwards_cases value notices with ⟨_, _, heq⟩ | ⟨_, _, heq⟩
  · rw [heq] at h
    exact (Except.ok.inj h).symm
  · rw [heq] at h
    cases h

/-- A reply about a change says the same as a reply to an event. -/
theorem outcome_map_changed {reply : Reply Bool} {did : Bool} :
    (reply.map Event.Value.changed).outcome = .ok (.changed did) ↔ reply.outcome = .ok did := by
  cases houtcome : reply.outcome <;> simp [Reply.map, houtcome, Except.map]

/-- Unless a switch of documents stopped half-way, moves are made in the outline that is shown. -/
theorem edited_eq {session : Session} (h : session.former = none) :
    session.edited = session.workspace := by
  rw [edited, h]
  rfl

/-- So what they change is the workspace. -/
theorem withEdited_eq {session : Session} (h : session.former = none) (edited : Workspace) :
    session.withEdited edited = { session with workspace := edited } := by
  rw [withEdited, h]

/-- Moves concern only the workspace and a former outline, if there is one. -/
theorem exists_withEdited (session : Session) (edited : Workspace) :
    ∃ workspace former, session.withEdited edited = { session with workspace, former } ∧
      (former = none ↔ session.former = none) := by
  unfold withEdited
  split
  · rename_i hnone
    exact ⟨edited, session.former, rfl, Iff.rfl⟩
  · rename_i former hsome
    exact ⟨_, some edited.outline, rfl, by simp [hsome]⟩

/-- An edit is refused, or an address in it cannot be read, or it changes the workspace or a former
outline, and only in the last case the selection and the expression are derived again. -/
theorem handle_edit_cases (session : Session) {event : Event} (hedit : event.isEdit = true) :
    ∃ reply : Reply Bool, session.handle event = reply.map .changed ∧
      ((∃ notices, reply = session.unchanged false notices) ∨
        (∃ fault, reply = { outcome := .error (.address fault), session, notices := [] }) ∨
        ∃ workspace former notices, (former = none ↔ session.former = none) ∧
          reply = { session with workspace, former }.afterwards true notices) := by
  have hmove : ∀ edited notices, ∃ workspace former notices',
      (former = none ↔ session.former = none) ∧
        (session.withEdited edited).afterwards true notices =
          { session with workspace, former }.afterwards true notices' := by
    intro edited notices
    obtain ⟨workspace, former, heq, hformer⟩ := session.exists_withEdited edited
    exact ⟨workspace, former, notices, hformer, by rw [heq]⟩
  cases event with
  | toggle address =>
    refine ⟨_, rfl, ?_⟩
    unfold toggle
    split
    · exact .inl ⟨_, rfl⟩
    · exact .inr (.inr ⟨_, session.former, _, Iff.rfl, rfl⟩)
  | reorder source target after =>
    refine ⟨_, rfl, ?_⟩
    unfold reorder
    split
    · exact .inl ⟨_, rfl⟩
    · exact .inr (.inr (hmove _ _))
  | moveInto source target =>
    refine ⟨_, rfl, ?_⟩
    unfold moveInto
    split
    · exact .inl ⟨_, rfl⟩
    · exact .inr (.inl ⟨_, rfl⟩)
    · exact .inr (.inr (hmove _ _))
  | _ => cases hedit

/-- An edit that reports that it changed nothing leaves the session as it was. -/
theorem session_eq_of_not_changed {session : Session} {event : Event} (hedit : event.isEdit = true)
    (h : (session.handle event).outcome = .ok (.changed false)) :
    (session.handle event).session = session := by
  obtain ⟨reply, hreply, hcases⟩ := session.handle_edit_cases hedit
  rw [hreply, outcome_map_changed] at h
  rw [hreply, session_map]
  rcases hcases with ⟨notices, rfl⟩ | ⟨fault, rfl⟩ | ⟨workspace, former, notices, -, rfl⟩
  · rfl
  · cases h
  · cases value_of_afterwards h

/-! ## Documents that cannot be written -/

/-- Whether a session stops half-way at an event because a document cannot be written. -/
def StopsAt (session : Session) (event : Event) : Prop :=
  ∃ fault, (session.handle event).outcome = .error (.writing fault)

/-- Deriving what is shown writes nothing. -/
theorem outcome_afterwards_ne {α : Type} (session : Session) (value : α) (notices : List Notice)
    (fault : Json.WritingFault) :
    (session.afterwards value notices).outcome ≠ .error (.writing fault) := by
  rcases session.afterwards_cases value notices with ⟨_, _, heq⟩ | ⟨_, _, heq⟩ <;> simp [heq]

/-- Taking an answer writes nothing. -/
theorem outcome_complete_ne (session : Session) (ticket : Ticket) (result error : Option String)
    (fault : Json.WritingFault) :
    (session.complete ticket result error).outcome ≠ .error (.writing fault) := by
  unfold complete
  split <;> simp [unchanged]

/-- Neither does running a request. -/
theorem outcome_respond_ne (session : Session) (ticket : Ticket) (fault : Json.WritingFault) :
    (session.respond ticket).outcome ≠ .error (.writing fault) := by
  unfold respond
  rcases session.engine.execute ticket.expression (.text ticket.document) with
    ⟨(fault | -) | output, engine, notices⟩
  · exact outcome_complete_ne _ _ _ _ _
  · simp
  · exact outcome_complete_ne _ _ _ _ _

/-- A session does not stop half-way at an event to which it replies otherwise. -/
theorem not_stopsAt {α : Type} {session : Session} {event : Event} {reply : Reply α}
    {change : α → Event.Value} (hreply : session.handle event = reply.map change)
    (hne : ∀ fault, reply.outcome ≠ .error (.writing fault)) : ¬session.StopsAt event := by
  rintro ⟨fault, hfault⟩
  rw [hreply, outcome_map_eq_error] at hfault
  exact hne fault hfault

/-- A session stops half-way exactly at the documents that come with an event and cannot be
written. -/
theorem stopsAt_iff {session : Session} {event : Event} :
    session.StopsAt event ↔ ¬event.IsWritable := by
  have hedit : event.isEdit = true → ¬session.StopsAt event := by
    intro hedit
    obtain ⟨reply, hreply, hcases⟩ := session.handle_edit_cases hedit
    refine not_stopsAt hreply fun fault => ?_
    rcases hcases with ⟨notices, rfl⟩ | ⟨other, rfl⟩ | ⟨workspace, former, notices, -, rfl⟩
    · simp [unchanged]
    · simp
    · exact outcome_afterwards_ne _ _ _ fault
  cases event with
  | switchDocument document filename =>
    by_cases hdocument : document.IsWritable
    · refine iff_of_false (not_stopsAt rfl fun fault => ?_) (not_not_intro hdocument)
      simp [switchDocument_eq hdocument]
    · obtain ⟨fault, hswitch⟩ := session.switchDocument_of_not_isWritable hdocument filename
      exact iff_of_true ⟨fault, by rw [handle, hswitch]; rfl⟩ hdocument
  | toggle address => exact iff_of_false (hedit rfl) (not_not_intro trivial)
  | reorder source target after => exact iff_of_false (hedit rfl) (not_not_intro trivial)
  | moveInto source target => exact iff_of_false (hedit rfl) (not_not_intro trivial)
  | setCompression enabled =>
    exact iff_of_false (not_stopsAt rfl (outcome_afterwards_ne _ _ _)) (not_not_intro trivial)
  | loadFile disk folder name =>
    refine iff_of_false (not_stopsAt rfl fun fault => ?_) (not_not_intro trivial)
    rcases session.loadFile_cases disk folder name with ⟨-, hne, -⟩ | ⟨hloaded, -⟩
    · exact hne fault
    · simp [hloaded]
  | complete ticket result error =>
    exact iff_of_false (not_stopsAt rfl (session.outcome_complete_ne ticket result error))
      (not_not_intro trivial)
  | execute =>
    exact iff_of_false (not_stopsAt rfl (outcome_respond_ne session.submit.2 session.submit.1))
      (not_not_intro trivial)
  | submit => exact iff_of_false (by simp [StopsAt, handle, unchanged]) (not_not_intro trivial)
  | _ =>
    refine iff_of_false (not_stopsAt rfl fun fault => ?_) (not_not_intro trivial)
    simp [expandAll, collapseAll, collapseUnselected, display, unchanged]

/-! ## Requests -/

/-- Taking an answer concerns only the result and the error. -/
theorem session_complete (session : Session) (ticket : Ticket) (result error : Option String) :
    (session.complete ticket result error).session =
      if ticket.token = session.latest then
        { session with result := result.getD "", error := error.getD "" }
      else session := by
  unfold complete
  split <;> rfl

/-- Taking an answer concerns at most the result and the error. -/
theorem exists_session_complete (session : Session) (ticket : Ticket)
    (given fault : Option String) :
    ∃ result error, (session.complete ticket given fault).session =
      { session with result, error } := by
  rw [session_complete]
  split
  · exact ⟨_, _, rfl⟩
  · exact ⟨session.result, session.error, rfl⟩

/-- Running a request concerns only the engine, the result and the error. -/
theorem session_respond (session : Session) (ticket : Ticket) :
    ∃ engine result error, (session.respond ticket).session =
      { session with engine, result, error } := by
  unfold respond
  rcases session.engine.execute ticket.expression (.text ticket.document) with
    ⟨outcome, engine, notices⟩
  rcases outcome with (fault | -) | output
  · obtain ⟨result, error, h⟩ :=
      exists_session_complete { session with engine } ticket none (some fault.message)
    exact ⟨engine, result, error, h⟩
  · exact ⟨engine, session.result, session.error, rfl⟩
  · obtain ⟨result, error, h⟩ :=
      exists_session_complete { session with engine } ticket (some output) none
    exact ⟨engine, result, error, h⟩

/-- Running the current expression makes a request and concerns otherwise only the engine, the
result and the error. -/
theorem session_execute (session : Session) :
    ∃ engine result error, session.execute.session =
      { session with engine, result, error, latest := session.latest + 1 } :=
  session_respond session.submit.2 session.submit.1

end Session

end Projector
