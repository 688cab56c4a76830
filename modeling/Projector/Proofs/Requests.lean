import Projector.Proofs.SessionEvents

/-!
# Requests and late answers

Requests of a session have ascending numbers, and the number of the latest one tells whether an
answer is outdated. It counts exactly the events that outdate earlier requests: requests themselves
and switches of documents. So an answer is taken just when no such event came after its request,
whatever else the session handled in between, and an outdated answer never changes anything.
-/

namespace Projector.Session

/-- Whether an event outdates the requests made before it: it makes a request, or it switches to
another document. -/
def outdates (session : Session) : Event → Bool
  | .submit => true
  | .execute => true
  | .switchDocument _ _ => true
  | .loadFile disk folder name =>
    match (session.loadFile disk folder name).outcome with
    | .ok loaded => loaded
    | .error _ => false
  | _ => false

/-- Whether one of some events outdates the requests made before them. -/
def outdatedBy (session : Session) : List Event → Bool
  | [] => false
  | event :: events => session.outdates event || outdatedBy (session.handle event).session events

/-- The tickets of the requests that some events make, in order. -/
def tickets (session : Session) : List Event → List Ticket
  | [] => []
  | event :: events =>
    (if event.isRequest then [session.submit.1] else []) ++
      tickets (session.handle event).session events

/-- A request outdates the requests made before it. -/
theorem outdates_of_isRequest {session : Session} {event : Event}
    (hrequest : event.isRequest = true) : session.outdates event = true := by
  cases event <;> first | rfl | cases hrequest

/-- What was outdated stays outdated. -/
theorem outdatedBy_append (session : Session) (events more : List Event) :
    session.outdatedBy (events ++ more) =
      (session.outdatedBy events || (session.after events).outdatedBy more) := by
  induction events generalizing session with
  | nil => rfl
  | cons event events ih => rw [List.cons_append, outdatedBy, outdatedBy, ih, Bool.or_assoc]; rfl

/-- The tickets of events and of what follows them. -/
theorem tickets_append (session : Session) (events more : List Event) :
    session.tickets (events ++ more) =
      session.tickets events ++ (session.after events).tickets more := by
  induction events generalizing session with
  | nil => rfl
  | cons event events ih => rw [List.cons_append, tickets, tickets, ih, List.append_assoc]; rfl

/-! ## The number of the latest request -/

/-- An edit makes no request, whether it is refused or made. -/
theorem latest_edit (session : Session) {event : Event} (hedit : event.isEdit = true) :
    (session.handle event).session.latest = session.latest := by
  obtain ⟨reply, hreply, hcases⟩ := session.handle_edit_cases hedit
  rw [hreply, session_map]
  rcases hcases with ⟨notices, rfl⟩ | ⟨fault, rfl⟩ | ⟨workspace, former, notices, -, rfl⟩
  · rfl
  · rfl
  · obtain ⟨_, _, hsession⟩ :=
      exists_session_afterwards { session with workspace, former } true notices
    rw [hsession]

/-- An event raises the number of the latest request by one when it outdates earlier requests, and
leaves it alone otherwise. -/
theorem latest_handle (session : Session) (event : Event) :
    (session.handle event).session.latest =
      if session.outdates event then session.latest + 1 else session.latest := by
  cases event with
  | toggle address => exact session.latest_edit rfl
  | reorder source target after => exact session.latest_edit rfl
  | moveInto source target => exact session.latest_edit rfl
  | setCompression enabled =>
    obtain ⟨_, _, hsession⟩ := exists_session_afterwards
      { session with config := session.config.withCompression enabled } () []
    rw [handle, session_map, setCompression, hsession]
    rfl
  | expandAll => rfl
  | collapseAll => rfl
  | collapseUnselected => rfl
  -- Whether the document can be written is only seen after the number was raised.
  | switchDocument document filename =>
    rw [handle, session_map]
    by_cases hdocument : document.IsWritable
    · rw [switchDocument_eq hdocument]
      rfl
    · obtain ⟨_, hswitch⟩ := session.switchDocument_of_not_isWritable hdocument filename
      rw [hswitch]
      rfl
  | loadFile disk folder name =>
    rw [handle, session_map, outdates]
    rcases session.loadFile_cases disk folder name with
      ⟨hother, -, error, hsession⟩ | ⟨hloaded, document, -, hsession⟩
    · rw [hsession]
      split
      · rename_i did houtcome
        cases did with
        | true => exact absurd houtcome hother
        | false => rfl
      · rfl
    · rw [hsession, hloaded]
      rfl
  | submit => rfl
  | complete ticket result error =>
    obtain ⟨_, _, hsession⟩ := session.exists_session_complete ticket result error
    rw [handle, session_map, hsession]
    rfl
  | execute =>
    obtain ⟨_, _, _, hsession⟩ := session.session_execute
    rw [handle, session_map, hsession]
    rfl

/-- Events never lower the number of the latest request, and leave it alone exactly when none of
them outdates earlier requests. -/
theorem latest_after (session : Session) (events : List Event) :
    session.latest ≤ (session.after events).latest ∧
      (session.latest = (session.after events).latest ↔ session.outdatedBy events = false) := by
  induction events generalizing session with
  | nil => simp [outdatedBy]
  | cons event events ih =>
    obtain ⟨hle, hsame⟩ := ih (session.handle event).session
    have hlatest := session.latest_handle event
    rw [after_cons, outdatedBy, Bool.or_eq_false_iff, ← hsame]
    -- An event that outdates requests raises the number, and nothing lowers it afterwards.
    cases houtdates : session.outdates event with
    | true =>
      rw [houtdates, if_pos rfl] at hlatest
      refine ⟨by omega, fun heq => by omega, fun h => by simp at h⟩
    | false =>
      rw [houtdates, if_neg (by simp)] at hlatest
      rw [hlatest] at hle ⊢
      exact ⟨hle, fun heq => ⟨rfl, heq⟩, fun h => h.2⟩

/-! ## Tickets -/

/-- Right after a request its ticket has the number of the latest request. -/
theorem latest_request {session : Session} {request : Event} (hrequest : request.isRequest = true) :
    (session.handle request).session.latest = session.submit.1.token := by
  rw [latest_handle, outdates_of_isRequest hrequest]
  rfl

/-- The tickets of events have numbers after the latest one before the events. -/
theorem lt_token_of_mem {session : Session} {events : List Event} {ticket : Ticket}
    (hticket : ticket ∈ session.tickets events) : session.latest < ticket.token := by
  induction events generalizing session with
  | nil => cases hticket
  | cons event events ih =>
    rw [tickets, List.mem_append] at hticket
    rcases hticket with hfirst | hrest
    · split at hfirst
      · rw [List.mem_singleton.mp hfirst]
        exact Nat.lt_succ_self _
      · cases hfirst
    · have hlatest := (session.latest_after [event]).1
      exact Nat.lt_of_le_of_lt hlatest (ih hrest)

/-- The numbers of tickets ascend. -/
theorem pairwise_tickets (session : Session) (events : List Event) :
    (session.tickets events).Pairwise fun earlier later => earlier.token < later.token := by
  induction events generalizing session with
  | nil => exact List.Pairwise.nil
  | cons event events ih =>
    rw [tickets]
    split
    · rename_i hrequest
      refine List.pairwise_append.mpr ⟨List.pairwise_singleton _ _, ih _, ?_⟩
      intro first hfirst later hlater
      rw [List.mem_singleton.mp hfirst, ← latest_request hrequest]
      exact lt_token_of_mem hlater
    · exact ih _

/-! ## Answers -/

/-- What a session does with every answer to a ticket: when the ticket is outdated it drops the
answer and changes nothing at all, and otherwise it takes the answer, whose output and error become
its own and are all that changes. -/
structure Answers (session : Session) (ticket : Ticket) (outdated : Bool) : Prop where
  /-- The session says whether it took the answer. -/
  outcome : ∀ result error, (session.complete ticket result error).outcome =
    .ok { token := ticket.token, result := result.getD "", error := error.getD ""
          applied := !outdated }
  /-- The session has the answer, or it is as it was. -/
  session : ∀ result error, (session.complete ticket result error).session =
    if outdated then session
    else { session with result := result.getD "", error := error.getD "" }

/-- The number of its ticket tells whether an answer is outdated. -/
theorem answers_of_iff {session : Session} {ticket : Ticket} {outdated : Bool}
    (h : ticket.token = session.latest ↔ outdated = false) : session.Answers ticket outdated where
  outcome := by
    intro result error
    unfold complete
    cases outdated with
    | true =>
      rw [if_neg (by simp [h])]
      rfl
    | false =>
      rw [if_pos (by simp [h])]
      rfl
  session := by
    intro result error
    rw [session_complete]
    cases outdated with
    | true => exact if_neg (by simp [h])
    | false => exact if_pos (by simp [h])

/-- An answer to a request is outdated when an event after the request outdated it. -/
theorem answers_after (session : Session) {request : Event} (hrequest : request.isRequest = true)
    (later : List Event) : (session.after (request :: later)).Answers session.submit.1
      ((session.handle request).session.outdatedBy later) := by
  rw [after_cons]
  refine answers_of_iff ?_
  rw [← latest_request hrequest]
  exact ((session.handle request).session.latest_after later).2

end Projector.Session

namespace Projector

open Session

/-- Among all tickets of a session the numbers ascend. Whatever the session handled before and after
a request, answers to the request are taken exactly when none of the events after it outdated it,
and then they change the result and the error and nothing else. Once outdated they are dropped for
good, whatever events follow, and change nothing. -/
theorem answer_run (session : Session) (before later : List Event) {request : Event}
    (hrequest : request.isRequest = true) :
    (session.tickets (before ++ request :: later)).Pairwise
        (fun first second => first.token < second.token) ∧
      (session.after before).submit.1 ∈ session.tickets (before ++ request :: later) ∧
      (session.after (before ++ request :: later)).Answers (session.after before).submit.1
        (((session.after before).handle request).session.outdatedBy later) ∧
      (((session.after before).handle request).session.outdatedBy later = true → ∀ more,
        (session.after (before ++ request :: later ++ more)).Answers
          (session.after before).submit.1 true) := by
  refine ⟨session.pairwise_tickets _, ?_, ?_, fun houtdated more => ?_⟩
  · rw [tickets_append, tickets, if_pos hrequest]
    simp
  · rw [after_append]
    exact (session.after before).answers_after hrequest later
  · have hmore := (session.after before).answers_after hrequest (later ++ more)
    rw [outdatedBy_append, houtdated, Bool.true_or] at hmore
    rwa [List.append_assoc, List.cons_append, after_append]

/-- An answer is taken when the session was only edited since its request, and dropped when another
document was switched to. -/
theorem answer_run_switched : Event.submit.isRequest = true ∧
    ∃ first, Session.start containers .standard (.empty 0) none = .ok first ∧
      (first.after [.toggle "$.a.x", .submit, .toggle "$.a.x"]).Answers
        (first.after [.toggle "$.a.x"]).submit.1 false ∧
      (first.after [.toggle "$.a.x", .submit, .switchDocument (.obj []) none]).Answers
        (first.after [.toggle "$.a.x"]).submit.1 true := by
  have hwritable : containers.IsWritable := by decide +kernel
  refine ⟨rfl, _, start_eq hwritable .standard (.empty 0) none, ?_, ?_⟩
  · exact (answer_run _ [.toggle "$.a.x"] [.toggle "$.a.x"] rfl).2.2.1
  · exact (answer_run _ [.toggle "$.a.x"] [.switchDocument (.obj []) none] rfl).2.2.1

end Projector
