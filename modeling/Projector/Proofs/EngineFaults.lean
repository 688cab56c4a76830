import Mathlib
import Projector.Proofs.ReachableEngines
import Projector.Proofs.SessionEvents

/-!
# When an engine gives no answer

An engine that gives no answer says why no query has a result, with one exception: an engine without
room for a single program refuses every text that it could compile, because of the room and not
because of the text. A session turns the first kind of fault into the answer to its request. It has
nothing to say to the second kind and leaves the request unanswered.
-/

namespace Projector

namespace Engine

variable {language : QueryLanguage}

/-- Why a reply is no answer, when it is none. -/
def Reply.fault? {α : Type} (reply : Reply α language) : Option Fault :=
  match reply.outcome with
  | .ok _ => none
  | .error fault => some fault

/-- Why a call gets no answer, when it gets none. -/
def fault? (engine : Engine language) : Call → Option Fault
  | .compile expression => (engine.compile expression).fault?
  | .run expression value => (engine.run expression value).fault?
  | .execute expression document => (engine.execute expression document).fault?

/-- A reply has a fault when its outcome is that fault. -/
theorem Reply.fault?_eq_some_iff {α : Type} {reply : Reply α language} {fault : Fault} :
    reply.fault? = some fault ↔ reply.outcome = .error fault := by
  rw [Reply.fault?]
  cases reply.outcome <;> simp

/-- Running a text lacks the room for its program when compiling it does. -/
theorem outcome_run_eq_noRoom_iff {engine : Engine language} {expression : String} {value : Json} :
    (engine.run expression value).outcome = .error .noRoom ↔
      (engine.compile expression).outcome = .error .noRoom := by
  rw [run]
  cases houtcome : (engine.compile expression).outcome with
  | error fault => simp [bind, Except.bind]
  | ok program =>
    cases hrun : program.run value <;> simp [bind, Except.bind, Except.mapError, hrun]

/-- A call lacks the room for a program when it needs one and compiling the text does. -/
theorem fault?_eq_noRoom_iff {engine : Engine language} {call : Call} :
    engine.fault? call = some .noRoom ↔ ∃ expression, call.expression? = some expression ∧
      (engine.compile expression).outcome = .error .noRoom := by
  cases call with
  | compile expression =>
    rw [fault?, Reply.fault?_eq_some_iff]
    simp [Call.expression?]
  | run expression value =>
    rw [fault?, Reply.fault?_eq_some_iff, outcome_run_eq_noRoom_iff]
    simp [Call.expression?]
  | execute expression document =>
    rw [fault?, Reply.fault?_eq_some_iff, execute, Call.expression?]
    cases document.read with
    | error fault => simp
    | ok value =>
      have hmap : ∀ {outcome : Except Fault (List Json)} {print : List Json → String},
          outcome.map print = .error .noRoom ↔ outcome = .error .noRoom := by
        intro outcome print
        cases outcome <;> simp [Except.map]
      dsimp only
      rw [hmap, outcome_run_eq_noRoom_iff]
      simp

/-- With room for a program every fault says why a query has no result. -/
theorem outcome_compile_ne_noRoom {engine : Engine language} (hcapacity : engine.capacity ≠ 0)
    (expression : String) : (engine.compile expression).outcome ≠ .error .noRoom := by
  rcases engine.compile_cases expression with ⟨_, _, _, -, -, heq⟩ |
    ⟨-, ⟨_, -, heq⟩ | ⟨_, -, hfull, -⟩ | ⟨_, -, -, heq⟩⟩
  · rw [heq]
    simp
  · rw [heq]
    simp
  · exact absurd hfull hcapacity
  · rw [heq]
    simp

/-- Without room for a program every text that is a query is refused for that. -/
theorem Faithful.outcome_compile_of_capacity_eq_zero {engine : Engine language}
    (h : engine.Faithful) (hcapacity : engine.capacity = 0) {expression : String}
    {query : language.Compiled} (hquery : language.compile expression = .ok query) :
    (engine.compile expression).outcome = .error .noRoom := by
  have hnone : engine.kept = [] := List.length_eq_zero_iff.mp (Nat.le_zero.mp (hcapacity ▸ h.fits))
  rcases engine.compile_cases expression with ⟨older, kept, newer, hkept, -, -⟩ |
    ⟨-, ⟨_, hcomplaint, -⟩ | ⟨_, -, -, heq⟩ | ⟨_, -, hroom, -⟩⟩
  · rw [hnone] at hkept
    simp at hkept
  · rw [hquery] at hcomplaint
    cases hcomplaint
  · rw [heq]
  · exact absurd hcapacity hroom

/-- A call to an engine lacks the room for a program exactly when there is none at all and the call
would use one. -/
theorem Faithful.fault?_eq_noRoom_iff {engine : Engine language} (h : engine.Faithful)
    {call : Call} : engine.fault? call = some .noRoom ↔
      engine.capacity = 0 ∧ ∃ expression, call.used? language = some expression := by
  rw [Engine.fault?_eq_noRoom_iff]
  constructor
  · rintro ⟨expression, hneeded, hfault⟩
    have hcapacity : engine.capacity = 0 :=
      Classical.byContradiction fun hroom => outcome_compile_ne_noRoom hroom expression hfault
    refine ⟨hcapacity, expression, Call.used?_eq_some_iff.mpr ⟨hneeded, ?_⟩⟩
    cases hcompile : language.compile expression with
    | error complaint =>
      rw [h.compile_of_error hcompile] at hfault
      cases hfault
    | ok query => exact ⟨query, rfl⟩
  · rintro ⟨hcapacity, expression, hused⟩
    obtain ⟨hneeded, query, hquery⟩ := Call.used?_eq_some_iff.mp hused
    exact ⟨expression, hneeded, h.outcome_compile_of_capacity_eq_zero hcapacity hquery⟩

/-- The engines that can be made are those with a capacity that is not negative. -/
theorem make_eq_ok_iff {capacity : Int} {engine : Engine language} :
    make capacity = .ok engine ↔ 0 ≤ capacity ∧ engine = empty capacity.toNat := by
  rw [make]
  split
  · simp
    omega
  · rw [Except.ok.injEq, eq_comm]
    simp
    omega

/-- Of an engine that was made with some capacity and asked for anything since, a call lacks the room
for a program exactly when the capacity is zero and the call would use one. -/
theorem noRoom_run_iff {capacity : Int} {engine : Engine language}
    (hmake : make capacity = .ok engine) (calls : List Call) (call : Call) :
    (engine.after calls).fault? call = some .noRoom ↔
      capacity = 0 ∧ ∃ expression, call.used? language = some expression := by
  obtain ⟨hnonneg, rfl⟩ := make_eq_ok_iff.mp hmake
  rw [((faithful_empty capacity.toNat).after calls).fault?_eq_noRoom_iff, capacity_after,
    capacity_empty]
  refine and_congr_left fun _ => ?_
  omega

end Engine

/-! ## Running the expression of a session -/

namespace Session

/-- What a session asks its engine for to run its expression. -/
def call (session : Session) : Engine.Call :=
  .execute session.expression (.text session.raw)

/-- What the engine of a session gives for the expression of the session and the text that its
requests are about. -/
def engineOutcome (session : Session) : Except Engine.Fault String :=
  (session.engine.execute session.expression (.text session.raw)).outcome

/-- What a session makes of what its engine gives for its expression. An output becomes the result,
and the wording of why a query has no result becomes the error, each in place of the other, and the
request is answered. When the engine has no room for a program the session passes that on, and
result and error stay as they were. -/
def TakesUp (session : Session) : Except Engine.Fault String → Prop
  | .ok output =>
    session.execute.outcome = .ok ⟨session.latest + 1, output, "", true⟩ ∧
      session.execute.session.result = output ∧ session.execute.session.error = ""
  | .error (.query fault) =>
    session.execute.outcome = .ok ⟨session.latest + 1, "", fault.message, true⟩ ∧
      session.execute.session.result = "" ∧ session.execute.session.error = fault.message
  | .error .noRoom =>
    session.execute.outcome = .error (.engine .noRoom) ∧
      session.execute.session.result = session.result ∧
      session.execute.session.error = session.error

/-- Running the expression of a session takes up what its engine gives: no other request can come in
between. -/
theorem takesUp_execute (session : Session) : session.TakesUp session.engineOutcome := by
  have hexecute : session.execute = session.submit.2.respond session.submit.1 := rfl
  rw [engineOutcome]
  rcases hrun : session.engine.execute session.expression (.text session.raw) with
    ⟨outcome, engine, notices⟩
  rcases outcome with (fault | -) | output
  · simp [TakesUp, hexecute, respond, submit, hrun, complete, unchanged]
  · simp [TakesUp, hexecute, respond, submit, hrun]
  · simp [TakesUp, hexecute, respond, submit, hrun, complete, unchanged]

end Session

/-- Whatever an engine of any capacity was asked for before, a call gets no answer for another
reason than that a query has no result exactly when there is no room for any program and the call
would use one. A session with such an engine takes up what the engine gives for its expression, so
its request stays unanswered in the same case only. -/
theorem faults_run {language : QueryLanguage} {capacity : Int} {engine : Engine language}
    (hmake : Engine.make capacity = .ok engine) (calls : List Engine.Call) :
    (∀ call, (engine.after calls).fault? call = some .noRoom ↔
      capacity = 0 ∧ ∃ expression, call.used? language = some expression) ∧
    ∀ (session : Session) (fresh : Engine) (served : List Engine.Call),
      Engine.make capacity = .ok fresh → session.engine = fresh.after served →
      session.TakesUp session.engineOutcome ∧
        (session.engineOutcome = .error .noRoom ↔
          capacity = 0 ∧ ∃ expression, session.call.used? Query.language = some expression) := by
  refine ⟨Engine.noRoom_run_iff hmake calls, ?_⟩
  intro session fresh served hfresh hengine
  refine ⟨session.takesUp_execute, ?_⟩
  have hiff := Engine.noRoom_run_iff hfresh served session.call
  rwa [← hengine, Session.call, Engine.fault?, Engine.Reply.fault?_eq_some_iff] at hiff

/-- With room for one program every fault says why a query has no result, and a session on an engine
that was in use before takes up whatever the engine gives. -/
theorem faults_run_crowding : Engine.make 1 = .ok (Engine.empty 1 : Engine) ∧
    (∀ call, ((Engine.empty 1 : Engine).after Engine.crowdingCalls).fault? call ≠ some .noRoom) ∧
    ∃ session, Session.start .null .standard ((Engine.empty 1).after Engine.crowdingCalls) none =
        .ok session ∧
      session.TakesUp session.engineOutcome ∧ session.engineOutcome ≠ .error .noRoom := by
  have hmake : Engine.make 1 = .ok (Engine.empty 1 : Engine) := rfl
  obtain ⟨hcalls, hsessions⟩ := faults_run hmake Engine.crowdingCalls
  obtain ⟨session, hstart, hengine⟩ : ∃ session, Session.start .null .standard
      ((Engine.empty 1).after Engine.crowdingCalls) none = .ok session ∧
        session.engine = (Engine.empty 1).after Engine.crowdingCalls :=
    ⟨_, Session.start_eq (by decide) _ _ _, rfl⟩
  obtain ⟨htaken, hiff⟩ := hsessions session (Engine.empty 1) Engine.crowdingCalls hmake hengine
  refine ⟨hmake, fun call hfault => ?_, session, hstart, htaken, fun hfault => ?_⟩
  · exact absurd ((hcalls call).mp hfault).1 (by decide)
  · exact absurd (hiff.mp hfault).1 (by decide)

/-- An engine without room refuses a query that has a result, and a session with it leaves its
request unanswered. -/
theorem not_answered_noRoom : ∃ engine : Engine, Engine.make 0 = .ok engine ∧
    (engine.execute "." (.text "null")).outcome = .error .noRoom ∧
    ∃ session, Session.start .null .standard engine none = .ok session ∧
      session.execute.outcome = .error (.engine .noRoom) := by
  refine ⟨Engine.empty 0, rfl, ?_, _, Session.start_eq (by decide) _ _ _, ?_⟩
  · cbv
  · cbv

end Projector
