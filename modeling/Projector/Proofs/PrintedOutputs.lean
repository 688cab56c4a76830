import Projector.Proofs.EngineFaults

/-!
# What is printed of the outputs of a query

The outputs that evaluation gives are not yet what a session shows. The language of an engine
settles their numbers, the engine prints them as one value, and a session takes the print as its
result. A failure is worded on the way, and its wording becomes the error. Nothing else happens to
either, so what is known of the outputs of a query is known of what a session shows that runs it.
-/

namespace Projector

/-- A text that writes a query has the outputs of that query. -/
theorem QueryLanguage.outputs_of_compile {language : QueryLanguage} {expression : String}
    {query : language.Compiled} (hquery : language.compile expression = .ok query) (value : Json) :
    language.outputs expression value = (language.run query value).mapError .failed := by
  rw [outputs, hquery]
  rfl

namespace Query

/-- The language compiles a text to the query that the text writes. -/
theorem language_compile {text : String} {query : Query}
    (hquery : Query.compile text = some query) : language.compile text = .ok query := by
  simp only [language, hquery]

/-- Evaluation and settling are all that the language does with a query. -/
theorem language_run (query : Query) (value : Json) :
    language.run query value =
      ((query.run value).map (List.map Json.settled)).mapError Failure.message := by
  simp only [language]
  cases query.run value <;> rfl

end Query

namespace Session

/-- How a session answers its next request when the query has these outputs, or fails. -/
def answerTo (session : Session) : Except Query.Failure (List Json) → Answer
  | .ok outputs =>
    { token := session.latest + 1
      result := (Engine.joined (outputs.map Json.settled)).indentedText
      error := ""
      applied := true }
  | .error failure =>
    { token := session.latest + 1, result := "", error := failure.message, applied := true }

/-- A session whose engine has room for a program and keeps only what was compiled, as every engine
does that was made with room, answers with the outputs of the query that its expression writes, on
the document that its text holds. -/
theorem outcome_execute_eq_answerTo {session : Session} (hengine : session.engine.Faithful)
    (hcapacity : session.engine.capacity ≠ 0) {query : Query}
    (hquery : Query.compile session.expression = some query) {document : Json}
    (hdocument : Json.read session.raw = .ok document) :
    session.execute.outcome = .ok (session.answerTo (query.run document)) ∧
      session.execute.session.result = (session.answerTo (query.run document)).result ∧
      session.execute.session.error = (session.answerTo (query.run document)).error := by
  have hread : (Json.Source.text session.raw).read = .ok document := by
    rw [Json.Source.read, hdocument]
    rfl
  have htaken := session.takesUp_execute
  rw [engineOutcome, hengine.outcome_execute hcapacity, QueryLanguage.printed, hread] at htaken
  simp only [Except.mapError, bind, Except.bind] at htaken
  rw [QueryLanguage.outputs_of_compile (Query.language_compile hquery),
    Query.language_run] at htaken
  cases hrun : query.run document with
  | ok outputs =>
    rw [hrun] at htaken
    exact htaken
  | error failure =>
    rw [hrun] at htaken
    exact htaken

end Session

end Projector
