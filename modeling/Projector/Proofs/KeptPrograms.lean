import Mathlib.Data.List.Nodup
import Projector.Engine

/-!
# Programs that an engine keeps

An engine is asked to compile texts, to run them on values and to run them on documents, in any
order. What a call does to the programs that are kept depends on one text at most, and for that text
there are four cases: its program is found, it is no query, there is no room for any program, or its
program is added. Whatever happens, every program that is kept is the one its text writes, so what
the engine gives for a text is what the language gives for it.
-/

namespace Projector

/-! ## Results without an engine -/

namespace QueryLanguage

variable (language : QueryLanguage)

/-- All outputs of a text on a value, when nothing is kept. -/
def outputs (expression : String) (value : Json) : Except QueryFault (List Json) := do
  let query ← (language.compile expression).mapError .badExpression
  (language.run query value).mapError .failed

/-- The printed outputs of a text on a document, when nothing is kept. -/
def printed (expression : String) (document : Json.Source) : Except QueryFault String := do
  let value ← document.read.mapError .badDocument
  let outputs ← language.outputs expression value
  .ok (Engine.joined outputs).indentedText

end QueryLanguage

namespace Engine

/-! ## Calls -/

/-- What an engine is asked for. -/
inductive Call
  | compile (expression : String)
  | run (expression : String) (value : Json)
  | execute (expression : String) (document : Json.Source)

/-- The text that a call needs the program of: none when it has a document that cannot be read. -/
def Call.expression? : Call → Option String
  | .compile expression => some expression
  | .run expression _ => some expression
  | .execute expression document =>
    match document.read with
    | .ok _ => some expression
    | .error _ => none

/-- The text whose program a call uses, be it found or compiled: none when the text that it needs
the program of is no query. -/
def Call.used? (language : QueryLanguage) (call : Call) : Option String :=
  call.expression?.filter fun expression => (language.compile expression).isOk

variable {language : QueryLanguage}

/-- The engine after a call. -/
def serve (engine : Engine language) : Call → Engine language
  | .compile expression => (engine.compile expression).engine
  | .run expression value => (engine.run expression value).engine
  | .execute expression document => (engine.execute expression document).engine

/-- The engine after some calls. -/
def after (engine : Engine language) (calls : List Call) : Engine language :=
  calls.foldl serve engine

@[simp] theorem after_nil (engine : Engine language) : engine.after [] = engine := rfl

@[simp] theorem after_cons (engine : Engine language) (call : Call) (calls : List Call) :
    engine.after (call :: calls) = (engine.serve call).after calls := rfl

/-- A call changes the engine as compiling the text does that it needs the program of. -/
theorem serve_of_expression? {call : Call} {expression : String}
    (h : call.expression? = some expression) (engine : Engine language) :
    engine.serve call = (engine.compile expression).engine := by
  cases call with
  | compile other => rw [← Option.some.inj h]; rfl
  | run other value => rw [← Option.some.inj h]; rfl
  | execute other document =>
    rw [Call.expression?] at h
    rw [serve, execute]
    cases hread : document.read with
    | error fault => rw [hread] at h; cases h
    | ok value =>
      rw [hread] at h
      rw [← Option.some.inj h]
      rfl

/-- A call that needs no program changes nothing. -/
theorem serve_of_expression?_eq_none {call : Call} (h : call.expression? = none)
    (engine : Engine language) : engine.serve call = engine := by
  cases call with
  | compile other => cases h
  | run other value => cases h
  | execute other document =>
    rw [Call.expression?] at h
    rw [serve, execute]
    cases hread : document.read with
    | error fault => rfl
    | ok value => rw [hread] at h; cases h

/-- A call uses the program of the text that it needs it of, if that text is a query. -/
theorem Call.used?_eq_some_iff {call : Call} {expression : String} :
    call.used? language = some expression ↔
      call.expression? = some expression ∧ ∃ query, language.compile expression = .ok query := by
  rw [used?, Option.filter_eq_some_iff]
  refine and_congr_right fun _ => ?_
  cases language.compile expression <;> simp [Except.isOk, Except.toBool]

/-! ## Compiling a text -/

/-- What compiling a text comes to: its program is found and becomes the most recent one, or it is
not kept, and then the text is no query, there is no room for a program, or its program is added
with a number of its own. -/
theorem compile_cases (engine : Engine language) (expression : String) :
    (∃ older kept newer, engine.kept = older ++ kept :: newer ∧ kept.expression = expression ∧
      engine.compile expression =
        { outcome := .ok kept.program
          engine := { engine with kept := older ++ newer ++ [kept] }
          notices := [] }) ∨
    ((∀ kept ∈ engine.kept, kept.expression ≠ expression) ∧
      ((∃ complaint, language.compile expression = .error complaint ∧
        engine.compile expression =
          { outcome := .error (.query (.badExpression complaint)), engine
            notices := [.compiling expression] }) ∨
      (∃ query, language.compile expression = .ok query ∧ engine.capacity = 0 ∧
        engine.compile expression =
          { outcome := .error .noRoom, engine, notices := [.compiling expression] }) ∨
      ∃ query, language.compile expression = .ok query ∧ engine.capacity ≠ 0 ∧
        engine.compile expression =
          { outcome := .ok ⟨engine.compiled, query⟩
            engine := engine.keep ⟨expression, engine.compiled, query⟩
            notices := [.compiling expression] })) := by
  cases hfind : engine.find? expression with
  | some kept =>
    obtain ⟨hmatch, older, newer, hkept, hbefore⟩ := List.find?_eq_some_iff_append.mp hfind
    have hexpression : kept.expression = expression := of_decide_eq_true hmatch
    have hothers : engine.kept.eraseP (fun other => decide (other.expression = kept.expression)) =
        older ++ newer := by
      rw [hkept, hexpression, List.eraseP_append_right _ fun other hother => by
        simpa using hbefore other hother]
      simp [hexpression]
    refine .inl ⟨older, kept, newer, hkept, hexpression, ?_⟩
    simp only [compile, hfind, refresh, hothers]
  | none =>
    have habsent : ∀ kept ∈ engine.kept, kept.expression ≠ expression := by
      intro kept hmem
      simpa using List.find?_eq_none.mp hfind kept hmem
    refine .inr ⟨habsent, ?_⟩
    cases hcompile : language.compile expression with
    | error complaint =>
      refine .inl ⟨complaint, rfl, ?_⟩
      simp only [compile, hfind, hcompile]
    | ok query =>
      by_cases hcapacity : engine.capacity = 0
      · refine .inr (.inl ⟨query, rfl, hcapacity, ?_⟩)
        simp only [compile, hfind, hcompile, if_pos hcapacity]
      · refine .inr (.inr ⟨query, rfl, hcapacity, ?_⟩)
        simp only [compile, hfind, hcompile, if_neg hcapacity]

/-- Compiling a text leaves the room for programs as it is. -/
@[simp] theorem capacity_compile (engine : Engine language) (expression : String) :
    (engine.compile expression).engine.capacity = engine.capacity := by
  rcases engine.compile_cases expression with ⟨_, _, _, -, -, heq⟩ |
    ⟨-, ⟨_, -, heq⟩ | ⟨_, -, -, heq⟩ | ⟨_, -, -, heq⟩⟩
  all_goals simp only [heq, keep]

/-- Compiling a text never takes back the count of programs. -/
theorem compiled_le_compile (engine : Engine language) (expression : String) :
    engine.compiled ≤ (engine.compile expression).engine.compiled := by
  rcases engine.compile_cases expression with ⟨_, _, _, -, -, heq⟩ |
    ⟨-, ⟨_, -, heq⟩ | ⟨_, -, -, heq⟩ | ⟨_, -, -, heq⟩⟩
  all_goals simp only [heq, keep]
  all_goals omega

/-- An engine is made with the room it is to have. -/
@[simp] theorem capacity_empty (capacity : Nat) :
    (empty capacity : Engine language).capacity = capacity := rfl

/-! ## What holds of an engine at all times -/

/-- What holds of an engine at all times: it keeps no more programs than there is room for, each of
them for a text of its own that writes it, and with a number that it was given when it was compiled. -/
structure Faithful (engine : Engine language) : Prop where
  fits : engine.kept.length ≤ engine.capacity
  distinct : (engine.kept.map Kept.expression).Nodup
  compiled : ∀ kept ∈ engine.kept, language.compile kept.expression = .ok kept.program.query
  numbered : ∀ kept ∈ engine.kept, kept.program.number < engine.compiled

/-- Nothing is kept in the beginning. -/
theorem faithful_empty (capacity : Nat) : (empty capacity : Engine language).Faithful where
  fits := Nat.zero_le _
  distinct := List.nodup_nil
  compiled := by simp [empty]
  numbered := by simp [empty]

namespace Faithful

variable {engine : Engine language} (h : engine.Faithful)

include h

/-- The order of the programs does not matter. -/
theorem of_perm {kept : List (Kept language)} (hperm : kept.Perm engine.kept) :
    { engine with kept }.Faithful where
  fits := hperm.length_eq ▸ h.fits
  distinct := (hperm.map Kept.expression).nodup_iff.mpr h.distinct
  compiled := fun other hother => h.compiled other (hperm.mem_iff.mp hother)
  numbered := fun other hother => h.numbered other (hperm.mem_iff.mp hother)

/-- The program of a new text can be added. -/
theorem keep {expression : String} {query : language.Compiled}
    (habsent : ∀ kept ∈ engine.kept, kept.expression ≠ expression)
    (hquery : language.compile expression = .ok query) (hcapacity : engine.capacity ≠ 0) :
    (engine.keep ⟨expression, engine.compiled, query⟩).Faithful := by
  have hmem : ∀ {other} {count : Nat}, other ∈ engine.kept.drop count → other ∈ engine.kept :=
    fun hother => List.mem_of_mem_drop hother
  constructor
  · have hfits := h.fits
    simp only [Engine.keep, List.length_append, List.length_drop, List.length_singleton]
    omega
  · simp only [Engine.keep, List.map_append, List.map_cons, List.map_nil]
    refine List.nodup_append.mpr ⟨?_, List.nodup_singleton _, ?_⟩
    · exact h.distinct.sublist ((List.drop_sublist _ _).map _)
    · rintro _ hother _ hnew rfl
      obtain ⟨other, hdropped, hother⟩ := List.mem_map.mp hother
      exact habsent other (hmem hdropped) (hother.trans (List.mem_singleton.mp hnew))
  · intro other hother
    rcases List.mem_append.mp hother with hold | hnew
    · exact h.compiled other (hmem hold)
    · rw [List.mem_singleton.mp hnew]
      exact hquery
  · intro other hother
    rcases List.mem_append.mp hother with hold | hnew
    · exact Nat.lt_succ_of_lt (h.numbered other (hmem hold))
    · rw [List.mem_singleton.mp hnew]
      exact Nat.lt_succ_self _

/-- Compiling a text keeps an engine faithful. -/
theorem compile (expression : String) : (engine.compile expression).engine.Faithful := by
  rcases engine.compile_cases expression with ⟨older, kept, newer, hkept, -, heq⟩ |
    ⟨habsent, ⟨_, -, heq⟩ | ⟨_, -, -, heq⟩ | ⟨query, hquery, hcapacity, heq⟩⟩
  · rw [heq]
    apply h.of_perm
    rw [hkept, List.append_assoc]
    exact (List.perm_append_singleton kept newer).append_left older
  · rw [heq]
    exact h
  · rw [heq]
    exact h
  · rw [heq]
    exact h.keep habsent hquery hcapacity

/-- Every call keeps an engine faithful. -/
theorem serve (call : Call) : (engine.serve call).Faithful := by
  cases hneeded : call.expression? with
  | none => rwa [serve_of_expression?_eq_none hneeded]
  | some expression =>
    rw [serve_of_expression? hneeded]
    exact h.compile expression

/-- Any calls keep an engine faithful. -/
theorem after (calls : List Call) : (engine.after calls).Faithful := by
  induction calls generalizing engine with
  | nil => exact h
  | cons call calls ih => exact ih (h.serve call)

/-! ## Results -/

/-- A text that is no query is compiled in vain, and nothing changes. -/
theorem compile_of_error {expression complaint : String}
    (hcomplaint : language.compile expression = .error complaint) :
    engine.compile expression =
      { outcome := .error (.query (.badExpression complaint)), engine
        notices := [.compiling expression] } := by
  rcases engine.compile_cases expression with ⟨older, kept, newer, hkept, hexpression, -⟩ |
    ⟨-, ⟨other, hother, heq⟩ | ⟨query, hquery, -, -⟩ | ⟨query, hquery, -, -⟩⟩
  · have hwrites := h.compiled kept (by simp [hkept])
    rw [hexpression, hcomplaint] at hwrites
    cases hwrites
  · rw [hcomplaint] at hother
    rw [heq, Except.error.inj hother]
  · rw [hcomplaint] at hquery
    cases hquery
  · rw [hcomplaint] at hquery
    cases hquery

/-- A text that is a query has a program as long as there is room for one, and its program is the
query that the text writes. -/
theorem exists_program {expression : String} {query : language.Compiled}
    (hquery : language.compile expression = .ok query) (hcapacity : engine.capacity ≠ 0) :
    ∃ number, (engine.compile expression).outcome = .ok ⟨number, query⟩ := by
  rcases engine.compile_cases expression with ⟨older, kept, newer, hkept, hexpression, heq⟩ |
    ⟨-, ⟨_, hcomplaint, -⟩ | ⟨_, -, hfull, -⟩ | ⟨other, hother, -, heq⟩⟩
  · have hwrites := h.compiled kept (by simp [hkept])
    rw [hexpression, hquery] at hwrites
    exact ⟨kept.program.number, by rw [heq, Except.ok.inj hwrites]⟩
  · rw [hquery] at hcomplaint
    cases hcomplaint
  · exact absurd hfull hcapacity
  · rw [hquery] at hother
    exact ⟨engine.compiled, by rw [heq, Except.ok.inj hother]⟩

/-- What is kept makes no difference to the outputs of a text on a value. -/
theorem outcome_run (hcapacity : engine.capacity ≠ 0) (expression : String) (value : Json) :
    (engine.run expression value).outcome =
      (language.outputs expression value).mapError .query := by
  rw [run, QueryLanguage.outputs]
  cases hcompile : language.compile expression with
  | error complaint =>
    rw [h.compile_of_error hcompile]
    rfl
  | ok query =>
    obtain ⟨number, houtcome⟩ := h.exists_program hcompile hcapacity
    simp only [houtcome]
    rfl

/-- What is kept makes no difference to the printed outputs of a text on a document. -/
theorem outcome_execute (hcapacity : engine.capacity ≠ 0) (expression : String)
    (document : Json.Source) :
    (engine.execute expression document).outcome =
      (language.printed expression document).mapError .query := by
  rw [execute, QueryLanguage.printed]
  cases document.read with
  | error fault => rfl
  | ok value =>
    dsimp only
    rw [h.outcome_run hcapacity]
    cases houtputs : language.outputs expression value with
    | error fault => simp only [Except.mapError, Except.map, bind, Except.bind, houtputs]
    | ok outputs => simp only [Except.mapError, Except.map, bind, Except.bind, houtputs]

end Faithful

end Engine

end Projector
