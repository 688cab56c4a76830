import Mathlib.Data.Finset.Card
import Projector.Proofs.KeptPrograms

/-!
# Reachable engines

Keeping programs is only a matter of speed. Whatever an engine with room for at least one program
was asked for, it answers every text as an engine would that has just been made, and a text that is
no query leaves it as it was. What it keeps it keeps long enough: the program of a text is found
again while fewer other texts than there is room for were used after it. The reason is that only
programs that were used later stand behind it, each for a text of its own, and programs are given up
from the front.
-/

namespace Projector.Engine

variable {language : QueryLanguage}

/-- Any calls leave the room for programs as it is. -/
@[simp] theorem capacity_after (engine : Engine language) (calls : List Call) :
    (engine.after calls).capacity = engine.capacity := by
  induction calls generalizing engine with
  | nil => rfl
  | cons call calls ih =>
    rw [after_cons, ih]
    cases hneeded : call.expression? with
    | none => rw [serve_of_expression?_eq_none hneeded]
    | some expression => rw [serve_of_expression? hneeded, capacity_compile]

/-- No calls take back the count of programs. -/
theorem compiled_le_after (engine : Engine language) (calls : List Call) :
    engine.compiled ≤ (engine.after calls).compiled := by
  induction calls generalizing engine with
  | nil => exact Nat.le_refl _
  | cons call calls ih =>
    refine Nat.le_trans ?_ (ih (engine.serve call))
    cases hneeded : call.expression? with
    | none => rw [serve_of_expression?_eq_none hneeded]
    | some expression =>
      rw [serve_of_expression? hneeded]
      exact engine.compiled_le_compile expression

/-! ## Programs that stay -/

/-- A program is kept, and those that were used after it are the programs of some texts. -/
def Remembers (engine : Engine language) (kept : Kept language) (texts : Finset String) : Prop :=
  ∃ older newer, engine.kept = older ++ kept :: newer ∧ ∀ other ∈ newer, other.expression ∈ texts

/-- The program that was compiled or found last is remembered, and none was used after it. -/
theorem remembers_compile {engine : Engine language} {expression : String}
    {program : Program language} (h : (engine.compile expression).outcome = .ok program) :
    (engine.compile expression).engine.Remembers ⟨expression, program⟩ ∅ := by
  rcases engine.compile_cases expression with ⟨older, kept, newer, -, hexpression, heq⟩ |
    ⟨-, ⟨_, -, heq⟩ | ⟨_, -, -, heq⟩ | ⟨query, -, -, heq⟩⟩
  · rw [heq] at h ⊢
    obtain rfl := Except.ok.inj h
    exact ⟨older ++ newer, [], by rw [← hexpression], by simp⟩
  · rw [heq] at h
    cases h
  · rw [heq] at h
    cases h
  · rw [heq] at h ⊢
    obtain rfl := Except.ok.inj h
    exact ⟨_, [], rfl, by simp⟩

namespace Faithful

variable {engine : Engine language} (h : engine.Faithful)

include h

/-- A call that uses no program leaves an engine as it was. -/
theorem serve_of_used?_eq_none {call : Call} (hunused : call.used? language = none) :
    engine.serve call = engine := by
  cases hneeded : call.expression? with
  | none => exact serve_of_expression?_eq_none hneeded engine
  | some expression =>
    cases hcompile : language.compile expression with
    | error complaint => rw [serve_of_expression? hneeded, h.compile_of_error hcompile]
    | ok query =>
      have hused := Call.used?_eq_some_iff.mpr ⟨hneeded, query, hcompile⟩
      rw [hunused] at hused
      cases hused

/-- A program that is kept is found under its text. -/
theorem compile_of_mem {kept : Kept language} (hkept : kept ∈ engine.kept) :
    (engine.compile kept.expression).outcome = .ok kept.program ∧
      (engine.compile kept.expression).notices = [] := by
  rcases engine.compile_cases kept.expression with ⟨older, found, newer, hfound, hsame, heq⟩ |
    ⟨habsent, -⟩
  · have hmem : found ∈ engine.kept := by simp [hfound]
    obtain rfl := List.inj_on_of_nodup_map h.distinct hmem hkept hsame
    rw [heq]
    exact ⟨rfl, rfl⟩
  · exact absurd rfl (habsent kept hkept)

/-- The programs behind a program, and one that is not kept, are those of different texts, none of
which is the text of that program. -/
theorem length_newer_lt {kept : Kept language} {older newer : List (Kept language)}
    {texts : Finset String} {expression : String} (hkept : engine.kept = older ++ kept :: newer)
    (hnewer : ∀ other ∈ newer, other.expression ∈ texts)
    (habsent : ∀ kept ∈ engine.kept, kept.expression ≠ expression) :
    newer.length < ((insert expression texts).erase kept.expression).card := by
  have hdistinct : (kept.expression :: newer.map Kept.expression).Nodup := by
    have hall := h.distinct
    rw [hkept, List.map_append, List.map_cons] at hall
    exact hall.of_append_right
  obtain ⟨hself, hrest⟩ := List.nodup_cons.mp hdistinct
  have hnew : expression ∉ newer.map Kept.expression := by
    intro hmem
    obtain ⟨other, hother, hsame⟩ := List.mem_map.mp hmem
    exact habsent other (by simp [hkept, hother]) hsame
  have hsubset : (expression :: newer.map Kept.expression).toFinset ⊆
      (insert expression texts).erase kept.expression := by
    intro text htext
    rw [List.mem_toFinset, List.mem_cons] at htext
    rw [Finset.mem_erase, Finset.mem_insert]
    rcases htext with rfl | htext
    · exact ⟨fun hsame => habsent kept (by simp [hkept]) hsame.symm, .inl rfl⟩
    · refine ⟨fun hsame => hself (hsame ▸ htext), .inr ?_⟩
      obtain ⟨other, hother, rfl⟩ := List.mem_map.mp htext
      exact hnewer other hother
  have hcard := Finset.card_le_card hsubset
  rw [List.toFinset_card_of_nodup (List.nodup_cons.mpr ⟨hnew, hrest⟩), List.length_cons,
    List.length_map] at hcard
  omega

end Faithful

namespace Remembers

variable {engine : Engine language} {kept : Kept language} {texts : Finset String}

/-- A program that is remembered is kept. -/
theorem mem (h : engine.Remembers kept texts) : kept ∈ engine.kept := by
  obtain ⟨older, newer, hkept, -⟩ := h
  simp [hkept]

/-- When another program becomes the most recent one, the programs before and behind a program
change by that program at most. -/
theorem of_found (h : engine.Remembers kept texts) {older newer : List (Kept language)}
    {found : Kept language} (hfound : engine.kept = older ++ found :: newer) :
    { engine with kept := older ++ newer ++ [found] }.Remembers kept
      (insert found.expression texts) := by
  obtain ⟨before, behind, hkept, hbehind⟩ := h
  have hgrown : ∀ {others : List (Kept language)}, (∀ other ∈ others, other ∈ behind) →
      ∀ other ∈ others ++ [found], other.expression ∈ insert found.expression texts := by
    intro others hothers other hother
    rcases List.mem_append.mp hother with hold | hnew
    · exact Finset.mem_insert_of_mem (hbehind other (hothers other hold))
    · rw [List.mem_singleton.mp hnew]
      exact Finset.mem_insert_self _ _
  -- The program found is in front of the remembered one, or it is that one, or it is behind it.
  rcases List.append_eq_append_iff.mp (hkept.symm.trans hfound) with
    ⟨middle, rfl, hmiddle⟩ | ⟨middle, rfl, hmiddle⟩
  · rcases List.cons_eq_append_iff.mp hmiddle with ⟨rfl, hsame⟩ | ⟨between, rfl, rfl⟩
    · obtain ⟨rfl, rfl⟩ := List.cons.inj hsame
      exact ⟨before ++ [] ++ newer, [], rfl, by simp⟩
    · refine ⟨before, between ++ newer ++ [found], by simp, hgrown fun other hother => ?_⟩
      rw [List.mem_append] at hother
      rw [List.mem_append, List.mem_cons]
      tauto
  · rcases List.cons_eq_append_iff.mp hmiddle with ⟨rfl, hsame⟩ | ⟨between, rfl, rfl⟩
    · obtain ⟨rfl, rfl⟩ := List.cons.inj hsame
      exact ⟨older ++ behind, [], rfl, by simp⟩
    · exact ⟨older ++ between, behind ++ [found], by simp, hgrown fun _ hother => hother⟩

/-- A program stays remembered when another one is compiled or found, as long as there is room for
it and all programs used after it. -/
theorem compile (h : engine.Remembers kept texts) (hfaithful : engine.Faithful)
    {expression : String}
    (hroom : ((insert expression texts).erase kept.expression).card < engine.capacity) :
    (engine.compile expression).engine.Remembers kept (insert expression texts) := by
  have hsame : engine.Remembers kept (insert expression texts) := by
    obtain ⟨older, newer, hkept, hnewer⟩ := h
    exact ⟨older, newer, hkept, fun other hother => Finset.mem_insert_of_mem (hnewer other hother)⟩
  rcases engine.compile_cases expression with ⟨older, found, newer, hfound, rfl, heq⟩ |
    ⟨habsent, ⟨_, -, heq⟩ | ⟨_, -, -, heq⟩ | ⟨query, -, -, heq⟩⟩
  · rw [heq]
    exact h.of_found hfound
  · rw [heq]
    exact hsame
  · rw [heq]
    exact hsame
  · rw [heq]
    obtain ⟨older, newer, hkept, hnewer⟩ := h
    have hlength := hfaithful.length_newer_lt hkept hnewer habsent
    have hsurplus : engine.kept.length + 1 - engine.capacity ≤ older.length := by
      simp only [hkept, List.length_append, List.length_cons]
      omega
    refine ⟨older.drop (engine.kept.length + 1 - engine.capacity),
      newer ++ [⟨expression, engine.compiled, query⟩], ?_, ?_⟩
    · simp only [keep]
      rw [hkept] at hsurplus ⊢
      rw [List.drop_append_of_le_length hsurplus, List.append_assoc, List.cons_append]
    · intro other hother
      rcases List.mem_append.mp hother with hold | hnew
      · exact Finset.mem_insert_of_mem (hnewer other hold)
      · rw [List.mem_singleton.mp hnew]
        exact Finset.mem_insert_self _ _

/-- A program stays remembered as long as fewer other texts are used than there is room for. -/
theorem after (h : engine.Remembers kept texts) (hfaithful : engine.Faithful) {later : List Call}
    (hroom : ((texts ∪ (later.filterMap (Call.used? language)).toFinset).erase
      kept.expression).card < engine.capacity) :
    (engine.after later).Remembers kept
      (texts ∪ (later.filterMap (Call.used? language)).toFinset) := by
  induction later generalizing engine texts with
  | nil => simpa using h
  | cons call later ih =>
    rw [after_cons]
    cases hused : call.used? language with
    | none =>
      rw [hfaithful.serve_of_used?_eq_none hused]
      rw [List.filterMap_cons_none hused] at hroom ⊢
      exact ih h hfaithful hroom
    | some expression =>
      obtain ⟨hneeded, -⟩ := Call.used?_eq_some_iff.mp hused
      have htexts : texts ∪ ((call :: later).filterMap (Call.used? language)).toFinset =
          insert expression texts ∪ (later.filterMap (Call.used? language)).toFinset := by
        rw [List.filterMap_cons_some hused, List.toFinset_cons, Finset.union_insert,
          Finset.insert_union]
      rw [htexts] at hroom ⊢
      rw [serve_of_expression? hneeded]
      have hfirst : ((insert expression texts).erase kept.expression).card < engine.capacity :=
        Nat.lt_of_le_of_lt
          (Finset.card_le_card (Finset.erase_subset_erase _ Finset.subset_union_left)) hroom
      exact ih (h.compile hfaithful hfirst) (hfaithful.compile expression) (by simpa using hroom)

end Remembers

/-! ## Main result -/

/-- What an engine has for all purposes when nobody can tell what it was asked for before, except
by the programs that it need not compile again. -/
structure Transparent (engine : Engine language) : Prop where
  /-- Texts have the outputs on values that they have for an engine just made. -/
  run : ∀ expression value, (engine.run expression value).outcome =
    ((empty standardCapacity : Engine language).run expression value).outcome
  /-- Texts have the printed outputs on documents that they have for an engine just made. -/
  execute : ∀ expression document, (engine.execute expression document).outcome =
    ((empty standardCapacity : Engine language).execute expression document).outcome
  /-- There is room for all programs kept. -/
  size : engine.size ≤ engine.capacity
  /-- A call that finds and compiles no program changes nothing. -/
  unused : ∀ call, Call.used? language call = none → engine.serve call = engine
  /-- A text that cannot be compiled is compiled again every time, in vain and without effect. -/
  failed : ∀ expression fault, (engine.compile expression).outcome = .error fault →
    ∀ more, (engine.after more).compile expression =
      { outcome := .error fault, engine := engine.after more, notices := [.compiling expression] }
  /-- The program that a call uses is found as long as fewer other texts were used since than there
  is room for. -/
  found : ∀ call expression later, Call.used? language call = some expression →
    ((later.filterMap (Call.used? language)).toFinset.erase expression).card < engine.capacity →
    ∃ program, (engine.compile expression).outcome = .ok program ∧
      ((engine.after (call :: later)).compile expression).outcome = .ok program ∧
      ((engine.after (call :: later)).compile expression).notices = []
  /-- A program that is compiled anew has a number that no program used before has. -/
  renewed : ∀ call expression later program other again,
    Call.used? language call = some expression →
    (engine.compile expression).outcome = .ok program →
    ((engine.after (call :: later)).compile other).outcome = .ok again →
    ((engine.after (call :: later)).compile other).notices = [.compiling other] →
    program.number < again.number

namespace Faithful

variable {engine : Engine language} (h : engine.Faithful)

include h

/-- A text that cannot be compiled cannot be compiled later either. -/
theorem compile_after_of_error (hcapacity : engine.capacity ≠ 0) {expression : String}
    {fault : Fault} (hfault : (engine.compile expression).outcome = .error fault)
    (more : List Call) : (engine.after more).compile expression =
      { outcome := .error fault, engine := engine.after more
        notices := [.compiling expression] } := by
  cases hcompile : language.compile expression with
  | error complaint =>
    rw [h.compile_of_error hcompile] at hfault
    rw [(h.after more).compile_of_error hcompile, ← Except.error.inj hfault]
  | ok query =>
    obtain ⟨number, houtcome⟩ := h.exists_program hcompile hcapacity
    rw [houtcome] at hfault
    cases hfault

/-- The program of a text is found as long as fewer other texts were used after it than there is
room for. -/
theorem found_after (hcapacity : engine.capacity ≠ 0) {call : Call} {expression : String}
    {later : List Call} (hused : call.used? language = some expression)
    (hroom : ((later.filterMap (Call.used? language)).toFinset.erase expression).card <
      engine.capacity) :
    ∃ program, (engine.compile expression).outcome = .ok program ∧
      ((engine.after (call :: later)).compile expression).outcome = .ok program ∧
      ((engine.after (call :: later)).compile expression).notices = [] := by
  obtain ⟨hneeded, query, hquery⟩ := Call.used?_eq_some_iff.mp hused
  obtain ⟨number, houtcome⟩ := h.exists_program hquery hcapacity
  have hfaithful := h.compile expression
  have hremembered : ((engine.compile expression).engine.after later).Remembers
      ⟨expression, number, query⟩ (∅ ∪ (later.filterMap (Call.used? language)).toFinset) := by
    apply (remembers_compile houtcome).after hfaithful
    rwa [Finset.empty_union, capacity_compile]
  rw [after_cons, serve_of_expression? hneeded]
  exact ⟨_, houtcome, (hfaithful.after later).compile_of_mem hremembered.mem⟩

/-- Programs that are compiled have greater numbers than all programs used before. -/
theorem number_lt_after {call : Call} {expression other : String} {later : List Call}
    {program again : Program language} (hused : call.used? language = some expression)
    (hprogram : (engine.compile expression).outcome = .ok program)
    (hagain : ((engine.after (call :: later)).compile other).outcome = .ok again)
    (hnotices : ((engine.after (call :: later)).compile other).notices = [.compiling other]) :
    program.number < again.number := by
  obtain ⟨hneeded, -⟩ := Call.used?_eq_some_iff.mp hused
  rw [after_cons, serve_of_expression? hneeded] at hagain hnotices
  have hnumber : program.number < (engine.compile expression).engine.compiled :=
    (h.compile expression).numbered _ (remembers_compile hprogram).mem
  have hcount := (engine.compile expression).engine.compiled_le_after later
  rcases ((engine.compile expression).engine.after later).compile_cases other with
    ⟨_, _, _, -, -, heq⟩ | ⟨-, ⟨_, -, heq⟩ | ⟨_, -, -, heq⟩ | ⟨query, -, -, heq⟩⟩
  · rw [heq] at hnotices
    cases hnotices
  · rw [heq] at hagain
    cases hagain
  · rw [heq] at hagain
    cases hagain
  · rw [heq] at hagain
    obtain rfl := Except.ok.inj hagain
    exact Nat.lt_of_lt_of_le hnumber hcount

end Faithful

/-- Whatever an engine with room for a program was asked for, it shows no trace of it in what it
gives for a text; it keeps no more programs than there is room for; failures leave it alone; and it
finds the program of a text while fewer other texts than there is room for were used since. -/
theorem transparent_run {capacity : Nat} (hcapacity : 0 < capacity) (calls : List Call) :
    ((empty capacity : Engine language).after calls).capacity = capacity ∧
      ((empty capacity : Engine language).after calls).Transparent := by
  have hfresh : (empty standardCapacity : Engine language).Faithful := faithful_empty _
  have hroom : standardCapacity ≠ 0 := by decide
  have h := (faithful_empty capacity : (empty capacity : Engine language).Faithful).after calls
  have hkept : ((empty capacity : Engine language).after calls).capacity = capacity := by simp
  have hpositive : ((empty capacity : Engine language).after calls).capacity ≠ 0 := by omega
  refine ⟨hkept, ?_⟩
  constructor
  · intro expression value
    rw [h.outcome_run hpositive, hfresh.outcome_run hroom]
  · intro expression document
    rw [h.outcome_execute hpositive, hfresh.outcome_execute hroom]
  · exact h.fits
  · intro call hunused
    exact h.serve_of_used?_eq_none hunused
  · intro expression fault hfault more
    exact h.compile_after_of_error hpositive hfault more
  · intro call expression later hused hfew
    exact h.found_after hpositive hused hfew
  · intro call expression later program other again hused hprogram hagain hnotices
    exact h.number_lt_after hused hprogram hagain hnotices

/-- Calls of all kinds, with three texts that are queries, one that is not, and a document that
cannot be read. -/
def crowdingCalls : List Call :=
  [.compile ".a", .run ".b" (.obj []), .compile ".a.", .execute ".a" (.text "tru"),
    .execute ".c" (.text "null")]

/-- After them an engine with room for two programs answers as if it had just been made. -/
theorem transparent_run_crowding : 0 < 2 ∧
    ((empty 2 : Engine).after crowdingCalls).capacity = 2 ∧
      ((empty 2 : Engine).after crowdingCalls).Transparent :=
  ⟨by decide, transparent_run (by decide) crowdingCalls⟩

end Projector.Engine
