import Projector.Proofs.Scanning

/-!
# Query texts are parsed as they were meant

The tokens of a query that is written without brackets are parsed as this query: a term takes its
steps, a product its factors, and a pipe all that follows, up to a token that ends it. With the
scanner this makes the text of every such query read back as the query.
-/

namespace Projector.Query

/-- A rule takes a part and leaves the rest. -/
def Takes {α : Type} {text : List Token} (result : Option (Taken α text)) (part : α)
    (rest : List Token) : Prop :=
  ∃ hshorter, result = some ⟨(part, rest), hshorter⟩

/-- Tokens that go on with no step. -/
def Closes (rest : List Token) : Prop :=
  ∀ token ∈ rest.head?, token ∈ [Token.star, .bar, .closeList, .closeObject, .comma]

/-- Tokens that go on with no pipe. -/
def Ends (rest : List Token) : Prop :=
  ∀ token ∈ rest.head?, token ∈ [Token.closeList, .closeObject, .comma]

/-- Tokens that go on with no pipe go on with no step. -/
theorem Ends.closes {rest : List Token} (h : Ends rest) : Closes rest := by
  intro token htoken
  exact List.mem_cons_of_mem _ (List.mem_cons_of_mem _ (h token htoken))

/-! ## Steps -/

/-- The tokens of a step are taken as the step. -/
theorem takeSteps_stepTokens (base : Query) (segment : Segment) (rest : List Token) :
    (takeSteps base (stepTokens segment ++ rest)).val =
      (takeSteps (.step base segment) rest).val := by
  cases segment with
  | each => rw [stepTokens, List.cons_append, List.cons_append, List.nil_append, takeSteps.eq_3]
  | field name =>
    by_cases hbare : Text.isBare name = true
    · rw [stepTokens, if_pos hbare, List.singleton_append, takeSteps.eq_1]
    · rw [stepTokens, if_neg hbare, List.cons_append, List.singleton_append, takeSteps.eq_2]

/-- Where no step follows none is taken. -/
theorem takeSteps_of_closes (base : Query) {rest : List Token} (h : Closes rest) :
    (takeSteps base rest).val = (base, rest) := by
  have hnot : ∀ token more, rest = token :: more →
      token ∈ [Token.star, .bar, .closeList, .closeObject, .comma] := by
    rintro token more rfl
    exact h token rfl
  rw [takeSteps.eq_4]
  · rintro name more rfl
    simpa using hnot _ _ rfl
  · rintro name more rfl
    simpa using hnot _ _ rfl
  · rintro more rfl
    simpa using hnot _ _ rfl

/-- Behind the tokens of a term its steps are taken. -/
def TermTaken (query : Query) : Prop :=
  ∀ rest, (query = .input → ∀ name more, rest ≠ .literal name :: more) →
    Takes (takeTerm (tokens query ++ rest)) (takeSteps query rest).val.1
      (takeSteps query rest).val.2

/-- A term in front of no step is taken alone. -/
theorem TermTaken.takes {query : Query} (h : TermTaken query) {rest : List Token}
    (hrest : Closes rest) : Takes (takeTerm (tokens query ++ rest)) query rest := by
  have hterm := h rest (by
    rintro - name more rfl
    simpa using hrest (.literal name) rfl)
  rwa [takeSteps_of_closes query hrest] at hterm

/-- A step is taken behind a term. -/
theorem TermTaken.step {base : Query} (h : TermTaken base) (segment : Segment) :
    TermTaken (.step base segment) := by
  intro rest _
  have hbehind : tokens (.step base segment) = tokens base ++ stepTokens segment →
      (base = .input → ∀ name more, stepTokens segment ++ rest ≠ .literal name :: more) →
      Takes (takeTerm (tokens (.step base segment) ++ rest))
        (takeSteps (.step base segment) rest).val.1
        (takeSteps (.step base segment) rest).val.2 := by
    intro htokens hstart
    have hterm := h (stepTokens segment ++ rest) hstart
    rwa [takeSteps_stepTokens, ← List.append_assoc, ← htokens] at hterm
  by_cases hinput : base = .input
  · subst hinput
    cases segment with
    | each => exact hbehind rfl (by simp [stepTokens])
    | field name =>
      -- The dot in front of the name belongs to the step, so no identity is taken first.
      have htokens : tokens (.step .input (.field name)) = stepTokens (.field name) := rfl
      rw [htokens]
      by_cases hbare : Text.isBare name = true
      · rw [stepTokens, if_pos hbare, List.singleton_append, takeTerm.eq_3]
        exact ⟨_, rfl⟩
      · rw [stepTokens, if_neg hbare, List.cons_append, List.singleton_append, takeTerm.eq_1]
        exact ⟨_, rfl⟩
  · exact hbehind (tokens_step hinput segment) fun heq => absurd heq hinput

/-! ## Entries -/

/-- A key and its colon are taken. -/
theorem takeKey_keyToken (key : String) (rest : List Token) :
    Takes (takeKey (keyToken key :: .colon :: rest)) key rest := by
  by_cases hbare : Text.isBare key = true
  · rw [keyToken, if_pos hbare]
    exact ⟨_, rfl⟩
  · rw [keyToken, if_neg hbare]
    exact ⟨_, rfl⟩

/-- The entries of an object construction are taken with its closing brace. -/
theorem takeEntries_entryTokens {entries : List (String × Query)} (hne : entries ≠ [])
    (h : ∀ entry ∈ entries, TermTaken entry.2) (rest : List Token) :
    Takes (takeEntries (entryTokens entries ++ .closeObject :: rest)) entries rest := by
  induction entries with
  | nil => exact absurd rfl hne
  | cons entry entries ih =>
    obtain ⟨key, value⟩ := entry
    have hvalue : TermTaken value := h _ List.mem_cons_self
    cases entries with
    | nil =>
      rw [entryTokens, List.cons_append, List.cons_append]
      obtain ⟨_, hkey⟩ := takeKey_keyToken key (tokens value ++ .closeObject :: rest)
      have hcloses : Closes (.closeObject :: rest) := by simp [Closes]
      obtain ⟨_, hterm⟩ := hvalue.takes hcloses
      rw [takeEntries.eq_1, hkey, Option.bind_eq_bind, Option.bind_some]
      dsimp only
      rw [hterm]
      exact ⟨_, rfl⟩
    | cons other entries =>
      have hothers := ih (by simp) fun entry hentry => h entry (List.mem_cons_of_mem _ hentry)
      have htokens : entryTokens ((key, value) :: other :: entries) ++ .closeObject :: rest =
          keyToken key :: .colon :: (tokens value ++ .comma ::
            (entryTokens (other :: entries) ++ .closeObject :: rest)) := by
        simp [entryTokens]
      obtain ⟨_, hkey⟩ := takeKey_keyToken key (tokens value ++ .comma ::
        (entryTokens (other :: entries) ++ .closeObject :: rest))
      have hcloses : Closes (.comma ::
          (entryTokens (other :: entries) ++ .closeObject :: rest)) := by
        simp [Closes]
      obtain ⟨_, hterm⟩ := hvalue.takes hcloses
      obtain ⟨_, hothers⟩ := hothers
      rw [htokens, takeEntries.eq_1, hkey, Option.bind_eq_bind, Option.bind_some]
      dsimp only
      rw [hterm, Option.bind_eq_bind, Option.bind_some]
      dsimp only
      rw [hothers]
      exact ⟨_, rfl⟩

/-- An object construction of terms is taken. -/
theorem termTaken_object {entries : List (String × Query)}
    (h : ∀ entry ∈ entries, TermTaken entry.2) : TermTaken (.object entries) := by
  intro rest _
  have htokens : tokens (.object entries) ++ rest =
      .openObject :: (entryTokens entries ++ .closeObject :: rest) := by
    simp [tokens]
  rw [htokens]
  by_cases hne : entries = []
  · subst hne
    rw [entryTokens, List.nil_append, takeTerm.eq_6]
    exact ⟨_, rfl⟩
  · have hopen : ∀ more, entryTokens entries ++ .closeObject :: rest ≠ .closeObject :: more := by
      intro more heq
      obtain ⟨⟨key, value⟩, others, rfl⟩ := List.exists_cons_of_ne_nil hne
      by_cases hbare : Text.isBare key = true <;>
        cases others <;> simp [entryTokens, keyToken, hbare] at heq
    obtain ⟨_, hentries⟩ := takeEntries_entryTokens hne h rest
    rw [takeTerm.eq_7 _ hopen, hentries]
    exact ⟨_, rfl⟩

/-! ## Products and pipes -/

/-- Behind the tokens of a product its factors are taken. -/
def ProductTaken (query : Query) : Prop :=
  ∀ rest part last, Closes rest →
    (∃ hshorter, takeFactors query rest = some ⟨(part, last), hshorter⟩) →
    Takes (takeProduct (tokens query ++ rest)) part last

/-- A term is a product. -/
theorem TermTaken.product {query : Query} (h : TermTaken query) : ProductTaken query := by
  rintro rest part last hrest ⟨_, hfactors⟩
  obtain ⟨_, hterm⟩ := h.takes hrest
  rw [takeProduct.eq_1, hterm, Option.bind_eq_bind, Option.bind_some]
  dsimp only
  rw [hfactors]
  exact ⟨_, rfl⟩

/-- A product is taken with one more factor. -/
theorem ProductTaken.times {left right : Query} (h : ProductTaken left) (h' : TermTaken right) :
    ProductTaken (.times left right) := by
  rintro rest part last hrest ⟨_, hfactors⟩
  have htokens : tokens (.times left right) ++ rest =
      tokens left ++ .star :: (tokens right ++ rest) := by
    simp [tokens]
  obtain ⟨_, hterm⟩ := h'.takes hrest
  rw [htokens]
  refine h _ part last (by simp [Closes]) ?_
  rw [takeFactors.eq_1, hterm, Option.bind_eq_bind, Option.bind_some]
  dsimp only
  rw [hfactors]
  exact ⟨_, rfl⟩

/-- A product in front of no factor is taken alone. -/
theorem ProductTaken.takes {query : Query} (h : ProductTaken query) {rest : List Token}
    (hrest : Closes rest) (hstar : ∀ more, rest ≠ .star :: more) :
    Takes (takeProduct (tokens query ++ rest)) query rest :=
  h rest query rest hrest ⟨Nat.le_refl _, takeFactors.eq_2 query rest hstar⟩

/-- The tokens of a pipe are taken as the pipe. -/
def PipeTaken (query : Query) : Prop :=
  ∀ rest, Ends rest → Takes (takePipe (tokens query ++ rest)) query rest

/-- No variable is bound in front of a product. -/
def Unbinding (query : Query) : Prop :=
  ∀ rest word more, (∀ word more, rest ≠ .name word :: more) →
    tokens query ++ rest ≠ .dot :: .name word :: more

/-- Tokens that go on with no pipe go on with no factor, no pipe and no name. -/
theorem Ends.not_cons {rest : List Token} (h : Ends rest) :
    (∀ more, rest ≠ .star :: more) ∧ (∀ more, rest ≠ .bar :: more) ∧
      ∀ word more, rest ≠ .name word :: more := by
  refine ⟨?_, ?_, ?_⟩
  · rintro more rfl
    simpa using h .star rfl
  · rintro more rfl
    simpa using h .bar rfl
  · rintro word more rfl
    simpa using h (.name word) rfl

/-- A product is a pipe. -/
theorem ProductTaken.pipe {query : Query} (h : ProductTaken query) (hbinding : Unbinding query) :
    PipeTaken query := by
  intro rest hrest
  obtain ⟨hstar, hbar, hname⟩ := hrest.not_cons
  obtain ⟨_, hproduct⟩ := h.takes hrest.closes hstar
  rw [takePipe.eq_2 _ fun word name more heq => hbinding rest word _ hname heq, hproduct,
    Option.bind_eq_bind, Option.bind_some]
  cases rest with
  | nil => exact ⟨_, rfl⟩
  | cons token more =>
    cases token with
    | bar => exact absurd rfl (hbar more)
    | _ => exact ⟨_, rfl⟩

/-- A pipe is taken behind a product. -/
theorem ProductTaken.then {first next : Query} (h : ProductTaken first)
    (hbinding : Unbinding first) (h' : PipeTaken next) : PipeTaken (.pipe first next) := by
  intro rest hrest
  have htokens : tokens (.pipe first next) ++ rest =
      tokens first ++ .bar :: (tokens next ++ rest) := by
    simp [tokens]
  have hcloses : Closes (.bar :: (tokens next ++ rest)) := by simp [Closes]
  obtain ⟨_, hproduct⟩ := h.takes hcloses (by simp)
  obtain ⟨_, hnext⟩ := h' rest hrest
  rw [htokens, takePipe.eq_2 _ fun word name more heq => hbinding _ word _ (by simp) heq, hproduct,
    Option.bind_eq_bind, Option.bind_some]
  dsimp only
  rw [hnext]
  exact ⟨_, rfl⟩

/-- A binding is taken in front of a pipe. -/
theorem PipeTaken.bind {name : String} {body : Query} (h : PipeTaken body)
    (hfree : name ≠ reservedVariable) : PipeTaken (.bind name body) := by
  intro rest hrest
  obtain ⟨_, hbody⟩ := h rest hrest
  rw [tokens]
  simp only [List.cons_append]
  rw [takePipe.eq_1, if_pos ⟨rfl, hfree⟩, hbody]
  exact ⟨_, rfl⟩

/-! ## Whole texts -/

/-- No variable is bound in front of a step. -/
theorem Unbinding.step {base : Query} (h : Unbinding base) (segment : Segment) :
    Unbinding (.step base segment) := by
  intro rest word more hname
  by_cases hfield : base = .input ∧ segment ≠ .each
  · obtain ⟨rfl, heach⟩ := hfield
    cases segment with
    | each => exact absurd rfl heach
    | field name =>
      have htokens : tokens (.step .input (.field name)) = stepTokens (.field name) := rfl
      rw [htokens]
      by_cases hbare : Text.isBare name = true <;> simp [stepTokens, hbare]
  · have htokens : tokens (.step base segment) = tokens base ++ stepTokens segment := by
      by_cases hinput : base = .input
      · subst hinput
        cases segment with
        | each => rfl
        | field name => exact absurd ⟨rfl, by simp⟩ hfield
      · exact tokens_step hinput segment
    rw [htokens, List.append_assoc]
    refine h _ word more fun word more => ?_
    cases segment with
    | each => simp [stepTokens]
    | field name => by_cases hbare : Text.isBare name = true <;> simp [stepTokens, hbare]

/-- What the rules take of a query, by how loosely it binds. -/
def TakenAt : Level → Query → Prop
  | .term, query => TermTaken query ∧ Unbinding query
  | .product, query => ProductTaken query ∧ Unbinding query
  | .pipe, query => PipeTaken query

/-- Queries that are written without brackets are taken as they were meant. -/
theorem takenAt_of_fits {level : Level} {query : Query} (h : Fits level query) :
    TakenAt level query := by
  induction h with
  | input =>
    refine ⟨fun rest hrest => ?_, fun rest word more hname heq => ?_⟩
    · have hstart := hrest rfl
      rw [tokens, List.singleton_append, takeTerm.eq_2 _ hstart]
      exact ⟨_, rfl⟩
    · exact hname word more (List.cons.inj heq).2
  | @var name hname =>
    refine ⟨fun rest _ => ?_, fun rest word more _ heq => ?_⟩
    · rw [tokens, List.singleton_append, takeTerm.eq_4]
      exact ⟨_, rfl⟩
    · simp [tokens] at heq
  | step segment hbase ih => exact ⟨ih.1.step segment, ih.2.step segment⟩
  | @collect body hbody ih =>
    refine ⟨fun rest _ => ?_, fun rest word more _ heq => ?_⟩
    · have htokens : tokens (.collect body) ++ rest =
          .openList :: (tokens body ++ .closeList :: rest) := by
        simp [tokens]
      obtain ⟨_, hpipe⟩ := ih (.closeList :: rest) (by simp [Ends])
      rw [htokens, takeTerm.eq_5, hpipe]
      exact ⟨_, rfl⟩
    · simp [tokens] at heq
  | @object entries hentries ih =>
    refine ⟨termTaken_object fun entry hentry => (ih entry hentry).1,
      fun rest word more _ heq => ?_⟩
    simp [tokens] at heq
  | term hquery ih => exact ⟨ih.1.product, ih.2⟩
  | @times left right hleft hright ihleft ihright =>
    refine ⟨ihleft.1.times ihright.1, fun rest word more hname heq => ?_⟩
    have htokens : tokens (.times left right) ++ rest =
        tokens left ++ .star :: (tokens right ++ rest) := by
      simp [tokens]
    rw [htokens] at heq
    exact ihleft.2 _ word more (by simp) heq
  | product hquery ih => exact ih.1.pipe ih.2
  | pipe hfirst hnext ihfirst ihnext => exact ihfirst.1.then ihfirst.2 ihnext
  | bind hname hfree hbody ih => exact ih.bind hfree

/-- The text of a query that is written without brackets is read as the query. -/
theorem parse_render {query : Query} (h : Fits .pipe query) :
    parse query.render = some query := by
  have hscan := scan_render h [] (by simp [Follows])
  have hempty : scan [] = some [] := by rw [scan]
  rw [List.append_nil, hempty, Option.map_some, List.append_nil] at hscan
  have htaken : PipeTaken query := takenAt_of_fits h
  have hwhole := htaken [] (by simp [Ends])
  rw [List.append_nil] at hwhole
  obtain ⟨_, hpipe⟩ := hwhole
  rw [parse, hscan, Option.bind_eq_bind, Option.bind_some, hpipe]
  rfl

/-- Different queries that are written without brackets have different texts. -/
theorem render_inj {query other : Query} (h : Fits .pipe query) (hother : Fits .pipe other)
    (heq : query.render = other.render) : query = other := by
  have hparse := parse_render h
  rw [heq, parse_render hother] at hparse
  exact (Option.some.inj hparse).symm

/-- The text of a query that binds the reserved variable is not read. -/
theorem parse_render_reserved {body : Query} (h : Fits .pipe body) :
    parse (render (.bind reservedVariable body)) = none := by
  have hscan := (scan_render h).bind (by decide : Text.isIdentifier reservedVariable = true) []
    (by simp [Follows])
  have hempty : scan [] = some [] := by rw [scan]
  rw [List.append_nil, hempty, Option.map_some, List.append_nil] at hscan
  rw [parse, hscan, Option.bind_eq_bind, Option.bind_some, tokens, takePipe.eq_1,
    if_neg fun h => h.2 rfl]
  rfl

/-- The text of a closed query that is written without brackets compiles to the query. -/
theorem compile_render {query : Query} (h : Fits .pipe query) (hclosed : query.isClosed [] = true) :
    compile query.render = some query := by
  rw [compile, parse_render h, Option.bind_eq_bind, Option.bind_some, if_pos hclosed]

end Projector.Query
