import Projector.Proofs.Addresses
import Projector.Query.Parser

/-!
# Query texts are scanned into their tokens

Every part of a query text is scanned into its own tokens, whatever follows that does not go on with
an identifier. Names of fields and keys are written bare or as literals, and both are read back as
the names. The tokens of a query are listed here as its text writes them.
-/

namespace Projector.Query

/-! ## Tokens of a query -/

/-- The tokens of a step. -/
def stepTokens : Segment → List Token
  | .field name => if Text.isBare name then [.field name] else [.dot, .literal name]
  | .each => [.openList, .closeList]

/-- The token of a key. -/
def keyToken (key : String) : Token := if Text.isBare key then .name key else .literal key

mutual

/-- The tokens of a query, in the order in which its text writes them. -/
def tokens : Query → List Token
  | .input => [.dot]
  | .var name => [.var name]
  | .step .input (.field name) => stepTokens (.field name)
  | .step base segment => tokens base ++ stepTokens segment
  | .collect body => .openList :: tokens body ++ [.closeList]
  | .object entries => .openObject :: entryTokens entries ++ [.closeObject]
  | .times left right => tokens left ++ .star :: tokens right
  | .pipe first next => tokens first ++ .bar :: tokens next
  | .bind name body => .dot :: .name bindingWord :: .var name :: .bar :: tokens body

/-- The tokens of the entries of an object construction. -/
def entryTokens : List (String × Query) → List Token
  | [] => []
  | [(key, value)] => keyToken key :: .colon :: tokens value
  | (key, value) :: rest => keyToken key :: .colon :: tokens value ++ .comma :: entryTokens rest

end

/-- How loosely a query binds. -/
inductive Level
  | term
  | product
  | pipe

/-- A query that can be written without brackets where something that binds so loosely can stand. -/
inductive Fits : Level → Query → Prop
  | input : Fits .term .input
  | var {name : String} (hname : Text.isIdentifier name = true) : Fits .term (.var name)
  | step {base : Query} (segment : Segment) (hbase : Fits .term base) :
    Fits .term (.step base segment)
  | collect {body : Query} (hbody : Fits .pipe body) : Fits .term (.collect body)
  | object {entries : List (String × Query)} (hentries : ∀ entry ∈ entries, Fits .term entry.2) :
    Fits .term (.object entries)
  | term {query : Query} (hquery : Fits .term query) : Fits .product query
  | times {left right : Query} (hleft : Fits .product left) (hright : Fits .term right) :
    Fits .product (.times left right)
  | product {query : Query} (hquery : Fits .product query) : Fits .pipe query
  | pipe {first next : Query} (hfirst : Fits .product first) (hnext : Fits .pipe next) :
    Fits .pipe (.pipe first next)
  | bind {name : String} {body : Query} (hname : Text.isIdentifier name = true)
    (hfree : name ≠ reservedVariable) (hbody : Fits .pipe body) : Fits .pipe (.bind name body)

/-- A step from a query other than the identity is written behind it. -/
theorem render_step {base : Query} (hbase : base ≠ .input) (segment : Segment) :
    render (.step base segment) = render base ++ segment.render := by
  rw [render]
  exact hbase

/-- The tokens of a step from a query other than the identity stand behind its tokens. -/
theorem tokens_step {base : Query} (hbase : base ≠ .input) (segment : Segment) :
    tokens (.step base segment) = tokens base ++ stepTokens segment := by
  rw [tokens]
  exact fun _ hinput _ => hbase hinput

/-! ## Single tokens -/

/-- A run of identifier characters is taken whole. -/
theorem takeIdentifier?_append {name : String} (hname : Text.isIdentifier name = true)
    {rest : List Char} (hrest : ∀ c ∈ rest.head?, Text.isIdentifierPart c = false) :
    ∃ hshorter, takeIdentifier? (name.toList ++ rest) = some (name, ⟨rest, hshorter⟩) := by
  obtain ⟨first, more, hchars, hstart, hmore⟩ := Text.exists_cons_of_isIdentifier hname
  obtain ⟨htake, hdrop⟩ := Text.takeWhile_part hmore hrest
  have hback : String.ofList (first :: more) = name := by rw [← hchars, String.ofList_toList]
  rw [hchars, List.cons_append]
  refine ⟨by simp only [List.length_cons, List.length_append]; omega, ?_⟩
  simp only [takeIdentifier?, hstart, if_true, htake, hdrop, hback]

/-- No identifier starts where its first character cannot stand. -/
theorem takeIdentifier?_eq_none {text : List Char}
    (h : ∀ c ∈ text.head?, Text.isIdentifierStart c = false) : takeIdentifier? text = none := by
  cases text with
  | nil => rfl
  | cons c rest =>
    have hc : Text.isIdentifierStart c = false := h c (by simp)
    simp [takeIdentifier?, hc]

/-- Blanks are skipped. -/
theorem scan_blank (rest : List Char) : scan (' ' :: rest) = scan rest := by
  rw [scan, if_pos (by decide)]

/-- A string literal is one token. -/
theorem scan_literal (text : String) (rest : List Char) :
    scan ('"' :: (Json.Literal.writeTail text.toList ++ rest)) =
      (scan rest).map (Token.literal text :: ·) := by
  obtain ⟨offset, hread⟩ := Json.Literal.readTail_writeTail 0 1 text.toList rest
  rw [scan, if_neg (by decide), if_pos rfl]
  split
  · rename_i hfault
    rw [hread] at hfault
    cases hfault
  · rename_i value after hvalue
    rw [hread] at hvalue
    cases hvalue
    rw [String.ofList_toList]

/-- A dot and an identifier are one token. -/
theorem scan_field {name : String} (hname : Text.isIdentifier name = true) {rest : List Char}
    (hrest : ∀ c ∈ rest.head?, Text.isIdentifierPart c = false) :
    scan ('.' :: (name.toList ++ rest)) = (scan rest).map (Token.field name :: ·) := by
  obtain ⟨hshorter, htake⟩ := takeIdentifier?_append hname hrest
  rw [scan, if_neg (by decide), if_neg (by decide), if_pos rfl, htake]

/-- A dot alone is a token. -/
theorem scan_dot {rest : List Char}
    (hrest : ∀ c ∈ rest.head?, Text.isIdentifierStart c = false ∧ c ≠ '.') :
    scan ('.' :: rest) = (scan rest).map (Token.dot :: ·) := by
  have hnone := takeIdentifier?_eq_none fun c hc => (hrest c hc).1
  have hdot : ¬rest.head? = some '.' := fun heq => (hrest '.' (by rw [heq]; rfl)).2 rfl
  rw [scan, if_neg (by decide), if_neg (by decide), if_pos rfl, hnone]
  simp only [if_neg hdot]

/-- A dollar sign and an identifier are one token. -/
theorem scan_var {name : String} (hname : Text.isIdentifier name = true) {rest : List Char}
    (hrest : ∀ c ∈ rest.head?, Text.isIdentifierPart c = false) :
    scan ('$' :: (name.toList ++ rest)) = (scan rest).map (Token.var name :: ·) := by
  obtain ⟨hshorter, htake⟩ := takeIdentifier?_append hname hrest
  rw [scan, if_neg (by decide), if_neg (by decide), if_neg (by decide), if_pos rfl, htake]

/-- An identifier is a token. -/
theorem scan_name {name : String} (hname : Text.isIdentifier name = true) {rest : List Char}
    (hrest : ∀ c ∈ rest.head?, Text.isIdentifierPart c = false) :
    scan (name.toList ++ rest) = (scan rest).map (Token.name name :: ·) := by
  obtain ⟨first, more, hchars, hstart, -⟩ := Text.exists_cons_of_isIdentifier hname
  have htaken := takeIdentifier?_append hname hrest
  rw [hchars, List.cons_append] at htaken ⊢
  obtain ⟨hshorter, htake⟩ := htaken
  have hne : ∀ c : Char, Text.isIdentifierStart c = false → ¬first = c := by
    rintro c hc rfl
    rw [hstart] at hc
    cases hc
  have hblank : ¬Json.isBlank first = true := by
    intro hblank
    simp only [Json.isBlank, Bool.or_eq_true, beq_iff_eq] at hblank
    rcases hblank with ((rfl | rfl) | rfl) | rfl <;> exact absurd hstart (by decide)
  rw [scan, if_neg hblank, if_neg (hne '"' (by decide)), if_neg (hne '.' (by decide)),
    if_neg (hne '$' (by decide)), htake]

/-- Punctuation marks start no other token. -/
theorem not_start_of_ofMark? {c : Char} {mark : Token} (h : Token.ofMark? c = some mark) :
    Text.isIdentifierStart c = false ∧ ¬Json.isBlank c = true ∧ ¬c = '"' ∧ ¬c = '.' ∧ ¬c = '$' := by
  unfold Token.ofMark? at h
  split_ifs at h <;> subst_vars <;> decide

/-- A punctuation mark is a token. -/
theorem scan_mark {c : Char} {mark : Token} (h : Token.ofMark? c = some mark) (rest : List Char) :
    scan (c :: rest) = (scan rest).map (mark :: ·) := by
  obtain ⟨hstart, hblank, hquote, hdot, hdollar⟩ := not_start_of_ofMark? h
  have hnone : takeIdentifier? (c :: rest) = none :=
    takeIdentifier?_eq_none fun first hfirst => by
      obtain rfl : c = first := by simpa using hfirst
      exact hstart
  rw [scan, if_neg hblank, if_neg hquote, if_neg hdot, if_neg hdollar, hnone, h]

/-! ## Parts of a query -/

/-- The text of a step is scanned into its tokens. -/
theorem scan_step (segment : Segment) {rest : List Char}
    (hrest : ∀ c ∈ rest.head?, Text.isIdentifierPart c = false) :
    scan (segment.render.toList ++ rest) = (scan rest).map (stepTokens segment ++ ·) := by
  cases segment with
  | each =>
    have htext : Segment.each.render.toList ++ rest = '[' :: ']' :: rest := by
      simp [Segment.render]
    rw [htext, @scan_mark '[' .openList rfl, @scan_mark ']' .closeList rfl, Option.map_map]
    rfl
  | field name =>
    by_cases hbare : Text.isBare name = true
    · have htext : (Segment.field name).render.toList ++ rest = '.' :: (name.toList ++ rest) := by
        simp [Segment.render, renderKey, hbare]
      rw [htext, scan_field (Text.isIdentifier_of_isBare hbare) hrest, stepTokens, if_pos hbare]
      rfl
    · have htext : (Segment.field name).render.toList ++ rest =
          '.' :: '"' :: (Json.Literal.writeTail name.toList ++ rest) := by
        simp [Segment.render, renderKey, hbare, Json.quote, Json.Literal.write_eq]
      rw [htext, scan_dot (by simp; decide), scan_literal, stepTokens, if_neg hbare,
        Option.map_map]
      rfl

/-- The text of a key is scanned into its token. -/
theorem scan_key (key : String) {rest : List Char}
    (hrest : ∀ c ∈ rest.head?, Text.isIdentifierPart c = false) :
    scan ((renderKey key).toList ++ rest) = (scan rest).map (keyToken key :: ·) := by
  by_cases hbare : Text.isBare key = true
  · rw [renderKey, if_pos hbare, keyToken, if_pos hbare,
      scan_name (Text.isIdentifier_of_isBare hbare) hrest]
  · have htext : (renderKey key).toList ++ rest =
        '"' :: (Json.Literal.writeTail key.toList ++ rest) := by
      simp [renderKey, hbare, Json.quote, Json.Literal.write_eq]
    rw [htext, scan_literal, keyToken, if_neg hbare]

/-- What can follow the text of a query. Nothing goes on with an identifier, and only a term other
than the identity is followed by a dot. -/
def Follows (level : Level) (query : Query) (rest : List Char) : Prop :=
  ∀ c ∈ rest.head?, Text.isIdentifierPart c = false ∧ (c = '.' → level = .term ∧ query ≠ .input)

/-- A character that ends every query can follow it. -/
theorem follows_cons {level : Level} {query : Query} {c : Char} {rest : List Char}
    (hpart : Text.isIdentifierPart c = false) (hdot : c ≠ '.') :
    Follows level query (c :: rest) := by
  intro first hfirst
  obtain rfl : c = first := by simpa using hfirst
  exact ⟨hpart, fun heq => absurd heq hdot⟩

/-- A query is scanned into its tokens, whatever follows. -/
def Scanned (level : Level) (query : Query) : Prop :=
  ∀ rest, Follows level query rest →
    scan ((render query).toList ++ rest) = (scan rest).map (tokens query ++ ·)

/-- The text of an entry of an object construction is scanned into its tokens. -/
theorem scan_entry (key : String) {value : Query} (hvalue : Scanned .term value)
    {rest : List Char} (hrest : Follows .term value rest) :
    scan ((renderKey key ++ ": " ++ render value).toList ++ rest) =
      (scan rest).map (keyToken key :: .colon :: tokens value ++ ·) := by
  have htext : (renderKey key ++ ": " ++ render value).toList ++ rest =
      (renderKey key).toList ++ (':' :: ' ' :: ((render value).toList ++ rest)) := by
    simp
  have hcolon : ∀ c ∈ (':' :: ' ' :: ((render value).toList ++ rest)).head?,
      Text.isIdentifierPart c = false := by
    simp; decide
  rw [htext, scan_key key hcolon, @scan_mark ':' .colon rfl, scan_blank, hvalue rest hrest,
    Option.map_map, Option.map_map]
  rfl

/-- The texts of the entries of an object construction. -/
def entryTexts (entries : List (String × Query)) : List String :=
  (renderEntries entries).map fun (key, value) => renderKey key ++ ": " ++ value

/-- The text of the first entry stands in front of the others. -/
theorem entryTexts_cons (key : String) (value : Query) (entries : List (String × Query)) :
    entryTexts ((key, value) :: entries) =
      (renderKey key ++ ": " ++ render value) :: entryTexts entries := rfl

/-- The texts of the entries of an object construction are scanned into their tokens. -/
theorem scan_entries {entries : List (String × Query)}
    (h : ∀ entry ∈ entries, Scanned .term entry.2) {rest : List Char}
    (hrest : ∀ c ∈ rest.head?, Text.isIdentifierPart c = false ∧ c ≠ '.') :
    scan ((", ".intercalate (entryTexts entries)).toList ++ rest) =
      (scan rest).map (entryTokens entries ++ ·) := by
  have hfollows : ∀ value, Follows .term value rest := fun value c hc =>
    ⟨(hrest c hc).1, fun hdot => absurd hdot (hrest c hc).2⟩
  induction entries with
  | nil => simp [entryTexts, renderEntries, entryTokens]
  | cons entry entries ih =>
    obtain ⟨key, value⟩ := entry
    have hvalue : Scanned .term value := h _ List.mem_cons_self
    have hothers := ih fun entry hentry => h entry (List.mem_cons_of_mem _ hentry)
    rw [entryTexts_cons]
    cases entries with
    | nil => exact scan_entry key hvalue (hfollows value)
    | cons other entries =>
      have hmore : entryTexts (other :: entries) ≠ [] := by simp [entryTexts, renderEntries]
      have htext : ((renderKey key ++ ": " ++ render value) ++ ", " ++
          ", ".intercalate (entryTexts (other :: entries))).toList ++ rest =
            (renderKey key ++ ": " ++ render value).toList ++ (',' :: ' ' ::
              ((", ".intercalate (entryTexts (other :: entries))).toList ++ rest)) := by
        simp
      have hcomma : Follows .term value (',' :: ' ' ::
          ((", ".intercalate (entryTexts (other :: entries))).toList ++ rest)) :=
        follows_cons (by decide) (by decide)
      rw [String.intercalate_cons_of_ne_nil hmore, htext, scan_entry key hvalue hcomma,
        @scan_mark ',' .comma rfl, scan_blank, hothers, Option.map_map, Option.map_map]
      refine congrArg (Option.map · (scan rest)) (funext fun found => ?_)
      simp [entryTokens]

/-! ## Whole queries -/

/-- The identity is scanned as a dot. -/
theorem scanned_input : Scanned .term .input := by
  intro rest hrest
  refine scan_dot fun c hc => ⟨?_, fun hdot => ((hrest c hc).2 hdot).2 rfl⟩
  have hpart := (hrest c hc).1
  cases hstart : Text.isIdentifierStart c with
  | false => rfl
  | true =>
    rw [Text.isIdentifierPart_of_start hstart] at hpart
    cases hpart

/-- A variable is scanned as one token. -/
theorem scanned_var {name : String} (hname : Text.isIdentifier name = true) :
    Scanned .term (.var name) := by
  intro rest hrest
  have htext : (render (.var name)).toList ++ rest = '$' :: (name.toList ++ rest) := by
    simp [render, renderVariable]
  rw [htext, scan_var hname fun c hc => (hrest c hc).1]
  rfl

/-- What can follow a query can follow the last term in it, unless it is a dot. -/
theorem Follows.of_last {level : Level} {query last : Query} {rest : List Char}
    (h : Follows level query rest) (hlevel : level ≠ .term) (other : Level) :
    Follows other last rest :=
  fun c hc => ⟨(h c hc).1, fun hdot => absurd ((h c hc).2 hdot).1 hlevel⟩

/-- The text of a step can follow a term other than the identity. -/
theorem follows_step {base : Query} (hbase : base ≠ .input) (segment : Segment)
    (rest : List Char) : Follows .term base (segment.render.toList ++ rest) := by
  intro c hc
  refine ⟨?_, fun _ => ⟨rfl, hbase⟩⟩
  cases segment with
  | field name =>
    obtain rfl : '.' = c := by simpa [Segment.render] using hc
    decide
  | each =>
    obtain rfl : '[' = c := by simpa [Segment.render] using hc
    decide

/-- A step is scanned behind its term. -/
theorem Scanned.step {base : Query} (h : Scanned .term base) (segment : Segment) :
    Scanned .term (.step base segment) := by
  intro rest hrest
  have hpart : ∀ c ∈ rest.head?, Text.isIdentifierPart c = false := fun c hc => (hrest c hc).1
  by_cases hinput : base = .input
  · subst hinput
    cases segment with
    | field name => exact scan_step (.field name) hpart
    | each =>
      have htext : (render (.step .input .each)).toList ++ rest =
          '.' :: (Segment.each.render.toList ++ rest) := by
        simp [render, stepStart]
      rw [htext, scan_dot (by simp [Segment.render]; decide), scan_step .each hpart,
        Option.map_map]
      rfl
  · have htext : (render (.step base segment)).toList ++ rest =
        (render base).toList ++ (segment.render.toList ++ rest) := by
      simp [render_step hinput]
    rw [htext, h _ (follows_step hinput segment rest), scan_step segment hpart,
      tokens_step hinput, Option.map_map]
    refine congrArg (Option.map · (scan rest)) (funext fun found => ?_)
    simp

/-- A list construction is scanned between brackets. -/
theorem Scanned.collect {body : Query} (h : Scanned .pipe body) :
    Scanned .term (.collect body) := by
  intro rest hrest
  have htext : (render (.collect body)).toList ++ rest =
      '[' :: ((render body).toList ++ ']' :: rest) := by
    simp [render]
  rw [htext, @scan_mark '[' .openList rfl, h _ (follows_cons (by decide) (by decide)),
    @scan_mark ']' .closeList rfl, Option.map_map, Option.map_map]
  refine congrArg (Option.map · (scan rest)) (funext fun found => ?_)
  simp [tokens]

/-- An object construction is scanned between braces. -/
theorem scanned_object {entries : List (String × Query)}
    (h : ∀ entry ∈ entries, Scanned .term entry.2) : Scanned .term (.object entries) := by
  intro rest hrest
  have htext : (render (.object entries)).toList ++ rest =
      '\x7b' :: ((", ".intercalate (entryTexts entries)).toList ++ '\x7d' :: rest) := by
    simp [render, renderObject, entryTexts]
  rw [htext, @scan_mark '\x7b' .openObject rfl, scan_entries h (by simp; decide),
    @scan_mark '\x7d' .closeObject rfl, Option.map_map, Option.map_map]
  refine congrArg (Option.map · (scan rest)) (funext fun found => ?_)
  simp [tokens]

/-- Two queries with a mark between blanks are scanned one after the other. -/
theorem scan_between {first next : Query} {level other : Level} (h : Scanned level first)
    (h' : Scanned other next) {c : Char} {mark : Token} (hmark : Token.ofMark? c = some mark)
    {rest : List Char} (hrest : Follows other next rest) :
    scan ((render first).toList ++ (' ' :: c :: ' ' :: ((render next).toList ++ rest))) =
      (scan rest).map (tokens first ++ mark :: tokens next ++ ·) := by
  rw [h _ (follows_cons (by decide) (by decide)), scan_blank, scan_mark hmark, scan_blank,
    h' rest hrest, Option.map_map, Option.map_map]
  refine congrArg (Option.map · (scan rest)) (funext fun found => ?_)
  simp

/-- A factor is scanned behind a star. -/
theorem Scanned.times {left right : Query} (h : Scanned .product left)
    (h' : Scanned .term right) : Scanned .product (.times left right) := by
  intro rest hrest
  have htext : (render (.times left right)).toList ++ rest =
      (render left).toList ++ (' ' :: '*' :: ' ' :: ((render right).toList ++ rest)) := by
    simp [render]
  rw [htext, @scan_between _ _ _ _ h h' '*' .star rfl rest (hrest.of_last (by simp) _), tokens]

/-- A pipe is scanned with a bar between its parts. -/
theorem Scanned.pipe {first next : Query} (h : Scanned .product first) (h' : Scanned .pipe next) :
    Scanned .pipe (.pipe first next) := by
  intro rest hrest
  have htext : (render (.pipe first next)).toList ++ rest =
      (render first).toList ++ (' ' :: '|' :: ' ' :: ((render next).toList ++ rest)) := by
    simp [render]
  rw [htext, @scan_between _ _ _ _ h h' '|' .bar rfl rest (hrest.of_last (by simp) _), tokens]

/-- A binding is scanned in front of its body. -/
theorem Scanned.bind {name : String} (hname : Text.isIdentifier name = true) {body : Query}
    (h : Scanned .pipe body) : Scanned .pipe (.bind name body) := by
  intro rest hrest
  have htext : (render (.bind name body)).toList ++ rest =
      '.' :: ' ' :: (bindingWord.toList ++ (' ' :: '$' :: (name.toList ++
        (' ' :: '|' :: ' ' :: ((render body).toList ++ rest))))) := by
    simp [render, renderVariable, bindingWord]
  rw [htext, scan_dot (by simp; decide), scan_blank, scan_name (by decide) (by simp; decide),
    scan_blank, scan_var hname (by simp; decide), scan_blank, @scan_mark '|' .bar rfl, scan_blank,
    h rest (hrest.of_last (by simp) _)]
  simp only [Option.map_map]
  rfl

/-- The text of a query is scanned into its tokens. -/
theorem scan_render {level : Level} {query : Query} (h : Fits level query) :
    Scanned level query := by
  induction h with
  | input => exact scanned_input
  | var hname => exact scanned_var hname
  | step segment hbase ih => exact ih.step segment
  | collect hbody ih => exact ih.collect
  | object hentries ih => exact scanned_object ih
  | term hquery ih => exact fun rest hrest => ih rest (hrest.of_last (by simp) _)
  | times hleft hright ihleft ihright => exact ihleft.times ihright
  | product hquery ih => exact fun rest hrest => ih rest (hrest.of_last (by simp) _)
  | pipe hfirst hnext ihfirst ihnext => exact ihfirst.pipe ihnext
  | bind hname hfree hbody ih => exact ih.bind hname

end Projector.Query
