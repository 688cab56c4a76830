import Projector.Proofs.LiteralGrammar

/-!
# The grammar of addresses

Behind the dollar sign an address is a row of tokens: a dot and an identifier, a dot and a string
literal, or a pair of brackets. It is read exactly when it is such a row, as the steps of the
tokens, and there is only one row that it can be. Any other text is refused where the longest row of
tokens in front of it ends.
-/

namespace Projector

namespace Text

/-- An identifier is a first character and a run of further ones. -/
theorem exists_cons_of_isIdentifier {name : String} (h : isIdentifier name = true) :
    ∃ first rest, name.toList = first :: rest ∧ isIdentifierStart first = true ∧
      ∀ c ∈ rest, isIdentifierPart c = true := by
  rw [isIdentifier] at h
  cases hname : name.toList with
  | nil => simp [hname, isIdentifierChars] at h
  | cons first rest =>
    simp only [hname, isIdentifierChars, Bool.and_eq_true, List.all_eq_true] at h
    exact ⟨first, rest, rfl, h.1, h.2⟩

/-- A character run stops at the first character that is not part of an identifier. -/
theorem takeWhile_part {run rest : List Char} (hrun : ∀ c ∈ run, isIdentifierPart c = true)
    (hrest : ∀ c ∈ rest.head?, isIdentifierPart c = false) :
    (run ++ rest).takeWhile isIdentifierPart = run ∧
      (run ++ rest).dropWhile isIdentifierPart = rest := by
  rw [List.takeWhile_append_of_pos hrun, List.dropWhile_append_of_pos hrun]
  cases rest with
  | nil => simp
  | cons c rest =>
    have hc : isIdentifierPart c = false := hrest c (by simp)
    simp [hc]

/-- All characters of an identifier are parts of one. -/
theorem isIdentifierPart_of_mem {name : String} (h : isIdentifier name = true) :
    ∀ c ∈ name.toList, isIdentifierPart c = true := by
  obtain ⟨first, rest, hname, hfirst, hrest⟩ := exists_cons_of_isIdentifier h
  rw [hname]
  intro c hc
  rcases List.mem_cons.mp hc with rfl | hc
  · exact isIdentifierPart_of_start hfirst
  · exact hrest c hc

end Text

namespace Address

/-! ## Tokens -/

/-- A step as an address writes it. -/
inductive Token
  /-- A dot and an identifier. -/
  | bare (name : String) (h : Text.isIdentifier name = true)
  /-- A dot and a string literal. -/
  | quoted (pieces : List Json.Literal.Piece)
  /-- A pair of brackets. -/
  | each

/-- The characters of a token. -/
def Token.chars : Token → List Char
  | .bare name _ => '.' :: name.toList
  | .quoted pieces => '.' :: '"' :: Json.Literal.body pieces
  | .each => ['[', ']']

/-- The step that a token writes. -/
def Token.segment : Token → Segment
  | .bare name _ => .field name
  | .quoted pieces => .field (String.ofList (Json.Literal.decode pieces))
  | .each => .each

/-- The characters of a row of tokens. -/
def spelled (tokens : List Token) : List Char := tokens.flatMap Token.chars

@[simp] theorem spelled_nil : spelled [] = [] := rfl

@[simp] theorem spelled_cons (token : Token) (tokens : List Token) :
    spelled (token :: tokens) = token.chars ++ spelled tokens := rfl

/-- A token ends in front of a text that does not go on with it: the name of a bare one would go on
with any part of an identifier. -/
def Token.Ends : Token → List Char → Prop
  | .bare _ _, rest => ∀ c ∈ rest.head?, Text.isIdentifierPart c = false
  | .quoted _, _ => True
  | .each, _ => True

/-- A token ends in front of another one. -/
theorem Token.ends_cons (token other : Token) (rest : List Char) :
    token.Ends (other.chars ++ rest) := by
  cases token with
  | bare name h =>
    cases other with
    | bare other hother => simp [Ends, chars]; decide
    | quoted pieces => simp [Ends, chars]; decide
    | each => simp [Ends, chars]; decide
  | quoted pieces => trivial
  | each => trivial

/-- A token ends in front of a row of tokens. -/
theorem Token.ends_spelled (token : Token) (tokens : List Token) : token.Ends (spelled tokens) := by
  cases tokens with
  | nil =>
    cases token with
    | bare name h => simp [Ends]
    | quoted pieces => trivial
    | each => trivial
  | cons other tokens => exact token.ends_cons other _

/-- An identifier does not start with a quote. -/
theorem toList_append_ne_quote {name : String} (h : Text.isIdentifier name = true)
    (rest more : List Char) : name.toList ++ rest ≠ '"' :: more := by
  obtain ⟨first, run, hname, hfirst, -⟩ := Text.exists_cons_of_isIdentifier h
  rw [hname, List.cons_append]
  intro heq
  rw [(List.cons.inj heq).1] at hfirst
  cases hfirst

/-- Two tokens in front of the same text are the same, unless both are bare. -/
theorem Token.eq_or_bare {token other : Token} {rest more : List Char}
    (h : token.chars ++ rest = other.chars ++ more) :
    token = other ∧ rest = more ∨
      ∃ name hname name' hname', token = .bare name hname ∧ other = .bare name' hname' ∧
        name.toList ++ rest = name'.toList ++ more := by
  cases token with
  | bare name hname =>
    cases other with
    | bare name' hname' =>
      exact .inr ⟨name, hname, name', hname', rfl, rfl, List.tail_eq_of_cons_eq h⟩
    | quoted pieces => exact absurd (List.tail_eq_of_cons_eq h) (toList_append_ne_quote hname _ _)
    | each => simp [chars] at h
  | quoted pieces =>
    cases other with
    | bare name' hname' =>
      exact absurd (List.tail_eq_of_cons_eq h).symm (toList_append_ne_quote hname' _ _)
    | quoted others =>
      simp only [chars, List.cons_append, List.cons.injEq, true_and] at h
      obtain ⟨rfl, hrest⟩ := Json.Literal.eq_of_body_append h
      exact .inl ⟨rfl, hrest⟩
    | each => simp [chars] at h
  | each =>
    cases other with
    | bare name' hname' => simp [chars] at h
    | quoted pieces => simp [chars] at h
    | each => exact .inl ⟨rfl, by simpa [chars] using h⟩

/-- A token that ends is known from its characters, whatever follows it. -/
theorem Token.eq_of_append {token other : Token} {rest more : List Char}
    (h : token.chars ++ rest = other.chars ++ more) (hends : token.Ends rest)
    (hother : other.Ends more) : token = other ∧ rest = more := by
  rcases Token.eq_or_bare h with hsame | ⟨name, hname, name', hname', rfl, rfl, htext⟩
  · exact hsame
  · obtain ⟨htake, hdrop⟩ := Text.takeWhile_part (Text.isIdentifierPart_of_mem hname) hends
    obtain ⟨htake', hdrop'⟩ := Text.takeWhile_part (Text.isIdentifierPart_of_mem hname') hother
    rw [← htext] at htake' hdrop'
    obtain rfl : name = name' := String.toList_inj.mp (htake.symm.trans htake')
    exact ⟨rfl, hdrop.symm.trans hdrop'⟩

/-- A token that ends is the longest one in front of a text. -/
theorem Token.length_le_of_append {token other : Token} {rest more : List Char}
    (h : token.chars ++ rest = other.chars ++ more) (hends : token.Ends rest) :
    other.chars.length ≤ token.chars.length := by
  rcases Token.eq_or_bare h with ⟨rfl, -⟩ | ⟨name, hname, name', hname', rfl, rfl, htext⟩
  · exact Nat.le_refl _
  · obtain ⟨htake, -⟩ := Text.takeWhile_part (Text.isIdentifierPart_of_mem hname) hends
    rw [htext, List.takeWhile_append_of_pos (Text.isIdentifierPart_of_mem hname')] at htake
    have hlength := congrArg List.length htake
    rw [List.length_append] at hlength
    simp only [chars, List.length_cons]
    omega

/-- There is only one row of tokens with given characters. -/
theorem spelled_injective : Function.Injective spelled := by
  intro tokens
  induction tokens with
  | nil =>
    intro others h
    cases others with
    | nil => rfl
    | cons other others => cases other <;> simp [Token.chars] at h
  | cons token tokens ih =>
    intro others h
    cases others with
    | nil => cases token <;> simp [Token.chars] at h
    | cons other others =>
      obtain ⟨rfl, hrest⟩ :=
        Token.eq_of_append h (token.ends_spelled tokens) (other.ends_spelled others)
      rw [ih hrest]

/-! ## The longest row of tokens -/

/-- A row of tokens stands in front of a text, and no row in front of it is longer. -/
structure Longest (text : List Char) (front : List Token) (rest : List Char) : Prop where
  split : text = spelled front ++ rest
  longest : ∀ others more, text = spelled others ++ more →
    (spelled others).length ≤ (spelled front).length

/-- A text that starts with no token has no longer row of them in front. -/
theorem longest_nil {text : List Char} (h : ∀ (token : Token) rest, text ≠ token.chars ++ rest) :
    Longest text [] text where
  split := rfl
  longest others more htext := by
    cases others with
    | nil => exact Nat.le_refl _
    | cons other others =>
      rw [spelled_cons, List.append_assoc] at htext
      exact absurd htext (h other _)

/-- A token that ends goes in front of the longest row of what follows it. -/
theorem Longest.cons {token : Token} {text rest : List Char} {front : List Token}
    (h : Longest text front rest) (hends : token.Ends text) :
    Longest (token.chars ++ text) (token :: front) rest where
  split := by rw [spelled_cons, List.append_assoc, ← h.split]
  longest others more htext := by
    -- Only the last token of a row may be a bare one that could go on; the others end, since a
    -- token follows them, and so the first one is the token in front.
    match others with
    | [] => exact Nat.zero_le _
    | [other] =>
      rw [spelled_cons, spelled_nil, List.append_nil] at htext ⊢
      rw [spelled_cons, List.length_append]
      have hle := Token.length_le_of_append htext hends
      omega
    | other :: next :: others =>
      rw [spelled_cons, List.append_assoc] at htext
      have hother : other.Ends (spelled (next :: others) ++ more) := by
        rw [spelled_cons, List.append_assoc]
        exact other.ends_cons next _
      obtain ⟨rfl, hrest⟩ := Token.eq_of_append htext hends hother
      have hle := h.longest (next :: others) more hrest
      rw [spelled_cons token front, spelled_cons token (next :: others), List.length_append,
        List.length_append]
      omega

/-! ## Reading tokens -/

/-- Why no token is read at an offset of an address. -/
inductive Refused (address : String) (offset : Nat) (rest : List Char) : Fault → Prop
  /-- No token starts there, and no quoted name that has an end. -/
  | malformed (hopen : ∀ text, rest = '.' :: '"' :: text →
      Json.Literal.splitClosing? text = none) :
      Refused address offset rest (.malformed address offset)
  /-- A quoted name starts there that has an end but is no literal. -/
  | badName {text body after : List Char} {problem : Json.Problem} {place : Json.Place}
      (hrest : rest = '.' :: '"' :: text)
      (hclosed : Json.Literal.splitClosing? text = some (body, after))
      (hname : Json.Literal.readWhole ('"' :: body) = .error (.malformed problem place)) :
      Refused address offset rest (.badName (.malformed problem place))

/-- What reading a text from an offset of an address gives. -/
inductive Outcome (address : String) (offset : Nat) (text : List Char) : Except Fault Path → Prop
  /-- The text is a row of tokens, and it is read as their steps. -/
  | read {tokens : List Token} (htext : text = spelled tokens) :
      Outcome address offset text (.ok (tokens.map Token.segment))
  /-- The text is refused where the longest row of tokens in front of it ends. -/
  | refused {front : List Token} {rest : List Char} {fault : Fault}
      (hfront : Longest text front rest) (hrest : rest ≠ [])
      (hfault : Refused address (offset + (spelled front).length) rest fault) :
      Outcome address offset text (.error fault)

/-- A token that ends is read in front of what follows it. -/
theorem Outcome.cons {address : String} {offset : Nat} {token : Token} {text : List Char}
    {result : Except Fault Path} (hends : token.Ends text)
    (h : Outcome address (offset + token.chars.length) text result) :
    Outcome address offset (token.chars ++ text) (result.map (token.segment :: ·)) := by
  cases h with
  | @read tokens htext =>
    have htokens : token.chars ++ text = spelled (token :: tokens) := by rw [htext, spelled_cons]
    exact .read htokens
  | @refused front rest fault hfront hrest hfault =>
    refine .refused (hfront.cons hends) hrest ?_
    rwa [spelled_cons, List.length_append, ← Nat.add_assoc]

/-- A text in front of which no token stands is refused at once. -/
theorem Outcome.of_refused {address : String} {offset : Nat} {text : List Char} {fault : Fault}
    (htext : text ≠ []) (hnone : ∀ (token : Token) rest, text ≠ token.chars ++ rest)
    (h : Refused address offset text fault) : Outcome address offset text (.error fault) :=
  .refused (longest_nil hnone) htext h

/-- Only a quoted token starts with a dot and a quote. -/
theorem Token.eq_quoted {token : Token} {text rest : List Char}
    (h : '.' :: '"' :: text = token.chars ++ rest) :
    ∃ pieces, token = .quoted pieces ∧ text = Json.Literal.body pieces ++ rest := by
  cases token with
  | bare name hname =>
    exact absurd (List.tail_eq_of_cons_eq h).symm (toList_append_ne_quote hname _ _)
  | quoted pieces => exact ⟨pieces, rfl, List.tail_eq_of_cons_eq (List.tail_eq_of_cons_eq h)⟩
  | each => simp [chars] at h

/-- A token starts with a pair of brackets, or with a dot and a quote or the start of an
identifier. -/
theorem Token.chars_append (token : Token) (rest : List Char) :
    (∃ more, token.chars ++ rest = '[' :: ']' :: more) ∨
      ∃ first more, token.chars ++ rest = '.' :: first :: more ∧
        (first = '"' ∨ Text.isIdentifierStart first = true) := by
  cases token with
  | bare name hname =>
    obtain ⟨first, run, hchars, hfirst, -⟩ := Text.exists_cons_of_isIdentifier hname
    exact .inr ⟨first, run ++ rest, by simp [chars, hchars], .inr hfirst⟩
  | quoted pieces => exact .inr ⟨'"', _, rfl, .inl rfl⟩
  | each => exact .inl ⟨rest, rfl⟩

/-- A step put in front of what is read. -/
theorem bind_cons (segment : Segment) (result : Except Fault Path) :
    (do let path ← result; .ok (segment :: path)) = result.map (segment :: ·) := by
  cases result <;> rfl

/-- Whatever text is read from whatever offset, it is read as the row of tokens that it is, or it is
refused where the longest row in front of it ends. -/
theorem outcome_readSteps (address : String) (offset : Nat) (text : List Char) :
    Outcome address offset text (readSteps address offset text) := by
  fun_induction readSteps address offset text with
  | case1 offset => exact @Outcome.read _ _ _ [] rfl
  | case2 offset rest ih =>
    rw [bind_cons]
    exact @Outcome.cons address offset .each rest _ trivial ih
  | case3 offset rest hopen =>
    refine .of_refused (List.cons_ne_nil _ _) (fun token more htext => ?_)
      (.malformed fun text htext => ?_)
    · -- The pieces of a quoted token would have been closed.
      obtain ⟨pieces, -, rfl⟩ := Token.eq_quoted htext
      rw [Json.Literal.splitClosing?_body] at hopen
      cases hopen
    · cases htext
      exact hopen
  | case4 offset rest body after hclosed ih =>
    cases hname : Json.Literal.readWhole ('"' :: body) with
    | error fault =>
      obtain ⟨problem, place, rfl⟩ := Json.Literal.problem_of_readWhole hname
      refine .of_refused (List.cons_ne_nil _ _) (fun token more htext => ?_)
        (.badName rfl hclosed hname)
      -- The pieces of a quoted token would end where the closing quote was found, and be read.
      obtain ⟨pieces, -, rfl⟩ := Token.eq_quoted htext
      rw [Json.Literal.splitClosing?_body] at hclosed
      obtain ⟨rfl, -⟩ := Prod.mk.inj (Option.some.inj hclosed)
      rw [Json.Literal.readWhole_eq_ok_iff.mpr ⟨pieces, rfl, rfl⟩] at hname
      cases hname
    | ok name =>
      obtain ⟨pieces, hbody, rfl⟩ := Json.Literal.readWhole_eq_ok_iff.mp hname
      obtain rfl : body = Json.Literal.body pieces := List.tail_eq_of_cons_eq hbody
      have hlength : offset + 2 + (Json.Literal.body pieces).length =
          offset + (Token.quoted pieces).chars.length := by
        simp only [Token.chars, List.length_cons]
        omega
      rw [hlength] at ih ⊢
      rw [Json.Literal.append_of_splitClosing? hclosed]
      exact (bind_cons _ _).symm ▸ @Outcome.cons address offset (.quoted pieces) after _ trivial ih
  | case5 offset first rest hquote hstart name ih =>
    have hname : Text.isIdentifier (String.ofList name) = true := by
      rw [Text.isIdentifier, String.toList_ofList, Text.isIdentifierChars, hstart, Bool.true_and]
      exact List.all_takeWhile
    have hlength : offset + 1 + name.length =
        offset + (Token.bare (String.ofList name) hname).chars.length := by
      simp only [Token.chars, String.toList_ofList, List.length_cons]
      omega
    have hends : (Token.bare (String.ofList name) hname).Ends
        (rest.dropWhile Text.isIdentifierPart) := by
      intro c hc
      have hnot := List.head?_dropWhile_not Text.isIdentifierPart rest
      rwa [Option.mem_def.mp hc] at hnot
    have htext : '.' :: first :: rest = (Token.bare (String.ofList name) hname).chars ++
        rest.dropWhile Text.isIdentifierPart := by
      simp [Token.chars, name]
    rw [hlength] at ih
    rw [bind_cons, htext, hlength]
    exact ih.cons hends
  | case6 offset first rest hquote hstart =>
    refine .of_refused (List.cons_ne_nil _ _) (fun token more htext => ?_)
      (.malformed fun text htext => ?_)
    · rcases token.chars_append more with ⟨_, hchars⟩ | ⟨_, _, hchars, hfirst⟩
      · cases htext.trans hchars
      · cases htext.trans hchars
        exact hfirst.elim hquote hstart
    · cases htext
      exact absurd rfl hquote
  | case7 offset text hnil heach hquoted hbare =>
    refine .of_refused hnil (fun token more htext => ?_)
      (.malformed fun text htext => absurd htext (hquoted text))
    rcases token.chars_append more with ⟨_, hchars⟩ | ⟨_, _, hchars, -⟩
    · exact heach _ (htext.trans hchars)
    · exact hbare _ _ (htext.trans hchars)

/-! ## Reading addresses -/

/-- A row of tokens spells an address behind the dollar sign. -/
def Spells (tokens : List Token) (address : String) : Prop :=
  address.toList = Path.rootMark :: spelled tokens

instance (tokens : List Token) (address : String) : Decidable (Spells tokens address) :=
  inferInstanceAs (Decidable (address.toList = Path.rootMark :: spelled tokens))

/-- Why an address is refused. -/
inductive Refuses (address : String) : Fault → Prop
  /-- It does not start with the dollar sign. -/
  | noRoot (h : ∀ text, address.toList ≠ Path.rootMark :: text) : Refuses address (.noRoot address)
  /-- Behind the longest row of tokens something is left that no token is read from. -/
  | stuck {text rest : List Char} {front : List Token} {fault : Fault}
      (haddress : address.toList = Path.rootMark :: text) (hfront : Longest text front rest)
      (hrest : rest ≠ []) (hfault : Refused address (1 + (spelled front).length) rest fault) :
      Refuses address fault

/-- An address that tokens spell is read as their steps. -/
theorem parse_of_spells {address : String} {tokens : List Token} (h : Spells tokens address) :
    parse address = .ok (tokens.map Token.segment) := by
  rw [parse, h]
  simp only [if_true]
  have houtcome := outcome_readSteps address 1 (spelled tokens)
  generalize readSteps address 1 (spelled tokens) = result at houtcome ⊢
  cases houtcome with
  | read htext => rw [spelled_injective htext]
  | refused hfront hrest _ =>
    have hle := hfront.longest tokens [] (List.append_nil _).symm
    have hlength := congrArg List.length hfront.split
    have hpositive := List.length_pos_iff.mpr hrest
    rw [List.length_append] at hlength
    omega

/-- An address is spelled by tokens or refused. -/
theorem spells_or_refuses (address : String) :
    (∃ tokens, Spells tokens address) ∨
      ∃ fault, parse address = .error fault ∧ Refuses address fault := by
  cases haddress : address.toList with
  | nil => exact .inr ⟨_, by rw [parse, haddress], .noRoot (by simp [haddress])⟩
  | cons first text =>
    by_cases hroot : first = Path.rootMark
    · subst hroot
      have hparse : parse address = readSteps address 1 text := by simp [parse, haddress]
      have houtcome := outcome_readSteps address 1 text
      rw [hparse]
      generalize readSteps address 1 text = result at houtcome ⊢
      cases houtcome with
      | @read tokens htext => exact .inl ⟨tokens, by rw [Spells, haddress, htext]⟩
      | refused hfront hrest hfault => exact .inr ⟨_, rfl, .stuck haddress hfront hrest hfault⟩
    · refine .inr ⟨.noRoot address, by simp [parse, haddress, hroot], .noRoot fun text htext => ?_⟩
      exact hroot (List.cons.inj (haddress.symm.trans htext)).1

/-- A quoted token is a dot and a text between quotes that the reader of documents reads, and it
writes the step into the field of the name that is read. -/
theorem read_eq_str_iff_quoted {literal name : String}
    (hfirst : literal.toList.head? = some '"') (hlast : literal.toList.getLast? = some '"') :
    Json.read literal = .ok (.str name) ↔ ∃ pieces,
      (Token.quoted pieces).chars = '.' :: literal.toList ∧
        (Token.quoted pieces).segment = .field name := by
  rw [Json.read_eq_ok_iff_of_quotes hfirst hlast]
  refine exists_congr fun pieces => and_congr ?_ ?_
  · rw [Token.chars, List.cons.injEq, eq_comm, and_iff_right rfl]
  · rw [Token.segment, Segment.field.injEq, Json.str.injEq, eq_comm]

/-- An address is read as a path exactly when it is a dollar sign with a row of tokens behind it and
the path consists of their steps. There is only one row that an address can be, and an address that
is none is refused: because it does not start with a dollar sign, or where the longest row of tokens
behind the dollar sign ends. The quoted tokens are those whose name is a text between quotes that
the reader of documents reads. -/
theorem parse_grammar (address : String) :
    (∀ path, parse address = .ok path ↔
      ∃ tokens, Spells tokens address ∧ tokens.map Token.segment = path) ∧
    (∀ tokens others, Spells tokens address → Spells others address → tokens = others) ∧
    ((¬∃ tokens, Spells tokens address) →
      ∃ fault, parse address = .error fault ∧ Refuses address fault) ∧
    ∀ literal name : String, literal.toList.head? = some '"' → literal.toList.getLast? = some '"' →
      (Json.read literal = .ok (.str name) ↔ ∃ pieces,
        (Token.quoted pieces).chars = '.' :: literal.toList ∧
          (Token.quoted pieces).segment = .field name) := by
  refine ⟨fun path => ?_, fun tokens others htokens hothers => ?_, fun hnone => ?_,
    fun literal name => read_eq_str_iff_quoted⟩
  · constructor
    · intro hread
      rcases spells_or_refuses address with ⟨tokens, htokens⟩ | ⟨fault, hfault, -⟩
      · rw [parse_of_spells htokens] at hread
        exact ⟨tokens, htokens, Except.ok.inj hread⟩
      · cases hfault.symm.trans hread
    · rintro ⟨tokens, htokens, rfl⟩
      exact parse_of_spells htokens
  · exact spelled_injective (List.tail_eq_of_cons_eq (htokens.symm.trans hothers))
  · exact (spells_or_refuses address).resolve_left hnone

/-- An escaped name is one token, and brackets are another. -/
example : parse "$.\"a\\n\"[]" = .ok [.field "a\n", .each] :=
  @parse_of_spells _ [.quoted [.plain 'a' (by decide), .short 'n' '\n' (by decide)], .each]
    (by decide)

end Address

end Projector
