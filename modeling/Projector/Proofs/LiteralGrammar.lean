import Mathlib.Data.List.TakeWhile
import Projector.Address.Reader
import Projector.Json.Reader
import Projector.Proofs.Results

/-!
# The grammar of string literals

Behind its opening quote a literal is a row of pieces and a quote: characters that stand for
themselves, backslashes with a letter, and codes of four hexadecimal digits. Two codes next to each
other that are the halves of a surrogate pair stand for one character, and every other piece for one
of its own. Exactly these texts are read, and as what their pieces stand for; and where an address
looks for the end of a literal, it finds the end of its pieces.
-/

namespace Projector.Json

namespace Literal

/-! ## Pieces -/

/-- The code unit that four hexadecimal digits name. -/
def hexUnit? (a b c d : Char) : Option Nat := do
  let a ← hexValue? a
  let b ← hexValue? b
  let c ← hexValue? c
  let d ← hexValue? d
  some (((a * 16 + b) * 16 + c) * 16 + d)

/-- A piece of a literal, as it is written and with what it names. -/
inductive Piece
  /-- A character that is neither a quote nor a backslash nor a control character. -/
  | plain (c : Char) (h : c ≠ '"' ∧ c ≠ '\\' ∧ isControl c = false)
  /-- A backslash and the letter of a character. -/
  | short (letter c : Char) (h : unescape? letter = some c)
  /-- A backslash, the letter of codes and the four digits of a code unit. -/
  | code (a b c d : Char) (unit : Nat) (h : hexUnit? a b c d = some unit)

/-- The characters of a piece. -/
def Piece.chars : Piece → List Char
  | .plain c _ => [c]
  | .short letter _ _ => ['\\', letter]
  | .code a b c d _ _ => ['\\', 'u', a, b, c, d]

/-- The character that a piece stands for alone. -/
def Piece.char : Piece → Char
  | .plain c _ => c
  | .short _ c _ => c
  | .code _ _ _ _ unit _ => charOfUnit unit

/-- The code unit that a piece names. -/
def Piece.unit? : Piece → Option Nat
  | .plain _ _ => none
  | .short _ _ _ => none
  | .code _ _ _ _ unit _ => some unit

/-- The character that two pieces stand for together, if they name the halves of a surrogate
pair. -/
def Piece.joined? (piece next : Piece) : Option Char :=
  match piece.unit?, next.unit? with
  | some high, some low =>
    if isHighSurrogate high && isLowSurrogate low then some (charOfPair high low) else none
  | _, _ => none

/-- A piece that does not name the first half of a pair makes none. -/
theorem Piece.joined?_of_not_high {piece : Piece}
    (h : ∀ unit ∈ piece.unit?, isHighSurrogate unit = false) (next : Piece) :
    piece.joined? next = none := by
  rw [joined?]
  split
  · rename_i high low hhigh _
    simp [h high hhigh]
  · rfl

/-- The text that pieces stand for. -/
def decode : List Piece → List Char
  | [] => []
  | [piece] => [piece.char]
  | piece :: next :: rest =>
    match piece.joined? next with
    | some c => c :: decode rest
    | none => piece.char :: decode (next :: rest)

/-- Pieces with the closing quote, as they stand behind the opening one. -/
def body (pieces : List Piece) : List Char := pieces.flatMap Piece.chars ++ ['"']

@[simp] theorem body_nil : body [] = ['"'] := rfl

@[simp] theorem body_cons (piece : Piece) (pieces : List Piece) :
    body (piece :: pieces) = piece.chars ++ body pieces := by
  simp [body]

/-- A piece that makes no pair with the next one stands for a character of its own. -/
theorem decode_cons {piece : Piece} {pieces : List Piece}
    (h : ∀ next ∈ pieces.head?, piece.joined? next = none) :
    decode (piece :: pieces) = piece.char :: decode pieces := by
  cases pieces with
  | nil => rfl
  | cons next rest =>
    have hnone : piece.joined? next = none := h next rfl
    rw [decode, hnone]

/-- Behind the opening quote there is at least a quote. -/
theorem exists_cons_body (pieces : List Piece) (rest : List Char) :
    ∃ next more, body pieces ++ rest = next :: more :=
  List.exists_cons_of_ne_nil (by simp [body])

/-- The letter of codes is no letter of a character. -/
theorem ne_u_of_unescape? {letter c : Char} (h : unescape? letter = some c) : letter ≠ 'u' := by
  rintro rfl
  simp [unescape?] at h

/-! ## Reading pieces -/

/-- A plain character is read as itself. -/
theorem readTail_plain (opening offset : Nat) {c : Char}
    (h : c ≠ '"' ∧ c ≠ '\\' ∧ isControl c = false) (rest : List Char) :
    readTail opening offset (c :: rest) =
      (readTail opening (offset + 1) rest).map fun (text, cursor) => (c :: text, cursor) := by
  obtain ⟨hquote, hslash, hcontrol⟩ := h
  rw [readTail.eq_6 _ _ _ _ hquote (fun h => absurd h hslash) (fun _ h => absurd h hslash)
    (fun _ _ h => absurd h hslash), hcontrol]
  cases readTail opening (offset + 1) rest <;> rfl

/-- The letter behind a backslash is read as its character. -/
theorem readTail_short (opening offset : Nat) {letter c : Char} (h : unescape? letter = some c)
    (rest : List Char) :
    readTail opening offset ('\\' :: letter :: rest) =
      (readTail opening (offset + 2) rest).map fun (text, cursor) => (c :: text, cursor) := by
  rw [readTail.eq_5 _ _ _ _ (ne_u_of_unescape? h), h]
  cases readTail opening (offset + 2) rest <;> rfl

/-- Four digits are read as their code unit when more of the literal follows them. -/
theorem codeUnit?_append_body (a b c d : Char) (pieces : List Piece) (rest : List Char) :
    codeUnit? (a :: b :: c :: d :: (body pieces ++ rest)) = hexUnit? a b c d := by
  obtain ⟨next, more, hmore⟩ := exists_cons_body pieces rest
  rw [hmore]
  rfl

/-- Behind the first half of a pair the code unit of the next piece is found, if it names one. -/
theorem secondHalf_body (pieces : List Piece) (rest : List Char) :
    secondHalf (body pieces ++ rest) =
      match pieces.head?.bind Piece.unit? with
      | some unit => .unit unit
      | none => .absent := by
  cases pieces with
  | nil => rfl
  | cons piece pieces =>
    rw [body_cons, List.append_assoc]
    cases piece with
    | plain c h => simp [Piece.chars, Piece.unit?, secondHalf, h.2.1]
    | short letter c h => simp [Piece.chars, Piece.unit?, secondHalf, ne_u_of_unescape? h]
    | code a b c d unit h =>
      have hlong : 4 < (a :: b :: c :: d :: (body pieces ++ rest)).length := by
        obtain ⟨next, more, hmore⟩ := exists_cons_body pieces rest
        simp [hmore]
      simp only [Piece.chars, List.cons_append, List.nil_append, secondHalf, if_pos hlong,
        codeUnit?_append_body, h, List.head?_cons, Option.bind_some, Piece.unit?]

/-- A code that makes no pair with the next piece is read as its own character. -/
theorem readTail_code (opening offset : Nat) {a b c d : Char} {unit : Nat}
    (hunit : hexUnit? a b c d = some unit) {pieces : List Piece}
    (hpair : ∀ low ∈ pieces.head?.bind Piece.unit?,
      (isHighSurrogate unit && isLowSurrogate low) = false) (rest : List Char) :
    readTail opening offset ('\\' :: 'u' :: a :: b :: c :: d :: (body pieces ++ rest)) =
      (readTail opening (offset + 6) (body pieces ++ rest)).map
        fun (text, cursor) => (charOfUnit unit :: text, cursor) := by
  rw [readTail.eq_4, codeUnit?_append_body, hunit]
  simp only [List.drop_succ_cons, List.drop_zero, secondHalf_body]
  cases hhigh : isHighSurrogate unit with
  | false => cases readTail opening (offset + 6) (body pieces ++ rest) <;> rfl
  | true =>
    cases hnext : pieces.head?.bind Piece.unit? with
    | none => cases readTail opening (offset + 6) (body pieces ++ rest) <;> rfl
    | some low =>
      have hlow : isLowSurrogate low = false := by
        simpa [hhigh] using hpair low hnext
      simp only [hlow]
      cases readTail opening (offset + 6) (body pieces ++ rest) <;> rfl

/-- Two codes that name the halves of a pair are read as one character. -/
theorem readTail_pair (opening offset : Nat) {a b c d a' b' c' d' : Char} {high low : Nat}
    (hhigh : hexUnit? a b c d = some high) (hlow : hexUnit? a' b' c' d' = some low)
    (hpair : (isHighSurrogate high && isLowSurrogate low) = true) (pieces : List Piece)
    (rest : List Char) :
    readTail opening offset ('\\' :: 'u' :: a :: b :: c :: d ::
        '\\' :: 'u' :: a' :: b' :: c' :: d' :: (body pieces ++ rest)) =
      (readTail opening (offset + 12) (body pieces ++ rest)).map
        fun (text, cursor) => (charOfPair high low :: text, cursor) := by
  rw [Bool.and_eq_true] at hpair
  have hsecond := secondHalf_body (.code a' b' c' d' low hlow :: pieces) rest
  rw [body_cons, List.append_assoc] at hsecond
  simp only [Piece.chars, List.cons_append, List.nil_append, List.head?_cons, Option.bind_some,
    Piece.unit?] at hsecond
  have hunit := codeUnit?_append_body a b c d (.code a' b' c' d' low hlow :: pieces) rest
  rw [body_cons, List.append_assoc, hhigh] at hunit
  simp only [Piece.chars, List.cons_append, List.nil_append] at hunit
  rw [readTail.eq_4, hunit]
  simp only [List.drop_succ_cons, List.drop_zero, hsecond, hpair.1, hpair.2, if_true]
  cases readTail opening (offset + 12) (body pieces ++ rest) <;> rfl

/-- A piece that makes no pair with the next one is read as its character. -/
theorem readTail_piece (opening offset : Nat) {piece : Piece} {pieces : List Piece}
    (h : ∀ next ∈ pieces.head?, piece.joined? next = none) (rest : List Char) :
    readTail opening offset (piece.chars ++ (body pieces ++ rest)) =
      (readTail opening (offset + piece.chars.length) (body pieces ++ rest)).map
        fun (text, cursor) => (piece.char :: text, cursor) := by
  cases piece with
  | plain c hc => exact readTail_plain opening offset hc _
  | short letter c hletter => exact readTail_short opening offset hletter _
  | code a b c d unit hunit =>
    refine readTail_code opening offset hunit (fun low hlow => ?_) rest
    obtain ⟨next, hnext, hunit'⟩ := Option.bind_eq_some_iff.mp hlow
    have hnone := h next hnext
    rw [Piece.joined?, Piece.unit?, hunit'] at hnone
    simpa using hnone

/-- Two pieces that make a pair are read as its character. -/
theorem readTail_joined (opening offset : Nat) {piece next : Piece} {joined : Char}
    (h : piece.joined? next = some joined) (pieces : List Piece) (rest : List Char) :
    readTail opening offset (piece.chars ++ (next.chars ++ (body pieces ++ rest))) =
      (readTail opening (offset + 12) (body pieces ++ rest)).map
        fun (text, cursor) => (joined :: text, cursor) := by
  cases piece with
  | plain c hc => cases h
  | short letter c hletter => cases h
  | code a b c d high hhigh =>
    cases next with
    | plain c' hc' => cases h
    | short letter' c' hletter' => cases h
    | code a' b' c' d' low hlow =>
      simp only [Piece.joined?, Piece.unit?, Option.ite_none_right_eq_some, Option.some.injEq] at h
      obtain ⟨hpair, rfl⟩ := h
      exact readTail_pair opening offset hhigh hlow hpair pieces rest

/-- Pieces are read as what they stand for, up to and including the closing quote. -/
theorem readTail_body (opening offset : Nat) (pieces : List Piece) (rest : List Char) :
    ∃ offset', readTail opening offset (body pieces ++ rest) =
      .ok (decode pieces, ⟨rest, offset'⟩) := by
  -- Along the recursion of decoding: the pieces of a pair are read in one step.
  induction pieces using decode.induct generalizing offset with
  | case1 => exact ⟨offset + 1, readTail.eq_2 opening offset rest⟩
  | case2 piece =>
    have hnone : ∀ next ∈ ([] : List Piece).head?, piece.joined? next = none := by simp
    refine ⟨offset + piece.chars.length + 1, ?_⟩
    rw [body_cons, List.append_assoc, readTail_piece opening offset hnone, body_nil,
      List.singleton_append, readTail.eq_2]
    rfl
  | case3 piece next pieces joined hjoined ih =>
    obtain ⟨offset', hread⟩ := ih (offset + 12)
    refine ⟨offset', ?_⟩
    rw [body_cons, body_cons, List.append_assoc, List.append_assoc,
      readTail_joined opening offset hjoined, hread, decode, hjoined]
    rfl
  | case4 piece next pieces hjoined ih =>
    obtain ⟨offset', hread⟩ := ih (offset + piece.chars.length)
    refine ⟨offset', ?_⟩
    have hnone : ∀ other ∈ (next :: pieces).head?, piece.joined? other = none := by
      simpa using hjoined
    rw [body_cons, List.append_assoc, readTail_piece opening offset hnone, hread,
      decode_cons hnone]
    rfl

/-! ## Only pieces are read -/

/-- A code unit is read from four digits that something follows. -/
theorem exists_of_codeUnit? {text : List Char} {unit : Nat} (h : codeUnit? text = some unit) :
    ∃ a b c d rest, text = a :: b :: c :: d :: rest ∧ hexUnit? a b c d = some unit := by
  unfold codeUnit? at h
  split at h
  · rename_i a b c d next rest
    exact ⟨a, b, c, d, next :: rest, rfl, h⟩
  · cases h

/-- Behind the first half of a pair a code unit is found only in a code. -/
theorem exists_of_secondHalf {text : List Char} {unit : Nat} (h : secondHalf text = .unit unit) :
    ∃ rest, text = '\\' :: 'u' :: rest ∧ codeUnit? rest = some unit := by
  unfold secondHalf at h
  split at h
  · rename_i rest
    split at h
    · split at h
      · rename_i found hfound
        cases h
        exact ⟨rest, rfl, hfound⟩
      · cases h
    · cases h
  · cases h

/-- What a character is put in front of was read. -/
theorem exists_of_read_cons {c : Char} {read : Except Stop (List Char × Cursor)}
    {result : List Char} {cursor : Cursor}
    (h : (do let (text, after) ← read; .ok (c :: text, after)) = Except.ok (result, cursor)) :
    ∃ text, read = .ok (text, cursor) := by
  cases read with
  | error stop => cases h
  | ok step =>
    obtain ⟨text, after⟩ := step
    cases h
    exact ⟨text, rfl⟩

/-- A code in front of pieces is one piece more. -/
theorem exists_body_code {text after : List Char} {unit : Nat} (h : codeUnit? text = some unit)
    (hrest : ∃ pieces, text.drop 4 = body pieces ++ after) :
    ∃ pieces, '\\' :: 'u' :: text = body pieces ++ after := by
  obtain ⟨a, b, c, d, rest, rfl, hunit⟩ := exists_of_codeUnit? h
  obtain ⟨pieces, hpieces⟩ := hrest
  rw [List.drop_succ_cons, List.drop_succ_cons, List.drop_succ_cons, List.drop_succ_cons,
    List.drop_zero] at hpieces
  exact ⟨.code a b c d unit hunit :: pieces, by simp [Piece.chars, hpieces]⟩

/-- What is read consists of pieces and the closing quote, in front of what is left. -/
theorem exists_body_of_readTail {opening offset : Nat} {text result : List Char} {cursor : Cursor}
    (h : readTail opening offset text = .ok (result, cursor)) :
    ∃ pieces, text = body pieces ++ cursor.rest := by
  fun_induction readTail opening offset text generalizing result cursor with
  | case1 | case3 | case4 | case5 | case10 | case12 => cases h
  | case2 offset rest =>
    cases h
    exact ⟨[], rfl⟩
  | case6 offset rest high hhigh _ low hsecond _ ih =>
    obtain ⟨text, hread⟩ := exists_of_read_cons h
    obtain ⟨more, hmore, hlow⟩ := exists_of_secondHalf hsecond
    -- Two codes were read at once.
    refine exists_body_code hhigh ?_
    rw [hmore]
    refine exists_body_code hlow ?_
    have hdrop : rest.drop 10 = more.drop 4 := calc
      rest.drop 10 = (rest.drop 4).drop 6 := by rw [List.drop_drop]
      _ = more.drop 4 := by rw [hmore]; rfl
    rw [← hdrop]
    exact ih hread
  | case7 offset rest unit hunit _ low _ _ ih =>
    obtain ⟨text, hread⟩ := exists_of_read_cons h
    exact exists_body_code hunit (ih hread)
  | case8 offset rest unit hunit _ _ ih =>
    obtain ⟨text, hread⟩ := exists_of_read_cons h
    exact exists_body_code hunit (ih hread)
  | case9 offset rest unit hunit _ ih =>
    obtain ⟨text, hread⟩ := exists_of_read_cons h
    exact exists_body_code hunit (ih hread)
  | case11 offset letter rest _ c hletter ih =>
    obtain ⟨text, hread⟩ := exists_of_read_cons h
    obtain ⟨pieces, hpieces⟩ := ih hread
    exact ⟨.short letter c hletter :: pieces, by simp [Piece.chars, hpieces]⟩
  | case13 offset c rest hquote halone _ hletter hcontrol ih =>
    have hslash : c ≠ '\\' := by
      rintro rfl
      cases rest with
      | nil => exact halone rfl rfl
      | cons letter others => exact hletter letter others rfl rfl
    obtain ⟨text, hread⟩ := exists_of_read_cons h
    obtain ⟨pieces, hpieces⟩ := ih hread
    exact ⟨.plain c ⟨hquote, hslash, by simpa using hcontrol⟩ :: pieces,
      by simp [Piece.chars, hpieces]⟩

/-- What is read stands for the pieces that it consists of, because they are read as that. -/
theorem exists_pieces_of_readTail {opening offset : Nat} {text result : List Char}
    {cursor : Cursor} (h : readTail opening offset text = .ok (result, cursor)) :
    ∃ pieces, text = body pieces ++ cursor.rest ∧ result = decode pieces := by
  obtain ⟨pieces, hpieces⟩ := exists_body_of_readTail h
  obtain ⟨offset', hbody⟩ := readTail_body opening offset pieces cursor.rest
  rw [← hpieces, h] at hbody
  exact ⟨pieces, hpieces, (Prod.mk.inj (Except.ok.inj hbody)).1⟩

/-- What no character is put in front of was not read, for the same reason. -/
theorem eq_error_of_read_cons {c : Char} {read : Except Stop (List Char × Cursor)} {stop : Stop}
    (h : (do let (text, after) ← read; .ok (c :: text, after)) = Except.error stop) :
    read = .error stop := by
  cases read with
  | error other => exact congrArg Except.error (Except.error.inj h)
  | ok step => cases h

/-- Reading fails with a problem at a place. -/
theorem problem_of_readTail {opening offset : Nat} {text : List Char} {stop : Stop}
    (h : readTail opening offset text = .error stop) :
    ∃ problem place, stop = .at problem place := by
  fun_induction readTail opening offset text with
  | case1 | case3 | case4 | case5 | case10 | case12 => exact ⟨_, _, (Except.error.inj h).symm⟩
  | case2 => cases h
  | case6 | case7 | case8 | case9 | case11 | case13 =>
    rename_i ih
    exact ih (eq_error_of_read_cons h)

/-! ## Whole literals -/

/-- A whole text is read as a literal exactly when it is an opening quote with pieces behind it up
to a closing quote, and as what the pieces stand for. -/
theorem readWhole_eq_ok_iff {literal : List Char} {text : String} :
    readWhole literal = .ok text ↔
      ∃ pieces, literal = '"' :: body pieces ∧ text = String.ofList (decode pieces) := by
  constructor
  · intro h
    unfold readWhole at h
    split at h
    · rename_i rest
      obtain ⟨⟨result, after⟩, hread, h⟩ := exists_of_bind_eq_ok (ok_of_mapError h)
      obtain ⟨pieces, hpieces, rfl⟩ := exists_pieces_of_readTail hread
      dsimp only at h
      split at h
      · rename_i hrest
        rw [List.isEmpty_iff.mp hrest, List.append_nil] at hpieces
        exact ⟨pieces, by rw [hpieces], (Except.ok.inj h).symm⟩
      · cases h
    · cases h
  · rintro ⟨pieces, rfl, rfl⟩
    obtain ⟨offset, hread⟩ := readTail_body 0 1 pieces []
    rw [List.append_nil] at hread
    simp [readWhole, hread, bind, Except.bind, Except.mapError]

/-- Reading a whole literal fails with a problem at a place. -/
theorem problem_of_readWhole {literal : List Char} {fault : Fault}
    (h : readWhole literal = .error fault) : ∃ problem place, fault = .malformed problem place := by
  unfold readWhole at h
  split at h
  · rename_i rest
    cases hread : readTail 0 1 rest with
    | error stop =>
      obtain ⟨problem, place, rfl⟩ := problem_of_readTail hread
      rw [hread] at h
      exact ⟨problem, _, (Except.error.inj h).symm⟩
    | ok step =>
      obtain ⟨result, after⟩ := step
      rw [hread] at h
      by_cases hrest : after.rest.isEmpty = true
      · simp only [bind, Except.bind, hrest, if_true] at h
        cases h
      · simp only [bind, Except.bind, if_neg hrest] at h
        exact ⟨.extraData, _, (Except.error.inj h).symm⟩
  · exact ⟨.valueExpected, _, (Except.error.inj h).symm⟩

/-! ## Ends of literals -/

/-- A digit is neither a quote nor a backslash. -/
theorem ne_of_hexValue? {c : Char} {value : Nat} (h : hexValue? c = some value) :
    c ≠ '"' ∧ c ≠ '\\' := by
  constructor <;> (rintro rfl; simp [hexValue?] at h)

/-- The digits of a code unit are neither quotes nor backslashes. -/
theorem ne_of_hexUnit? {a b c d : Char} {unit : Nat} (h : hexUnit? a b c d = some unit) :
    (a ≠ '"' ∧ a ≠ '\\') ∧ (b ≠ '"' ∧ b ≠ '\\') ∧ (c ≠ '"' ∧ c ≠ '\\') ∧
      (d ≠ '"' ∧ d ≠ '\\') := by
  simp only [hexUnit?, Option.bind_eq_bind, Option.bind_eq_some_iff] at h
  obtain ⟨_, ha, _, hb, _, hc, _, hd, -⟩ := h
  exact ⟨ne_of_hexValue? ha, ne_of_hexValue? hb, ne_of_hexValue? hc, ne_of_hexValue? hd⟩

/-- A character other than a quote and a backslash does not end a literal. -/
theorem splitClosing?_cons {c : Char} (hquote : c ≠ '"') (hslash : c ≠ '\\') (rest : List Char) :
    splitClosing? (c :: rest) =
      (splitClosing? rest).map fun (body, after) => (c :: body, after) :=
  splitClosing?.eq_5 c rest hquote (fun h => absurd h hslash) (fun _ _ h => absurd h hslash)

/-- A piece does not end a literal. -/
theorem splitClosing?_piece (piece : Piece) (rest : List Char) :
    splitClosing? (piece.chars ++ rest) =
      (splitClosing? rest).map fun (body, after) => (piece.chars ++ body, after) := by
  cases piece with
  | plain c h => exact splitClosing?_cons h.1 h.2.1 rest
  | short letter c h =>
    have hletter : letter ≠ '\n' := by
      rintro rfl
      simp [unescape?] at h
    simp [Piece.chars, splitClosing?, hletter]
  | code a b c d unit h =>
    obtain ⟨ha, hb, hc, hd⟩ := ne_of_hexUnit? h
    have hu : 'u' ≠ '\n' := by decide
    simp only [Piece.chars, List.cons_append, List.nil_append, splitClosing?.eq_4, if_neg hu,
      splitClosing?_cons ha.1 ha.2, splitClosing?_cons hb.1 hb.2, splitClosing?_cons hc.1 hc.2,
      splitClosing?_cons hd.1 hd.2, Option.map_map, Function.comp_def]

/-- The end that is found for a literal is the end of its pieces. -/
theorem splitClosing?_body (pieces : List Piece) (rest : List Char) :
    splitClosing? (body pieces ++ rest) = some (body pieces, rest) := by
  induction pieces with
  | nil => rfl
  | cons piece pieces ih =>
    rw [body_cons, List.append_assoc, splitClosing?_piece, ih]
    rfl

/-! ## One row of pieces -/

/-- A piece does not start with a quote. -/
theorem Piece.chars_append_ne (piece : Piece) (rest more : List Char) :
    piece.chars ++ rest ≠ '"' :: more := by
  cases piece with
  | plain c h => simpa [chars] using fun hquote => absurd hquote h.1
  | short letter c h => simp [chars]
  | code a b c d unit h => simp [chars]

/-- A piece is known from its characters, whatever follows it. -/
theorem Piece.eq_of_append {piece other : Piece} {rest more : List Char}
    (h : piece.chars ++ rest = other.chars ++ more) : piece = other ∧ rest = more := by
  cases piece with
  | plain c hc =>
    cases other with
    | plain c' hc' => simpa [chars] using h
    | short letter c' hletter => simp [chars, hc.2.1] at h
    | code a b c' d unit hunit => simp [chars, hc.2.1] at h
  | short letter c hletter =>
    cases other with
    | plain c' hc' => simp [chars, Ne.symm hc'.2.1] at h
    | short letter' c' hletter' =>
      simp only [chars, List.cons_append, List.nil_append, List.cons.injEq, true_and] at h
      obtain ⟨rfl, hrest⟩ := h
      obtain rfl : c = c' := Option.some.inj (hletter.symm.trans hletter')
      exact ⟨rfl, hrest⟩
    | code a b c' d unit hunit => simp [chars, ne_u_of_unescape? hletter] at h
  | code a b c d unit hunit =>
    cases other with
    | plain c' hc' => simp [chars, Ne.symm hc'.2.1] at h
    | short letter' c' hletter' => simp [chars, Ne.symm (ne_u_of_unescape? hletter')] at h
    | code a' b' c' d' unit' hunit' =>
      simp only [chars, List.cons_append, List.nil_append, List.cons.injEq, true_and] at h
      obtain ⟨rfl, rfl, rfl, rfl, hrest⟩ := h
      obtain rfl : unit = unit' := Option.some.inj (hunit.symm.trans hunit')
      exact ⟨rfl, hrest⟩

/-- Pieces up to a closing quote are known from their characters, whatever follows them. -/
theorem eq_of_body_append {pieces others : List Piece} {rest more : List Char}
    (h : body pieces ++ rest = body others ++ more) : pieces = others ∧ rest = more := by
  induction pieces generalizing others with
  | nil =>
    cases others with
    | nil => exact ⟨rfl, by simpa using h⟩
    | cons other others =>
      rw [body_cons, List.append_assoc] at h
      exact absurd h.symm (other.chars_append_ne _ _)
  | cons piece pieces ih =>
    cases others with
    | nil =>
      rw [body_cons, List.append_assoc] at h
      exact absurd h (piece.chars_append_ne _ _)
    | cons other others =>
      rw [body_cons, body_cons, List.append_assoc, List.append_assoc] at h
      obtain ⟨rfl, hbelow⟩ := Piece.eq_of_append h
      obtain ⟨rfl, hrest⟩ := ih hbelow
      exact ⟨rfl, hrest⟩

end Literal

/-! ## Literals in documents -/

/-- A literal that is read to its end is read as a text of a document. -/
theorem readLiteral_of_ok {opening : Nat} {cursor after : Cursor} {text : List Char}
    (h : Literal.readTail opening cursor.offset cursor.rest = .ok (text, after)) :
    readLiteral opening cursor = .ok ⟨(String.ofList text, after), Literal.readTail_shorter h⟩ := by
  unfold readLiteral
  split
  · rename_i hread
    cases h.symm.trans hread
  · rename_i hread
    cases h.symm.trans hread
    rfl

/-- A literal that is not read to its end stops the reader of documents. -/
theorem readLiteral_of_error {opening : Nat} {cursor : Cursor} {stop : Stop}
    (h : Literal.readTail opening cursor.offset cursor.rest = .error stop) :
    readLiteral opening cursor = .error stop := by
  unfold readLiteral
  split
  · rename_i hread
    cases h.symm.trans hread
    rfl
  · rename_i hread
    cases h.symm.trans hread

/-- A value that starts with a quote is the literal that starts there. -/
theorem map_readValue_quote (rest : List Char) :
    (readValue ⟨'"' :: rest, 0⟩).map Subtype.val =
      (Literal.readTail 0 1 rest).map fun (text, after) => (.str (String.ofList text), after) := by
  rw [readValue]
  split
  · rename_i other hother
    cases hother
    cases hread : Literal.readTail 0 1 rest with
    | error stop =>
      rw [readLiteral_of_error hread]
      rfl
    | ok step =>
      rw [readLiteral_of_ok hread]
      rfl
  · rename_i hother
    cases hother
  · rename_i hother
    cases hother
  · rename_i hquote _ _
    exact absurd rfl (hquote rest)

/-- A document that starts with a quote is read when its literal is and only blanks follow. -/
theorem readText_quote_eq_ok_iff {rest : List Char} {value : Json} :
    readText ('"' :: rest) = .ok value ↔ ∃ text after,
      Literal.readTail 0 1 rest = .ok (text, after) ∧ after.rest.dropWhile isBlank = [] ∧
        value = .str (String.ofList text) := by
  have hstart : Cursor.skipBlanks ⟨'"' :: rest, 0⟩ = ⟨⟨'"' :: rest, 0⟩, Nat.le_refl _⟩ := rfl
  have hvalue := map_readValue_quote rest
  rw [readText, hstart]
  dsimp only
  cases hfirst : readValue ⟨'"' :: rest, 0⟩ with
  | error stop =>
    rw [hfirst] at hvalue
    cases hread : Literal.readTail 0 1 rest with
    | error other => simp [bind, Except.bind]
    | ok step =>
      rw [hread] at hvalue
      cases hvalue
  | ok found =>
    obtain ⟨⟨first, after⟩, hafter⟩ := found
    rw [hfirst] at hvalue
    cases hread : Literal.readTail 0 1 rest with
    | error other =>
      rw [hread] at hvalue
      cases hvalue
    | ok step =>
      obtain ⟨text, behind⟩ := step
      rw [hread] at hvalue
      obtain ⟨rfl, rfl⟩ := Prod.mk.inj (Except.ok.inj hvalue)
      simp only [bind, Except.bind]
      by_cases hblank : after.rest.dropWhile isBlank = []
      · have hempty : after.skipBlanks.1.rest.isEmpty = true := List.isEmpty_iff.mpr hblank
        simp only [hempty, if_true, Except.ok.injEq]
        constructor
        · rintro rfl
          exact ⟨text, after, rfl, hblank, rfl⟩
        · rintro ⟨_, _, heq, -, rfl⟩
          obtain ⟨rfl, rfl⟩ := Prod.mk.inj heq
          rfl
      · have hleft : after.skipBlanks.1.rest.isEmpty ≠ true :=
          fun hempty => hblank (List.isEmpty_iff.mp hempty)
        simp only [hleft]
        constructor
        · rintro ⟨⟩
        · rintro ⟨_, _, heq, hnone, -⟩
          obtain ⟨rfl, rfl⟩ := Prod.mk.inj (Except.ok.inj heq)
          exact absurd hnone hblank

/-- A text of a document is written between quotes, as pieces up to a closing quote, and only blanks
may follow. -/
theorem readChars_quote_eq_ok_iff {rest : List Char} {value : Json} :
    readChars ('"' :: rest) = .ok value ↔ ∃ pieces blanks,
      rest = Literal.body pieces ++ blanks ∧ (∀ c ∈ blanks, isBlank c = true) ∧
        value = .str (String.ofList (Literal.decode pieces)) := by
  have hchars : readChars ('"' :: rest) = .ok value ↔ readText ('"' :: rest) = .ok value := by
    rw [readChars]
    cases readText ('"' :: rest) <;> simp [Except.mapError]
  rw [hchars, readText_quote_eq_ok_iff]
  constructor
  · rintro ⟨text, after, hread, hblank, rfl⟩
    obtain ⟨pieces, hpieces, rfl⟩ := Literal.exists_pieces_of_readTail hread
    exact ⟨pieces, after.rest, hpieces, List.dropWhile_eq_nil_iff.1 hblank, rfl⟩
  · rintro ⟨pieces, blanks, rfl, hblanks, rfl⟩
    obtain ⟨offset, hbody⟩ := Literal.readTail_body 0 1 pieces blanks
    exact ⟨_, _, hbody, List.dropWhile_eq_nil_iff.2 hblanks, rfl⟩

/-- A document that starts and ends with a quote is read exactly when it is a literal, and as what
the pieces of the literal stand for. -/
theorem read_eq_ok_iff_of_quotes {literal : String} {value : Json}
    (hfirst : literal.toList.head? = some '"') (hlast : literal.toList.getLast? = some '"') :
    read literal = .ok value ↔ ∃ pieces, literal.toList = '"' :: Literal.body pieces ∧
      value = .str (String.ofList (Literal.decode pieces)) := by
  obtain ⟨rest, hliteral⟩ := List.head?_eq_some_iff.mp hfirst
  have hread : read literal = readChars ('"' :: rest) := by
    rw [read, hliteral]
    exact if_neg (by decide)
  rw [hread, readChars_quote_eq_ok_iff, hliteral]
  constructor
  · rintro ⟨pieces, blanks, rfl, hblanks, rfl⟩
    -- The quote at the end is no blank.
    rcases List.eq_nil_or_concat blanks with rfl | ⟨front, last, rfl⟩
    · exact ⟨pieces, by rw [List.append_nil], rfl⟩
    · rw [List.concat_eq_append] at hblanks hliteral
      have hquote : last = '"' := by
        rw [hliteral, ← List.append_assoc, ← List.cons_append, List.getLast?_concat] at hlast
        exact Option.some.inj hlast
      have hblank := hblanks last (by simp)
      rw [hquote] at hblank
      cases hblank
  · rintro ⟨pieces, hpieces, rfl⟩
    exact ⟨pieces, [], by simpa using hpieces, by simp, rfl⟩

end Projector.Json
