import Mathlib.Tactic.SplitIfs
import Projector.Proofs.LiteralGrammar

/-!
# Literals are read back

A text is written as a string literal by pieces of the grammar, one for each character, that stand
for the characters. So reading the literal gives the text again, whatever characters it has.
-/

namespace Projector.Json.Literal

/-- The number of a hexadecimal digit is read back from it. -/
theorem hexValue?_hexDigit (value : Nat) : hexValue? (Text.hexDigit value) = some (value % 16) := by
  have hlt : value % 16 < 16 := Nat.mod_lt _ (by decide)
  unfold Text.hexDigit
  generalize value % 16 = digit at hlt
  have hall : ∀ digit < 16, hexValue? (Nat.digitChar digit) = some digit := by decide
  exact hall digit hlt

/-- A code below sixty-five thousand is read back from its four digits. -/
theorem exists_hexDigits {code : Nat} (hcode : code < 0x10000) :
    ∃ a b c d, Text.hexDigits code 4 = [a, b, c, d] ∧ hexUnit? a b c d = some code := by
  refine ⟨_, _, _, _, rfl, ?_⟩
  simp only [hexUnit?, hexValue?_hexDigit, Option.bind_eq_bind, Option.bind_some,
    Option.some.injEq]
  omega

/-- A short escape stands for the character that it was chosen for. -/
theorem unescape?_shortEscape? {c letter : Char} (h : shortEscape? c = some letter) :
    unescape? letter = some c := by
  unfold shortEscape? at h
  split_ifs at h <;> cases h <;> subst_vars <;> decide

/-- A character without a short escape is neither the quote nor the backslash. -/
theorem ne_of_shortEscape?_eq_none {c : Char} (h : shortEscape? c = none) : c ≠ '"' ∧ c ≠ '\\' := by
  constructor
  · rintro rfl; simp [shortEscape?] at h
  · rintro rfl; simp [shortEscape?] at h

/-- Behind the opening quote, a text as it is written and the quote that closes it. -/
def writeTail (text : List Char) : List Char := text.flatMap (writeChar isControl) ++ ['"']

@[simp] theorem writeTail_nil : writeTail [] = ['"'] := rfl

@[simp] theorem writeTail_cons (c : Char) (text : List Char) :
    writeTail (c :: text) = writeChar isControl c ++ writeTail text := by
  simp [writeTail]

/-- A literal is an opening quote and its tail. -/
theorem write_eq (text : List Char) : write isControl text = '"' :: writeTail text := by
  simp [write, writeTail]

/-- A character is written as a piece that stands for it and makes no pair with another one. -/
theorem exists_piece (c : Char) : ∃ piece : Piece, piece.chars = writeChar isControl c ∧
    piece.char = c ∧ ∀ next, piece.joined? next = none := by
  unfold writeChar
  cases hshort : shortEscape? c with
  | some letter => exact ⟨.short letter c (unescape?_shortEscape? hshort), rfl, rfl, fun _ => rfl⟩
  | none =>
    obtain ⟨hquote, hslash⟩ := ne_of_shortEscape?_eq_none hshort
    by_cases hcontrol : isControl c = true
    · have hsmall : c.toNat < 0x20 := by simpa [isControl] using hcontrol
      obtain ⟨a, b, a', b', hdigits, hunit⟩ := exists_hexDigits (show c.toNat < 0x10000 by omega)
      have hhigh : isHighSurrogate c.toNat = false := by
        simp only [isHighSurrogate, Bool.and_eq_false_iff, decide_eq_false_iff_not]; omega
      have hlow : isLowSurrogate c.toNat = false := by
        simp only [isLowSurrogate, Bool.and_eq_false_iff, decide_eq_false_iff_not]; omega
      refine ⟨.code a b a' b' c.toNat hunit, ?_, ?_, Piece.joined?_of_not_high ?_⟩
      · simp [Piece.chars, hcontrol, hdigits]
      · simp [Piece.char, charOfUnit, hhigh, hlow, Char.ofNat_toNat]
      · simpa [Piece.unit?] using hhigh
    · rw [Bool.not_eq_true] at hcontrol
      refine ⟨.plain c ⟨hquote, hslash, hcontrol⟩, ?_, rfl, fun _ => rfl⟩
      simp [Piece.chars, hcontrol]

/-- A text is written as pieces that stand for it. -/
theorem exists_pieces (text : List Char) :
    ∃ pieces, body pieces = writeTail text ∧ decode pieces = text := by
  induction text with
  | nil => exact ⟨[], rfl, rfl⟩
  | cons c text ih =>
    obtain ⟨piece, hchars, hchar, halone⟩ := exists_piece c
    obtain ⟨pieces, hbody, hdecode⟩ := ih
    refine ⟨piece :: pieces, ?_, ?_⟩
    · rw [body_cons, hchars, hbody, writeTail_cons]
    · rw [decode_cons fun next _ => halone next, hchar, hdecode]

/-- Reading what is behind the opening quote of a written literal gives the text and what follows
the literal. -/
theorem readTail_writeTail (opening offset : Nat) (text rest : List Char) :
    ∃ offset', readTail opening offset (writeTail text ++ rest) = .ok (text, ⟨rest, offset'⟩) := by
  obtain ⟨pieces, hbody, hdecode⟩ := exists_pieces text
  have hread := readTail_body opening offset pieces rest
  rwa [hbody, hdecode] at hread

end Projector.Json.Literal
