import Projector.Text.Quoted

/-!
# Decoding bytes

A file is a list of bytes. Which encoding it has is told by a byte order mark or, without one, by
where zero bytes stand among the first bytes, since a JSON text starts with characters below
U+0080. The mark is no part of the text. Bytes that are no text are refused with their positions
and the reason.
-/

namespace Projector.Text

/-- The order of the bytes of one unit. -/
inductive ByteOrder
  | big
  | little
  deriving DecidableEq

/-- An encoding of text as bytes. -/
inductive Encoding
  | utf8
  | utf16 (order : ByteOrder)
  | utf32 (order : ByteOrder)
  deriving DecidableEq

/-- The name of an encoding. -/
def Encoding.name : Encoding → String
  | .utf8 => "utf-8"
  | .utf16 .big => "utf-16-be"
  | .utf16 .little => "utf-16-le"
  | .utf32 .big => "utf-32-be"
  | .utf32 .little => "utf-32-le"

/-- Why bytes are no text. -/
inductive DecodingReason
  | invalidStart
  | invalidContinuation
  | unexpectedEnd
  | truncated
  | outOfRange
  deriving DecidableEq

/-- The wording of a reason. -/
def DecodingReason.text : DecodingReason → String
  | .invalidStart => "invalid start byte"
  | .invalidContinuation => "invalid continuation byte"
  | .unexpectedEnd => "unexpected end of data"
  | .truncated => "truncated data"
  | .outOfRange => "code point not in range(0x110000)"

/-- The bytes that cannot be decoded: the first of them, its position and how many there are. -/
structure DecodingFault where
  encoding : Encoding
  first : UInt8
  position : Nat
  count : Nat
  reason : DecodingReason
  deriving DecidableEq

/-- The wording of a decoding fault. -/
def DecodingFault.message (fault : DecodingFault) : String :=
  let bytes :=
    if fault.count = 1 then
      "byte 0x" ++ String.ofList (hexDigits fault.first.toNat 2) ++ " in position " ++
        toString fault.position
    else
      "bytes in position " ++ toString fault.position ++ "-" ++
        toString (fault.position + fault.count - 1)
  "'" ++ fault.encoding.name ++ "' codec can't decode " ++ bytes ++ ": " ++ fault.reason.text

/-- The character of a code point; the halves of surrogate pairs have none and are replaced. -/
def charOfPoint (point : Nat) : Char :=
  if 0xD800 ≤ point ∧ point < 0xE000 then '\uFFFD' else Char.ofNat point

namespace Utf8

/-- What a lead byte promises: how many bytes follow, the range of the first of them, and the bits
that the lead byte itself gives. -/
structure Lead where
  following : Nat
  low : Nat
  high : Nat
  bits : Nat

/-- Reads a lead byte above U+007F. The ranges leave out overlong forms, the halves of surrogate
pairs and everything beyond the last code point. -/
def lead? (byte : Nat) : Option Lead :=
  if 0xC2 ≤ byte ∧ byte ≤ 0xDF then some ⟨1, 0x80, 0xBF, byte - 0xC0⟩
  else if byte = 0xE0 then some ⟨2, 0xA0, 0xBF, 0⟩
  else if byte = 0xED then some ⟨2, 0x80, 0x9F, 0xD⟩
  else if 0xE1 ≤ byte ∧ byte ≤ 0xEF then some ⟨2, 0x80, 0xBF, byte - 0xE0⟩
  else if byte = 0xF0 then some ⟨3, 0x90, 0xBF, 0⟩
  else if byte = 0xF4 then some ⟨3, 0x80, 0x8F, 4⟩
  else if 0xF1 ≤ byte ∧ byte ≤ 0xF3 then some ⟨3, 0x80, 0xBF, byte - 0xF0⟩
  else none

/-- A sequence that breaks off: how many of its bytes are good, and why it ends there. -/
abbrev Broken := Nat × DecodingReason

/-- Reads the bytes that a lead byte promises. `good` bytes of the sequence have been read. -/
def takeTail (lead : Lead) (good : Nat) (bytes : List UInt8) :
    Except Broken (Nat × { rest : List UInt8 // rest.length ≤ bytes.length }) :=
  match lead with
  | ⟨0, _, _, bits⟩ => .ok (bits, ⟨bytes, Nat.le_refl _⟩)
  | ⟨following + 1, low, high, bits⟩ =>
    match bytes with
    | [] => .error (good, .unexpectedEnd)
    | byte :: rest =>
      if low ≤ byte.toNat ∧ byte.toNat ≤ high then do
        let (point, ⟨rest, _⟩) ←
          takeTail ⟨following, 0x80, 0xBF, bits * 64 + (byte.toNat - 0x80)⟩ (good + 1) rest
        .ok (point, ⟨rest, by grind⟩)
      else .error (good, .invalidContinuation)
termination_by lead.following

/-- Decodes UTF-8 from a position on. -/
def decode (position : Nat) (bytes : List UInt8) : Except DecodingFault (List Char) :=
  match bytes with
  | [] => .ok []
  | byte :: rest =>
    if byte.toNat < 0x80 then do
      let text ← decode (position + 1) rest
      .ok (Char.ofNat byte.toNat :: text)
    else
      match lead? byte.toNat with
      | none => .error ⟨.utf8, byte, position, 1, .invalidStart⟩
      | some lead =>
        match takeTail lead 1 rest with
        | .error (good, reason) => .error ⟨.utf8, byte, position, good, reason⟩
        | .ok (point, ⟨after, _⟩) => do
          let text ← decode (position + lead.following + 1) after
          .ok (charOfPoint point :: text)
termination_by bytes.length

end Utf8

/-- The number that some bytes of one unit write. -/
def unitValue (order : ByteOrder) (bytes : List UInt8) : Nat :=
  let bytes := match order with
    | .big => bytes
    | .little => bytes.reverse
  bytes.foldl (fun value byte => value * 256 + byte.toNat) 0

/-- Decodes UTF-16 from a position on. -/
def decodeUtf16 (order : ByteOrder) (position : Nat) :
    List UInt8 → Except DecodingFault (List Char)
  | [] => .ok []
  | [byte] => .error ⟨.utf16 order, byte, position, 1, .truncated⟩
  | a :: b :: c :: d :: rest =>
    let unit := unitValue order [a, b]
    let next := unitValue order [c, d]
    if 0xD800 ≤ unit ∧ unit < 0xDC00 ∧ 0xDC00 ≤ next ∧ next < 0xE000 then do
      let text ← decodeUtf16 order (position + 4) rest
      .ok (Char.ofNat (0x10000 + (unit - 0xD800) * 0x400 + (next - 0xDC00)) :: text)
    else do
      let text ← decodeUtf16 order (position + 2) (c :: d :: rest)
      .ok (charOfPoint unit :: text)
  | a :: b :: rest => do
    let text ← decodeUtf16 order (position + 2) rest
    .ok (charOfPoint (unitValue order [a, b]) :: text)

/-- Decodes UTF-32 from a position on. -/
def decodeUtf32 (order : ByteOrder) (position : Nat) :
    List UInt8 → Except DecodingFault (List Char)
  | [] => .ok []
  | a :: b :: c :: d :: rest =>
    let point := unitValue order [a, b, c, d]
    if 0x110000 ≤ point then .error ⟨.utf32 order, a, position, 4, .outOfRange⟩
    else do
      let text ← decodeUtf32 order (position + 4) rest
      .ok (charOfPoint point :: text)
  | byte :: rest => .error ⟨.utf32 order, byte, position, rest.length + 1, .truncated⟩

/-- Decodes bytes of a known encoding from a position on. -/
def Encoding.decode (encoding : Encoding) (position : Nat) (bytes : List UInt8) :
    Except DecodingFault (List Char) :=
  match encoding with
  | .utf8 => Utf8.decode position bytes
  | .utf16 order => decodeUtf16 order position bytes
  | .utf32 order => decodeUtf32 order position bytes

/-- Tells the encoding of bytes without a byte order mark. -/
def guessEncoding : List UInt8 → Encoding
  | [a, b] => if a = 0 then .utf16 .big else if b = 0 then .utf16 .little else .utf8
  | a :: b :: c :: d :: _ =>
    if a = 0 then if b = 0 then .utf32 .big else .utf16 .big
    else if b = 0 then if c = 0 ∧ d = 0 then .utf32 .little else .utf16 .little
    else .utf8
  | _ => .utf8

/-- The text that bytes write. Positions count from the first byte, except that a UTF-8 mark is
taken off before counting. -/
def decodeBytes : List UInt8 → Except DecodingFault (List Char)
  | 0x00 :: 0x00 :: 0xFE :: 0xFF :: rest => Encoding.decode (.utf32 .big) 4 rest
  | 0xFF :: 0xFE :: 0x00 :: 0x00 :: rest => Encoding.decode (.utf32 .little) 4 rest
  | 0xFE :: 0xFF :: rest => Encoding.decode (.utf16 .big) 2 rest
  | 0xFF :: 0xFE :: rest => Encoding.decode (.utf16 .little) 2 rest
  | 0xEF :: 0xBB :: 0xBF :: rest => Encoding.decode .utf8 0 rest
  | bytes => (guessEncoding bytes).decode 0 bytes

/-- The bytes of a text in UTF-8. -/
def utf8Bytes (text : String) : List UInt8 := text.toUTF8.data.toList

end Projector.Text
