import Projector.Text.Unassigned

/-!
# Invisible characters

The characters that a message shows by their code instead of as they are: controls, separators
other than the plain space, format characters, the private use areas, and code points to which no
character is assigned.
-/

namespace Projector.Text

/-- Closed ranges, in ascending order, of the assigned code points whose characters have no glyph of
their own. -/
def glyphlessRanges : List (Nat × Nat) :=
  [(0x0, 0x1F), (0x7F, 0xA0), (0xAD, 0xAD), (0x600, 0x605), (0x61C, 0x61C), (0x6DD, 0x6DD),
   (0x70F, 0x70F), (0x890, 0x891), (0x8E2, 0x8E2), (0x1680, 0x1680), (0x180E, 0x180E),
   (0x2000, 0x200F), (0x2028, 0x202F), (0x205F, 0x2064), (0x2066, 0x206F), (0x3000, 0x3000),
   (0xE000, 0xF8FF), (0xFEFF, 0xFEFF), (0xFFF9, 0xFFFB), (0x110BD, 0x110BD), (0x110CD, 0x110CD),
   (0x13430, 0x13438), (0x1BCA0, 0x1BCA3), (0x1D173, 0x1D17A), (0xE0001, 0xE0001),
   (0xE0020, 0xE007F), (0xF0000, 0xFFFFD), (0x100000, 0x10FFFD)]

/-- Whether a character has no glyph of its own. -/
def isInvisible (c : Char) : Bool := inRanges c.toNat glyphlessRanges || isUnassigned c.toNat

/-- Every control character of the first block is invisible. -/
theorem isInvisible_of_control {c : Char} (control : c.toNat < 0x20) : isInvisible c = true := by
  have h : c.toNat ≤ 0x1F := by omega
  simp [isInvisible, inRanges, glyphlessRanges, h]

/-- The other characters of that block, but for the last, are not. -/
theorem isInvisible_of_plain {c : Char} (above : 0x20 ≤ c.toNat) (below : c.toNat < 0x7F) :
    isInvisible c = false := by
  have unassigned : isUnassigned c.toNat = false :=
    @inRanges_of_lt c.toNat 0x378 0x379 _ (by omega)
  have h : ¬c.toNat ≤ 0x1F := by omega
  simp [isInvisible, unassigned, inRanges, glyphlessRanges, h, below]

end Projector.Text
