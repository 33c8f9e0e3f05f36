import RacketTree.Text.Ranges

/-!
# Blanks

The characters that separate tokens: the ASCII blanks, the information separators U+001C to U+001F,
the next-line control and every Unicode separator. Zero-width characters are not blanks.
-/

namespace RacketTree.Text

/-- Inclusive ranges of blanks. -/
def blankRanges : List (Nat × Nat) := [
  (0x9, 0xD), (0x1C, 0x20), (0x85, 0x85), (0xA0, 0xA0), (0x1680, 0x1680), (0x2000, 0x200A),
  (0x2028, 0x2029), (0x202F, 0x202F), (0x205F, 0x205F), (0x3000, 0x3000)]

/-- A character that separates tokens. -/
def isBlank (c : Char) : Bool :=
  inRanges blankRanges c.toNat

/-- The text without the blanks at either end. -/
def strip (text : List Char) : List Char :=
  ((text.dropWhile isBlank).reverse.dropWhile isBlank).reverse

end RacketTree.Text
