import RacketTree.Text.Case

/-!
# Character names

The names that may follow `#\`. Case is ignored.
-/

namespace RacketTree.Text

/-- Named characters and their code points. -/
def charNames : List (String × Nat) := [
  ("nul", 0x00), ("null", 0x00), ("backspace", 0x08), ("tab", 0x09), ("newline", 0x0A),
  ("linefeed", 0x0A), ("vtab", 0x0B), ("page", 0x0C), ("return", 0x0D), ("space", 0x20),
  ("rubout", 0x7F), ("delete", 0x7F)]

/-- The code point of a character name. -/
def namedChar? (word : List Char) : Option Nat :=
  (charNames.find? fun entry => entry.1.toList == word.map lower).map (·.2)

end RacketTree.Text
