/-!
# Letter case

Names in the notation (booleans, character names, number marks) are ASCII and ignore case. Two
relations are in use, and they differ outside ASCII:

* `lower` maps a character to lower case. Besides the ASCII capitals only the Kelvin sign lands on
  an ASCII letter.
* `foldsTo` is case-insensitive matching against one lower-case ASCII letter. It also lets the two
  Turkish letters stand for `i` and the long s stand for `s`.
-/

namespace RacketTree.Text

/-- Lower case, as far as the result is an ASCII letter; other characters stay as they are. -/
def lower (c : Char) : Char :=
  if c = '\u212A' then 'k' else c.toLower

/-- The character matches the lower-case ASCII letter when case is ignored. -/
def foldsTo (letter c : Char) : Bool :=
  lower c == letter ||
    (letter == 'i' && (c == '\u0130' || c == '\u0131')) ||
    (letter == 's' && c == '\u017F')

end RacketTree.Text
