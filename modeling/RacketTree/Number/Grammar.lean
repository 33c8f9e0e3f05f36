import RacketTree.Number.Pattern
import RacketTree.Number.Radix
import RacketTree.Text.Case

/-!
# The grammar of number bodies

What may follow the `#` marks of a number, one pattern for each radix:

* an unsigned integer is digits, the last of which may be replaced by `#`;
* an unsigned real is a fraction of two such integers, or a decimal with an optional exponent;
* a real is an unsigned real with an optional sign, or a signed infinity or not-a-number;
* a number is a real, a polar pair of reals with `@` between, or an imaginary part with an optional
  real before it.

Letters ignore case.
-/

namespace RacketTree.Number.Grammar

open Pattern

/-- One of the lower-case letters, in either case. -/
def letter (letters : List Char) : Pattern :=
  char fun c => letters.any (Text.foldsTo · c)

/-- A word of lower-case letters, in either case. -/
def word (letters : List Char) : Pattern :=
  inOrder (letters.map fun l => letter [l])

/-- A sign. -/
def sign : Pattern :=
  char fun c => c == '+' || c == '-'

/-- A run of `#`, each in place of a digit. -/
def hashes : Pattern :=
  star (exactly '#')

/-- A digit of the radix. -/
def digit (r : Radix) : Pattern :=
  char r.isDigit

/-- An unsigned integer. -/
def uinteger (r : Radix) : Pattern :=
  seq (many1 (digit r)) hashes

/-- A decimal without exponent. -/
def udecimal (r : Radix) : Pattern :=
  oneOf [
    inOrder [many1 (digit r), hashes, exactly '.', hashes],
    inOrder [star (digit r), exactly '.', many1 (digit r), hashes],
    uinteger r]

/-- An exponent. -/
def exponent (r : Radix) : Pattern :=
  inOrder [letter r.exponentMarks, optional sign, many1 (digit r)]

/-- An unsigned real. -/
def ureal (r : Radix) : Pattern :=
  alt (inOrder [uinteger r, exactly '/', uinteger r]) (seq (udecimal r) (optional (exponent r)))

/-- An infinity or a not-a-number, without its sign. -/
def special : Pattern :=
  inOrder [
    alt (word ['i', 'n', 'f']) (word ['n', 'a', 'n']), exactly '.', letter ['0', 'f', 't']]

/-- A real. -/
def real (r : Radix) : Pattern :=
  alt (seq (optional sign) (ureal r)) (seq sign special)

/-- An imaginary part. -/
def imaginary (r : Radix) : Pattern :=
  inOrder [sign, optional (alt (ureal r) special), letter ['i']]

/-- A number without marks. -/
def body (r : Radix) : Pattern :=
  oneOf [
    inOrder [real r, exactly '@', real r],
    seq (optional (real r)) (imaginary r),
    real r]

end RacketTree.Number.Grammar
