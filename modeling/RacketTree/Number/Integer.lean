import RacketTree.Number.Radix
import RacketTree.Text.Blank
import RacketTree.Text.Case
import RacketTree.Text.DecimalDigit

/-!
# Reading integers

`readInteger?` is the liberal reading of an integer in a given radix: blanks at either end, a sign,
a radix mark such as `0x` if it is that of the radix, digits of any script, and single underscores
between digits. The information separators U+001C to U+001F do not count as blanks here. In radix
ten a text of more than `maxDigits` digits is refused.
-/

namespace RacketTree.Number

/-- The greatest number of decimal digits that is read. -/
def maxDigits : Nat := 4300

/-- The value of a digit: a decimal digit of any script or an ASCII letter. -/
def digitValue? (c : Char) : Option Nat :=
  match Text.decimalValue? c with
  | some v => some v
  | none =>
    if 'a' ≤ c && c ≤ 'z' then some (c.toNat - 87)
    else if 'A' ≤ c && c ≤ 'Z' then some (c.toNat - 55)
    else none

/-- The text without one underscore at its front. -/
def skipUnderscore : List Char → List Char
  | '_' :: rest => rest
  | rest => rest

/-- The text without a leading zero and radix letter, if they name the radix. -/
def dropRadixMark (r : Radix) : List Char → List Char
  | z :: m :: rest =>
    let named := match r with
      | .binary => Text.lower m == 'b'
      | .octal => Text.lower m == 'o'
      | .hexadecimal => Text.lower m == 'x'
      | .decimal => false
    if Text.decimalValue? z == some 0 && named then skipUnderscore rest else z :: m :: rest
  | rest => rest

/-- The digit values of a text in which single underscores stand only between digits. -/
def digitValues? (r : Radix) : List Char → Option (List Nat)
  | [] => none
  | c :: rest =>
    match digitValue? c with
    | none => none
    | some v =>
      if v < r.value then
        match rest with
        | [] => some [v]
        | '_' :: rest' => (digitValues? r rest').map (v :: ·)
        | rest' => (digitValues? r rest').map (v :: ·)
      else none

/-- The number that a list of digits stands for. -/
def ofDigits (radix : Nat) (digits : List Nat) : Nat :=
  digits.foldl (fun n d => n * radix + d) 0

/-- Reads an unsigned integer. -/
def readNatural? (r : Radix) (text : List Char) : Option Nat :=
  match digitValues? r (dropRadixMark r text) with
  | none => none
  | some digits =>
    if r = .decimal && maxDigits < digits.length then none else some (ofDigits r.value digits)

/-- A blank that may stand around an integer. -/
def isMargin (c : Char) : Bool :=
  Text.isBlank c && !(0x1C ≤ c.toNat && c.toNat ≤ 0x1F)

/-- The text without the blanks around an integer. -/
def dropMargins (text : List Char) : List Char :=
  ((text.dropWhile isMargin).reverse.dropWhile isMargin).reverse

/-- Reads an integer in the given radix. -/
def readInteger? (r : Radix) (text : List Char) : Option Int :=
  match dropMargins text with
  | '-' :: rest => (readNatural? r rest).map fun n => -(n : Int)
  | '+' :: rest => (readNatural? r rest).map Int.ofNat
  | rest => (readNatural? r rest).map Int.ofNat

end RacketTree.Number
