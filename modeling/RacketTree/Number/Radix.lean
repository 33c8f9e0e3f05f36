/-!
# Radixes

Numbers are written in radix two, eight, ten or sixteen.
-/

namespace RacketTree.Number

/-- The radixes of number literals. -/
inductive Radix where
  | binary
  | octal
  | decimal
  | hexadecimal
  deriving DecidableEq, Repr

namespace Radix

/-- The number of digits. -/
def value : Radix → Nat
  | binary => 2
  | octal => 8
  | decimal => 10
  | hexadecimal => 16

/-- The radix that a lower-case mark letter stands for. -/
def ofMark? : Char → Option Radix
  | 'b' => some binary
  | 'o' => some octal
  | 'd' => some decimal
  | 'x' => some hexadecimal
  | _ => none

/-- The radix digits of either case, as ASCII characters. -/
def isDigit (r : Radix) (c : Char) : Bool :=
  match r with
  | binary => c == '0' || c == '1'
  | octal => '0' ≤ c && c ≤ '7'
  | decimal => '0' ≤ c && c ≤ '9'
  | hexadecimal => ('0' ≤ c && c ≤ '9') || ('a' ≤ c && c ≤ 'f') || ('A' ≤ c && c ≤ 'F')

/-- The lower-case letters that mark an exponent. In radix sixteen `e`, `d` and `f` are digits. -/
def exponentMarks : Radix → List Char
  | hexadecimal => ['s', 'l']
  | _ => ['e', 's', 'f', 'd', 'l', 't']

end Radix

end RacketTree.Number
