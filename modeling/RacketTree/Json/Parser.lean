import RacketTree.Decimal.Read
import RacketTree.Json.Basic
import RacketTree.Number.Integer
import RacketTree.Text.Digit

/-!
# Reading JSON

`Json.parse` reads a whole text as one value, if there is room for its nesting. How much room there
is depends on the call stack that is left, and is given to the reader. A repeated name in an object
keeps its first place and its last value. `NaN`, `Infinity` and `-Infinity` are read as
floating-point numbers, and control characters in strings are refused. Of two faults the first one
is reported.
-/

namespace RacketTree.Json

/-- Why a text is not read. -/
inductive ReadError where
  | malformed
  /-- Arrays and objects are nested more deeply than there is room for. -/
  | tooDeep
  /-- An integer has more than `Number.maxDigits` digits. -/
  | tooManyDigits (count : Nat)
  deriving DecidableEq, Repr

namespace Parser

/-- Something read, or why it is not. -/
abbrev Reading := Except ReadError

/-- A character that may stand between tokens. -/
def isSpace (c : Char) : Bool :=
  c == ' ' || c == '\t' || c == '\n' || c == '\r'

/-- The text after blanks. -/
def skip (cs : List Char) : List Char :=
  cs.dropWhile isSpace

/-- The text after a given word. -/
def after? (word : String) (cs : List Char) : Option (List Char) :=
  if word.toList.isPrefixOf cs then some (cs.drop word.length) else none

/-- The code unit of four hexadecimal digits. -/
def unit? : List Char → Option (Nat × List Char)
  | a :: b :: c :: d :: rest =>
    if [a, b, c, d].all Text.isHexDigit then some (Text.ofDigits 16 [a, b, c, d], rest) else none
  | _ => none

/-- The character of an escape with one letter. -/
def simpleEscape? : Char → Option Char
  | '\x22' => some '\x22'
  | '\\' => some '\\'
  | '/' => some '/'
  | 'b' => some '\x08'
  | 'f' => some '\x0C'
  | 'n' => some '\n'
  | 'r' => some '\r'
  | 't' => some '\t'
  | _ => none

/-- The code point of a code unit and the text after it: a high half takes the low half after it. -/
def codePoint (unit : Nat) (rest : List Char) : Nat × List Char :=
  if 0xD800 ≤ unit && unit < 0xDC00 then
    match (after? "\\u" rest).bind unit? with
    | some (low, rest') =>
      if 0xDC00 ≤ low && low < 0xE000 then
        (0x10000 + (unit - 0xD800) * 0x400 + (low - 0xDC00), rest')
      else (unit, rest)
    | none => (unit, rest)
  else (unit, rest)

/-- The rest of a string after its opening quote. The first argument bounds the number of
characters, the second holds the code points so far backwards. -/
def string? : Nat → List Nat → List Char → Option (Codes × List Char)
  | 0, _, _ => none
  | _ + 1, _, [] => none
  | fuel + 1, done, c :: rest =>
    if c = '\x22' then some (⟨done.reverse⟩, rest)
    else if c = '\\' then
      match rest with
      | [] => none
      | 'u' :: rest => do
        let (unit, rest) ← unit? rest
        let (code, rest) := codePoint unit rest
        string? fuel (code :: done) rest
      | e :: rest => do
        let c ← simpleEscape? e
        string? fuel (c.toNat :: done) rest
    else if c.toNat < 0x20 then none
    else string? fuel (c.toNat :: done) rest

/-- The rest of a string after its opening quote. -/
def string (cs : List Char) : Reading (Codes × List Char) :=
  match string? (cs.length + 1) [] cs with
  | some result => .ok result
  | none => .error .malformed

/-- The whole part of a number. A zero at its front stands alone. -/
def wholePart : List Char → List Char
  | '0' :: _ => ['0']
  | cs => cs.takeWhile Decimal.isDigit

/-- A point and the digits behind it, if there are any. -/
def fractionPart : List Char → List Char
  | '.' :: rest =>
    let digits := rest.takeWhile Decimal.isDigit
    if digits.isEmpty then [] else '.' :: digits
  | _ => []

/-- The mark, the sign and the digits of an exponent, if there are any digits. -/
def exponentPart : List Char → List Char
  | e :: rest =>
    if e == 'e' || e == 'E' then
      let sign := match rest with
        | '+' :: _ => ['+']
        | '-' :: _ => ['-']
        | _ => []
      let digits := (rest.drop sign.length).takeWhile Decimal.isDigit
      if digits.isEmpty then [] else 'e' :: sign ++ digits
    else []
  | [] => []

/-- A number after its sign: an integer unless it has a fraction or an exponent. -/
def unsigned (negative : Bool) (cs : List Char) : Reading (Json × List Char) :=
  let whole := wholePart cs
  if whole.isEmpty then .error .malformed
  else
    let rest := cs.drop whole.length
    let fraction := fractionPart rest
    let rest := rest.drop fraction.length
    let exponent := exponentPart rest
    let rest := rest.drop exponent.length
    if fraction.isEmpty && exponent.isEmpty then
      if Number.maxDigits < whole.length then .error (.tooManyDigits whole.length)
      else
        let n : Int := Decimal.ofDigitChars whole
        .ok (.int (if negative then -n else n), rest)
    else
      match Decimal.readUnsigned? negative (whole ++ fraction ++ exponent) with
      | some x => .ok (.float x, rest)
      | none => .error .malformed

/-- A number. -/
def number : List Char → Reading (Json × List Char)
  | '-' :: rest => unsigned true rest
  | cs => unsigned false cs

/-- A value that is written as a word. -/
def word? (cs : List Char) : Option (Json × List Char) :=
  [("null", .null), ("true", .bool true), ("false", .bool false), ("NaN", .float .notANumber),
    ("Infinity", .float (.infinite false)), ("-Infinity", .float (.infinite true))].findSome?
    fun (word, value) => (after? word cs).map fun rest => (value, rest)

mutual

/-- A value. The first argument bounds the number of steps, the second the nesting. -/
def value : Nat → Nat → List Char → Reading (Json × List Char)
  | 0, _, _ => .error .malformed
  | fuel + 1, depth, cs =>
    match cs with
    | '\x22' :: rest => do
      let (text, rest) ← string rest
      return (.str text, rest)
    | '[' :: rest =>
      match depth with
      | 0 => .error .tooDeep
      | depth + 1 =>
        match skip rest with
        | ']' :: rest => .ok (.arr [], rest)
        | rest => items fuel depth [] rest
    | '\x7b' :: rest =>
      match depth with
      | 0 => .error .tooDeep
      | depth + 1 =>
        match skip rest with
        | '\x7d' :: rest => .ok (.obj [], rest)
        | rest => fields fuel depth [] rest
    | cs =>
      match word? cs with
      | some result => .ok result
      | none => number cs

/-- The items of an array up to its end. -/
def items : Nat → Nat → List Json → List Char → Reading (Json × List Char)
  | 0, _, _, _ => .error .malformed
  | fuel + 1, depth, done, cs => do
    let (item, rest) ← value fuel depth cs
    match skip rest with
    | ',' :: rest => items fuel depth (item :: done) (skip rest)
    | ']' :: rest => .ok (.arr (item :: done).reverse, rest)
    | _ => .error .malformed

/-- The fields of an object up to its end. -/
def fields : Nat → Nat → Fields → List Char → Reading (Json × List Char)
  | 0, _, _, _ => .error .malformed
  | fuel + 1, depth, done, cs => do
    match cs with
    | '\x22' :: rest =>
      let (name, rest) ← string rest
      match skip rest with
      | ':' :: rest =>
        let (value, rest) ← value fuel depth (skip rest)
        let done := setField done name value
        match skip rest with
        | ',' :: rest => fields fuel depth done (skip rest)
        | '\x7d' :: rest => .ok (.obj done, rest)
        | _ => .error .malformed
      | _ => .error .malformed
    | _ => .error .malformed

end

end Parser

/-- Reads a text as one value. `room` bounds the nesting of arrays and objects. -/
def parse (room : Nat) (text : List Char) : Except ReadError Json := do
  let (value, rest) ← Parser.value (2 * text.length + 2) room (Parser.skip text)
  if (Parser.skip rest).isEmpty then return value else throw .malformed

end RacketTree.Json
