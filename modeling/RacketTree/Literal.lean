import RacketTree.Number.Classify
import RacketTree.Number.Integer
import RacketTree.Text.CharName
import RacketTree.Text.Digit
import RacketTree.Text.Quoted

/-!
# Values of literals

What the text of a string, byte string, character, boolean or integer stands for. Characters are
code points, because an escape may name half of a surrogate pair.
-/

namespace RacketTree

/-- Why a literal has no value. -/
inductive LiteralError where
  | notString (text : List Char)
  | notByteString (text : List Char)
  | notBytes (text : List Char)
  | notCharacter (text : List Char)
  | badCharacter (text : List Char)
  | notBoolean (text : List Char)
  | notInteger (text : List Char)
  | backslashAtEnd
  /-- An escape with the given letter has no digits. -/
  | noDigits (letter : Char)
  | unknownEscape (letter : Char)
  /-- An escape names no code point. -/
  | notCodePoint
  /-- An escape names a number of more than 31 bits. -/
  | codeTooLarge
  deriving DecidableEq, Repr

namespace LiteralError

/-- The wording of an error. A code that is too large is refused where a character is made of it, in
words that are not this library's: the wording for it is a stand-in. -/
def message : LiteralError → String
  | notString text => "not a string literal: " ++ Text.quoted text
  | notByteString text => "not a byte string literal: " ++ Text.quoted text
  | notBytes text => "byte string contains non-byte characters: " ++ Text.quoted text
  | notCharacter text => "not a character literal: " ++ Text.quoted text
  | badCharacter text => "bad character constant: " ++ Text.quoted text
  | notBoolean text => "not a boolean literal: " ++ Text.quoted text
  | notInteger text => "not an exact integer: " ++ Text.quoted text
  | backslashAtEnd => "backslash at end of string"
  | noDigits letter => String.ofList ['\\', letter] ++ " escape needs hex digits"
  | unknownEscape letter => "unknown escape sequence " ++ String.ofList ['\\', letter]
  | notCodePoint => "chr() arg not in range(0x110000)"
  | codeTooLarge => "code point too large"

end LiteralError

namespace Literal

/-! ## Strings -/

/-- The code point of an escape with one letter. -/
def simpleEscape? : Char → Option Nat
  | 'a' => some 0x07
  | 'b' => some 0x08
  | 't' => some 0x09
  | 'n' => some 0x0A
  | 'v' => some 0x0B
  | 'f' => some 0x0C
  | 'r' => some 0x0D
  | 'e' => some 0x1B
  | '\x22' => some 0x22
  | '\x27' => some 0x27
  | '\\' => some 0x5C
  | _ => none

/-- The number as a code point. -/
def codePoint (n : Nat) : Except LiteralError Nat :=
  if n < 0x110000 then .ok n
  else if n ≤ 0x7FFFFFFF then .error .notCodePoint
  else .error .codeTooLarge

/-- One step of decoding: the code points written, and the text that is left. -/
structure Decoded where
  codes : List Nat
  rest : List Char

/-- The code point of at most `limit` digits at the front of a text. -/
def digitsEscape (isDigit : Char → Bool) (radix limit : Nat) (text : List Char) :
    Except LiteralError Decoded := do
  let digits := (text.take limit).takeWhile isDigit
  let code ← codePoint (Text.ofDigits radix digits)
  return ⟨[code], text.drop digits.length⟩

/-- The same for hexadecimal digits after a letter, of which there must be one. -/
def hexEscape (letter : Char) (limit : Nat) (text : List Char) : Except LiteralError Decoded :=
  match text with
  | c :: _ =>
    if Text.isHexDigit c then digitsEscape Text.isHexDigit 16 limit text
    else .error (.noDigits letter)
  | [] => .error (.noDigits letter)

/-- The text after spaces and tabs. -/
def dropIndent (text : List Char) : List Char :=
  text.dropWhile fun c => c == ' ' || c == '\t'

/-- Decodes an escape from the letter after the backslash and the text after it. A backslash before
the end of a line leaves out the line's end and the indentation of the next. -/
def escape (letter : Char) (rest : List Char) : Except LiteralError Decoded :=
  match simpleEscape? letter with
  | some code => .ok ⟨[code], rest⟩
  | none =>
    if Text.isOctalDigit letter then digitsEscape Text.isOctalDigit 8 3 (letter :: rest)
    else match letter with
      | 'x' => hexEscape 'x' 2 rest
      | 'u' => hexEscape 'u' 4 rest
      | 'U' => hexEscape 'U' 8 rest
      | '\n' => .ok ⟨[], dropIndent rest⟩
      | '\r' =>
        match rest with
        | '\n' :: rest => .ok ⟨[], dropIndent rest⟩
        | rest => .ok ⟨[], dropIndent rest⟩
      | _ => .error (.unknownEscape letter)

/-- Decodes the text between quotes. The first argument bounds the number of steps. -/
def decodeSteps : Nat → List Char → Except LiteralError (List Nat)
  | _, [] => .ok []
  | 0, _ => .ok []
  | steps + 1, '\\' :: rest =>
    match rest with
    | [] => .error .backslashAtEnd
    | letter :: rest => do
      let decoded ← escape letter rest
      let more ← decodeSteps steps decoded.rest
      return decoded.codes ++ more
  | steps + 1, c :: rest => do
    let more ← decodeSteps steps rest
    return c.toNat :: more

/-- Decodes the text between quotes; every step takes at least one character. -/
def decode (text : List Char) : Except LiteralError (List Nat) :=
  decodeSteps text.length text

/-- The value of a string literal. -/
def string (text : List Char) : Except LiteralError (List Nat) :=
  if 2 ≤ text.length && text.head? = some '\x22' && text.getLast? = some '\x22' then
    decode (text.drop 1).dropLast
  else .error (.notString text)

/-- The value of a byte string literal. -/
def bytes (text : List Char) : Except LiteralError (List Nat) :=
  if ['#', '\x22'].isPrefixOf text && 3 ≤ text.length && text.getLast? = some '\x22' then do
    let codes ← decode (text.drop 2).dropLast
    if codes.all (· < 0x100) then return codes else .error (.notBytes text)
  else .error (.notByteString text)

/-! ## Characters and booleans -/

/-- The value of a character literal. -/
def character (text : List Char) : Except LiteralError Nat :=
  match text with
  | ['#', '\\', c] => .ok c.toNat
  | '#' :: '\\' :: c :: d :: rest =>
    let body := c :: d :: rest
    match Text.namedChar? body with
    | some code => .ok code
    | none =>
      if (c == 'u' || c == 'U') && (d :: rest).all Text.isHexDigit then
        codePoint (Text.ofDigits 16 (d :: rest))
      else if body.length = 3 && body.all Text.isOctalDigit then .ok (Text.ofDigits 8 body)
      else .error (.badCharacter text)
  | _ => .error (.notCharacter text)

/-- The value of a boolean literal. -/
def boolean (text : List Char) : Except LiteralError Bool :=
  let word := String.ofList (text.map Text.lower)
  if word == "#t" || word == "#true" then .ok true
  else if word == "#f" || word == "#false" then .ok false
  else .error (.notBoolean text)

/-! ## Integers -/

/-- The value of an exact integer with optional marks. Its body has no underscores and no blanks at
either end. -/
def integer (text : List Char) : Except LiteralError Int :=
  match Number.splitMarks? text with
  | none => .error (.notInteger text)
  | some (marks, body) =>
    if marks.exactness? = some false || body.contains '_' || Text.strip body != body then
      .error (.notInteger text)
    else match Number.readInteger? marks.radix body with
      | some n => .ok n
      | none => .error (.notInteger text)

end Literal

end RacketTree
