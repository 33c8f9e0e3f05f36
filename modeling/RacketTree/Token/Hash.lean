import RacketTree.Text.CharName
import RacketTree.Text.DecimalDigit
import RacketTree.Text.Digit
import RacketTree.Text.Letter
import RacketTree.Token.Delimited

/-!
# Tokens that start with `#`

The character after `#` decides, or else the first of these that fits: a reader directive, a regular
expression, a here string, the opener of a sequence, a graph mark, a boolean, a number or symbol
with a radix or exactness mark. Whatever is left is an extension. All functions here take the
characters after the `#`, and the widths of extents count it.
-/

namespace RacketTree.Token

/-- A character that opens a sequence. -/
def isOpenBracket (c : Char) : Bool :=
  c == '(' || c == '[' || c == '\x7b'

/-- A character that closes a sequence. -/
def isCloseBracket (c : Char) : Bool :=
  c == ')' || c == ']' || c == '\x7d'

/-- A character of a language name. -/
def isLangChar (c : Char) : Bool :=
  c.isAlphanum || c == '+' || c == '-' || c == '_' || c == '/'

/-- A space or tab, which may stand between `#lang` and the name. -/
def isLangBlank (c : Char) : Bool :=
  c == ' ' || c == '\t'

/-- A language line or script line: `#!` before a blank or slash comments out the line, `#!` or
`#lang` before a language name is a directive. -/
def directive? : List Char → Option Extent
  | '!' :: rest =>
    match rest with
    | ' ' :: _ | '/' :: _ => some (.plain .lineComment (2 + untilNewline rest))
    | _ =>
      let name := rest.takeWhile isLangChar
      if name.isEmpty then none else some (.plain .readerDirective (2 + name.length))
  | 'l' :: 'a' :: 'n' :: 'g' :: rest =>
    let blanks := rest.takeWhile isLangBlank
    let name := (rest.dropWhile isLangBlank).takeWhile isLangChar
    if blanks.isEmpty || name.isEmpty then none
    else some (.plain .readerDirective (5 + blanks.length + name.length))
  | _ => none

/-- The number of characters before the body of a regular expression. -/
def regexpMark? : List Char → Option Nat
  | 'r' :: 'x' :: '\x22' :: _ => some 3
  | 'p' :: 'x' :: '\x22' :: _ => some 3
  | 'r' :: 'x' :: '#' :: '\x22' :: _ => some 4
  | 'p' :: 'x' :: '#' :: '\x22' :: _ => some 4
  | _ => none

/-- The words of sequence openers that take no length. -/
def openerWords : List (List Char) :=
  ["hashalw", "hasheqv", "hasheq", "hash", "s", "vu8"].map String.toList

/-- The words of sequence openers that may be followed by a length. -/
def sizedWords : List (List Char) :=
  ["fl", "fx"].map String.toList

/-- The number of decimal digits at the front. -/
def digitRun (cs : List Char) : Nat :=
  (cs.takeWhile Text.isDecimalDigit).length

/-- One more than `n`, if an opening bracket stands at `n`. -/
def bracketAt? (n : Nat) (cs : List Char) : Option Nat :=
  match cs.drop n with
  | c :: _ => if isOpenBracket c then some (n + 1) else none
  | [] => none

/-- The number of characters of a sequence opener that has a word or a length. -/
def sequenceOpener? (cs : List Char) : Option Nat :=
  let sized := sizedWords.findSome? fun word =>
    if word.isPrefixOf cs then bracketAt? (word.length + digitRun (cs.drop word.length)) cs
    else none
  let named := openerWords.findSome? fun word =>
    if word.isPrefixOf cs then bracketAt? word.length cs else none
  let length := if digitRun cs = 0 then none else bracketAt? (digitRun cs) cs
  sized.or (named.or length)

/-- A graph label `#n=` or reference `#n#`. -/
def graphMark? (cs : List Char) : Option Extent :=
  let n := digitRun cs
  if n = 0 then none
  else match cs.drop n with
    | '=' :: _ => some (.plain .graphLabel (n + 2))
    | '#' :: _ => some (.plain .graphReference (n + 2))
    | _ => none

/-- The words of booleans, in the order in which they are tried. -/
def booleanWords : List (List Char) :=
  ["true", "false", "t", "f"].map String.toList

/-- A boolean in either case, before a boundary. -/
def boolean? (cs : List Char) : Option Extent :=
  booleanWords.findSome? fun word =>
    if (cs.take word.length).map Text.lower = word && isBoundary (cs.drop word.length) then
      some (.plain .boolean (word.length + 1))
    else none

/-- A letter that marks a radix or exactness. -/
def isNumberMark (c : Char) : Bool :=
  ['e', 'i', 'x', 'o', 'b', 'd'].contains (Text.lower c)

/-- The extent of a character literal, from the characters after `#\`. -/
def characterExtent : List Char → Except Unterminated Extent
  | [] => .error .character
  | c :: rest =>
    let hex := (rest.take (if c = 'u' then 4 else 8)).takeWhile Text.isHexDigit
    if (c = 'u' || c = 'U') && !hex.isEmpty then .ok (.plain .character (3 + hex.length))
    else
      let octal := '0' ≤ c && c ≤ '3' && match rest with
        | a :: b :: _ => Text.isOctalDigit a && Text.isOctalDigit b
        | _ => false
      if octal then .ok (.plain .character 5)
      else if Text.isLetter c then
        let word := c :: rest.takeWhile Text.isLetter
        if word.length = 1 || (Text.namedChar? word).isSome then
          .ok (.plain .character (2 + word.length))
        else .ok ⟨.character, 2 + word.length, some .badCharacter⟩
      else .ok (.plain .character 3)

/-- The extent of a token whose first characters do not decide it alone. -/
def wordExtent (c : Char) (rest : List Char) : Except Unterminated Extent :=
  let cs := c :: rest
  match directive? cs with
  | some e => .ok e
  | none =>
    match regexpMark? cs with
    | some n =>
      match stringWidth? (cs.drop n) with
      | some body => .ok (.plain .regexp (1 + n + body))
      | none => .error .string
    | none =>
      if ['<', '<'].isPrefixOf cs then
        match hereWidth? (cs.drop 2) with
        | some body => .ok (.plain .hereString (3 + body))
        | none => .error .hereString
      else
        match sequenceOpener? cs with
        | some n => .ok (.plain .opener (n + 1))
        | none =>
          match (graphMark? cs).or (boolean? cs) with
          | some e => .ok e
          | none => do
            let n ← runWidth false cs
            if isNumberMark c then
              let kind := if Number.isNumber ('#' :: cs.take n) then .number else .symbol
              return .plain kind (n + 1)
            else return .plain .extension (n + 1)

/-- The extent of a token that starts with `#`. -/
def hashExtent : List Char → Except Unterminated Extent
  | [] => .ok (.plain .extension 1)
  | c :: rest =>
    match c with
    | '|' =>
      match blockWidth? 0 rest with
      | some n => .ok (.plain .blockComment (n + 2))
      | none => .error .blockComment
    | ';' => .ok (.plain .datumCommentMark 2)
    | '\\' => characterExtent rest
    | '\x22' =>
      match stringWidth? rest with
      | some n => .ok (.plain .byteString (n + 2))
      | none => .error .string
    | '\x27' | '\x60' | '&' => .ok (.plain .prefixMark 2)
    | ',' => .ok (.plain .prefixMark (if rest.head? = some '@' then 3 else 2))
    | ':' => do
      let n ← runWidth false rest
      return .plain .keyword (n + 2)
    | _ => if isOpenBracket c then .ok (.plain .opener 2) else wordExtent c rest

end RacketTree.Token
