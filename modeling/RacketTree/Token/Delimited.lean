import RacketTree.Number.Classify
import RacketTree.Text.Blank
import RacketTree.Token.Basic

/-!
# Token widths

How far tokens reach, as functions on the characters that follow their start:

* `untilNewline`: comments to the end of a line;
* `stringWidth?`: the rest of a string, after its opening quote;
* `runWidth`: a maximal run of characters that no delimiter interrupts, where a backslash escapes
  the next character and bars enclose any characters;
* `blockWidth?`: the rest of a block comment, which nests;
* `hereWidth?`: a here string, up to a line equal to its first one.
-/

namespace RacketTree.Token

/-- A character that ends a run, besides blanks. -/
def isDelimiter (c : Char) : Bool :=
  c == '(' || c == ')' || c == '[' || c == ']' || c == '\x7b' || c == '\x7d' || c == '\x22' ||
    c == ',' || c == '\x27' || c == '\x60' || c == ';'

/-- A character that no run goes past. -/
def endsRun (c : Char) : Bool :=
  Text.isBlank c || isDelimiter c

/-- A token may end before these characters. -/
def isBoundary : List Char → Bool
  | [] => true
  | c :: _ => endsRun c

/-- The number of characters before the first newline. -/
def untilNewline (cs : List Char) : Nat :=
  (cs.takeWhile (· != '\n')).length

/-- The number of characters up to and including the closing quote. -/
def stringWidth? : List Char → Option Nat
  | [] => none
  | '\\' :: rest =>
    match rest with
    | [] => none
    | _ :: rest' => (stringWidth? rest').map (· + 2)
  | c :: rest => if c = '\x22' then some 1 else (stringWidth? rest).map (· + 1)

/-- The number of characters of a run. Between bars only a bar counts, unless a backslash stands
before it. -/
def runWidth (inBars : Bool) : List Char → Except Unterminated Nat
  | [] => if inBars then .error .bar else .ok 0
  | c :: rest =>
    if inBars then
      match c, rest with
      | '\\', '|' :: rest' => (runWidth true rest').map (· + 2)
      | '|', rest => (runWidth false rest).map (· + 1)
      | _, rest => (runWidth true rest).map (· + 1)
    else
      match c, rest with
      | '\\', [] => .error .escape
      | '\\', _ :: rest' => (runWidth false rest').map (· + 2)
      | '|', rest => (runWidth true rest).map (· + 1)
      | c, rest => if endsRun c then .ok 0 else (runWidth false rest).map (· + 1)

/-- The number of characters up to the end of a block comment, inside `depth + 1` comments. -/
def blockWidth? (depth : Nat) : List Char → Option Nat
  | [] => none
  | '|' :: '#' :: rest =>
    match depth with
    | 0 => some 2
    | depth + 1 => (blockWidth? depth rest).map (· + 2)
  | '#' :: '|' :: rest => (blockWidth? (depth + 1) rest).map (· + 2)
  | _ :: rest => (blockWidth? depth rest).map (· + 1)

/-- The number of characters up to the end of the first line equal to `terminator`. The first
argument holds the characters of the current line backwards. -/
def hereBody? (line terminator : List Char) : List Char → Option Nat
  | [] => if line.reverse = terminator then some 0 else none
  | c :: rest =>
    if c = '\n' then
      if line.reverse = terminator then some 0 else (hereBody? [] terminator rest).map (· + 1)
    else (hereBody? (c :: line) terminator rest).map (· + 1)

/-- The number of characters of a here string after its opening mark. -/
def hereWidth? (cs : List Char) : Option Nat :=
  let terminator := cs.takeWhile (· != '\n')
  match cs.dropWhile (· != '\n') with
  | [] => none
  | _ :: body => (hereBody? [] terminator body).map (terminator.length + 1 + ·)

end RacketTree.Token
