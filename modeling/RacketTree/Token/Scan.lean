import RacketTree.Token.Hash

/-!
# Scanning

`extent` decides the token at the front of a text from its characters alone. `lexemes` cuts a whole
text into lexemes: they cover the text, and where a token is never terminated one error lexeme takes
the rest.
-/

namespace RacketTree.Token

/-- The extent of a run: a dot, a number or a symbol. -/
def atomExtent (cs : List Char) : Except Unterminated Extent := do
  let n ← runWidth false cs
  let text := cs.take n
  let kind := if text = ['.'] then .dot else if Number.isNumber text then .number else .symbol
  return .plain kind n

/-- The extent of the token at the front of a text. -/
def extent (c : Char) (rest : List Char) : Except Unterminated Extent :=
  if Text.isBlank c then .ok (.plain .whitespace (1 + (rest.takeWhile Text.isBlank).length))
  else if isOpenBracket c then .ok (.plain .opener 1)
  else if isCloseBracket c then .ok (.plain .closer 1)
  else match c with
    | ';' => .ok (.plain .lineComment (1 + untilNewline rest))
    | '\x27' | '\x60' => .ok (.plain .prefixMark 1)
    | ',' => .ok (.plain .prefixMark (if rest.head? = some '@' then 2 else 1))
    | '\x22' =>
      match stringWidth? rest with
      | some n => .ok (.plain .string (n + 1))
      | none => .error .string
    | '#' => hashExtent rest
    | _ => atomExtent (c :: rest)

/-- The lexeme of an extent at the front of a text. -/
def cut (e : Extent) (cs : List Char) : Lexeme :=
  ⟨e.kind, cs.take e.width, e.fault⟩

theorem length_drop_pred_lt (n : Nat) (c : Char) (rest : List Char) :
    (rest.drop n).length < (c :: rest).length :=
  Nat.lt_succ_of_le (List.length_drop ▸ Nat.sub_le rest.length n)

/-- The lexemes of a text. -/
def lexemes : List Char → List Lexeme
  | [] => []
  | c :: rest =>
    match extent c rest with
    | .ok e => cut e (c :: rest) :: lexemes (rest.drop (e.width - 1))
    | .error cause => [⟨.error, c :: rest, some cause.fault⟩]
termination_by cs => cs.length
decreasing_by exact length_drop_pred_lt _ _ _

/-- The lexemes as tokens, one after the other from an offset. -/
def place (start : Nat) : List Lexeme → List Token
  | [] => []
  | l :: rest => ⟨l, start⟩ :: place (start + l.text.length) rest

/-- The tokens of a source text from an offset on. -/
def tokensFrom (source : List Char) (start : Nat) : List Token :=
  place start (lexemes (source.drop start))

/-- The tokens of a source text. -/
def tokenize (source : List Char) : List Token :=
  tokensFrom source 0

/-- Why no token can be classified at an offset. -/
inductive ScanError where
  /-- The offset is not in the text. -/
  | outside
  | unterminated (cause : Unterminated) (start stop : Nat)
  deriving DecidableEq, Repr

/-- The token at an offset of a source text. -/
def scan (source : List Char) (offset : Nat) : Except ScanError Token :=
  match source.drop offset with
  | [] => .error .outside
  | c :: rest =>
    match extent c rest with
    | .ok e => .ok ⟨cut e (c :: rest), offset⟩
    | .error cause => .error (.unterminated cause offset source.length)

end RacketTree.Token
