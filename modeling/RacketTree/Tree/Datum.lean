import RacketTree.Tree.Basic

/-!
# Reading a single datum

Reading a datum fails where none can start: at the end of the input, at a dot or at a closing
delimiter.
-/

namespace RacketTree

/-- Why a datum or token cannot be read. -/
inductive ReadCause where
  | unterminated (cause : Unterminated)
  | endOfInput
  | illegalDot
  | unexpected (text : List Char)
  deriving DecidableEq, Repr

/-- A failure to read, and the offsets of the text that is to blame. -/
structure ReadError where
  cause : ReadCause
  start : Nat
  stop : Nat
  deriving DecidableEq, Repr

namespace ReadError

/-- The fault that a failure belongs to. -/
def fault (e : ReadError) : Fault :=
  match e.cause with
  | .unterminated cause => cause.fault
  | .illegalDot => .malformedDottedPair
  | .endOfInput | .unexpected _ => .unexpectedToken

/-- The wording of a failure. -/
def message (e : ReadError) : String :=
  let what := match e.cause with
    | .unterminated cause => cause.message
    | .endOfInput => "unexpected end of input"
    | .illegalDot => "illegal use of `.`"
    | .unexpected text => "unexpected `" ++ String.ofList text ++ "`"
  what ++ " at offset " ++ toString e.start

end ReadError

namespace Read

/-- Why no datum can start at the front of the lexemes, which stand at offset `pos`. -/
def datumError? (pos : Nat) : List Lexeme → Option ReadError
  | [] => some ⟨.endOfInput, pos, pos⟩
  | l :: _ =>
    if l.kind = .dot then some ⟨.illegalDot, pos, pos + l.text.length⟩
    else if l.beginsDatum then none
    else some ⟨.unexpected l.text, pos, pos + l.text.length⟩

/-- Reads the datum at the front of the lexemes. -/
def readDatum (config : Config) (outer pos : Nat) (ls : List Lexeme) :
    Except ReadError (Draft × List Lexeme) :=
  match datumError? pos ls, ls with
  | some e, _ => .error e
  | none, l :: ls => .ok (readItem config outer l ls)
  | none, [] => .error ⟨.endOfInput, pos, pos⟩

end Read

/-- Reads the first datum at or after an offset, past any trivia. The result is the arena, the tree
of the datum and the offset after it. -/
def parseDatum (config : Config) (source : List Char) (offset : Nat) :
    Except ReadError (Arena × Tree × Nat) := do
  let (trivia, rest) := Read.readTrivia config 0 (Token.lexemes (source.drop offset))
  let start := offset + Draft.widths trivia
  let (datum, _) ← Read.readDatum config 0 start rest
  let (a, _) := Arena.empty.storeAll (trivia ++ [datum])
  return (a, { source, root := a.size - 1, config, rootStart := start }, start + datum.width)

end RacketTree
