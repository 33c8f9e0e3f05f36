import RacketTree.Fault
import RacketTree.Kind

/-!
# Tokens

A lexeme is a classified stretch of text; a token is a lexeme at its place in a source text.
-/

namespace RacketTree

/-- A classified stretch of text. -/
structure Lexeme where
  kind : Kind
  text : List Char
  fault : Option Fault
  deriving DecidableEq, Repr

namespace Lexeme

/-- Whitespace, a comment or the mark of a datum comment. -/
def isTrivia (l : Lexeme) : Bool :=
  match l.kind with
  | .whitespace | .lineComment | .blockComment | .datumCommentMark => true
  | _ => false

/-- A lexeme that a datum may start with. -/
def beginsDatum (l : Lexeme) : Bool :=
  match l.kind with
  | .opener | .prefixMark | .graphLabel | .error => true
  | k => k.isAtom

end Lexeme

/-- A lexeme at an offset. -/
structure Token extends Lexeme where
  start : Nat
  deriving DecidableEq, Repr

namespace Token

/-- The offset after the token. -/
def stop (t : Token) : Nat :=
  t.start + t.text.length

end Token

/-- The part of a text that a token takes: its kind, its number of characters, and the fault if the
text is a malformed token of that kind. -/
structure Extent where
  kind : Kind
  width : Nat
  fault : Option Fault
  deriving DecidableEq, Repr

/-- An extent without fault. -/
def Extent.plain (kind : Kind) (width : Nat) : Extent :=
  ⟨kind, width, none⟩

/-- What is never terminated in a text that ends too early. -/
inductive Unterminated where
  | string
  | bar
  | escape
  | blockComment
  | character
  | hereString
  deriving DecidableEq, Repr

namespace Unterminated

/-- The fault recorded for the rest of the text. -/
def fault : Unterminated → Fault
  | blockComment => .unterminatedComment
  | _ => .unterminatedLiteral

/-- The wording of the cause. -/
def message : Unterminated → String
  | string => "unterminated string"
  | bar => "unterminated `|` in symbol"
  | escape => "escape at end of input"
  | blockComment => "unterminated block comment"
  | character => "unterminated character"
  | hereString => "unterminated here string"

end Unterminated

end RacketTree
