/-!
# Faults

Why a token or node is an error.
-/

namespace RacketTree

/-- The reason for an error node. -/
inductive Fault where
  | unterminatedLiteral
  | unterminatedComment
  | unexpectedToken
  | delimiterMismatch
  | malformedDottedPair
  | unclosedDelimiter
  | badCharacter
  | nestingTooDeep
  deriving DecidableEq, Repr

namespace Fault

/-- All faults. -/
def all : List Fault := [
  unterminatedLiteral, unterminatedComment, unexpectedToken, delimiterMismatch,
  malformedDottedPair, unclosedDelimiter, badCharacter, nestingTooDeep]

/-- The name of a fault. -/
def name : Fault → String
  | unterminatedLiteral => "unterminated_literal"
  | unterminatedComment => "unterminated_comment"
  | unexpectedToken => "unexpected_token"
  | delimiterMismatch => "delimiter_mismatch"
  | malformedDottedPair => "malformed_dotted_pair"
  | unclosedDelimiter => "unclosed_delimiter"
  | badCharacter => "bad_character"
  | nestingTooDeep => "nesting_too_deep"

/-- The fault with a given name. -/
def ofName? (name : String) : Option Fault :=
  all.find? (·.name == name)

/-- The wording of a fault. -/
def message : Fault → String
  | unterminatedLiteral => "literal is never terminated"
  | unterminatedComment => "block comment is never closed"
  | unexpectedToken => "unexpected token"
  | delimiterMismatch => "closing delimiter does not match the opener"
  | malformedDottedPair => "illegal use of `.`"
  | unclosedDelimiter => "opening delimiter is never closed"
  | badCharacter => "bad character constant"
  | nestingTooDeep => "nesting is too deep"

end Fault

end RacketTree
