/-!
# Patterns

Regular expressions over characters, matched against whole texts by derivatives. A pattern accepts a
text if, after the derivative by each character in turn, what is left accepts the empty text. The
constructors `orElse` and `andThen` drop branches that accept nothing, which keeps derivatives of
the patterns in use at a bounded size.
-/

namespace RacketTree.Number

/-- A regular expression over characters. -/
inductive Pattern where
  /-- Accepts nothing. -/
  | never
  /-- Accepts the empty text. -/
  | empty
  /-- Accepts one character of a class. -/
  | char (accepts : Char → Bool)
  | alt (p q : Pattern)
  | seq (p q : Pattern)
  | star (p : Pattern)

namespace Pattern

/-- Either pattern, simplified if one accepts nothing. -/
def orElse : Pattern → Pattern → Pattern
  | never, q => q
  | p, never => p
  | p, q => alt p q

/-- One pattern after the other, simplified if one accepts nothing or only the empty text. -/
def andThen : Pattern → Pattern → Pattern
  | never, _ => never
  | empty, q => q
  | _, never => never
  | p, q => seq p q

/-- The pattern accepts the empty text. -/
def nullable : Pattern → Bool
  | never => false
  | empty => true
  | char _ => false
  | alt p q => p.nullable || q.nullable
  | seq p q => p.nullable && q.nullable
  | star _ => true

/-- What has to follow the character for the pattern to accept. -/
def deriv (c : Char) : Pattern → Pattern
  | never => never
  | empty => never
  | char accepts => if accepts c then empty else never
  | alt p q => (p.deriv c).orElse (q.deriv c)
  | seq p q =>
    if p.nullable then ((p.deriv c).andThen q).orElse (q.deriv c) else (p.deriv c).andThen q
  | star p => (p.deriv c).andThen (star p)

/-- The pattern accepts the whole text. -/
def accepts (p : Pattern) (text : List Char) : Bool :=
  (text.foldl (fun q c => q.deriv c) p).nullable

/-- One given character. -/
def exactly (c : Char) : Pattern :=
  char (· == c)

/-- The pattern or the empty text. -/
def optional (p : Pattern) : Pattern :=
  alt empty p

/-- One or more repetitions. -/
def many1 (p : Pattern) : Pattern :=
  seq p (star p)

/-- The patterns one after the other. -/
def inOrder (ps : List Pattern) : Pattern :=
  ps.foldr seq empty

/-- One of the patterns. -/
def oneOf (ps : List Pattern) : Pattern :=
  ps.foldr alt never

end Pattern

end RacketTree.Number
