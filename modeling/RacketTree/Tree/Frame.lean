import RacketTree.Config
import RacketTree.Tree.BlockComment

/-!
# Open constructs

While a datum is read, the constructs around the cursor form a stack of frames. A wrapper frame (a
quote, a box, a graph label or a datum comment) waits for one datum. A sequence frame collects
children up to its closing delimiter; once a dot has been met in a list it collects the pieces of
the tail instead. Children are held newest first.
-/

namespace RacketTree

/-- Where an item stands: in datum position, or between datums. -/
inductive Role where
  | datum
  | trivia
  deriving DecidableEq, Repr

/-- The role of a lexeme that is an item by itself, or of the construct that it opens. -/
def Lexeme.role (l : Lexeme) : Role :=
  if l.isTrivia then .trivia else .datum

/-- The draft of a lexeme that is an item by itself. -/
def Lexeme.draft (l : Lexeme) : Draft :=
  if l.kind = .blockComment then BlockComment.draft l.text else l.leaf

/-- A mark that waits for its datum. -/
structure Wrapper where
  kind : Kind
  children : List Draft

namespace Wrapper

/-- A datum comment is trivia, every other wrapper a datum. -/
def role (w : Wrapper) : Role :=
  if w.kind = .datumComment then .trivia else .datum

/-- The wrapper around its datum. -/
def complete (w : Wrapper) (datum : Draft) : Draft :=
  .branch w.kind (datum :: w.children).reverse none

/-- The error for a wrapper that gets no datum. -/
def fail (w : Wrapper) : Draft :=
  .branch .error (Draft.missing :: w.children).reverse (some .unexpectedToken)

/-- The wrapper with trivia before its datum. -/
def add (w : Wrapper) (trivia : Draft) : Wrapper :=
  { w with children := trivia :: w.children }

end Wrapper

/-- The part of a list from its first dot on. -/
structure Tail where
  pieces : List Draft
  dots : Nat
  /-- Nothing so far has to be an error. -/
  wellFormed : Bool
  /-- The last dot has no datum yet. -/
  awaiting : Bool

namespace Tail

/-- A tail before its first dot. -/
def empty : Tail :=
  { pieces := [], dots := 0, wellFormed := true, awaiting := false }

/-- One more dot. It has to come after a datum, and there may be at most `maxDots`. -/
def addDot (t : Tail) (maxDots : Nat) (dot : Draft) : Tail :=
  { pieces := dot :: t.pieces
    dots := t.dots + 1
    wellFormed := t.wellFormed && !t.awaiting && t.dots + 1 ≤ maxDots
    awaiting := true }

/-- One more item. A datum has to be the first after a dot. -/
def add (t : Tail) (item : Draft) : Role → Tail
  | .trivia => { t with pieces := item :: t.pieces }
  | .datum =>
    { t with
      pieces := item :: t.pieces
      wellFormed := t.wellFormed && t.awaiting
      awaiting := false }

/-- The tail as children of its list: the pieces themselves, or one error around them up to the
trivia at the end. -/
def finish (t : Tail) : List Draft :=
  if t.wellFormed && !t.awaiting then t.pieces.reverse
  else
    [.tail (t.pieces.dropWhile Draft.isTrivia).reverse (t.pieces.takeWhile Draft.isTrivia).reverse]

end Tail

/-- A sequence that is not closed yet. -/
structure Sequence where
  /-- The text of the opening delimiter. -/
  opener : List Char
  /-- The opener and the children before the tail. -/
  children : List Draft
  /-- A datum is among the children. -/
  seenDatum : Bool
  tail : Option Tail

namespace Sequence

/-- A sequence after its opening delimiter. -/
def ofOpener (l : Lexeme) : Sequence :=
  { opener := l.text, children := [l.leaf], seenDatum := false, tail := none }

/-- The kind of the sequence. -/
def kind (s : Sequence) : Kind :=
  Kind.ofOpener s.opener

/-- The closing counterpart of the opener's last character. -/
def counterpart (s : Sequence) : Char :=
  match s.opener.getLast? with
  | some '[' => ']'
  | some '\x7b' => '\x7d'
  | _ => ')'

/-- One more item. -/
def add (s : Sequence) (item : Draft) (role : Role) : Sequence :=
  match s.tail with
  | some t => { s with tail := some (t.add item role) }
  | none =>
    { s with children := item :: s.children, seenDatum := s.seenDatum || role == .datum }

/-- One more dot. It starts a tail in a list that has a datum, and is an error otherwise. -/
def addDot (s : Sequence) (config : Config) (dot : Lexeme) : Sequence :=
  match s.tail with
  | some t => { s with tail := some (t.addDot config.maxDots dot.leaf) }
  | none =>
    if s.kind = .list && s.seenDatum then
      { s with tail := some (Tail.empty.addDot config.maxDots dot.leaf) }
    else
      { s with children := .branch .error [dot.leaf] (some .malformedDottedPair) :: s.children }

/-- All children, oldest first. -/
def body (s : Sequence) : List Draft :=
  s.children.reverse ++ (s.tail.map Tail.finish).getD []

/-- The closing delimiter as a child. In strict mode one that is not the counterpart of the opener
is an error. -/
def closing (s : Sequence) (config : Config) (closer : Lexeme) : Draft :=
  if config.strictDelimiters && closer.text != [s.counterpart] then
    .branch .error [closer.leaf] (some .delimiterMismatch)
  else closer.leaf

/-- The sequence with its closing delimiter. -/
def close (s : Sequence) (config : Config) (closer : Lexeme) : Draft :=
  .branch s.kind (s.body ++ [s.closing config closer]) none

/-- The error for a sequence that is never closed. -/
def unclosed (s : Sequence) : Draft :=
  .branch .error (s.body ++ [Draft.missing]) (some .unclosedDelimiter)

end Sequence

/-- An open construct. -/
inductive Frame where
  | wrapper (w : Wrapper)
  | sequence (s : Sequence)

namespace Frame

/-- The construct that a lexeme opens. -/
def ofLexeme? (l : Lexeme) : Option Frame :=
  match l.kind with
  | .opener => some (.sequence (Sequence.ofOpener l))
  | .prefixMark => some (.wrapper ⟨Kind.ofPrefix l.text, [l.leaf]⟩)
  | .graphLabel => some (.wrapper ⟨.graphDefinition, [l.leaf]⟩)
  | .datumCommentMark => some (.wrapper ⟨.datumComment, [l.leaf]⟩)
  | _ => none

/-- The closing delimiter that a frame expects. -/
def boundary? : Frame → Option Char
  | wrapper _ => none
  | sequence s => some s.counterpart

end Frame

end RacketTree
