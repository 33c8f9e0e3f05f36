import RacketTree.Tree.Datum

/-!
# Reading step by step

A cursor stands at an offset of a source text and reads items into an arena, one record after the
other. Beside the offset it has the number of constructs around it, which the depth limit is about,
the closing delimiters that the open sequences among them expect, and the token that was scanned
last.

A `Call` is something that is done with a cursor. It ends with a value or with a failure, in both
cases with the cursor as it is then, or it never ends. Reading a `Phrase` descends into constructs:
each construct is a phrase of its own, which is read up to its end. On the way down the depth and
the expected delimiters are added to, and on the way back, also after a failure, what was added is
taken off.
-/

namespace RacketTree

/-- The wrapper that a mark starts. -/
def Kind.ofMark? (mark : Token) : Option Kind :=
  match mark.kind with
  | .graphLabel => some .graphDefinition
  | .datumCommentMark => some .datumComment
  | _ => prefixForms.lookup mark.text

/-- The closing counterpart of an opening bracket. -/
def Token.counterpart? (c : Char) : Option Char :=
  [('(', ')'), ('[', ']'), ('\x7b', '\x7d')].lookup c

/-- The record at a handle is trivia. -/
def Arena.isTrivia (a : Arena) (h : Handle) : Bool :=
  (a.get? h).any fun r => r.kind.isTrivia

/-- Why a call on a cursor fails. -/
inductive Failure where
  /-- No datum can be read. -/
  | refused (e : ReadError)
  /-- There is no token at the end of the text. -/
  | noToken
  /-- A mark that starts no wrapper, or an opener that no bracket closes. -/
  | unknown (text : List Char)
  /-- A closing delimiter outside every sequence. -/
  | noBoundary
  deriving DecidableEq, Repr

/-- A place in a source text, what is open around it and the records so far. -/
structure Cursor where
  source : List Char
  config : Config
  pos : Nat
  /-- The number of constructs around the cursor. -/
  depth : Nat
  /-- The closing delimiters that the open sequences expect, innermost first. -/
  boundaries : List Char
  /-- The token that was scanned last. -/
  peeked : Option Token
  arena : Arena
  deriving DecidableEq, Repr

/-- What is done with a cursor: it ends with a value or a failure, or it never ends. -/
abbrev Call (α : Type) := ExceptT Failure (StateT Cursor Option) α

namespace Cursor

/-- A cursor at the front of a text, with an arena that its records are added to. -/
def start (arena : Arena) (config : Config) (source : List Char) : Cursor :=
  { source, config, pos := 0, depth := 0, boundaries := [], peeked := none, arena }

/-- The cursor is at the end of the text or past it. -/
def atEnd (c : Cursor) : Bool :=
  c.source.length ≤ c.pos

/-! ## Tokens -/

/-- Goes to another offset. -/
def seek (pos : Nat) : Call Unit :=
  modify fun c => { c with pos }

/-- The token at the cursor. A token that is never terminated takes the rest of the text. -/
def peek : Call (Option Token) := do
  let c ← get
  if c.atEnd then return none
  else if (c.peeked.map Token.start) = some c.pos then return c.peeked
  else
    match Token.scan c.source c.pos with
    | .error .outside => throw .noToken
    | .error (.unterminated cause _ _) =>
      let t : Token := ⟨⟨.error, c.source.drop c.pos, some cause.fault⟩, c.pos⟩
      set { c with peeked := some t }
      return some t
    | .ok t =>
      set { c with peeked := some t }
      return some t

/-- Takes the token at the cursor. -/
def next : Call Token := do
  match ← peek with
  | none => throw .noToken
  | some t =>
    modify fun c => { c with pos := t.stop }
    return t

/-- A token that a datum may start with. -/
def beginsDatum (t : Option Token) : Bool :=
  t.any fun t => t.beginsDatum

/-! ## Records -/

/-- Adds a leaf. -/
def leaf (kind : Kind) (text : List Char) (fault : Option Fault) : Call Handle := do
  let c ← get
  set { c with arena := c.arena.leaf kind text fault }
  return c.arena.size

/-- Adds the leaf of a token; a token with a fault is an error leaf. -/
def token (t : Token) : Call Handle :=
  leaf (if t.fault.isSome then .error else t.kind) t.text t.fault

/-- Adds a placeholder. -/
def missing : Call Handle :=
  leaf .missing [] none

/-- Adds a branch around records. -/
def branch (kind : Kind) (children : List Handle) (fault : Option Fault) : Call Handle := do
  let c ← get
  set { c with arena := c.arena.branch kind children fault }
  return c.arena.size

/-- Adds the records of a block comment. The search for the closer never ends in a text that is not
a comment. -/
def blockComment (text : List Char) : Call Handle := fun c => do
  let d ← BlockComment.build [] [BlockComment.opening] [] (text.drop 2)
  let arena := (c.arena.store d).1
  return (.ok (arena.size - 1), { c with arena })

/-- Takes the rest of the text as an error, because nesting is too deep. -/
def tooDeep : Call Handle := do
  let c ← get
  set { c with pos := c.source.length }
  leaf .error (c.source.drop c.pos) (some .nestingTooDeep)

/-- Adds the leaf of a closing delimiter. In strict mode one that the innermost sequence does not
expect is an error. -/
def close (t : Token) : Call Handle := do
  let h ← token t
  let c ← get
  if c.config.strictDelimiters then
    match c.boundaries with
    | [] => throw .noBoundary
    | expected :: _ =>
      if t.text = [expected] then return h
      else branch .error [h] (some .delimiterMismatch)
  else return h

/-- The pieces of a dotted tail as children of their list: the pieces themselves, or an error around
them up to the trivia at the end. -/
def finishTail (pieces : List Handle) (wellFormed : Bool) : Call (List Handle) := do
  let c ← get
  let trailing := (pieces.reverse.takeWhile c.arena.isTrivia).reverse
  let inner := (pieces.reverse.dropWhile c.arena.isTrivia).reverse
  if wellFormed then return inner ++ trailing
  else
    let e ← branch .error inner (some .malformedDottedPair)
    return e :: trailing

/-! ## Reading -/

/-- Something that can be read at a cursor. The index is the type of what is returned. -/
inductive Phrase : Type → Type where
  /-- The trivia at the cursor. -/
  | trivia : Phrase (List Handle)
  /-- One piece of trivia. Any other token becomes a leaf. -/
  | triviaItem : Phrase Handle
  /-- The construct that a token of the given kind opens, unless nesting is too deep. -/
  | nested (kind : Kind) : Phrase Handle
  /-- A mark, trivia and the datum that the mark waits for. -/
  | wrapped : Phrase Handle
  /-- The datum at the cursor. -/
  | datum : Phrase Handle
  /-- A sequence. -/
  | sequence : Phrase Handle
  /-- A sequence after its opener, up to the given delimiter. -/
  | delimited (closer : Char) (kind : Kind) (first : Handle) : Phrase Handle
  /-- The rest of a sequence that has some children, among them a datum if `seen` says so. -/
  | elements (kind : Kind) (children : List Handle) (seen : Bool) : Phrase Handle
  /-- The rest of a dotted tail, up to the closing delimiter of its list. -/
  | tail (pieces : List Handle) (dots : Nat) (wellFormed : Bool) : Phrase (List Handle)
  /-- One item at top level: trivia, a datum or an error. -/
  | topLevel : Phrase Handle
  /-- All items at top level. -/
  | items : Phrase (List Handle)

/-- Reads a phrase. -/
def Phrase.read {α : Type} : Phrase α → Call α
  | .trivia => do
    match ← peek with
    | none => return []
    | some t =>
      if t.isTrivia then
        let h ← Phrase.triviaItem |>.read
        let hs ← Phrase.trivia |>.read
        return h :: hs
      else return []
  | .triviaItem => do
    match ← peek with
    | none => throw .noToken
    | some t =>
      if t.kind = .datumCommentMark then
        Phrase.nested t.kind |>.read
      else
        let _ ← next
        if t.kind = .blockComment then blockComment t.text else token t
  | .nested kind => fun c => do
    if c.config.maxDepth ≤ c.depth then tooDeep c
    else
      let inner := { c with depth := c.depth + 1 }
      let (r, c) ← if kind = .opener then Phrase.sequence |>.read inner
        else Phrase.wrapped |>.read inner
      return (r, { c with depth := c.depth - 1 })
  | .wrapped => do
    let mark ← next
    match Kind.ofMark? mark with
    | none => throw (.unknown mark.text)
    | some kind =>
      let first ← token mark
      let trivia ← Phrase.trivia |>.read
      if beginsDatum (← peek) then
        let datum ← Phrase.datum |>.read
        branch kind (first :: (trivia ++ [datum])) none
      else
        let gap ← missing
        branch .error (first :: (trivia ++ [gap])) (some .unexpectedToken)
  | .datum => do
    match ← peek with
    | none =>
      let c ← get
      throw (.refused ⟨.endOfInput, c.pos, c.pos⟩)
    | some t =>
      if t.kind = .dot then throw (.refused ⟨.illegalDot, t.start, t.stop⟩)
      else if t.beginsDatum then
        if t.kind = .opener || t.kind = .prefixMark || t.kind = .graphLabel then
          Phrase.nested t.kind |>.read
        else
          let _ ← next
          token t
      else throw (.refused ⟨.unexpected t.text, t.start, t.stop⟩)
  | .sequence => do
    let opener ← next
    let first ← token opener
    match opener.text.getLast?.bind Token.counterpart? with
    | none => throw (.unknown opener.text)
    | some closer => Phrase.delimited closer (Kind.ofOpener opener.text) first |>.read
  | .delimited closer kind first => fun c => do
    let (r, c) ← Phrase.elements kind [first] false |>.read
      { c with boundaries := closer :: c.boundaries }
    return (r, { c with boundaries := c.boundaries.tail })
  | .elements kind children seen => do
    let trivia ← Phrase.trivia |>.read
    match ← peek with
    | none =>
      let gap ← missing
      branch .error (children ++ trivia ++ [gap]) (some .unclosedDelimiter)
    | some t =>
      if t.kind = .closer then
        let _ ← next
        let h ← close t
        branch kind (children ++ trivia ++ [h]) none
      else if t.kind = .dot then
        if kind = .list && seen then
          let tail ← Phrase.tail [] 0 true |>.read
          Phrase.elements kind (children ++ trivia ++ tail) seen |>.read
        else
          let _ ← next
          let h ← token t
          let e ← branch .error [h] (some .malformedDottedPair)
          Phrase.elements kind (children ++ trivia ++ [e]) seen |>.read
      else
        let datum ← Phrase.datum |>.read
        Phrase.elements kind (children ++ trivia ++ [datum]) true |>.read
  | .tail pieces dots wellFormed => do
    match ← peek with
    | none => finishTail pieces wellFormed
    | some t =>
      if t.kind = .closer then finishTail pieces wellFormed
      else if t.kind = .dot then
        let _ ← next
        let dot ← token t
        let gap ← Phrase.trivia |>.read
        let c ← get
        if beginsDatum (← peek) then
          let datum ← Phrase.datum |>.read
          let after ← Phrase.trivia |>.read
          Phrase.tail (pieces ++ dot :: gap ++ datum :: after) (dots + 1)
            (wellFormed && dots + 1 ≤ c.config.maxDots) |>.read
        else Phrase.tail (pieces ++ dot :: gap) (dots + 1) false |>.read
      else
        -- a second datum after a dot
        let datum ← Phrase.datum |>.read
        let after ← Phrase.trivia |>.read
        Phrase.tail (pieces ++ datum :: after) dots false |>.read
  | .topLevel => do
    match ← peek with
    | none => throw .noToken
    | some t =>
      if t.isTrivia then Phrase.triviaItem |>.read
      else if t.beginsDatum then Phrase.datum |>.read
      else
        let _ ← next
        let h ← token t
        branch .error [h]
          (some (if t.kind = .dot then .malformedDottedPair else .unexpectedToken))
  | .items => do
    let c ← get
    if c.atEnd then return []
    else
      let h ← Phrase.topLevel |>.read
      let hs ← Phrase.items |>.read
      return h :: hs
partial_fixpoint

/-- Reads the trivia at the cursor. -/
abbrev readTrivia : Call (List Handle) := Phrase.trivia.read

/-- Reads one piece of trivia. -/
abbrev readTriviaItem : Call Handle := Phrase.triviaItem.read

/-- Reads the datum at the cursor. -/
abbrev readDatum : Call Handle := Phrase.datum.read

/-- Reads one item at top level. -/
abbrev readTopLevel : Call Handle := Phrase.topLevel.read

/-- Reads the rest of the text into a source node. -/
def readSource : Call Handle := do
  let items ← Phrase.items.read
  branch .source items none

end Cursor

end RacketTree
