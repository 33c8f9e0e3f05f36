import RacketTree.Token.Scan
import RacketTree.Tree.Frame

/-!
# Reading items

The reader takes lexemes one at a time over a stack of open constructs, the innermost first. It is
total: every sequence of lexemes is read, and what does not fit becomes an error node.

* `deliver` hands a finished item to the construct around it. A wrapper is finished by its datum and
  handed on.
* `settle` ends the wrappers at a lexeme that cannot start a datum.
* `finish` ends everything at the end of the input.
* `readItem` reads one item at top level and `readItems` a whole text.
-/

namespace RacketTree.Read

/-- The reader after an item has been handed on: the item is complete at top level, or the reader is
inside a construct again. -/
inductive Delivered where
  | item (d : Draft)
  | inside (top : Frame) (rest : List Frame)

/-- Hands an item to the constructs around it. -/
def deliver (item : Draft) (role : Role) : List Frame → Delivered
  | [] => .item item
  | .sequence s :: rest => .inside (.sequence (s.add item role)) rest
  | .wrapper w :: rest =>
    match role with
    | .trivia => .inside (.wrapper (w.add item)) rest
    | .datum => deliver (w.complete item) w.role rest

/-- The innermost sequence around the cursor, after the wrappers inside it have ended; or, if there
is none, the item at top level that has ended with them. -/
inductive Settled where
  | item (d : Draft)
  | sequence (s : Sequence) (rest : List Frame)

/-- Hands an item on and ends every wrapper on the way. -/
def settleWith (item : Draft) (role : Role) : List Frame → Settled
  | [] => .item item
  | .sequence s :: rest => .sequence (s.add item role) rest
  | .wrapper w :: rest =>
    match role with
    | .trivia => settleWith (w.add item).fail w.role rest
    | .datum => settleWith (w.complete item) w.role rest

/-- Ends the wrappers that wait for a datum which does not come. -/
def settle (top : Frame) (rest : List Frame) : Settled :=
  match top with
  | .sequence s => .sequence s rest
  | .wrapper w => settleWith w.fail w.role rest

/-- Hands an item on and ends every construct on the way. -/
def finishWith (item : Draft) (role : Role) : List Frame → Draft
  | [] => item
  | .sequence s :: rest => finishWith (s.add item role).unclosed .datum rest
  | .wrapper w :: rest =>
    match role with
    | .trivia => finishWith (w.add item).fail w.role rest
    | .datum => finishWith (w.complete item) w.role rest

/-- Ends all constructs at the end of the input. -/
def finish (top : Frame) (rest : List Frame) : Draft :=
  match top with
  | .sequence s => finishWith s.unclosed .datum rest
  | .wrapper w => finishWith w.fail w.role rest

/-- The error leaf that takes the rest of the input where nesting is too deep. -/
def tooDeep (lexemes : List Lexeme) : Draft :=
  .leaf .error (lexemes.flatMap Lexeme.text) (some .nestingTooDeep)

/-- Reads on inside a construct up to the end of the item at top level, and gives the lexemes that
are left. `outer` constructs lie outside the stack and count for the depth limit. -/
def advance (config : Config) (outer : Nat) (top : Frame) (rest : List Frame) :
    List Lexeme → Draft × List Lexeme
  | [] => (finish top rest, [])
  | l :: ls =>
    match l.kind with
    | .closer =>
      match settle top rest with
      | .item d => (d, l :: ls)
      | .sequence s below =>
        match deliver (s.close config l) .datum below with
        | .item d => (d, ls)
        | .inside top rest => advance config outer top rest ls
    | .dot =>
      match settle top rest with
      | .item d => (d, l :: ls)
      | .sequence s below => advance config outer (.sequence (s.addDot config l)) below ls
    | _ =>
      match Frame.ofLexeme? l with
      | some frame =>
        if config.maxDepth ≤ outer + rest.length + 1 then
          match deliver (tooDeep (l :: ls)) l.role (top :: rest) with
          | .item d => (d, [])
          | .inside top rest => (finish top rest, [])
        else advance config outer frame (top :: rest) ls
      | none =>
        match deliver l.draft l.role (top :: rest) with
        | .item d => (d, ls)
        | .inside top rest => advance config outer top rest ls

/-- The error for a closing delimiter or a dot that stands outside every sequence. -/
def stray (l : Lexeme) : Draft :=
  .branch .error [l.leaf]
    (some (if l.kind = .dot then .malformedDottedPair else .unexpectedToken))

/-- Reads one item that starts with the lexeme `l`: trivia, a datum or an error. -/
def readItem (config : Config) (outer : Nat) (l : Lexeme) (ls : List Lexeme) :
    Draft × List Lexeme :=
  match l.kind with
  | .closer | .dot => (stray l, ls)
  | _ =>
    match Frame.ofLexeme? l with
    | some frame =>
      if config.maxDepth ≤ outer then (tooDeep (l :: ls), [])
      else advance config outer frame [] ls
    | none => (l.draft, ls)

theorem length_advance_le (config : Config) (outer : Nat) (ls : List Lexeme) (top : Frame)
    (rest : List Frame) : (advance config outer top rest ls).2.length ≤ ls.length := by
  induction ls generalizing top rest with
  | nil => simp [advance]
  | cons l ls ih =>
    rw [advance]
    repeat' split
    all_goals first
      | exact Nat.le_refl _
      | exact Nat.le_succ _
      | exact Nat.zero_le _
      | exact Nat.le_succ_of_le (ih _ _)

theorem length_readItem_lt (config : Config) (outer : Nat) (l : Lexeme) (ls : List Lexeme) :
    (readItem config outer l ls).2.length < (l :: ls).length := by
  rw [readItem]
  repeat' split
  all_goals first
    | exact Nat.lt_succ_self _
    | exact Nat.succ_pos _
    | exact Nat.lt_succ_of_le (length_advance_le _ _ _ _ _)

/-- Reads items up to the end of the input, or up to the first boundary between items at which
`resume` has an answer. `pos` is the offset of the first lexeme. -/
def readUntil {α : Type} (config : Config) (outer : Nat) (resume : Nat → Option α) (pos : Nat) :
    List Lexeme → List Draft × Option α
  | [] => ([], none)
  | l :: ls =>
    match resume pos with
    | some a => ([], some a)
    | none =>
      let read := readItem config outer l ls
      let (items, a) := readUntil config outer resume (pos + read.1.width) read.2
      (read.1 :: items, a)
termination_by ls => ls.length
decreasing_by exact length_readItem_lt _ _ _ _

/-- Reads all items. -/
def readItems (config : Config) (outer : Nat) : List Lexeme → List Draft
  | [] => []
  | l :: ls =>
    let read := readItem config outer l ls
    read.1 :: readItems config outer read.2
termination_by ls => ls.length
decreasing_by exact length_readItem_lt _ _ _ _

/-- Reads the items in trivia position at the front. -/
def readTrivia (config : Config) (outer : Nat) : List Lexeme → List Draft × List Lexeme
  | [] => ([], [])
  | l :: ls =>
    if l.isTrivia then
      let read := readItem config outer l ls
      let (items, rest) := readTrivia config outer read.2
      (read.1 :: items, rest)
    else ([], l :: ls)
termination_by ls => ls.length
decreasing_by exact length_readItem_lt _ _ _ _

end RacketTree.Read
