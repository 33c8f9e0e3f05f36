import RacketTree.Tree.Basic

/-!
# Edits

An edit says that the characters from `start` to `oldEnd` of an old text became those from `start`
to `newEnd` of a new one. `Tree.reparse` reads the new text and uses the items of the old tree again
where the edit cannot have changed them.

* It reads from the first item that touches the edit, or from the item before it, if that one ends
  at most one character before the edit in a token that may have looked further.
* It stops at the first item boundary that is the shifted start of an old item after the edit; from
  there on the old items are taken as they are.
-/

namespace RacketTree

/-- A replacement of one stretch of text. -/
structure Edit where
  start : Nat
  oldEnd : Nat
  newEnd : Nat
  startPoint : Option Point := none
  oldEndPoint : Option Point := none
  newEndPoint : Option Point := none
  deriving DecidableEq, Repr

/-- Why an edit is refused. -/
inductive EditError where
  /-- An end lies before the start, or the start before the text. -/
  | invalid (start oldEnd newEnd : Int)
  /-- The range is not a range of the text. -/
  | outOfBounds (start stop : Int)
  | pastOldText (oldEnd oldLength : Nat)
  | wrongLength (expected actual : Nat)
  /-- The tree is a single datum. -/
  | notWholeSource
  deriving DecidableEq, Repr

namespace EditError

/-- The wording of a refusal. -/
def message : EditError → String
  | invalid start oldEnd newEnd =>
    s!"invalid edit: start={start} old_end={oldEnd} new_end={newEnd}"
  | outOfBounds start stop => s!"replacement range {start}:{stop} is out of bounds"
  | pastOldText oldEnd oldLength => s!"edit ends at {oldEnd}, past the old text ({oldLength})"
  | wrongLength expected actual =>
    s!"edit does not match the new text: expected {expected} characters, got {actual}"
  | notWholeSource => "only whole-source trees can be re-parsed"

end EditError

namespace Edit

/-- An edit without points. -/
def ofOffsets (start oldEnd newEnd : Int) : Except EditError Edit :=
  if start < 0 || oldEnd < start || newEnd < start then .error (.invalid start oldEnd newEnd)
  else .ok { start := start.toNat, oldEnd := oldEnd.toNat, newEnd := newEnd.toNat }

/-- The number of characters gained. -/
def delta (e : Edit) : Int :=
  (e.newEnd : Int) - e.oldEnd

/-- The new place of an old offset that is not before the edit. -/
def shift (e : Edit) (offset : Int) : Int :=
  if e.oldEnd ≤ offset then offset + e.delta else offset

/-- The text with `inserted` in place of the range. -/
def splice (text : List Char) (start stop : Nat) (inserted : List Char) : List Char :=
  text.take start ++ inserted ++ text.drop stop

/-- The edit and the new text for `inserted` in place of a range of the old text. -/
def replacement (old : List Char) (start stop : Int) (inserted : List Char) :
    Except EditError (Edit × List Char) :=
  if 0 ≤ start && start ≤ stop && stop ≤ old.length then
    let new := splice old start.toNat stop.toNat inserted
    let newEnd := start.toNat + inserted.length
    let oldLines := Lines.ofText old
    .ok (
      { start := start.toNat, oldEnd := stop.toNat, newEnd
        startPoint := some (oldLines.position start)
        oldEndPoint := some (oldLines.position stop)
        newEndPoint := some ((Lines.ofText new).position newEnd) },
      new)
  else .error (.outOfBounds start stop)

/-- The same for a range between two points, each a row and a column. -/
def ofPoints (old : List Char) (start stop : Int × Int) (inserted : List Char) :
    Except EditError (Edit × List Char) :=
  let lines := Lines.ofText old
  replacement old (lines.offset start.1 start.2) (lines.offset stop.1 stop.2) inserted

end Edit

namespace Tree

/-- A token of this kind ends with a closing character and has not looked further. -/
def endsClosed : Kind → Bool
  | .closer | .string | .byteString | .regexp | .blockCommentCloser => true
  | _ => false

/-- The number of old items before the first one that has to be read again. -/
def kept (a : Arena) (items : List Node) (e : Edit) : Nat :=
  let before := items.takeWhile (·.stop < e.start)
  match before.getLast? with
  | some last =>
    if e.start ≤ last.stop + 1 && !endsClosed (a.lastLeafKind last.handle) then before.length - 1
    else before.length
  | none => 0

/-- The old items that may be used again from the offset `pos` of the new text on: those from an
item on that lies after the edit and starts there when shifted. -/
def resumed? (items : List Node) (e : Edit) (pos : Nat) : Option (List Handle) :=
  match items.dropWhile fun n => !(e.oldEnd ≤ n.start && (n.start : Int) + e.delta == pos) with
  | [] => none
  | rest => some (rest.map Node.handle)

/-- Why an edit does not fit a tree and the new text. -/
def refusal? (t : Tree) (a : Arena) (new : List Char) (e : Edit) : Option EditError :=
  let expected := t.source.length - (e.oldEnd - e.start) + (e.newEnd - e.start)
  if t.source.length < e.oldEnd then some (.pastOldText e.oldEnd t.source.length)
  else if new.length ≠ expected then some (.wrongLength expected new.length)
  else if (t.node a).kind ≠ .source || t.rootStart ≠ 0 then some .notWholeSource
  else none

/-- The tree of the new text after an edit. -/
def reparse (t : Tree) (a : Arena) (new : List Char) (e : Edit) :
    Except EditError (Arena × Tree) :=
  match t.refusal? a new e with
  | some refusal => .error refusal
  | none =>
    let items := t.items a
    let first := kept a items e
    let pos := match items[first]? with
      | some n => n.start
      | none => 0
    let (drafts, tail) :=
      Read.readUntil t.config 0 (resumed? (items.drop (first + 1)) e) pos
        (Token.lexemes (new.drop pos))
    let (a, fresh) := a.storeAll drafts
    let (a, root) := a.source ((items.take first).map Node.handle ++ fresh ++ tail.getD [])
    .ok (a, { source := new, root, config := t.config, rootStart := 0 })

/-- The tree with `inserted` in place of a range of its source. -/
def replace (t : Tree) (a : Arena) (start stop : Int) (inserted : List Char) :
    Except EditError (Arena × Tree) := do
  let (e, new) ← Edit.replacement t.source start stop inserted
  t.reparse a new e

end Tree

end RacketTree
