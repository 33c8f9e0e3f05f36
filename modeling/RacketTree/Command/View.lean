import RacketTree.Command.Options
import RacketTree.Command.Report
import RacketTree.Config.Load
import RacketTree.Text.LineBreak
import RacketTree.Tree.Render

/-!
# Views

What a task prints for one input: the outline or S-expression of its tree, its tokens, its errors,
or its lines with the tokens in each.
-/

namespace RacketTree.View

/-- A token with its place, its kind, its fault and its text. -/
def tokenLine (lines : Lines) (t : Token) : String :=
  let point := lines.position t.start
  let fault := match t.fault with
    | some fault => " " ++ fault.name
    | none => ""
  s!"{point.row + 1}:{point.column + 1}\t" ++ t.kind.name ++ fault ++ "\t" ++ Text.quoted t.text

/-- The token is left out of a list without trivia. -/
def isTriviaToken (t : Token) : Bool :=
  t.kind.isTrivia || t.kind == .datumCommentMark

/-- The tokens of a source, with or without trivia. -/
def tokenLines (noTrivia : Bool) (source : List Char) : List String :=
  let lines := Lines.ofText source
  let tokens := Token.tokenize source
  (if noTrivia then tokens.filter (!isTriviaToken ·) else tokens).map (tokenLine lines)

/-- The part of a leaf in a row, under the row's number. -/
def leafParts (lines : Lines) (leaf : Node) : List (Nat × String) :=
  (lines.splitRange leaf.start leaf.stop).map fun r =>
    (r.row, leaf.kind.name ++ s!"@{r.start}-{r.stop}")

/-- The parts of all leaves that are not blank, under the numbers of their rows. -/
def parts (t : Tree) (a : Arena) : List (Nat × String) :=
  ((t.node a).leaves.filter fun leaf => leaf.kind != .whitespace && leaf.kind != .missing).flatMap
    (leafParts t.lines)

/-- A row of text, and under it the parts of the row if it has any. -/
def highlightedRow (parts : List (Nat × String)) (row : Nat) (line : List Char) : List String :=
  let title := Report.rowNumber (row + 1) ++ " | " ++ String.ofList line
  match (parts.filter (·.1 == row)).map (·.2) with
  | [] => [title]
  | labels => [title, "      | " ++ String.intercalate " " labels]

/-- The rows of a text from a number on. -/
def highlightedRows (parts : List (Nat × String)) : Nat → List (List Char) → List String
  | _, [] => []
  | row, line :: rest => highlightedRow parts row line ++ highlightedRows parts (row + 1) rest

/-- The lines of a source with the parts of its tree. -/
def highlight (t : Tree) (a : Arena) (width : Int) : Except Text.WidthError (List String) := do
  let text ← if width = 0 then pure t.source else Text.fitLines t.source width
  return highlightedRows (parts t a) 0 (Text.breakLines text)

end RacketTree.View

namespace RacketTree.Command

/-- Why a task breaks down at an input. -/
inductive Breakdown where
  /-- The option file holds a value that has no meaning. -/
  | options (cause : LoadError)
  /-- The code has been cleared, and the task needs lines. -/
  | noText
  /-- The number of lines around an error has been cleared. -/
  | noContext
  | width (cause : Text.WidthError)
  deriving Repr

/-- The wording of a breakdown. -/
def Breakdown.text : Breakdown → Codes
  | options cause => cause.text
  | noText => "there is no code to read"
  | noContext => "there is no number of lines to show"
  | width _ => "no line can be so wide"

/-- What a task prints for an input, and whether the input fails it. -/
def Task.view (config : Config) (name : String) (source : List Char) :
    Task → Except Breakdown (List String × Bool)
  | parse sexp =>
    let (a, t) := RacketTree.parse config source
    .ok (if sexp then [(t.node a).sexp] else (t.node a).outline, false)
  | tokens noTrivia => .ok (View.tokenLines noTrivia source, false)
  | check context verbose =>
    let (a, t) := RacketTree.parse config source
    if t.hasErrors a then
      match context with
      | some context => .ok ((Report.lines? t a name context).getD [], true)
      | none => .error .noContext
    else .ok (if verbose then [name ++ ": ok"] else [], false)
  | highlight width => do
    let (a, t) := RacketTree.parse config source
    return (← (View.highlight t a width).mapError .width, false)

/-- What a task prints for code: code that has been cleared has no tokens and no lines. -/
def Task.viewCode (config : Config) (name : String) (task : Task) :
    Code → Except Breakdown (List String × Bool)
  | .text source => task.view config name source
  | .cleared =>
    match task with
    | parse _ | check .. => task.view config name []
    | tokens _ | highlight _ => .error .noText

end RacketTree.Command
