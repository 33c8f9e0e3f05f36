import RacketTree.Json.Printer
import RacketTree.Text.Quoted
import RacketTree.Tree.Basic

/-!
# Trees as text

* `Node.sexp` shows the named structure as an S-expression;
* `Node.outline` shows every node on a line of its own, indented by depth;
* the summaries name a token, node or tree with its place.
-/

namespace RacketTree

/-- A span in brackets. -/
def spanText (start stop : Nat) : String :=
  s!"[{start}, {stop})"

namespace Node

mutual

/-- The named structure of a node. -/
def sexp : Node → String
  | ⟨_, kind, _, _, text?, fault, _, children⟩ =>
    match text? with
    | some text =>
      let label := match kind, fault with
        | .error, some f => "error " ++ f.name
        | kind, _ => kind.name
      "(" ++ label ++ " " ++ String.ofList (Json.quoteAscii text) ++ ")"
    | none =>
      let label := match fault with
        | some f => kind.name ++ " " ++ f.name
        | none => kind.name
      "(" ++ label ++ namedSexps children ++ ")"

/-- The named structure of those children that are named, each after a blank. -/
def namedSexps : List Node → String
  | [] => ""
  | n :: rest =>
    if n.kind == .whitespace || n.kind.isPunctuation then namedSexps rest
    else " " ++ n.sexp ++ namedSexps rest

end

/-- The line of a node in an outline. -/
def outlineLine (depth : Nat) (n : Node) : String :=
  let label := String.ofList (List.replicate (2 * depth) ' ') ++ n.kind.name ++ " " ++
    spanText n.start n.stop
  let label := match n.fault with
    | some f => label ++ " " ++ f.name
    | none => label
  match n.text? with
  | some text => label ++ " " ++ Text.quoted text
  | none => label

/-- An outline of a node and all nodes below it. -/
def outline (n : Node) : List String :=
  (n.walkDepths 0).map fun (depth, n) => n.outlineLine depth

/-- A node named with its span. -/
def summary (n : Node) : String :=
  "<SyntaxNode " ++ n.kind.name ++ " " ++ spanText n.start n.stop ++ ">"

end Node

/-- A token named with its text and span. -/
def Token.summary (t : Token) : String :=
  "Token(" ++ t.kind.name ++ ", " ++ Text.quoted t.text ++ s!", {t.start}:{t.stop})"

/-- A tree named with its size. -/
def Tree.summary (t : Tree) (a : Arena) : String :=
  s!"<Tree {t.source.length} chars, {(t.items a).length} items>"

end RacketTree
