import RacketTree.Number.Classify
import RacketTree.Tree.Basic

/-!
# Diagnostics and descriptions

What is shown of an error node: the stretch to underline and a sentence. A sequence that is never
closed is shown at its opening delimiter. Descriptions say what a node is.
-/

namespace RacketTree.Node

/-- The node is a sequence that is never closed. -/
def isUnclosed (n : Node) : Bool :=
  n.fault == some .unclosedDelimiter

/-- The node can be shown: an unclosed sequence needs the opening delimiter as its first child. -/
def isReportable (n : Node) : Bool :=
  !(n.isUnclosed && n.children.isEmpty)

/-- The part of an error node to underline. -/
def diagnosticSpan (n : Node) : Nat × Nat :=
  match n.isUnclosed, n.children with
  | true, opener :: _ => (opener.start, opener.stop)
  | _, _ => (n.start, n.stop)

/-- The sentence for an error node. -/
def diagnosticMessage (n : Node) (source : List Char) : String :=
  if n.isMissing then "expected a datum"
  else match n.fault with
    | none => "syntax error"
    | some .unclosedDelimiter =>
      match n.children with
      | opener :: _ => "`" ++ String.ofList (opener.text source) ++ "` is never closed"
      | [] => Fault.unclosedDelimiter.message
    | some f => f.message

/-- The wording of a number's classification. -/
def numberText (info : Number.Info) : String :=
  let exactness := if info.exact then "exact" else "inexact"
  exactness ++ " " ++ info.category.name ++ ", radix " ++ toString info.radix.value

/-- What a node is, in Markdown. -/
def describe (n : Node) (source : List Char) : String :=
  let title := "**" ++ n.kind.name ++ "**"
  let detail? :=
    if n.kind == .number then (Number.classify? (n.text source)).map numberText
    else match n.kind, n.fault with
      | .error, some f => some f.message
      | kind, _ => if kind.isSequence then some s!"{n.datums.length} elements" else none
  match detail? with
  | some detail => title ++ "\n\n" ++ detail
  | none => title

end RacketTree.Node
