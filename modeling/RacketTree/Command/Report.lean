import RacketTree.Tree.Diagnostic

/-!
# Error reports

One line for each outermost error, with its place, a sentence and the name of the fault, and under
it the lines of the source around it. The rows that the error touches are marked.
-/

namespace RacketTree.Report

/-- A number right-aligned in five columns. -/
def rowNumber (n : Int) : String :=
  let digits := toString n
  String.ofList (List.replicate (5 - digits.length) ' ') ++ digits

/-- A row of the source, marked if the error touches it. -/
def sourceRow (lines : Lines) (marked : List Nat) (row : Int) : String :=
  let marker := if marked.any fun r => (r : Int) == row then ">" else " "
  marker ++ rowNumber (row + 1) ++ " | " ++ String.ofList ((lines.line? row).getD [])

/-- The lines for one error node. -/
def errorLines (lines : Lines) (name : String) (context : Int) (n : Node) : List String :=
  let (start, stop) := n.diagnosticSpan
  let point := lines.position start
  let code := (n.fault.map Fault.name).getD "missing"
  let title := name ++ s!":{point.row + 1}:{point.column + 1}: error: " ++
    n.diagnosticMessage lines.text ++ " [" ++ code ++ "]"
  if context < 0 then [title]
  else
    let rows := lines.rowsOf [((start : Int), (max stop start : Int))]
    title :: (contextRows (rows.map Int.ofNat) context lines.maxRow).map (sourceRow lines rows)

/-- The report on a tree, unless an error node in it cannot be shown. -/
def lines? (t : Tree) (a : Arena) (name : String) (context : Int) : Option (List String) :=
  let errors := t.errors a
  if errors.all Node.isReportable then some (errors.flatMap (errorLines t.lines name context))
  else none

end RacketTree.Report
