import RacketTree.Tree.Draft

/-!
# Block comments

The text of a block comment as nested branches: an opener, comment texts and inner comments in turn,
and a closer.
-/

namespace RacketTree.BlockComment

/-- The leaf that opens a comment. -/
def opening : Draft :=
  .leaf .blockCommentOpener ['#', '|'] none

/-- The leaf that closes a comment. -/
def closing : Draft :=
  .leaf .blockCommentCloser ['|', '#'] none

/-- The children so far, newest first, with the run of plain text before them added. The run is held
backwards, and an empty run is no leaf. -/
def flush (run : List Char) (children : List Draft) : List Draft :=
  if run.isEmpty then children else .leaf .commentText run.reverse none :: children

/-- Builds the comment from the characters after its opener. `children` are those of the innermost
open comment and `outer` those of the comments around it, each newest first. -/
def build (run : List Char) (children : List Draft) (outer : List (List Draft)) :
    List Char → Option Draft
  | [] => none
  | '|' :: '#' :: rest =>
    let done := .branch .blockComment (closing :: flush run children).reverse none
    match outer with
    | [] => some done
    | parent :: outer => build [] (done :: parent) outer rest
  | '#' :: '|' :: rest => build [] [opening] (flush run children :: outer) rest
  | c :: rest => build (c :: run) children outer rest

/-- The branch of a whole comment. A text that is not a comment is kept as one leaf. -/
def draft (text : List Char) : Draft :=
  (build [] [opening] [] (text.drop 2)).getD (.leaf .blockComment text none)

end RacketTree.BlockComment
