import RacketTree.Lines
import RacketTree.Tree.Node
import RacketTree.Tree.Read

/-!
# Trees

A tree is a root record, the source text it was read from and the options it was read with. The
records are in an arena beside it, which later trees share.
-/

namespace RacketTree

/-- One version of a source text and its root record. -/
structure Tree where
  source : List Char
  root : Handle
  config : Config
  /-- The offset of the root: zero, unless the tree is a single datum. -/
  rootStart : Nat
  deriving DecidableEq, Repr

namespace Tree

/-- The root node. -/
def node (t : Tree) (a : Arena) : Node :=
  a.view t.root t.rootStart

/-- The line index of the source. -/
def lines (t : Tree) : Lines :=
  Lines.ofText t.source

/-- The texts of all leaves. -/
def text (t : Tree) (a : Arena) : List Char :=
  (t.node a).leaves.flatMap fun leaf => leaf.text?.getD []

/-- The tree has an error. -/
def hasErrors (t : Tree) (a : Arena) : Bool :=
  a.hasFault t.root

/-- The outermost error nodes. -/
def errors (t : Tree) (a : Arena) : List Node :=
  (t.node a).errors

/-- The items at top level. -/
def items (t : Tree) (a : Arena) : List Node :=
  (t.node a).children

/-- The chain from the deepest node at an offset up to the root. -/
def pathTo (t : Tree) (a : Arena) (offset : Int) : List Node :=
  (t.node a).pathTo offset

/-- Structural equality of two trees. -/
def equivalent (t : Tree) (a : Arena) (u : Tree) (b : Arena) : Bool :=
  a.same b t.root u.root

end Tree

/-- Adds a source node around items. -/
def Arena.source (a : Arena) (items : List Handle) : Arena × Handle :=
  (a.branch .source items none, a.size)

/-- Reads a source text and adds its records to an arena. -/
def parseInto (a : Arena) (config : Config) (source : List Char) : Arena × Tree :=
  let (a, items) := a.storeAll (Read.readItems config 0 (Token.lexemes source))
  let (a, root) := a.source items
  (a, { source, root, config, rootStart := 0 })

/-- Reads a source text. -/
def parse (config : Config) (source : List Char) : Arena × Tree :=
  parseInto Arena.empty config source

end RacketTree
