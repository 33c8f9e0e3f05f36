/-!
# Kinds

Every token and every node of a tree has a kind. The groups below say where a kind may stand:

* *trivia* are nodes between datums: whitespace and comments;
* *atoms* are leaves in datum position;
* *sequences* and *wrappers* are the compound datums;
* *punctuation* is what a compound is built with and has no meaning by itself.
-/

namespace RacketTree

/-- The kind of a token or node. -/
inductive Kind where
  | source
  -- trivia
  | whitespace
  | lineComment
  | blockComment
  | datumComment
  | commentText
  -- atoms
  | symbol
  | number
  | string
  | byteString
  | character
  | boolean
  | keyword
  | regexp
  | hereString
  | graphReference
  | readerDirective
  | extension
  -- punctuation
  | opener
  | closer
  | dot
  | prefixMark
  | datumCommentMark
  | graphLabel
  | blockCommentOpener
  | blockCommentCloser
  -- compounds
  | list
  | vector
  | byteVector
  | hash
  | prefabStruct
  | quote
  | quasiquote
  | unquote
  | unquoteSplicing
  | syntaxQuote
  | syntaxQuasiquote
  | syntaxUnquote
  | syntaxUnquoteSplicing
  | box
  | graphDefinition
  -- recovery
  | error
  | missing
  deriving DecidableEq, Repr

namespace Kind

/-- All kinds. -/
def all : List Kind := [
  source, whitespace, lineComment, blockComment, datumComment, commentText, symbol, number, string,
  byteString, character, boolean, keyword, regexp, hereString, graphReference, readerDirective,
  extension, opener, closer, dot, prefixMark, datumCommentMark, graphLabel, blockCommentOpener,
  blockCommentCloser, list, vector, byteVector, hash, prefabStruct, quote, quasiquote, unquote,
  unquoteSplicing, syntaxQuote, syntaxQuasiquote, syntaxUnquote, syntaxUnquoteSplicing, box,
  graphDefinition, error, missing]

/-- The name of a kind. -/
def name : Kind → String
  | source => "source"
  | whitespace => "whitespace"
  | lineComment => "line_comment"
  | blockComment => "block_comment"
  | datumComment => "datum_comment"
  | commentText => "comment_text"
  | symbol => "symbol"
  | number => "number"
  | string => "string"
  | byteString => "byte_string"
  | character => "character"
  | boolean => "boolean"
  | keyword => "keyword"
  | regexp => "regexp"
  | hereString => "here_string"
  | graphReference => "graph_reference"
  | readerDirective => "reader_directive"
  | extension => "extension"
  | opener => "open"
  | closer => "close"
  | dot => "dot"
  | prefixMark => "prefix"
  | datumCommentMark => "datum_comment_prefix"
  | graphLabel => "graph_label"
  | blockCommentOpener => "block_comment_open"
  | blockCommentCloser => "block_comment_close"
  | list => "list"
  | vector => "vector"
  | byteVector => "byte_vector"
  | hash => "hash"
  | prefabStruct => "prefab_struct"
  | quote => "quote"
  | quasiquote => "quasiquote"
  | unquote => "unquote"
  | unquoteSplicing => "unquote_splicing"
  | syntaxQuote => "syntax_quote"
  | syntaxQuasiquote => "syntax_quasiquote"
  | syntaxUnquote => "syntax_unquote"
  | syntaxUnquoteSplicing => "syntax_unquote_splicing"
  | box => "box"
  | graphDefinition => "graph_definition"
  | error => "error"
  | missing => "missing"

/-- The kind with a given name. -/
def ofName? (name : String) : Option Kind :=
  all.find? (·.name == name)

/-- Whitespace and comments between datums. -/
def isTrivia : Kind → Bool
  | whitespace | lineComment | blockComment | datumComment => true
  | _ => false

/-- Trivia other than whitespace. -/
def isComment : Kind → Bool
  | lineComment | blockComment | datumComment => true
  | _ => false

/-- Leaves in datum position. -/
def isAtom : Kind → Bool
  | symbol | number | string | byteString | character | boolean | keyword | regexp | hereString
  | graphReference | readerDirective | extension => true
  | _ => false

/-- Parts of compounds that have no meaning by themselves. -/
def isPunctuation : Kind → Bool
  | opener | closer | dot | prefixMark | datumCommentMark | graphLabel | blockCommentOpener
  | blockCommentCloser | commentText | missing => true
  | _ => false

/-- Compounds between an opening and a closing delimiter. -/
def isSequence : Kind → Bool
  | list | vector | byteVector | hash | prefabStruct => true
  | _ => false

/-- Compounds of a mark and one datum. -/
def isWrapper : Kind → Bool
  | quote | quasiquote | unquote | unquoteSplicing | syntaxQuote | syntaxQuasiquote
  | syntaxUnquote | syntaxUnquoteSplicing | box | graphDefinition => true
  | _ => false

/-- Sequences and wrappers. -/
def isCompound (k : Kind) : Bool :=
  k.isSequence || k.isWrapper

/-- The sequence that an opening delimiter starts. -/
def ofOpener (text : List Char) : Kind :=
  if text = ['('] || text = ['['] || text = ['\x7b'] then list
  else if "#vu8".toList.isPrefixOf text then byteVector
  else if "#hash".toList.isPrefixOf text then hash
  else if "#s".toList.isPrefixOf text then prefabStruct
  else vector

/-- The wrapper that a prefix mark starts. -/
def ofPrefix (text : List Char) : Kind :=
  match text with
  | ['\x27'] => quote
  | ['\x60'] => quasiquote
  | [','] => unquote
  | [',', '@'] => unquoteSplicing
  | ['#', '\x27'] => syntaxQuote
  | ['#', '\x60'] => syntaxQuasiquote
  | ['#', ','] => syntaxUnquote
  | ['#', ',', '@'] => syntaxUnquoteSplicing
  | _ => box

/-- The prefix marks and the wrappers that they start. -/
def prefixForms : List (List Char × Kind) := [
  (['\x27'], quote), (['\x60'], quasiquote), ([','], unquote), ([',', '@'], unquoteSplicing),
  (['#', '\x27'], syntaxQuote), (['#', '\x60'], syntaxQuasiquote), (['#', ','], syntaxUnquote),
  (['#', ',', '@'], syntaxUnquoteSplicing), (['#', '&'], box)]

end Kind

end RacketTree
