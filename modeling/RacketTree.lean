import RacketTree.Command.Options
import RacketTree.Command.Report
import RacketTree.Command.Run
import RacketTree.Command.Switch
import RacketTree.Command.View
import RacketTree.Config
import RacketTree.Config.Load
import RacketTree.Config.Read
import RacketTree.Datum.Convert
import RacketTree.Datum.Value
import RacketTree.Decimal.Binary64
import RacketTree.Decimal.Read
import RacketTree.Decimal.Shortest
import RacketTree.Fault
import RacketTree.Files
import RacketTree.Json.Basic
import RacketTree.Json.Parser
import RacketTree.Json.Printer
import RacketTree.Kind
import RacketTree.Lines
import RacketTree.Literal
import RacketTree.Main
import RacketTree.Number.Classify
import RacketTree.Number.Grammar
import RacketTree.Number.Integer
import RacketTree.Number.Pattern
import RacketTree.Number.Radix
import RacketTree.Path
import RacketTree.Proofs.Command.Highlight
import RacketTree.Proofs.Config.Outcome
import RacketTree.Proofs.Config.Settings
import RacketTree.Proofs.Datum.Conversion
import RacketTree.Proofs.Datum.Reading
import RacketTree.Proofs.Json.Halves
import RacketTree.Proofs.Json.Room
import RacketTree.Proofs.Literal.Characters
import RacketTree.Proofs.Literal.Failures
import RacketTree.Proofs.Literal.Strings
import RacketTree.Proofs.Number.Classification
import RacketTree.Proofs.Number.Decimal
import RacketTree.Proofs.Number.Derivation
import RacketTree.Proofs.Number.Integers
import RacketTree.Proofs.Number.Pattern
import RacketTree.Proofs.Path
import RacketTree.Proofs.Rpc.Answers
import RacketTree.Proofs.Rpc.Frames
import RacketTree.Proofs.Rpc.Outcomes
import RacketTree.Proofs.Rpc.Writing
import RacketTree.Proofs.Server.Client
import RacketTree.Proofs.Server.Diagnostics
import RacketTree.Proofs.Server.Documents
import RacketTree.Proofs.Server.Hover
import RacketTree.Proofs.Server.Invariant
import RacketTree.Proofs.Server.Notices
import RacketTree.Proofs.Server.Symbols
import RacketTree.Proofs.Server.Texts
import RacketTree.Proofs.Text.Breaks
import RacketTree.Proofs.Text.Bytes
import RacketTree.Proofs.Text.Context
import RacketTree.Proofs.Text.Percent
import RacketTree.Proofs.Text.Points
import RacketTree.Proofs.Text.Positions
import RacketTree.Proofs.Text.Rows
import RacketTree.Proofs.Text.Splitting
import RacketTree.Proofs.Text.Units
import RacketTree.Proofs.Text.Utf8
import RacketTree.Proofs.Token.Closed
import RacketTree.Proofs.Token.Extent
import RacketTree.Proofs.Token.Layout
import RacketTree.Proofs.Token.Lexemes
import RacketTree.Proofs.Token.Lookahead
import RacketTree.Proofs.Token.Mark
import RacketTree.Proofs.Token.Rescan
import RacketTree.Proofs.Token.Search
import RacketTree.Proofs.Token.Spelling
import RacketTree.Proofs.Token.Truncate
import RacketTree.Proofs.Token.Width
import RacketTree.Proofs.Tree.Accepts
import RacketTree.Proofs.Tree.Alone
import RacketTree.Proofs.Tree.Bodies
import RacketTree.Proofs.Tree.Boundary
import RacketTree.Proofs.Tree.Builder
import RacketTree.Proofs.Tree.Calls
import RacketTree.Proofs.Tree.Comments
import RacketTree.Proofs.Tree.Compare
import RacketTree.Proofs.Tree.Conforms
import RacketTree.Proofs.Tree.Datum
import RacketTree.Proofs.Tree.Depth
import RacketTree.Proofs.Tree.Descent
import RacketTree.Proofs.Tree.Entries
import RacketTree.Proofs.Tree.Equivalence
import RacketTree.Proofs.Tree.Fault
import RacketTree.Proofs.Tree.Fits
import RacketTree.Proofs.Tree.Formed
import RacketTree.Proofs.Tree.Free
import RacketTree.Proofs.Tree.Grammar
import RacketTree.Proofs.Tree.History
import RacketTree.Proofs.Tree.Holds
import RacketTree.Proofs.Tree.Items
import RacketTree.Proofs.Tree.Leaves
import RacketTree.Proofs.Tree.Lineage
import RacketTree.Proofs.Tree.Lookup
import RacketTree.Proofs.Tree.Options
import RacketTree.Proofs.Tree.Outermost
import RacketTree.Proofs.Tree.Parsed
import RacketTree.Proofs.Tree.Proper
import RacketTree.Proofs.Tree.Reading
import RacketTree.Proofs.Tree.Records
import RacketTree.Proofs.Tree.Reparse
import RacketTree.Proofs.Tree.Requests
import RacketTree.Proofs.Tree.Reuse
import RacketTree.Proofs.Tree.Run
import RacketTree.Proofs.Tree.Schema
import RacketTree.Proofs.Tree.Sequences
import RacketTree.Proofs.Tree.Session
import RacketTree.Proofs.Tree.Shape
import RacketTree.Proofs.Tree.Stepwise
import RacketTree.Proofs.Tree.Strict
import RacketTree.Proofs.Tree.Untruthful
import RacketTree.Proofs.Tree.View
import RacketTree.Proofs.Uri
import RacketTree.Rpc.Dispatch
import RacketTree.Rpc.Error
import RacketTree.Rpc.Frame
import RacketTree.Server.Document
import RacketTree.Server.Folding
import RacketTree.Server.Handlers
import RacketTree.Server.Items
import RacketTree.Server.Payload
import RacketTree.Server.Position
import RacketTree.Server.State
import RacketTree.Server.Symbols
import RacketTree.Text.Blank
import RacketTree.Text.Case
import RacketTree.Text.CharName
import RacketTree.Text.Codes
import RacketTree.Text.DecimalDigit
import RacketTree.Text.Digit
import RacketTree.Text.Letter
import RacketTree.Text.LineBreak
import RacketTree.Text.Percent
import RacketTree.Text.Printable
import RacketTree.Text.Quoted
import RacketTree.Text.Ranges
import RacketTree.Text.Slice
import RacketTree.Text.Utf16
import RacketTree.Text.Utf8
import RacketTree.Token.Basic
import RacketTree.Token.Delimited
import RacketTree.Token.Hash
import RacketTree.Token.Scan
import RacketTree.Tree.Arena
import RacketTree.Tree.Basic
import RacketTree.Tree.BlockComment
import RacketTree.Tree.Compare
import RacketTree.Tree.Cursor
import RacketTree.Tree.Datum
import RacketTree.Tree.Diagnostic
import RacketTree.Tree.Draft
import RacketTree.Tree.Edit
import RacketTree.Tree.Frame
import RacketTree.Tree.Node
import RacketTree.Tree.Read
import RacketTree.Tree.Render
import RacketTree.Uri
