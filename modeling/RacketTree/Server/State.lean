import RacketTree.Config.Load
import RacketTree.Rpc.Dispatch
import RacketTree.Server.Document
import RacketTree.Uri

/-!
# The state of the server

What the server keeps between messages, and what it has logged and sent so far. Documents are in the
order in which they were first opened. The log goes to a stream that shows half of a surrogate pair
as an escape, so that logging does not fail.
-/

namespace RacketTree

/-- A line of the log. -/
inductive LogEntry where
  | note (text : Codes)
  /-- A handler failed. -/
  | failed (method cause : Codes)
  deriving DecidableEq, Repr

/-- The text of a log line. -/
def LogEntry.text : LogEntry → Codes
  | note text => text
  | failed method cause => method ++ " failed: " ++ cause

/-- The state of a language server. -/
structure Server where
  files : Files
  documents : List Document
  config : Config
  initialized : Bool
  shutdownRequested : Bool
  rootUri : Json
  rootPath : Json
  /-- The log, oldest line first. -/
  log : List LogEntry
  /-- The messages sent, oldest first. -/
  sent : List Json

namespace Server

/-- A server that has seen no message. -/
def start (files : Files) : Server :=
  { files, documents := [], config := Config.default, initialized := false
    shutdownRequested := false, rootUri := .null, rootPath := .null, log := [], sent := [] }

/-- Writes a line to the log. -/
def note (text : Codes) (s : Server) : Server :=
  { s with log := s.log ++ [.note text] }

/-- Logs a handler's failure. -/
def noteFailure (method cause : Codes) (s : Server) : Server :=
  { s with log := s.log ++ [.failed method cause] }

/-- Sends a message. -/
def send (message : Json) (s : Server) : Server :=
  { s with sent := s.sent ++ [message] }

/-- The keys are equal. -/
def sameUri (a b : Json) : Bool :=
  a.toValue.eqKey b.toValue

/-- The open document of a URI. -/
def document? (s : Server) (uri : Json) : Option Document :=
  s.documents.find? fun d => sameUri d.uri uri

/-- Opens a document, or replaces the one that is open under the same URI in its place. -/
def put (d : Document) (s : Server) : Server :=
  if s.documents.any fun e => sameUri e.uri d.uri then
    { s with documents := s.documents.map fun e => if sameUri e.uri d.uri then d else e }
  else { s with documents := s.documents ++ [d] }

/-- Closes a document. -/
def erase (uri : Json) (s : Server) : Server :=
  { s with documents := s.documents.filter fun d => !sameUri d.uri uri }

end Server

end RacketTree
