import RacketTree.Json.Basic

/-!
# JSON-RPC errors and messages

The error object of a response, and the three messages that a server writes: results, errors and
notifications.
-/

namespace RacketTree.Rpc

/-- The error object of a response. -/
structure Error where
  code : Int
  message : Codes
  data : Option Json := none
  deriving Repr

namespace Error

/-- A body is not JSON, or its length is not given. -/
def parseError : Int := -32700

/-- A message is not a request. -/
def invalidRequest : Int := -32600

/-- No handler is registered for the method. -/
def methodNotFound : Int := -32601

/-- The parameters lack something. -/
def invalidParams : Int := -32602

/-- A handler failed. -/
def internalError : Int := -32603

/-- The error as JSON. -/
def toJson (e : Error) : Json :=
  let base : Json.Fields := [("code", .int e.code), ("message", .str e.message)]
  match e.data with
  | some data => .obj (base ++ ([("data", data)] : Json.Fields))
  | none => .obj base

end Error

/-- The response with a result. -/
def resultMessage (id result : Json) : Json :=
  .obj [("jsonrpc", .str "2.0"), ("id", id), ("result", result)]

/-- The response with an error. -/
def errorMessage (id : Json) (e : Error) : Json :=
  .obj [("jsonrpc", .str "2.0"), ("id", id), ("error", e.toJson)]

/-- A notification, with or without parameters. -/
def notificationMessage (method : String) (params : Option Json) : Json :=
  let base : Json.Fields := [("jsonrpc", .str "2.0"), ("method", .str method)]
  match params with
  | some params => .obj (base ++ ([("params", params)] : Json.Fields))
  | none => .obj base

end RacketTree.Rpc
