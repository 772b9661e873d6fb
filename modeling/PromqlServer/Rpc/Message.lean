import PromqlServer.Json.Record
import PromqlServer.Session.Wire

/-!
Messages of the remote procedure calls between client and server. A call with an identifier is a
request and wants a response; one without is a notification.
-/

namespace PromqlServer.Rpc

inductive Id where
  | null
  | number (value : Int)
  | text (value : String)
  deriving DecidableEq, Repr

def Id.toJson : Id → Json
  | .null => .null
  | .number n => .ofInt n
  | .text s => .string s

def Id.read? : Json → Option Id
  | .null => some .null
  | .number (.integer n) =>
    if -0x8000000000000000 ≤ n && n < 0x8000000000000000 then some (.number n) else none
  | .string s => some (.text s)
  | _ => none

structure Call where
  method : String
  params : Option Json := none
  id : Option Id := none
  deriving Repr

/-- What can come from a client: a call, or its response to a call of ours. -/
inductive Incoming where
  | call (call : Call)
  | response
  deriving Repr

/-- What goes to a client. -/
inductive Outgoing where
  | response (id : Id) (result : Except Session.RpcError Json)
  | log (level : Session.LogLevel) (text : String)
  | diagnostics (notice : Document.Notice)

def versionField : String × Json := ("jsonrpc", .string "2.0")

def responseJson (id : Id) : Except Session.RpcError Json → Json
  | .ok result => .object [versionField, ("result", result), ("id", id.toJson)]
  | .error e => .object [versionField, ("error", e.toJson), ("id", id.toJson)]

def notificationJson (method : String) (params : Json) : Json :=
  .object [versionField, ("method", .string method), ("params", params)]

def Outgoing.toJson : Outgoing → Json
  | .response id result => responseJson id result
  | .log level text =>
    notificationJson "window/logMessage"
      (.object [("type", .ofInt level.code), ("message", .string text)])
  | .diagnostics notice => notificationJson "textDocument/publishDiagnostics" notice.toJson

/-- The last value of a field, if it is there at all. -/
def field? (name : String) (fields : List (String × Json)) : Option Json :=
  (Json.object fields).lookup name

def hasVersion : Option Json → Bool
  | some (.string v) => v = "2.0"
  | _ => false

/-- Each of these fields comes at most once. -/
def atMostOnce (names : List String) (fields : List (String × Json)) : Bool :=
  names.all fun name => (fields.filter fun field => field.1 = name).length ≤ 1

/-- A call. It may also be written as an array of version, method, parameters and identifier. -/
def Call.read? : Json → Option Call
  | .object fields => do
    guard (atMostOnce ["jsonrpc", "method", "params", "id"] fields)
    guard (hasVersion (field? "jsonrpc" fields))
    let method ← match field? "method" fields with
      | none => some ""
      | some j => j.asString?
    let id ← match field? "id" fields with
      | none => some none
      | some j => (Id.read? j).map some
    return { method, params := field? "params" fields, id }
  | .array items => do
    match items with
    | version :: method :: rest =>
      guard (hasVersion (some version) && rest.length ≤ 2)
      let id ← match rest[1]? with
        | none => some none
        | some j => (Id.read? j).map some
      return { method := ← method.asString?, params := rest[0]?, id }
    | [version] =>
      guard (hasVersion (some version))
      return { method := "" }
    | [] => none
  | _ => none

/-- A response to a call: an identifier with a result, or with an error. -/
def isResponse : Json → Bool
  | .object fields =>
    atMostOnce ["jsonrpc", "result", "error", "id"] fields && hasVersion (field? "jsonrpc" fields) &&
      ((field? "id" fields).bind Id.read?).isSome &&
      ((field? "result" fields).isSome || isError (field? "error" fields))
  | _ => false
where
  isError : Option Json → Bool
    | some j =>
      ((j.lookup "code").bind Json.asInt?).isSome && ((j.lookup "message").bind Json.asString?).isSome
    | none => false

/-- A response has neither a method nor the form of a call with one. -/
def Incoming.read? (j : Json) : Option Incoming :=
  if isResponse j then some .response else (Call.read? j).map .call

end PromqlServer.Rpc
