import PromqlServer.Session.Basic
import PromqlServer.Settings

/-!
The JSON forms of what a session sends.
-/

namespace PromqlServer

open PromqlServer.Text PromqlServer.Query

namespace Text

def Position.toJson (p : Position) : Json :=
  .object [("line", .ofNat p.line), ("character", .ofNat p.character)]

def Range.toJson (r : Range) : Json :=
  .object [("start", r.start.toJson), ("end", r.stop.toJson)]

end Text

namespace Query

def Severity.code : Severity → Int
  | .error => 1
  | .warning => 2
  | .information => 3
  | .hint => 4

def Diagnostic.toJson (d : Diagnostic) : Json :=
  .object <| [("range", d.range.toJson)]
    ++ (d.severity.toList.map fun s => ("severity", .ofInt s.code))
    ++ (d.source.toList.map fun s => ("source", .string s))
    ++ [("message", .string d.message)]

end Query

def Document.Notice.toJson (n : Document.Notice) : Json :=
  .object [("uri", .string n.uri.text), ("diagnostics", .array (n.diagnostics.map Diagnostic.toJson)),
    ("version", (n.version.map .ofInt).getD .null)]

namespace Session

def ItemKind.code : ItemKind → Int
  | .metric => 6
  | .label => 5
  | .value => 12

def CompletionItem.toJson (item : CompletionItem) : Json :=
  .object <| [("label", .string item.label), ("kind", .ofInt item.kind.code)]
    ++ (item.detail.toList.map fun s => ("detail", .string s))
    ++ (item.documentation.toList.map fun s => ("documentation", .string s))

def LogLevel.code : LogLevel → Int
  | .error => 1
  | .warning => 2
  | .information => 3

/-- What the server can do: it wants the whole text of each change, and completes after a brace, a
comma and a quote. -/
def capabilities : Json :=
  .object [("textDocumentSync", .object [("openClose", .bool true), ("change", .ofInt 1)]),
    ("completionProvider", .object [("triggerCharacters",
      .array [.string "\x7b", .string ",", .string "\""])])]

def serverInfo : Json :=
  .object [("name", .string Settings.programName), ("version", .string Settings.programVersion)]

def RpcError.toJson (e : RpcError) : Json :=
  .object <| [("code", .ofInt e.code), ("message", .string e.message)]
    ++ (e.data.toList.map fun s => ("data", .string s))

/-- The result of a request, or its error. -/
def Response.toResult : Response → Except RpcError Json
  | .welcome => .ok (.object [("capabilities", capabilities), ("serverInfo", serverInfo)])
  | .nothing => .ok .null
  | .items list => .ok (.array (list.map CompletionItem.toJson))
  | .failed e => .error e

end Session

end PromqlServer
