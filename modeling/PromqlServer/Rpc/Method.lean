import PromqlServer.Rpc.Params

/-!
The methods of the protocol: those that a session handles, and those that it only knows by name and
parameters.
-/

namespace PromqlServer.Rpc

open PromqlServer.Session

inductive Kind where
  | request
  | notification
  deriving DecidableEq, Repr

/-- The form of a parameter. -/
inductive Form where
  | any
  | document
  | position
  | range
  | text
  | index
  | table
  | list (item : Form)
  deriving DecidableEq, Repr

def Form.fits : Form → Json → Bool
  | .any, _ => true
  | .document, j => (readDocument? j).isSome
  | .position, j => (readPosition? j).isSome
  | .range, j => (readRange? j).isSome
  | .text, j => j.asString?.isSome
  | .index, j => (readVersion? j).isSome
  | .table, j => (readObject? j).isSome
  | .list item, .array items => items.all item.fits
  | .list _, _ => false

/-- What becomes of a call of a method. -/
inductive Handling where
  /-- The session handles it, if its parameters can be read. -/
  | message (read : Option Json → Option Message)
  /-- The session knows the parameters and nothing else. -/
  | unsupported (fields : List (String × Form))
  | dropped

structure Method where
  name : String
  kind : Kind
  handling : Handling

namespace Method

/-- The parameters have to be there. -/
def needed (read : Json → Option Message) (params : Option Json) : Option Message :=
  params.bind read

/-- There are no parameters. -/
def without (message : Message) (params : Option Json) : Option Message :=
  if params.isNone then some message else none

def handled : List Method :=
  [⟨"initialize", .request, .message (needed readHandshake?)⟩,
    ⟨"initialized", .notification, .message (needed readReady?)⟩,
    ⟨"shutdown", .request, .message (without .shutdown)⟩,
    ⟨"textDocument/didOpen", .notification, .message (needed readOpened?)⟩,
    ⟨"textDocument/didChange", .notification, .message (needed readChanged?)⟩,
    ⟨"textDocument/didClose", .notification, .message (needed readClosed?)⟩,
    ⟨"workspace/didChangeConfiguration", .notification, .message (needed readConfigured?)⟩,
    ⟨"textDocument/completion", .request, .message (needed readComplete?)⟩]

def ofDocument : List (String × Form) := [("textDocument", .document)]

def atPosition : List (String × Form) := [("textDocument", .document), ("position", .position)]

def inRange : List (String × Form) := [("textDocument", .document), ("range", .range)]

def ofItem : List (String × Form) := [("item", .table)]

def ofFiles : List (String × Form) := [("files", .list .table)]

/-- Requests that are refused, with the parameters that they need. -/
def refused : List (String × List (String × Form)) :=
  [("textDocument/willSaveWaitUntil", [("textDocument", .document), ("reason", .index)]),
    ("textDocument/declaration", atPosition),
    ("textDocument/definition", atPosition),
    ("textDocument/typeDefinition", atPosition),
    ("textDocument/implementation", atPosition),
    ("textDocument/references", atPosition ++ [("context", .table)]),
    ("textDocument/prepareCallHierarchy", atPosition),
    ("callHierarchy/incomingCalls", ofItem),
    ("callHierarchy/outgoingCalls", ofItem),
    ("textDocument/prepareTypeHierarchy", atPosition),
    ("typeHierarchy/supertypes", ofItem),
    ("typeHierarchy/subtypes", ofItem),
    ("textDocument/documentHighlight", atPosition),
    ("textDocument/documentLink", ofDocument),
    ("documentLink/resolve", [("range", .range)]),
    ("textDocument/hover", atPosition),
    ("textDocument/codeLens", ofDocument),
    ("codeLens/resolve", [("range", .range)]),
    ("textDocument/foldingRange", ofDocument),
    ("textDocument/selectionRange", ofDocument ++ [("positions", .list .position)]),
    ("textDocument/documentSymbol", ofDocument),
    ("textDocument/semanticTokens/full", ofDocument),
    ("textDocument/semanticTokens/full/delta", ofDocument ++ [("previousResultId", .text)]),
    ("textDocument/semanticTokens/range", inRange),
    ("textDocument/inlineValue", inRange ++ [("context", .table)]),
    ("textDocument/inlayHint", inRange),
    ("inlayHint/resolve", [("position", .position), ("label", .any)]),
    ("textDocument/moniker", atPosition),
    ("completionItem/resolve", [("label", .text)]),
    ("textDocument/diagnostic", ofDocument),
    ("workspace/diagnostic", [("previousResultIds", .list .table)]),
    ("textDocument/signatureHelp", atPosition),
    ("textDocument/codeAction", inRange ++ [("context", .table)]),
    ("codeAction/resolve", [("title", .text)]),
    ("textDocument/documentColor", ofDocument),
    ("textDocument/colorPresentation", inRange ++ [("color", .table)]),
    ("textDocument/formatting", ofDocument ++ [("options", .table)]),
    ("textDocument/rangeFormatting", inRange ++ [("options", .table)]),
    ("textDocument/onTypeFormatting", atPosition ++ [("ch", .text), ("options", .table)]),
    ("textDocument/rename", atPosition ++ [("newName", .text)]),
    ("textDocument/prepareRename", atPosition),
    ("textDocument/linkedEditingRange", atPosition),
    ("workspace/symbol", [("query", .text)]),
    ("workspaceSymbol/resolve", [("name", .text), ("kind", .index), ("location", .table)]),
    ("workspace/willCreateFiles", ofFiles),
    ("workspace/willRenameFiles", ofFiles),
    ("workspace/willDeleteFiles", ofFiles),
    ("workspace/executeCommand", [("command", .text)])]

/-- Notifications that nothing follows from. -/
def ignored : List String :=
  ["textDocument/willSave", "textDocument/didSave", "workspace/didChangeWorkspaceFolders",
    "workspace/didCreateFiles", "workspace/didRenameFiles", "workspace/didDeleteFiles",
    "workspace/didChangeWatchedFiles"]

def all : List Method :=
  handled
    ++ (refused.map fun (name, fields) => ⟨name, .request, .unsupported fields⟩)
    ++ (ignored.map fun name => ⟨name, .notification, .dropped⟩)

def find? (name : String) : Option Method := all.find? fun m => m.name = name

/-- Whether an object has all the fields, each in its form. -/
def fits (fields : List (String × Form)) : Option Json → Bool
  | some (.object given) =>
    fields.all fun (name, form) => ((Json.object given).lookup name).any form.fits
  | _ => false

end Method

end PromqlServer.Rpc
