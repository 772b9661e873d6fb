import PromqlServer.Json.Record
import PromqlServer.Session.Message

/-!
Parameters of the methods that a session handles. Numbers are whole numbers of 32 bits, and
documents are named by absolute URLs. Fields that are not known are skipped.
-/

namespace PromqlServer.Rpc

open PromqlServer.Document PromqlServer.Session PromqlServer.Text

/-- A whole number of 32 bits without sign. -/
def readIndex? (j : Json) : Option Nat := do
  let n ← j.asInt?
  if 0 ≤ n && n < 0x100000000 then some n.toNat else none

/-- A whole number of 32 bits with a sign. -/
def readVersion? (j : Json) : Option Int := do
  let n ← j.asInt?
  if -0x80000000 ≤ n && n < 0x80000000 then some n else none

/-- A field that may be absent or null. -/
def optional? {α : Type} (read : Json → Option α) : Option Json → Option (Option α)
  | none | some .null => some none
  | some j => (read j).map some

def readUri? (j : Json) : Option Uri := do
  match Uri.parse (← j.asString?) with
  | .ok uri => some uri
  | .error _ => none

def readPosition? (j : Json) : Option Position := do
  match ← j.record? ["line", "character"] 2 with
  | [some line, some character] => return ⟨← readIndex? line, ← readIndex? character⟩
  | _ => none

def readRange? (j : Json) : Option Range := do
  match ← j.record? ["start", "end"] 2 with
  | [some start, some stop] => return ⟨← readPosition? start, ← readPosition? stop⟩
  | _ => none

/-- The name of a document. -/
def readDocument? (j : Json) : Option Uri := do
  match ← j.record? ["uri"] 1 with
  | [some uri] => readUri? uri
  | _ => none

def readChange? (j : Json) : Option Change := do
  match ← j.record? ["range", "rangeLength", "text"] 3 with
  | [range, length, some text] =>
    let _ ← optional? readIndex? length
    return ⟨← optional? readRange? range, ← text.asString?⟩
  | _ => none

def readOpened? (params : Json) : Option Message := do
  match ← params.record? ["textDocument"] 1 with
  | [some document] =>
    match ← document.record? ["uri", "languageId", "version", "text"] 4 with
    | [some uri, some language, some version, some text] =>
      let _ ← language.asString?
      return .opened (← readUri? uri) (← text.asString?) (← readVersion? version)
    | _ => none
  | _ => none

def readChanged? (params : Json) : Option Message := do
  match ← params.record? ["textDocument", "contentChanges"] 2 with
  | [some document, some changes] =>
    match ← document.record? ["uri", "version"] 2 with
    | [some uri, some version] =>
      return .changed (← readUri? uri) (← readVersion? version) (← changes.list? readChange?)
    | _ => none
  | _ => none

def readClosed? (params : Json) : Option Message := do
  match ← params.record? ["textDocument"] 1 with
  | [some document] => return .closed (← readDocument? document)
  | _ => none

def readConfigured? (params : Json) : Option Message := do
  match ← params.record? ["settings"] 1 with
  | [some settings] => return .configured settings
  | _ => none

/-- A number or a text by which progress is told. -/
def readToken? : Json → Option Unit
  | .string _ => some ()
  | j => (readVersion? j).map fun _ => ()

def readTrigger? (j : Json) : Option Unit := do
  match ← j.record? ["triggerKind", "triggerCharacter"] 2 with
  | [some kind, character] =>
    let _ ← readVersion? kind
    let _ ← optional? Json.asString? character
    return ()
  | _ => none

/-- These parameters are put together from parts and come as an object only. -/
def readComplete? (params : Json) : Option Message := do
  match params with
  | .object _ =>
    let document ← readDocument? (← params.lookup "textDocument")
    let position ← readPosition? (← params.lookup "position")
    let _ ← optional? readToken? (params.lookup "workDoneToken")
    let _ ← optional? readToken? (params.lookup "partialResultToken")
    let _ ← optional? readTrigger? (params.lookup "context")
    return .complete document position
  | _ => none

def readObject? : Json → Option Unit
  | .object _ => some ()
  | _ => none

/-- Capabilities of the client by section. They are not used, but have to be there. -/
def readCapabilities? (j : Json) : Option Unit := do
  match j with
  | .object _ =>
    ["workspace", "textDocument", "notebookDocument", "window", "general"].forM fun name => do
      let _ ← optional? readObject? (j.lookup name)
      return ()
  | _ => none

def readTraceLevel? (j : Json) : Option Unit := do
  let level ← j.asString?
  guard (["off", "messages", "verbose"].contains level)

def readFolder? (j : Json) : Option Unit := do
  match ← j.record? ["uri", "name"] 2 with
  | [some uri, some name] =>
    let _ ← readUri? uri
    let _ ← name.asString?
    return ()
  | _ => none

def readClientInfo? (j : Json) : Option Unit := do
  match ← j.record? ["name", "version"] 2 with
  | [some name, version] =>
    let _ ← name.asString?
    let _ ← optional? Json.asString? version
    return ()
  | _ => none

def readHandshake? (params : Json) : Option Message := do
  match ← params.record? ["processId", "rootPath", "rootUri", "initializationOptions",
      "capabilities", "trace", "workspaceFolders", "clientInfo", "locale"] 9 with
  | [process, rootPath, rootUri, options, some capabilities, trace, folders, client, locale] =>
    let _ ← optional? readIndex? process
    let _ ← optional? Json.asString? rootPath
    let _ ← optional? readUri? rootUri
    readCapabilities? capabilities
    let _ ← optional? readTraceLevel? trace
    let _ ← optional? (Json.list? readFolder?) folders
    let _ ← optional? readClientInfo? client
    let _ ← optional? Json.asString? locale
    return .handshake (← optional? some options)
  | _ => none

def readReady? (params : Json) : Option Message := do
  let _ ← params.record? [] 0
  return .ready

end PromqlServer.Rpc
