import PromqlServer.Rpc.Message
import PromqlServer.Rpc.Method

/-!
The service between a connection and a session. It keeps calls away from the session that do not
fit the stage of the conversation, that name no method or whose parameters cannot be read, and it
puts the identifiers of the requests back on their responses.
-/

namespace PromqlServer.Rpc

open PromqlServer.Session

/-- How far the conversation is. -/
inductive Stage where
  | fresh
  | opening
  | ready
  | shutDown
  | exited
  deriving DecidableEq, Repr

def notInitialized : RpcError := ⟨-32002, "Server not initialized", none⟩

def invalidRequest : RpcError := ⟨-32600, "Invalid request", none⟩

/-- A method that there is not; the error names it. -/
def unknownMethod (name : String) : RpcError := ⟨-32601, "Method not found", some name⟩

def unsupportedMethod : RpcError := ⟨-32601, "Method not found", none⟩

def invalidParams : RpcError := ⟨-32602, "<params>", none⟩

def parseFailure : RpcError := ⟨-32700, "Parse error", none⟩

structure Service where
  stage : Stage := .fresh
  session : Session := {}
  /-- The requests under way, by the number of their message. -/
  waiting : List (Nat × Id) := []
  /-- The number of the handshake under way. -/
  handshake : Option Nat := none
  /-- What goes to the client, the oldest first. -/
  outbox : List Outgoing := []

namespace Service

def send (s : Service) (m : Outgoing) : Service := { s with outbox := s.outbox ++ [m] }

/-- An error for a request; a notification gets none. -/
def refuse (s : Service) (id : Option Id) (e : RpcError) : Service :=
  match id with
  | some id => s.send (.response id (.error e))
  | none => s

/-- The stage after the answer to a handshake. -/
def stageAfter : Response → Stage
  | .failed _ => .fresh
  | _ => .ready

/-- Diagnostics are held back until the handshake is answered. -/
def showsDiagnostics (s : Service) : Bool := s.stage = .ready || s.stage = .shutDown

/-- One message of the session on its way to the client. -/
def deliver (s : Service) : Session.Outgoing → Service
  | .response n r =>
    let s := if s.handshake = some n then { s with handshake := none, stage := stageAfter r } else s
    match s.waiting.find? fun entry => entry.1 = n with
    | some (_, id) =>
      { s with waiting := s.waiting.filter fun entry => entry.1 ≠ n }.send
        (.response id r.toResult)
    | none => s
  | .log level text => if s.stage = .exited then s else s.send (.log level text)
  | .diagnostics notice => if s.showsDiagnostics then s.send (.diagnostics notice) else s

/-- All that the session has sent goes on to the client. -/
def forward (s : Service) : Service :=
  s.session.outbox.foldl deliver { s with session := { s.session with outbox := [] } }

def step (s : Service) (action : Session.Action) : Service :=
  { s with session := s.session.step action }.forward

/-- A message for the session, whose response is for the request `id`. -/
def handle (s : Service) (id : Option Id) (message : Message) : Service :=
  let n := s.session.numbered
  { s with waiting := s.waiting ++ (id.toList.map fun id => (n, id)) }.step (.receive message)

/-- A call that fits the stage. Requests have an identifier and notifications have none. -/
def dispatch (s : Service) (m : Method) (c : Call) : Service :=
  match m.kind, c.id with
  | .request, none => s
  | .notification, some id => s.refuse (some id) invalidRequest
  | _, id =>
    match m.handling with
    | .message read =>
      match read c.params with
      | some message => s.handle id message
      | none => s.refuse id invalidParams
    | .unsupported fields =>
      s.refuse id (if Method.fits fields c.params then unsupportedMethod else invalidParams)
    | .dropped => s

/-- The handshake is taken once. A call that does not reach the session leaves the conversation
where it was. -/
def shakeHands (s : Service) (m : Method) (c : Call) : Service :=
  if s.stage ≠ .fresh then s.refuse c.id invalidRequest
  else
    let n := s.session.numbered
    let s := { s with stage := .opening, handshake := some n }.dispatch m c
    if s.session.numbered = n then { s with stage := .fresh, handshake := none } else s

/-- A call that the conversation has to be open for. -/
def proceed (s : Service) (m : Method) (c : Call) : Service :=
  match s.stage with
  | .ready =>
    let s := if m.name = "shutdown" then { s with stage := .shutDown } else s
    s.dispatch m c
  | .fresh | .opening => s.refuse c.id notInitialized
  | _ => s.refuse c.id invalidRequest

/-- A call that names no method. Optional methods may go without an answer. -/
def rejectUnknown (s : Service) (c : Call) : Service :=
  if ['$', '/'].isPrefixOf c.method.toList then s else s.refuse c.id (unknownMethod c.method)

def receive (s : Service) (c : Call) : Service :=
  let c := { c with params := c.params.map Json.settled }
  if s.stage = .exited then s
  else if c.method = "exit" then { s with stage := .exited, waiting := [] }
  else if c.method = "$/cancelRequest" then s.refuse c.id invalidRequest
  else
    match Method.find? c.method with
    | none => s.rejectUnknown c
    | some m => if m.name = "initialize" then s.shakeHands m c else s.proceed m c

def runWithin (env : Session.Surroundings)
    (next? : Session → Session.Surroundings → Option Session.Action) : Nat → Service → Service
  | 0, s => s
  | fuel + 1, s =>
    match next? s.session env with
    | none => s
    | some action => runWithin env next? fuel (s.step action)

/-- The messages that came are handled as far as they can be. -/
def handleMessages (s : Service) (env : Session.Surroundings) : Service :=
  runWithin env Session.nextForeground? s.session.stepsLeft s

/-- Everything goes on until nothing moves. -/
def settle (s : Service) (env : Session.Surroundings) : Service :=
  runWithin env Session.next? s.session.stepsLeft s

def takeOutbox (s : Service) : List Outgoing × Service := (s.outbox, { s with outbox := [] })

end Service

end PromqlServer.Rpc
