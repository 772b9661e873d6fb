import PromqlServer.Document.Workspace
import PromqlServer.Prometheus.Client
import PromqlServer.Session.Completion
import PromqlServer.Session.Lifecycle
import PromqlServer.Session.Message

/-!
The backend of one client: its lifecycle, its document cache, its client of the data source, and the
jobs that are under way. A message is first checked by the lifecycle guard; if it is let through, a
job does the rest of its handler, and jobs of several messages may be under way at the same time.
One job from the start on is the lifetime watcher, and `spawn_data_source_change` is a job of its
own.
-/

namespace PromqlServer

open PromqlServer.Document PromqlServer.Query PromqlServer.Text

namespace Session

/-- How important a log message is. -/
inductive LogLevel where
  | error
  | warning
  | information
  deriving DecidableEq, Repr

/-- The answer to a request. -/
inductive Response where
  | welcome
  | nothing
  | items (list : List CompletionItem)
  | failed (error : RpcError)
  deriving DecidableEq, Repr

/-- What a session sends to its client. A response goes with the number of its message. -/
inductive Outgoing where
  | response (message : Nat) (response : Response)
  | log (level : LogLevel) (text : String)
  | diagnostics (notice : Notice)
  deriving DecidableEq, Repr

/-- A job, by what it has to do next. Those that end in "-ing" wait: for a task of the workspace or
for an operation of the client of the backend. -/
inductive Job where
  | greet (options : Option Json)
  | welcome (options : Option Json)
  | confirm
  | farewell
  | close
  | closing (task : Nat)
  | enter (purpose : Purpose) (request : Document.Request)
  | handling (task : Nat)
  | look (uri : Uri) (position : Position)
  | looking (task : Nat) (position : Position)
  | asking (operation : Nat) (context : CompletionContext)
  | switch (url : String)
  | switching (operation : Nat) (url : String)
  | watch
  | draining (task : Nat)
  deriving Repr

/-- Background jobs belong to no message that waits for them. -/
def Job.isBackground : Job → Bool
  | .switch _ | .switching _ _ | .watch | .draining _ => true
  | _ => false

end Session

structure Session where
  /-- The backend that is used if the client names none. -/
  defaultUrl : String := ""
  phase : Session.Phase := .created
  /-- The documents live in a scope below that of the session, which is the root. -/
  workspace : Workspace := { store := { lifetime := [0] } }
  client : Prometheus.Client := {}
  /-- The jobs under way by number, the oldest first. -/
  jobs : List (Nat × Session.Job) := [(0, .watch)]
  /-- How many numbers are given to messages and jobs. -/
  numbered : Nat := 1
  /-- What was sent and not taken from here yet, the oldest first. -/
  outbox : List Session.Outgoing := []

namespace Session

inductive Action where
  | receive (message : Message)
  | advance (job : Nat)
  | document (action : Document.Action)
  | backend (event : Prometheus.Event)
  /-- The lifetime of the session ends from outside. -/
  | endLifetime

/-- The scope of the whole session. -/
def lifetime : Scope := []

def send (s : Session) (m : Outgoing) : Session := { s with outbox := s.outbox ++ [m] }

def job? (s : Session) (id : Nat) : Option Job :=
  (s.jobs.find? fun entry => entry.1 = id).map Prod.snd

/-- Starts a job under the next number. -/
def start (s : Session) (job : Job) : Session :=
  { s with jobs := s.jobs ++ [(s.numbered, job)], numbered := s.numbered + 1 }

def become (s : Session) (id : Nat) (job : Job) : Session :=
  { s with jobs := s.jobs.map fun entry => if entry.1 = id then (id, job) else entry }

def finish (s : Session) (id : Nat) : Session :=
  { s with jobs := s.jobs.filter fun entry => entry.1 ≠ id }

def answer (s : Session) (id : Nat) (r : Response) : Session :=
  (s.finish id).send (.response id r)

/-- The message takes its number and that is all. -/
def ignore (s : Session) : Session := { s with numbered := s.numbered + 1 }

def refuse (s : Session) (e : PhaseError) : Session :=
  s.ignore.send (.response s.numbered (.failed e.toRpc))

/-- The `guard` of a handler: its job starts if the message comes while the session is active. -/
def guarded (s : Session) (method : String) (job : Option Job) : Session :=
  match s.phase.ensureActive method, job with
  | .ok (), some job => s.start job
  | _, _ => s.ignore

/-- What the last change of a message asks for. All text is sent with each change, so the earlier
ones do not count, and a change of a part of the text is not understood. -/
def changeJob (uri : Uri) (version : Int) (changes : List Change) : Option Job :=
  match changes.getLast? with
  | some ⟨none, text⟩ => some (.enter .analyse (.change uri text version))
  | _ => none

def receive (s : Session) : Message → Session
  | .handshake options =>
    match s.phase.beginHandshake with
    | .error e => s.refuse e
    | .ok phase => { s with phase }.start (.greet options)
  | .ready =>
    match s.phase.completeHandshake with
    | .error _ => s.ignore
    | .ok phase => { s with phase }.start .confirm
  | .shutdown =>
    match s.phase.shutdown with
    | .error e => s.refuse e
    | .ok phase => { s with phase }.start .farewell
  | .opened uri text version =>
    s.guarded "textDocument/didOpen" (some (.enter .analyse (.track uri text version)))
  | .changed uri version changes =>
    s.guarded "textDocument/didChange" (changeJob uri version changes)
  | .closed uri => s.guarded "textDocument/didClose" (some (.enter .clear (.close uri)))
  | .configured settings =>
    s.guarded "workspace/didChangeConfiguration" ((urlSetting settings).map .switch)
  | .complete uri position =>
    match s.phase.ensureActive "textDocument/completion" with
    | .error e => s.refuse e
    | .ok () => s.start (.look uri position)

/-- The job hands a request to the workspace and waits for its task. -/
def enter (s : Session) (id : Nat) (purpose : Purpose) (request : Document.Request)
    (wait : Nat → Job) : Session :=
  { s with workspace := s.workspace.invoke purpose request }.become id (wait s.workspace.started)

/-- The job hands an operation to the client of the backend and waits for it. -/
def consult (s : Session) (id : Nat) (operation : Prometheus.Operation) (wait : Nat → Job) :
    Session :=
  { s with client := s.client.step (.arrive operation) }.become id (wait s.client.arrived)

/-- The end of `initialize`: the switch to the backend that the client named, or to the default one,
is spawned. -/
def welcome (s : Session) (id : Nat) (options : Option Json) : Session :=
  let url := (options.bind urlSetting).getD s.defaultUrl
  let s := if url.isEmpty then s else s.start (.switch url)
  s.answer id .welcome

/-- The document for a completion is found, or not. -/
def look (s : Session) (id : Nat) (position : Position) (reply : Reply) : Session :=
  match reply with
  | .snapshot document =>
    match completionContext document.content.toList position with
    | none => s.answer id .nothing
    | some context => s.consult id (.ask (questionFor context)) (.asking · context)
  | _ => s.answer id .nothing

/-- The answer of the backend; a completion without an answer has no items. -/
def offer (s : Session) (id : Nat) (context : CompletionContext) : Prometheus.Result → Session
  | .answered a => s.answer id (.items (itemsFor context a))
  | _ => s.answer id (.items [])

/-- The end of a spawned switch; a failure is logged to the client. -/
def report (s : Session) (id : Nat) (url : String) : Prometheus.Result → Session
  | .failed e =>
    (s.finish id).send
      (.log .warning ("Failed to connect to Prometheus " ++ url ++ ": " ++ e.message))
  | _ => s.finish id

/-- One step of a job. A job that has to wait does nothing. -/
def advanceJob (s : Session) (id : Nat) : Job → Session
  | .greet options =>
    (s.send (.log .information "PromQL language server initializing")).become id (.welcome options)
  | .welcome options => s.welcome id options
  | .confirm => (s.finish id).send (.log .information "PromQL language server initialized")
  | .farewell =>
    (s.send (.log .information "PromQL language server shutting down")).become id .close
  | .close => s.enter id .clear .shutdown .closing
  | .closing task => if s.workspace.isPending task then s else s.answer id .nothing
  | .enter purpose request => s.enter id purpose request .handling
  | .handling task | .draining task => if s.workspace.isPending task then s else s.finish id
  | .look uri position => s.enter id .answer (.snapshot uri) (.looking · position)
  | .looking task position =>
    match s.workspace.reply? task with
    | none => s
    | some reply => s.look id position reply
  | .asking operation context =>
    match s.client.result? operation with
    | none => s
    | some result => s.offer id context result
  | .switch url => s.consult id (.switch url) (.switching · url)
  | .switching operation url =>
    match s.client.result? operation with
    | none => s
    | some result => s.report id url result
  | .watch =>
    if s.workspace.store.isCancelled lifetime then
      { s with phase := s.phase.terminate }.enter id .clear .shutdown .draining
    else s

/-- Notices of the workspace go to the client. -/
def forward (s : Session) : Session :=
  let (notices, workspace) := s.workspace.takeOutbox
  { s with workspace, outbox := s.outbox ++ notices.map .diagnostics }

/-- One step of the session. -/
def step (s : Session) : Action → Session
  | .receive message => s.receive message
  | .advance id =>
    match s.job? id with
    | none => s
    | some job => s.advanceJob id job
  | .document action => { s with workspace := s.workspace.step action }.forward
  | .backend event => { s with client := s.client.step event }
  | .endLifetime => { s with workspace := s.workspace.step (.cancel lifetime) }

def run (s : Session) (actions : List Action) : Session := actions.foldl step s

/-- What surrounds a session. -/
structure Surroundings where
  documents : Workspace.Surroundings := {}
  network : Prometheus.Network := Prometheus.Network.unreachable

/-- What a task of the workspace does next. -/
def nextOfTask? (s : Session) (env : Surroundings) (task : Nat) : Option Action :=
  (s.workspace.nextOf? env.documents task).map .document

/-- What brings a job forward: its own next step, or one of what it waits for. -/
def nextOfJob? (s : Session) (env : Surroundings) (id : Nat) : Job → Option Action
  | .closing task | .handling task | .draining task =>
    if s.workspace.isPending task then s.nextOfTask? env task else some (.advance id)
  | .looking task _ =>
    if (s.workspace.reply? task).isSome then some (.advance id) else s.nextOfTask? env task
  | .asking operation _ | .switching operation _ =>
    if (s.client.result? operation).isSome then some (.advance id)
    else (s.client.next? env.network).map .backend
  | .watch => if s.workspace.store.isCancelled lifetime then some (.advance id) else none
  | _ => some (.advance id)

/-- The next step for the messages that came. -/
def nextForeground? (s : Session) (env : Surroundings) : Option Action :=
  (s.jobs.filter fun entry => !entry.2.isBackground).findSome? fun (id, job) =>
    s.nextOfJob? env id job

/-- The next step of what goes on behind the messages. -/
def nextBackground? (s : Session) (env : Surroundings) : Option Action :=
  ((s.jobs.filter fun entry => entry.2.isBackground).findSome? fun (id, job) =>
      s.nextOfJob? env id job)
    <|> ((s.workspace.movable? env.documents).bind (s.nextOfTask? env))

/-- The next step when messages go first. -/
def next? (s : Session) (env : Surroundings) : Option Action :=
  s.nextForeground? env <|> s.nextBackground? env

/-- An upper bound of the steps until nothing moves. -/
def stepsLeft (s : Session) : Nat :=
  (s.jobs.length + 1) * (8 * s.workspace.store.slots.length + 80) + s.workspace.stepsLeft
    + 2 * s.client.queue.length + s.client.flights.length

end Session

end PromqlServer
