import PromqlServer.Prometheus.BuildInfo
import PromqlServer.Prometheus.Question

/-!
The client of at most one data source at a time, behind a fair lock: operations are served in the
order in which they came. `change_data_source` holds the lock for writing, and with it the
operations behind it, until `detect_dialect` has its answer; a query holds it for reading, only to
look up the installed source, and leaves the queue before its request is sent.
-/

namespace PromqlServer.Prometheus

/-- A backend in use. -/
structure Source where
  url : String
  base : Base
  dialect : Dialect
  deriving DecidableEq, Repr

def Source.endpointOf (s : Source) (q : Question) : Url := (q.resource s.dialect).url s.base

/-- The URL of the installed source, empty if there is none. -/
def installedUrl : Option Source → String
  | some source => source.url
  | none => ""

inductive Operation where
  | switch (url : String)
  | ask (question : Question)
  | url
  | dialect
  deriving DecidableEq, Repr

inductive Result where
  | switched (dialect : Option Dialect)
  | answered (answer : Answer)
  | url (text : String)
  | dialect (dialect : Option Dialect)
  | failed (error : ClientError)
  deriving DecidableEq, Repr

/-- An operation in the queue. A switch that waits for its probe has a base. -/
structure Ticket where
  id : Nat
  operation : Operation
  probed : Option Base := none
  deriving DecidableEq, Repr

/-- A question whose request is sent. -/
structure Flight where
  id : Nat
  source : Source
  question : Question
  deriving DecidableEq, Repr

structure Client where
  settings : Settings := {}
  installed : Option Source := none
  /-- The operations that came and are not served yet, the oldest first. -/
  queue : List Ticket := []
  flights : List Flight := []
  results : List (Nat × Result) := []
  /-- How many operations came. -/
  arrived : Nat := 0
  /-- The URLs asked for and by which operation, the latest first. -/
  asked : List (Nat × Url) := []
  deriving DecidableEq, Repr

inductive Event where
  | arrive (operation : Operation)
  /-- The head of the queue is served. -/
  | serve
  /-- The probe of the head of the queue ends. -/
  | probed (outcome : Outcome)
  /-- The exchange for a question ends. -/
  | answered (id : Nat) (outcome : Outcome)

namespace Client

def finish (c : Client) (id : Nat) (result : Result) : Client :=
  { c with results := c.results ++ [(id, result)] }

def dequeue (c : Client) : Client := { c with queue := c.queue.tail }

/-- A switch without its probe: an empty URL removes the source, and a URL that cannot be a base
fails. -/
def beginSwitch (c : Client) (t : Ticket) (url : String) : Client :=
  let url := Text.trimString url
  if url.isEmpty then ({ c with installed := none }.dequeue).finish t.id (.switched none)
  else match Base.parse url with
    | .error e => c.dequeue.finish t.id (.failed e)
    | .ok base =>
      { c with
        queue := { t with probed := some base } :: c.queue.tail
        asked := (t.id, base.rootEndpoint buildInfoPath) :: c.asked }

/-- The end of a switch: the source is replaced, or stays as it was. -/
def endSwitch (c : Client) (t : Ticket) (url : String) (base : Base) (outcome : Outcome) : Client :=
  match detectDialect c.settings.leastVersion (base.rootEndpoint buildInfoPath) outcome with
  | .error e => c.dequeue.finish t.id (.failed e)
  | .ok dialect =>
    ({ c with installed := some ⟨Text.trimString url, base, dialect⟩ }.dequeue).finish t.id
      (.switched (some dialect))

def beginQuestion (c : Client) (t : Ticket) (q : Question) : Client :=
  match c.installed with
  | none => c.dequeue.finish t.id (.failed .notConfigured)
  | some source =>
    { c.dequeue with
      flights := c.flights ++ [⟨t.id, source, q⟩]
      asked := (t.id, source.endpointOf q) :: c.asked }

def serve (c : Client) : Client :=
  match c.queue with
  | [] => c
  | t :: _ =>
    match t.operation with
    | .switch url => if t.probed.isSome then c else c.beginSwitch t url
    | .ask q => c.beginQuestion t q
    | .url => c.dequeue.finish t.id (.url (installedUrl c.installed))
    | .dialect => c.dequeue.finish t.id (.dialect (c.installed.map Source.dialect))

def step (c : Client) : Event → Client
  | .arrive operation =>
    { c with queue := c.queue ++ [{ id := c.arrived, operation }], arrived := c.arrived + 1 }
  | .serve => c.serve
  | .probed outcome =>
    match c.queue with
    | t :: _ =>
      match t.operation, t.probed with
      | .switch url, some base => c.endSwitch t url base outcome
      | _, _ => c
    | [] => c
  | .answered id outcome =>
    match c.flights.find? fun f => f.id = id with
    | none => c
    | some f =>
      let result := match f.question.read f.source.dialect outcome with
        | .ok answer => .answered answer
        | .error e => .failed e
      { c with flights := c.flights.filter fun f => f.id ≠ id }.finish id result

def run (c : Client) (events : List Event) : Client := events.foldl step c

/-- What happens next on a network that answers at once. -/
def next? (c : Client) (network : Network) : Option Event :=
  match c.queue with
  | t :: _ =>
    match t.probed with
    | some base => some (.probed (exchange network (base.rootEndpoint buildInfoPath)))
    | none => some .serve
  | [] =>
    match c.flights with
    | f :: _ => some (.answered f.id (exchange network (f.source.endpointOf f.question)))
    | [] => none

def settleWithin (network : Network) : Nat → Client → Client
  | 0, c => c
  | fuel + 1, c =>
    match c.next? network with
    | none => c
    | some event => settleWithin network fuel (c.step event)

/-- Every operation is served and answered. -/
def settle (c : Client) (network : Network) : Client :=
  settleWithin network (2 * c.queue.length + c.flights.length) c

def result? (c : Client) (id : Nat) : Option Result :=
  (c.results.find? fun entry => entry.1 = id).map Prod.snd

/-- One operation from its arrival to its result, with nothing else in the way. -/
def perform (c : Client) (network : Network) (operation : Operation) : Client × Option Result :=
  let id := c.arrived
  let c := (c.step (.arrive operation)).settle network
  (c, c.result? id)

end Client

end PromqlServer.Prometheus
