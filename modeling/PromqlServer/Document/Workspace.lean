import PromqlServer.Document.Provider
import PromqlServer.Document.Store

/-!
A document cache and all that works on it at the same time: its calls, and the `run`s of the
diagnostics publisher, here publications, each of which analyses the version of one context and
commits what it finds if the context is still live. A call may be made by `did_open` or
`did_change`, which schedule the context that it hands out, or by `did_close` or the end of the
session, which clear what it closes. `step` does one thing of one task, whichever the schedule
picks. The history keeps when each call began and what it returned, and when each publish began and
ended.
-/

namespace PromqlServer.Document

open PromqlServer.Query

/-- The diagnostics of a document, as they are published to the client. -/
structure Notice where
  uri : Uri
  version : Option Int
  diagnostics : List Diagnostic
  deriving DecidableEq, Repr

def Report.notice (r : Report) : Notice := ⟨r.uri, some r.version, r.diagnostics⟩

/-- The notice of `clear`, which takes back all diagnostics of a document. -/
def Closed.notice (d : Closed) : Notice := ⟨d.uri, some d.version, []⟩

/-- What is done with the reply of a call. -/
inductive Purpose where
  /-- Nothing but to give it to the caller. -/
  | answer
  /-- The edition is analysed: `did_open` and `did_change`. -/
  | analyse
  /-- The closed documents are cleared: `did_close`, and `end_session` by `clear_all`. -/
  | clear
  deriving DecidableEq, Repr

/-- How far a publication is. -/
inductive Stage where
  | ready
  | analysing
  | committing (call : Call)
  deriving DecidableEq, Repr

inductive Task where
  | call (purpose : Purpose) (call : Call)
  | clearing (documents : List Closed)
  | publication (edition : Edition) (stage : Stage)
  deriving DecidableEq, Repr

inductive Event where
  | invoked (id : Nat) (request : Request)
  | returned (id : Nat) (reply : Reply)
  | scheduled (id : Nat) (edition : Edition)
  | dropped (id : Nat)
  | began (id : Nat) (report : Report)
  | ended (id : Nat)
  | cleared (notice : Notice)
  | cancelled (scope : Scope)
  deriving DecidableEq, Repr

structure Workspace where
  store : Store := {}
  /-- The unfinished tasks by number, the oldest first. -/
  tasks : List (Nat × Task) := []
  /-- How many tasks were started. -/
  started : Nat := 0
  /-- The latest event first. -/
  history : List Event := []
  /-- What was sent to the client and not taken from here yet, the oldest first. -/
  outbox : List Notice := []
  deriving DecidableEq, Repr

inductive Action where
  | invoke (purpose : Purpose) (request : Request)
  | schedule (edition : Edition)
  | clear (notice : Notice)
  | cancel (scope : Scope)
  /-- A task does the next thing that it can do by itself. -/
  | advance (id : Nat)
  /-- The analysis of a publication ends. -/
  | analysed (id : Nat) (analysis : Analysis)
  deriving DecidableEq, Repr

namespace Workspace

def emit (w : Workspace) (e : Event) : Workspace := { w with history := e :: w.history }

def send (w : Workspace) (n : Notice) : Workspace := { w with outbox := w.outbox ++ [n] }

def start (w : Workspace) (task : Task) : Workspace :=
  { w with tasks := w.tasks ++ [(w.started, task)], started := w.started + 1 }

def task? (w : Workspace) (id : Nat) : Option Task :=
  (w.tasks.find? fun entry => entry.1 = id).map Prod.snd

def update (w : Workspace) (id : Nat) (task : Task) : Workspace :=
  { w with tasks := w.tasks.map fun entry => if entry.1 = id then (id, task) else entry }

def finish (w : Workspace) (id : Nat) : Workspace :=
  { w with tasks := w.tasks.filter fun entry => entry.1 ≠ id }

def withStore (w : Workspace) (store : Store) : Workspace := { w with store }

def invoke (w : Workspace) (purpose : Purpose) (request : Request) : Workspace :=
  (w.emit (.invoked w.started request)).start (.call purpose request.call)

def schedule (w : Workspace) (edition : Edition) : Workspace :=
  (w.emit (.scheduled w.started edition)).start (.publication edition .ready)

def clear (w : Workspace) (n : Notice) : Workspace := (w.emit (.cleared n)).send n

def drop (w : Workspace) (id : Nat) : Workspace := (w.emit (.dropped id)).finish id

/-- What the start or the end of a publication leaves in the history. -/
def note (w : Workspace) (id : Nat) : Call → Workspace
  | .publish _ report => w.emit (.began id report)
  | .publishing _ _ => w.emit (.ended id)
  | _ => w

/-- What follows from the reply of a call. -/
def follow (w : Workspace) (id : Nat) (purpose : Purpose) (reply : Reply) : Workspace :=
  match purpose, reply with
  | .analyse, .opened edition => (w.finish id).schedule edition
  | .clear, .closed document => w.update id (.clearing [document])
  | .clear, .drained documents => w.update id (.clearing documents)
  | _, _ => w.finish id

def advanceCall (w : Workspace) (id : Nat) (purpose : Purpose) (call : Call) : Workspace :=
  match w.store.turn id call with
  | .blocked => w
  | .next store call' => ((w.note id call).withStore store).update id (.call purpose call')
  | .done store reply =>
    (((w.note id call).withStore store).emit (.returned id reply)).follow id purpose reply

/-- A publication under the lock of its document. What it publishes goes to the client. -/
def advanceCommit (w : Workspace) (id : Nat) (edition : Edition) (call : Call) : Workspace :=
  match w.store.turn id call with
  | .blocked => w
  | .next store call' =>
    let w := match call with
      | .publish _ report => w.send report.notice
      | _ => w
    ((w.note id call).withStore store).update id (.publication edition (.committing call'))
  | .done store reply =>
    (((w.note id call).withStore store).emit (.returned id reply)).finish id

def advance (w : Workspace) (id : Nat) : Workspace :=
  match w.task? id with
  | none => w
  | some (.call purpose call) => w.advanceCall id purpose call
  | some (.clearing []) => w.finish id
  | some (.clearing (d :: ds)) => (w.clear d.notice).update id (.clearing ds)
  | some (.publication edition .ready) =>
    if w.store.isCancelled edition.scope then w.drop id
    else w.update id (.publication edition .analysing)
  | some (.publication edition .analysing) =>
    if w.store.isCancelled edition.scope then w.drop id else w
  | some (.publication edition (.committing call)) => w.advanceCommit id edition call

/-- Findings are committed; any other end of an analysis is the end of the publication. -/
def analysed (w : Workspace) (id : Nat) (analysis : Analysis) : Workspace :=
  match w.task? id, analysis with
  | some (.publication edition .analysing), .found diagnostics =>
    let request := Request.commit edition ⟨edition.uri, edition.version, diagnostics⟩
    (w.emit (.invoked id request)).update id (.publication edition (.committing request.call))
  | some (.publication _ .analysing), _ => w.drop id
  | _, _ => w

/-- One step of the workspace. A step that cannot be taken changes nothing. -/
def step (w : Workspace) : Action → Workspace
  | .invoke purpose request => w.invoke purpose request
  | .schedule edition => w.schedule edition
  | .clear n => w.clear n
  | .cancel scope => (w.emit (.cancelled scope)).withStore (w.store.cancel scope)
  | .advance id => w.advance id
  | .analysed id analysis => w.analysed id analysis

def run (w : Workspace) (actions : List Action) : Workspace := actions.foldl step w

/-- What surrounds the tasks: the provider, whether its gate is open, and the tasks whose
publication does not end yet. -/
structure Surroundings where
  provider : Provider := Provider.lexical
  gateOpen : Bool := true
  paused : List Nat := []

/-- What a task does next, if it does not have to wait. -/
def next? (w : Workspace) (env : Surroundings) (id : Nat) : Task → Option Action
  | .call _ call | .publication _ (.committing call) =>
    match call, w.store.turn id call with
    | _, .blocked => none
    | .publishing _ _, _ => if env.paused.contains id then none else some (.advance id)
    | _, _ => some (.advance id)
  | .clearing _ => some (.advance id)
  | .publication _ .ready => some (.advance id)
  | .publication edition .analysing =>
    let cancelled := w.store.isCancelled edition.scope
    if cancelled then some (.advance id)
    else (env.provider.result? env.gateOpen cancelled edition.content).map (.analysed id)

/-- The next step of a task, if it does not have to wait. -/
def nextOf? (w : Workspace) (env : Surroundings) (id : Nat) : Option Action :=
  (w.task? id).bind (w.next? env id)

def resumeWithin (env : Surroundings) (id : Nat) : Nat → Workspace → Workspace
  | 0, w => w
  | fuel + 1, w =>
    match w.nextOf? env id with
    | none => w
    | some action => resumeWithin env id fuel (w.step action)

/-- An upper bound of the steps that a task takes at once. -/
def stepsAtOnce (w : Workspace) : Nat := 4 * w.store.slots.length + 20

/-- A task goes on until it is done or has to wait, with no other task in between. -/
def resume (w : Workspace) (env : Surroundings) (id : Nat) : Workspace :=
  resumeWithin env id w.stepsAtOnce w

/-- The oldest task that does not have to wait. -/
def movable? (w : Workspace) (env : Surroundings) : Option Nat :=
  (w.tasks.map Prod.fst).find? fun id => (w.nextOf? env id).isSome

def settleWithin (env : Surroundings) : Nat → Workspace → Workspace
  | 0, w => w
  | fuel + 1, w =>
    match w.movable? env with
    | none => w
    | some id => settleWithin env fuel (w.resume env id)

/-- An upper bound of how often a task has to be resumed until nothing moves: each task waits a few
times, and a call may start one publication. -/
def resumptionsLeft (w : Workspace) : Nat := 8 * (w.tasks.length + w.store.slots.length + 1)

/-- All tasks go on until each is done or has to wait, the oldest first. -/
def settle (w : Workspace) (env : Surroundings) : Workspace :=
  settleWithin env w.resumptionsLeft w

/-- An upper bound of the steps until nothing moves. -/
def stepsLeft (w : Workspace) : Nat := w.resumptionsLeft * w.stepsAtOnce

/-- What a call returned, if it did. -/
def reply? (w : Workspace) (id : Nat) : Option Reply :=
  w.history.findSome? fun
    | .returned id' reply => if id' = id then some reply else none
    | _ => none

def isPending (w : Workspace) (id : Nat) : Bool := (w.task? id).isSome

/-- A request is made and all tasks go on as far as they can. The number of the call comes with the
result. -/
def call (w : Workspace) (env : Surroundings) (request : Request) : Workspace × Nat :=
  ((w.invoke .answer request).settle env, w.started)

/-- What was sent to the client. -/
def takeOutbox (w : Workspace) : List Notice × Workspace := (w.outbox, { w with outbox := [] })

end Workspace

end PromqlServer.Document
