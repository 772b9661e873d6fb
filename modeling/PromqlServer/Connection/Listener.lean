import PromqlServer.Connection.Peer
import PromqlServer.Settings

/-!
`serve_listener`: a server of many connections, each with a session of its own. All that can be
cancelled is one tree: the lifetime of the acceptor is its root, below it are the lifetimes of the
sessions, by the numbers of their connections, and below these the documents and their versions.
-/

namespace PromqlServer.Connection

open PromqlServer.Document

/-- What is seen of a tree from a node right below its root: what was cancelled below the node, and
the root, which is above it. -/
def below (n : Nat) (tree : Cancellations) : Cancellations :=
  tree.filterMap fun
    | [] => some []
    | m :: scope => if m = n then some scope else none

/-- What was cancelled after `earlier`. -/
def since (earlier later : Cancellations) : Cancellations :=
  later.take (later.length - earlier.length)

/-- What the session sees as cancelled. -/
def Peer.cancelled (p : Peer) : Cancellations := p.service.session.workspace.store.cancelled

/-- The session in a tree. -/
def Peer.within (p : Peer) (cancelled : Cancellations) : Peer :=
  { p with service.session.workspace.store.cancelled := cancelled }

structure Listener where
  settings : Settings := {}
  cancelled : Cancellations := []
  /-- The connections by number, in the order in which they came. -/
  peers : List (Nat × Peer) := []
  /-- No connections are accepted any more. -/
  stopped : Bool := false

/-- A new session under the settings of the server. -/
def newPeer (settings : Settings) : Peer :=
  { service :=
    { session := { defaultUrl := settings.prometheusUrl, client := { settings := settings.client } } } }

namespace Listener

inductive Event where
  /-- A connection is accepted, under a number that is not in use. -/
  | connect (peer : Nat)
  | peer (peer : Nat) (event : Peer.Event)
  /-- The lifetime of the acceptor ends, which the acceptor may not know yet. -/
  | endLifetime
  /-- The acceptor stops, as its lifetime is over. -/
  | stop

/-- A connection, with the part of the tree that its session sees. -/
def peer? (l : Listener) (n : Nat) : Option Peer :=
  (l.peers.find? fun entry => entry.1 = n).map fun entry => entry.2.within (below n l.cancelled)

/-- Something comes about in a connection. What its session cancels is cancelled in the tree. -/
def modify (l : Listener) (n : Nat) (f : Peer → Peer) : Listener :=
  match l.peer? n with
  | none => l
  | some p =>
    { l with
      cancelled := (since p.cancelled (f p).cancelled).map (n :: ·) ++ l.cancelled
      peers := l.peers.map fun entry => if entry.1 = n then (n, f p) else entry }

def step (l : Listener) : Event → Listener
  | .connect n =>
    if l.stopped || (l.peer? n).isSome then l
    else { l with peers := l.peers ++ [(n, newPeer l.settings)] }
  | .peer n event => l.modify n (·.step event)
  | .endLifetime => { l with cancelled := [] :: l.cancelled }
  | .stop => { l with cancelled := [] :: l.cancelled, stopped := true }

def run (l : Listener) (events : List Event) : Listener := events.foldl step l

/-- Every connection has ended. -/
def allClosed (l : Listener) : Bool := l.peers.all fun entry => entry.2.closed

end Listener

end PromqlServer.Connection
