import PromqlServer.Connection.Frame

/-!
`serve_connection`, the server's side of one connection: what is read goes to the service. Reading
ends with the first thing that is no message, with the end of the input, or with a call after the
exit. What was read until then is still answered; then the connection is closed, and the lifetime of
its session ends.
-/

namespace PromqlServer.Connection

open PromqlServer.Rpc PromqlServer.Session

structure Peer where
  reader : Reader := {}
  service : Service := {}
  /-- Nothing is read any more. -/
  ended : Bool := false
  closed : Bool := false

namespace Peer

def endInput (p : Peer) : Peer := { p with ended := true }

/-- The connection is closed, and the lifetime of its session ends. -/
def close (p : Peer) : Peer :=
  if p.closed then p
  else { p with ended := true, closed := true, service := p.service.step .endLifetime }

/-- One thing that was read. -/
def accept (p : Peer) : Except RpcError Incoming → Peer
  | .error e => { p with service := p.service.send (.response .null (.error e)) }.endInput
  | .ok .response => p
  | .ok (.call c) =>
    if p.service.stage = .exited then p.endInput else { p with service := p.service.receive c }

def readWithin : Nat → Peer → Peer
  | 0, p => p
  | fuel + 1, p =>
    if p.ended then p
    else match p.reader.next with
      | (reader, none) => { p with reader }
      | (reader, some message) => readWithin fuel ({ p with reader }.accept message)

/-- Bytes come from the client. -/
def receive (p : Peer) (bs : Bytes) : Peer :=
  if p.ended then p
  else
    let p := { p with reader := p.reader.feed bs }
    readWithin (p.reader.buffer.length + 1) p

def isResponse : Rpc.Outgoing → Bool
  | .response _ _ => true
  | _ => false

/-- What still goes out: everything, then responses only, then nothing. -/
def passes (p : Peer) (m : Rpc.Outgoing) : Bool := !p.closed && (!p.ended || isResponse m)

/-- The session goes on. -/
def update (p : Peer) (f : Service → Service) : Peer :=
  let outbox := p.service.outbox
  let service := f { p.service with outbox := [] }
  { p with service := { service with outbox := outbox ++ service.outbox.filter p.passes } }

/-- What comes about in a connection. -/
inductive Event where
  | receive (bytes : Bytes)
  /-- Nothing more comes from the client. -/
  | endInput
  /-- The connection ends: the client is gone, or the lifetime of the session is over. -/
  | disconnect
  | advance (action : Session.Action)

def step (p : Peer) : Event → Peer
  | .receive bytes => p.receive bytes
  | .endInput => p.endInput
  | .disconnect => p.close
  | .advance action => p.update (·.step action)

/-- The messages that came are handled. -/
def handleMessages (p : Peer) (env : Session.Surroundings) : Peer :=
  let p := p.update (·.handleMessages env)
  if p.ended then p.close else p

/-- Everything goes on until nothing moves. -/
def settle (p : Peer) (env : Session.Surroundings) : Peer :=
  p.update (·.settle env)

def fillWithin (env : Session.Surroundings) (count : Nat) : Nat → Peer → Peer
  | 0, p => p
  | fuel + 1, p =>
    if count ≤ p.service.outbox.length then p
    else match p.service.session.next? env with
      | none => p
      | some action => fillWithin env count fuel (p.update (·.step action))

/-- The session goes on until so many messages wait for the client. -/
def fill (p : Peer) (env : Session.Surroundings) (count : Nat) : Peer :=
  fillWithin env count p.service.session.stepsLeft p

/-- The client reads messages, at most so many. -/
def take (p : Peer) (count : Nat) : List Rpc.Outgoing × Peer :=
  let outbox := p.service.outbox
  (outbox.take count, { p with service := { p.service with outbox := outbox.drop count } })

/-- The client reads all there is. -/
def takeAll (p : Peer) : List Rpc.Outgoing × Peer := p.take p.service.outbox.length

end Peer

end PromqlServer.Connection
