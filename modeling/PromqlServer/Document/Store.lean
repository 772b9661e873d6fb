import PromqlServer.Document.Scope
import PromqlServer.Document.Uri
import PromqlServer.Query.Diagnostic

/-!
The document cache of one session, with its operations `open`, `change`, `close`, `version`,
`document`, `is_open`, `len` and `shutdown`, and the `commit` of a version context. Each tracked
document has a slot with its current state, and a lock that calls get in the order in which they
came: the call at the head of the slot's queue holds it. Each `open` and each `change` hands out a
version context, here an `Edition`, whose scope is cancelled as soon as its version is no longer the
current one.

A call goes in turns. Access to the table, cancellation, arrival at a lock, the check under the lock
and the start and the end of a publish are turns of their own, so that calls can meet in all the
ways in which they can meet when they run at the same time.

A `shutdown` visits the slots that it drains in the order of the table, though a hash map has no
order to rely on. Only their set matters to what is proved: which slots it waits for, what becomes
of each, the clears that follow up to their order, and, where the replies of two runs are compared,
that both drain the same table.
-/

namespace PromqlServer.Document

open PromqlServer.Query

/-- The findings for one version of a document. -/
structure Report where
  uri : Uri
  version : Int
  diagnostics : List Diagnostic
  deriving DecidableEq, Repr

def Report.isClean (r : Report) : Bool := r.diagnostics.isEmpty

/-- A version context: one version of a document, as it is handed out to those who work on it. -/
structure Edition where
  uri : Uri
  version : Int
  content : String
  slot : Nat
  scope : Scope
  deriving DecidableEq, Repr

/-- A tracked document at one moment, as `document` returns it. The report is the one for this
version. -/
structure Snapshot where
  uri : Uri
  version : Int
  content : String
  report : Option Report
  deriving DecidableEq, Repr

/-- What `close` and `shutdown` return of a document: its last version, and whether anything was
ever published for it. -/
structure Closed where
  uri : Uri
  version : Int
  published : Bool
  deriving DecidableEq, Repr

inductive StoreError where
  | alreadyOpen (uri : Uri)
  | outOfOrder (uri : Uri) (current received : Int)
  | expired (uri : Uri)
  | shutDown
  deriving DecidableEq, Repr

def StoreError.message : StoreError → String
  | .alreadyOpen uri => "Document " ++ uri.text ++ " is already open"
  | .outOfOrder uri current received =>
    "Out of order update for " ++ uri.text ++ ": version " ++ toString received ++
      " does not follow " ++ toString current
  | .expired uri => "Document " ++ uri.text ++ " was closed or superseded"
  | .shutDown => "Session is shutting down"

/-- The state of one document from its opening on, also after it is closed. -/
structure Slot where
  uri : Uri
  version : Int
  content : String
  /-- How often the document was changed. -/
  revision : Nat := 0
  report : Option Report := none
  published : Bool := false
  /-- The calls that hold or want the lock, in the order in which they came. -/
  queue : List Nat := []
  deriving DecidableEq, Repr

def Slot.close (d : Slot) : Closed := ⟨d.uri, d.version, d.published⟩

/-- The document cache. -/
structure Store where
  /-- The scope that all documents are below. -/
  lifetime : Scope := []
  cancelled : Cancellations := []
  /-- All slots there ever were; a slot is known by its place. -/
  slots : List Slot := []
  /-- The tracked documents, the oldest first. -/
  table : List (Uri × Nat) := []
  deriving DecidableEq, Repr

/-- What a call does under the lock of a document. -/
inductive Work where
  | change (content : String) (version : Int)
  | close
  | version
  | snapshot
  | commit (edition : Edition) (report : Report)
  deriving DecidableEq, Repr

/-- A call, by what it has to do next. -/
inductive Call where
  | track (uri : Uri) (content : String) (version : Int)
  | isOpen (uri : Uri)
  | size
  | find (uri : Uri) (work : Work)
  | remove (uri : Uri)
  | cancelSlot (slot : Nat)
  | arrive (slot : Nat) (work : Work)
  | queued (slot : Nat) (work : Work)
  | supersede (slot : Nat) (content : String) (version : Int)
  | replace (slot : Nat) (content : String) (version : Int)
  | publish (slot : Nat) (report : Report)
  | publishing (slot : Nat) (report : Report)
  | endLifetime
  | drain
  | collect (slots : List Nat) (closed : List Closed)
  | collecting (slot : Nat) (slots : List Nat) (closed : List Closed)
  deriving DecidableEq, Repr

inductive Reply where
  | opened (edition : Edition)
  | isOpen (answer : Bool)
  | size (count : Nat)
  | closed (document : Closed)
  | version (number : Int)
  | snapshot (document : Snapshot)
  | committed
  | drained (documents : List Closed)
  | failed (error : StoreError)
  deriving DecidableEq, Repr

/-- What can be asked of a document cache. -/
inductive Request where
  /-- `open` of the cache. -/
  | track (uri : Uri) (content : String) (version : Int)
  | change (uri : Uri) (content : String) (version : Int)
  | close (uri : Uri)
  | version (uri : Uri)
  /-- `document` of the cache. -/
  | snapshot (uri : Uri)
  | isOpen (uri : Uri)
  /-- `len` of the cache. -/
  | size
  /-- Publishes a report, if the edition is still the current one. -/
  | commit (edition : Edition) (report : Report)
  /-- Cancels the lifetime and closes all documents. -/
  | shutdown
  deriving DecidableEq, Repr

/-- The call that a request starts. -/
def Request.call : Request → Call
  | .track uri content v => .track uri content v
  | .change uri content v => .find uri (.change content v)
  | .close uri => .remove uri
  | .version uri => .find uri .version
  | .snapshot uri => .find uri .snapshot
  | .isOpen uri => .isOpen uri
  | .size => .size
  | .commit edition report => .arrive edition.slot (.commit edition report)
  | .shutdown => .endLifetime

/-- What a turn of a call comes to. -/
inductive Turn where
  | blocked
  | next (store : Store) (call : Call)
  | done (store : Store) (reply : Reply)
  deriving DecidableEq, Repr

namespace Store

def isCancelled (s : Store) (scope : Scope) : Bool := scope.isCancelled s.cancelled

def cancel (s : Store) (scope : Scope) : Store := { s with cancelled := scope :: s.cancelled }

def lookup (s : Store) (uri : Uri) : Option Nat :=
  (s.table.find? fun entry => entry.1 = uri).map Prod.snd

def slotScope (s : Store) (slot : Nat) : Scope := s.lifetime.child slot

/-- The scope of the edition that came after `revision` changes. -/
def editionScope (s : Store) (slot revision : Nat) : Scope := (s.slotScope slot).child revision

def modifySlot (s : Store) (slot : Nat) (f : Slot → Slot) : Store :=
  { s with slots := s.slots.modify slot f }

/-- The call comes to the lock of a slot. -/
def arrive (s : Store) (id slot : Nat) : Store :=
  s.modifySlot slot fun d => { d with queue := d.queue ++ [id] }

/-- The call that holds the lock of a slot gives it away. -/
def release (s : Store) (slot : Nat) : Store :=
  s.modifySlot slot fun d => { d with queue := d.queue.tail }

/-- The state of a slot, if the call holds its lock. -/
def held (s : Store) (id slot : Nat) : Option Slot :=
  (s.slots[slot]?).filter fun d => d.queue.head? = some id

/-- Opens a document. -/
def track (s : Store) (uri : Uri) (content : String) (version : Int) : Store × Reply :=
  if (s.lookup uri).isSome then (s, .failed (.alreadyOpen uri))
  else if s.isCancelled s.lifetime then (s, .failed .shutDown)
  else
    let slot := s.slots.length
    ({ s with
        slots := s.slots ++ [{ uri, version, content }]
        table := s.table ++ [(uri, slot)] },
      .opened ⟨uri, version, content, slot, s.editionScope slot 0⟩)

/-- The turn of a call that holds the lock of `slot`, whose state is `d`. -/
def check (s : Store) (slot : Nat) (d : Slot) (work : Work) : Turn :=
  let expired := Turn.done (s.release slot) (.failed (.expired d.uri))
  match work with
  | .close => .done (s.release slot) (.closed d.close)
  | .change content version =>
    if s.isCancelled (s.slotScope slot) then expired
    else if version ≤ d.version then
      .done (s.release slot) (.failed (.outOfOrder d.uri d.version version))
    else .next s (.supersede slot content version)
  | .version =>
    if s.isCancelled (s.slotScope slot) then expired
    else .done (s.release slot) (.version d.version)
  | .snapshot =>
    if s.isCancelled (s.slotScope slot) then expired
    else .done (s.release slot) (.snapshot ⟨d.uri, d.version, d.content, d.report⟩)
  | .commit edition report =>
    if s.isCancelled edition.scope || d.version ≠ edition.version then expired
    else .next s (.publish slot report)

/-- The new text of a document, under its lock. -/
def replace (s : Store) (slot : Nat) (d : Slot) (content : String) (version : Int) :
    Store × Reply :=
  let revision := d.revision + 1
  let s := s.modifySlot slot fun d => { d with version, content, revision, report := none }
  (s.release slot, .opened ⟨d.uri, version, content, slot, s.editionScope slot revision⟩)

/-- The report of a publication that is over, under the lock. -/
def record (s : Store) (slot : Nat) (report : Report) : Store :=
  (s.modifySlot slot fun d => { d with report := some report, published := true }).release slot

/-- One turn of the call `id`. -/
def turn (s : Store) (id : Nat) : Call → Turn
  | .track uri content version =>
    let (s, reply) := s.track uri content version
    .done s reply
  | .isOpen uri => .done s (.isOpen (s.lookup uri).isSome)
  | .size => .done s (.size s.table.length)
  | .find uri work =>
    match s.lookup uri with
    | none => .done s (.failed (.expired uri))
    | some slot => .next s (.arrive slot work)
  | .remove uri =>
    match s.lookup uri with
    | none => .done s (.failed (.expired uri))
    | some slot =>
      .next { s with table := s.table.filter fun entry => entry.1 ≠ uri } (.cancelSlot slot)
  | .cancelSlot slot => .next (s.cancel (s.slotScope slot)) (.arrive slot .close)
  | .arrive slot work => .next (s.arrive id slot) (.queued slot work)
  | .queued slot work =>
    match s.held id slot with
    | none => .blocked
    | some d => s.check slot d work
  | .supersede slot content version =>
    match s.held id slot with
    | none => .blocked
    | some d => .next (s.cancel (s.editionScope slot d.revision)) (.replace slot content version)
  | .replace slot content version =>
    match s.held id slot with
    | none => .blocked
    | some d =>
      let (s, reply) := s.replace slot d content version
      .done s reply
  | .publish slot report => .next s (.publishing slot report)
  | .publishing slot report => .done (s.record slot report) .committed
  | .endLifetime => .next (s.cancel s.lifetime) .drain
  -- the order of the table stands for any order in which the drained slots may come
  | .drain => .next { s with table := [] } (.collect (s.table.map Prod.snd) [])
  | .collect [] closed => .done s (.drained closed)
  | .collect (slot :: slots) closed => .next (s.arrive id slot) (.collecting slot slots closed)
  | .collecting slot slots closed =>
    match s.held id slot with
    | none => .blocked
    | some d => .next (s.release slot) (.collect slots (closed ++ [d.close]))

end Store

end PromqlServer.Document
