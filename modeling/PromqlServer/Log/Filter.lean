import PromqlServer.Json.Writer
import PromqlServer.Text.Blank
import PromqlServer.Text.Measure

/-!
Filters for log records. A filter is a list of directives divided by commas, each of which sets a
level for the records of some targets; the most specific one decides.
-/

namespace PromqlServer.Log

open PromqlServer.Text

/-- Levels from the least to the most verbose. -/
inductive Level where
  | off
  | error
  | warn
  | info
  | debug
  | trace
  deriving DecidableEq, Repr

def Level.rank : Level → Nat
  | .off => 0
  | .error => 1
  | .warn => 2
  | .info => 3
  | .debug => 4
  | .trace => 5

def Level.names : List (String × Level) :=
  [("off", .off), ("error", .error), ("warn", .warn), ("info", .info), ("debug", .debug),
    ("trace", .trace)]

/-- A level by its number; a plus sign may stand before it. -/
def Level.ofNumber? (cs : List Char) : Option Level :=
  let digits := match cs with
    | '+' :: cs => cs
    | cs => cs
  if digits.isEmpty || !digits.all Char.isDigit then none
  else
    let n := digits.foldl (fun n c => 10 * n + (c.toNat - 48)) 0
    (names.map Prod.snd).find? fun level => level.rank = n

/-- A level by its number or by its name in letters of any case; no text at all is the level of
errors. -/
def Level.parse? (cs : List Char) : Option Level :=
  (ofNumber? cs).or <|
    if cs.isEmpty then some .error
    else (names.find? fun entry => entry.1.toList = cs.map Char.toLower).map Prod.snd

inductive FilterError where
  | level
  | directive
  deriving DecidableEq, Repr

def FilterError.message : FilterError → String
  | .level =>
    "error parsing level filter: expected one of \"off\", \"error\", \"warn\", \"info\", " ++
      "\"debug\", \"trace\", or a number 0-5"
  | .directive => "invalid filter directive"

/-- The error behind an error, which is told after it. -/
def FilterError.cause : FilterError → Option String
  | .level => some FilterError.level.message
  | .directive => none

/-- A level for the records whose target starts so. A directive that is bound to a span holds for
none of the records of this program, which has no spans. -/
structure Directive where
  target : Option (List Char) := none
  spanned : Bool := false
  level : Level := .trace
  deriving DecidableEq, Repr

/-- How far the reading of a directive is; the numbers count from the start of the text. -/
inductive Reading where
  | start
  | levelOrTarget
  | span
  | field (start : Nat)
  | fields
  | target
  | level (start : Nat)
  deriving DecidableEq, Repr

def startsName (c : Char) : Bool :=
  c = '-' || c = ':' || c = '_' || c.isAlphanum || c.toNat ≥ 0x80

/-- One character of a directive. Parts of it are cut from `text`, which still has the white space
that the reading goes past. -/
def Directive.readChar (text : List Char) (d : Directive) (r : Reading) (i : Nat) (c : Char) :
    Except FilterError (Directive × Reading) :=
  match r with
  | .start =>
    if c = '[' then .ok ({ d with spanned := true }, .span)
    else if startsName c then .ok (d, .levelOrTarget)
    else .error .directive
  | .levelOrTarget =>
    if c = '=' then .ok ({ d with target := some (text.take i) }, .level (i + 1))
    else if c = '[' then .ok ({ d with target := some (text.take i), spanned := true }, .span)
    else .ok (d, .levelOrTarget)
  | .span =>
    if c = ']' then .ok (d, .target)
    else if c = '{' then .ok (d, .field (i + 1))
    else .ok (d, .span)
  | .field start =>
    if c = '}' then if i = start then .error .directive else .ok (d, .fields)
    else .ok (d, .field start)
  | .fields => if c = ']' then .ok (d, .target) else .error .directive
  | .target => if c = '=' then .ok (d, .level (i + 1)) else .error .directive
  | .level start => .ok (d, .level start)

/-- The end of a directive. A name that is no level is a target for records of all levels. -/
def Directive.finish (text : List Char) (d : Directive) : Reading → Except FilterError Directive
  | .levelOrTarget =>
    match Level.parse? text with
    | some level => .ok { d with level }
    | none => .ok { d with target := some text }
  | .level start =>
    let rest := text.drop start
    if rest.isEmpty then .ok d
    else match Level.parse? rest with
      | some level => .ok { d with level }
      | none => .error .level
  | .target => .ok d
  | _ => .error .directive

def Directive.parse (text : List Char) : Except FilterError Directive := do
  let (d, r) ← (trim text).zipIdx.foldlM (fun (d, r) (c, i) => d.readChar text r i c)
    (({} : Directive), Reading.start)
  d.finish text r

structure Filter where
  directives : List Directive
  deriving DecidableEq, Repr

/-- Without a directive there is one for errors. -/
def Filter.parse (text : String) : Except FilterError Filter := do
  let parts := (splitAt ',' text.toList).filter fun part => !part.isEmpty
  let directives ← parts.mapM Directive.parse
  return ⟨if directives.isEmpty then [{ level := .error }] else directives⟩

structure Record where
  level : Level
  target : String
  deriving DecidableEq, Repr

def Level.label : Level → String
  | .off => "OFF"
  | .error => "ERROR"
  | .warn => "WARN"
  | .info => "INFO"
  | .debug => "DEBUG"
  | .trace => "TRACE"

/-- A record as a line of the log. -/
def Record.line (r : Record) (message : String) : String :=
  Json.write (.object [("level", .string r.level.label),
    ("fields", .object [("message", .string message)]), ("target", .string r.target)])

def Directive.covers (d : Directive) (r : Record) : Bool :=
  !d.spanned && (match d.target with
    | some target => target.isPrefixOf r.target.toList
    | none => true)

/-- How specific a directive is. -/
def Directive.weight (d : Directive) : Nat :=
  match d.target with
  | some target => target.length + 1
  | none => 0

/-- The most specific directive that covers a record; of equal ones the last. -/
def Filter.decisive? (f : Filter) (r : Record) : Option Directive :=
  f.directives.foldl (fun best d =>
    if d.covers r && (best.all fun b => b.weight ≤ d.weight) then some d else best) none

def Filter.enables (f : Filter) (r : Record) : Bool :=
  match f.decisive? r with
  | some d => r.level.rank ≤ d.level.rank
  | none => false

end PromqlServer.Log
