import PromqlServer.Query.Diagnostic

/-!
The syntax checker of queries: delimiters have to nest and strings have to end. `findings` scans the
text line by line and polls for cancellation before each line.
-/

namespace PromqlServer.Query

open PromqlServer.Text

/-- The closing delimiter that belongs to an opening one. -/
def closerOf (c : Char) : Char :=
  if c = '(' then ')' else if c = '[' then ']' else '}'

def isOpener (c : Char) : Bool := c = '(' || c = '[' || c = '{'

def isCloser (c : Char) : Bool := c = ')' || c = ']' || c = '}'

def isQuote (c : Char) : Bool := c = '"' || c.toNat = 0x27 || c.toNat = 0x60

/-- A raw string has no escapes and may span lines. -/
def isRawQuote (c : Char) : Bool := c.toNat = 0x60

/-- What is wrong at a place of the text. -/
inductive Fault where
  | unexpected (closer : Char) (expected : Option Char)
  | unclosed (opener : Char)
  | unterminated
  | unterminatedRaw
  deriving DecidableEq, Repr

def Fault.message : Fault → String
  | .unexpected c none => "unexpected '" ++ c.toString ++ "'"
  | .unexpected c (some e) => "unexpected '" ++ c.toString ++ "', expected '" ++ e.toString ++ "'"
  | .unclosed c => "unclosed '" ++ c.toString ++ "'"
  | .unterminated => "unterminated string literal"
  | .unterminatedRaw => "unterminated raw string literal"

structure Finding where
  start : Position
  width : Nat
  fault : Fault
  deriving DecidableEq, Repr

def Finding.toDiagnostic (f : Finding) : Diagnostic where
  range := Range.ofWidth f.start f.width
  severity := some .error
  source := some "promql"
  message := f.fault.message

/-- An opening quote or delimiter, where it stands. -/
structure Mark where
  char : Char
  start : Position
  deriving DecidableEq, Repr

structure Scan where
  /-- The string that the scan is in. -/
  literal : Option Mark
  /-- The last character was a backslash inside a string. -/
  escaped : Bool
  /-- Open delimiters, the innermost first. -/
  delimiters : List Mark
  /-- The latest first. -/
  found : List Finding
  deriving DecidableEq, Repr

def Scan.empty : Scan := ⟨none, false, [], []⟩

def Scan.report (s : Scan) (f : Finding) : Scan := { s with found := f :: s.found }

/-- One character inside a string that was opened by `quote`. -/
def Scan.inside (s : Scan) (quote : Char) (c : Char) : Scan :=
  if s.escaped then { s with escaped := false }
  else if c = '\\' && !isRawQuote quote then { s with escaped := true }
  else if c = quote then { s with literal := none }
  else s

/-- A closing delimiter. One that does not fit is reported and leaves the open ones as they are. -/
def Scan.close (s : Scan) (here : Position) (c : Char) : Scan :=
  match s.delimiters with
  | [] => s.report ⟨here, 1, .unexpected c none⟩
  | m :: rest =>
    if closerOf m.char = c then { s with delimiters := rest }
    else s.report ⟨here, 1, .unexpected c (some (closerOf m.char))⟩

/-- One character outside strings and comments. -/
def Scan.outside (s : Scan) (here : Position) (c : Char) : Scan :=
  if isQuote c then { s with literal := some ⟨c, here⟩ }
  else if isOpener c then { s with delimiters := ⟨c, here⟩ :: s.delimiters }
  else if isCloser c then s.close here c
  else s

/-- The rest of a line from a column on. A comment ends the line; the column where the scan stopped
comes with the result. -/
def scanFrom (line : Nat) : Nat → List Char → Scan → Nat × Scan
  | column, [], s => (column, s)
  | column, c :: cs, s =>
    match s.literal with
    | some mark => scanFrom line (column + units16 c) cs (s.inside mark.char c)
    | none =>
      if c = '#' then (column + units16 c, s)
      else scanFrom line (column + units16 c) cs (s.outside ⟨line, column⟩ c)

/-- The end of a line ends its strings, except raw ones. -/
def Scan.endLine (s : Scan) (column : Nat) : Scan :=
  match s.literal with
  | some mark =>
    if isRawQuote mark.char then s
    else
      { s with literal := none }.report
        ⟨mark.start, column - mark.start.character, .unterminated⟩
  | none => s

def scanLine (line : Nat) (cs : List Char) (s : Scan) : Scan :=
  let (column, s) := scanFrom line 0 cs { s with escaped := false }
  s.endLine column

/-- Scans lines that are numbered from `line` on; `cancelled n` is what the poll before line `n`
answers. -/
def scanLines (cancelled : Nat → Bool) : Nat → List (List Char) → Scan → Except AnalysisError Scan
  | _, [], s => .ok s
  | line, l :: ls, s =>
    if cancelled line then .error .cancelled
    else scanLines cancelled (line + 1) ls (scanLine line l s)

/-- All that a finished scan has to report: what it met on its way, a raw string left open, then
the delimiters left open. -/
def Scan.findings (s : Scan) : List Finding :=
  s.found.reverse
    ++ (s.literal.toList.map fun m => ⟨m.start, 1, .unterminatedRaw⟩)
    ++ (s.delimiters.reverse.map fun m => ⟨m.start, 1, .unclosed m.char⟩)

/-- The faults of a text, unless a poll finds the analysis cancelled. -/
def findings (cancelled : Nat → Bool) (content : List Char) : Except AnalysisError (List Finding) :=
  (scanLines cancelled 0 (lines content) Scan.empty).map Scan.findings

/-- The faults of a text when nobody cancels. -/
def check (content : List Char) : List Finding :=
  match findings (fun _ => false) content with
  | .ok fs => fs
  | .error _ => []

def diagnostics (cancelled : Nat → Bool) (content : String) :
    Except AnalysisError (List Diagnostic) :=
  (findings cancelled content.toList).map (List.map Finding.toDiagnostic)

end PromqlServer.Query
