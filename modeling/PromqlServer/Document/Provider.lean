import PromqlServer.Query.Lexical

/-!
The providers of diagnostics, which analyse a document: `diagnostics` polls for cancellation while
it works, and may wait for a gate before it starts.
-/

namespace PromqlServer.Document

open PromqlServer.Query

/-- How an analysis ends. -/
inductive Analysis where
  | found (diagnostics : List Diagnostic)
  | failed (error : AnalysisError)
  | crashed
  deriving DecidableEq, Repr

def Analysis.ofExcept : Except AnalysisError (List Diagnostic) → Analysis
  | .ok diagnostics => .found diagnostics
  | .error e => .failed e

structure Provider where
  /-- The provider waits until its gate is open. -/
  waits : Bool := false
  /-- Cancellation ends the wait. -/
  heeds : Bool := true
  /-- The analysis of a text; `cancelled n` is what the poll before line `n` answers. -/
  analyse : (cancelled : Nat → Bool) → (content : String) → Analysis

namespace Provider

/-- The lexical check. -/
def lexical : Provider where
  analyse cancelled content := .ofExcept (diagnostics cancelled content)

def failing (reason : String) : Provider where
  analyse _ _ := .failed (.failed reason)

def giving (analysis : Analysis) : Provider where
  analyse _ _ := analysis

/-- The provider behind a gate. -/
def gated (p : Provider) : Provider := { p with waits := true }

/-- The provider behind a gate that it waits for even when it is cancelled. -/
def deaf (p : Provider) : Provider := { p with waits := true, heeds := false }

/-- What the provider comes to now, if it does not have to wait. -/
def result? (p : Provider) (gateOpen cancelled : Bool) (content : String) : Option Analysis :=
  if p.waits && !gateOpen then
    if p.heeds && cancelled then some (.failed .cancelled) else none
  else some (p.analyse (fun _ => cancelled) content)

end Provider

end PromqlServer.Document
