import PromqlServer.Text.Position

/-!
Diagnostics as an editor shows them.
-/

namespace PromqlServer.Query

open PromqlServer.Text

inductive Severity where
  | error
  | warning
  | information
  | hint
  deriving DecidableEq, Repr

structure Diagnostic where
  range : Range
  severity : Option Severity
  source : Option String
  message : String
  deriving DecidableEq, Repr

/-- Why an analysis gave no diagnostics. -/
inductive AnalysisError where
  | cancelled
  | failed (reason : String)
  deriving DecidableEq, Repr

def AnalysisError.message : AnalysisError → String
  | .cancelled => "Analysis was cancelled"
  | .failed reason => "Analysis failed: " ++ reason

end PromqlServer.Query
