import PromqlServer.SemanticVersion

/-!
The dialects of data sources: the current one and the legacy one of older versions.
-/

namespace PromqlServer.Prometheus

/-- Since version 2.15 a backend tells metadata by metric; an older one tells it by target. -/
inductive Dialect where
  | current
  | legacy
  deriving DecidableEq, Repr

structure Settings where
  /-- The first version that speaks the current dialect. -/
  leastVersion : SemanticVersion := { major := 2, minor := 15, patch := 0 }
  /-- Milliseconds after which a request is given up. -/
  timeout : Nat := 30000
  deriving DecidableEq, Repr

/-- The dialect of a version. -/
def Dialect.ofVersion (version least : SemanticVersion) : Dialect :=
  if version.atLeast least then .current else .legacy

end PromqlServer.Prometheus
