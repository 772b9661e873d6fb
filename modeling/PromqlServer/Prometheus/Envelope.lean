import PromqlServer.Json.Reader
import PromqlServer.Json.Record
import PromqlServer.Prometheus.Endpoint
import PromqlServer.Prometheus.Exchange

/-!
The envelope around every answer of the API, as `get` of the API client reads it: a status, and
either data or an error.
-/

namespace PromqlServer.Prometheus

structure Envelope (α : Type) where
  status : String
  data : Option α
  errorType : String
  error : String

namespace Envelope

/-- Reads the data, which may be absent or null, also under an error. -/
def dataField? {α : Type} (read : Json → Option α) : Option Json → Option (Option α)
  | none | some .null => some none
  | some j => (read j).map some

def read? {α : Type} (read : Json → Option α) (j : Json) : Option (Envelope α) := do
  match ← j.record? ["status", "data", "errorType", "error"] 2 with
  | [status, data, errorType, error] =>
    return ⟨← Json.stringField? status, ← dataField? read data, ← Json.stringOrEmpty? errorType,
      ← Json.stringOrEmpty? error⟩
  | _ => none

def unwrap {α : Type} (e : Envelope α) : Except ClientError α :=
  if e.status ≠ "success" then .error (.api e.errorType e.error)
  else match e.data with
    | some a => .ok a
    | none => .error (.invalidResponse "missing data field")

end Envelope

/-- The data of an answer. A body that cannot be read is blamed on the status, if that is no
success, and otherwise the decoder has the word. -/
def readAnswer {α : Type} (read : Json → Option α) (status : Nat) (body complaint : String) :
    Except ClientError α :=
  match (Json.parse? body).bind (Envelope.read? read) with
  | some envelope => envelope.unwrap
  | none => .error (.invalidResponse (if isSuccess status then complaint else unexpectedStatus status))

/-- The data that an exchange brings. -/
def readOutcome {α : Type} (read : Json → Option α) (outcome : Outcome) : Except ClientError α :=
  match outcome with
  | .error failure => .error (.request failure.message)
  | .ok response =>
    match response.body with
    | .error failure => .error (.request failure.message)
    | .ok body => readAnswer read response.status body response.complaint

end PromqlServer.Prometheus
