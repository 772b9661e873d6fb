import PromqlServer.Prometheus.Dialect
import PromqlServer.Prometheus.Envelope
import PromqlServer.Text.Blank

/-!
`detect_dialect`: the build information of a backend tells its version, and so its dialect. Backends
that are too old to have build information answer that there is none.
-/

namespace PromqlServer.Prometheus

def buildInfoPath : String := "/api/v1/status/buildinfo"

def reportedVersion? (j : Json) : Option String := do
  match ← j.record? ["status", "data"] 2 with
  | [status, some data] =>
    let _ ← Json.stringField? status
    match ← data.record? ["version"] 1 with
    | [version] => Json.stringField? version
    | _ => none
  | _ => none

/-- A version may have a `v` before it and white space around it. -/
def parseVersion (text : String) : Except SemanticVersion.ParseError SemanticVersion :=
  SemanticVersion.parse <| String.ofList <|
    match Text.trim text.toList with
    | 'v' :: cs => cs
    | cs => cs

/-- The dialect of the backend whose build information is at `url`, by what the exchange with that
URL came to. -/
def detectDialect (least : SemanticVersion) (url : Url) (outcome : Outcome) :
    Except ClientError Dialect :=
  let unusable {α : Type} (reason : String) : Except ClientError α :=
    .error (.dataSource url.write reason)
  match outcome with
  | .error failure => unusable (ClientError.request failure.message).message
  | .ok response =>
    if response.status = 404 then .ok .legacy
    else if !isSuccess response.status then unusable (unexpectedStatus response.status)
    else match response.body with
      | .error failure => unusable failure.message
      | .ok body =>
        match (Json.parse? body).bind reportedVersion? with
        | none => unusable ("malformed build info: " ++ response.complaint)
        | some version =>
          match parseVersion version with
          | .error e => unusable e.message
          | .ok version => .ok (Dialect.ofVersion version least)

end PromqlServer.Prometheus
