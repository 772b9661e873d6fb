import PromqlServer.Url.Edit

/-!
The base URL of a data source, and the URLs of its API: `endpoint` joins an API path to the path of
the base, and `root_endpoint` puts it in the place of that path.
-/

namespace PromqlServer.Prometheus

/-- Why an operation on a backend failed. -/
inductive ClientError where
  | notConfigured
  /-- The backend at `url` cannot be used. -/
  | dataSource (url reason : String)
  | request (reason : String)
  | invalidResponse (reason : String)
  | api (type error : String)
  deriving DecidableEq, Repr

def ClientError.message : ClientError → String
  | .notConfigured => "Prometheus is not configured"
  | .dataSource url reason => "Failed to use data source " ++ url ++ ": " ++ reason
  | .request reason => "HTTP request failed: " ++ reason
  | .invalidResponse reason => "Invalid response: " ++ reason
  | .api type error => "Prometheus API error (" ++ type ++ "): " ++ error

/-- The URL of a backend. -/
structure Base where
  url : Url
  deriving DecidableEq, Repr

namespace Base

def parse (text : String) : Except ClientError Base :=
  match Url.parse text with
  | .error e => .error (.dataSource text e.message)
  | .ok url =>
    if url.cannotBeBase then .error (.dataSource text "URL cannot be used as a base")
    else .ok ⟨url⟩

/-- The path of the base without slashes at its end, then `path` without slashes at its start. -/
def joinedPath (basePath path : List Char) : List Char :=
  (basePath.reverse.dropWhile (· = '/')).reverse ++ '/' :: path.dropWhile (· = '/')

/-- The URL of an API path below the path of the base. -/
def endpoint (b : Base) (path : String) : Url :=
  (b.url.withPath (String.ofList (joinedPath b.url.path path.toList))).withoutQuery

/-- The URL of a path at the root of the server. -/
def rootEndpoint (b : Base) (path : String) : Url :=
  (b.url.withPath path).withoutQuery

end Base

end PromqlServer.Prometheus
