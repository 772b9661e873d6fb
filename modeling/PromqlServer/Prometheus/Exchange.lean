import PromqlServer.Url.Edit

/-!
Exchanges of the API client with a backend: a request is answered with a status and a body, or
fails. Redirects are followed before an exchange counts as answered.
-/

namespace PromqlServer.Prometheus

/-- Why an exchange failed, and for which URL. -/
inductive Failure where
  | unsupported (url : Url)
  | sending (url : Url)
  | redirecting (url : Url)
  | decoding (url : Url)
  deriving DecidableEq, Repr

def Failure.message : Failure → String
  | .unsupported url => "builder error for url (" ++ url.write ++ ")"
  | .sending url => "error sending request for url (" ++ url.write ++ ")"
  | .redirecting url => "error following redirect for url (" ++ url.write ++ ")"
  | .decoding url => "error decoding response body for url (" ++ url.write ++ ")"

structure Response where
  status : Nat
  /-- The body, unless it could not be read to its end. -/
  body : Except Failure String
  /-- What the decoder of JSON says about the body, if it is no JSON or has another form than the
  one that is asked for. -/
  complaint : String

/-- How an exchange ends. -/
abbrev Outcome := Except Failure Response

/-- A request for a resource. Credentials of the URL are not part of it but go into a header. -/
structure Request where
  url : Url
  credentials : Option (String × Option String)
  deriving DecidableEq, Repr

def Request.ofUrl (url : Url) : Request := ⟨url.withoutCredentials, url.credentials⟩

/-- Whatever answers requests. -/
abbrev Network := Request → Outcome

/-- Characters that no request line can have. -/
def isUnsendable (c : Char) : Bool :=
  c = '"' || c = '{' || c = '}' || c.toNat = 0x60

/-- A request is sent to web servers only. -/
def isSendable (url : Url) : Bool :=
  (url.scheme = "http" || url.scheme = "https") &&
    !(url.authority.any fun a => a.host.toList.any isUnsendable)

def exchange (network : Network) (url : Url) : Outcome :=
  let request := Request.ofUrl url
  if isSendable request.url then network request else .error (.unsupported request.url)

/-- A network that no request gets through. -/
def Network.unreachable : Network := fun request => .error (.sending request.url)

/-- The usual words for a status. -/
def reasonPhrase (status : Nat) : String :=
  (table.find? fun entry => entry.1 = status).elim "<unknown status code>" Prod.snd
where
  table : List (Nat × String) :=
    [(100, "Continue"), (101, "Switching Protocols"), (102, "Processing"), (103, "Early Hints"),
      (200, "OK"), (201, "Created"), (202, "Accepted"), (203, "Non Authoritative Information"),
      (204, "No Content"), (205, "Reset Content"), (206, "Partial Content"),
      (207, "Multi-Status"), (208, "Already Reported"), (226, "IM Used"),
      (300, "Multiple Choices"), (301, "Moved Permanently"), (302, "Found"), (303, "See Other"),
      (304, "Not Modified"), (305, "Use Proxy"), (307, "Temporary Redirect"),
      (308, "Permanent Redirect"),
      (400, "Bad Request"), (401, "Unauthorized"), (402, "Payment Required"), (403, "Forbidden"),
      (404, "Not Found"), (405, "Method Not Allowed"), (406, "Not Acceptable"),
      (407, "Proxy Authentication Required"), (408, "Request Timeout"), (409, "Conflict"),
      (410, "Gone"), (411, "Length Required"), (412, "Precondition Failed"),
      (413, "Payload Too Large"), (414, "URI Too Long"), (415, "Unsupported Media Type"),
      (416, "Range Not Satisfiable"), (417, "Expectation Failed"), (418, "I'm a teapot"),
      (421, "Misdirected Request"), (422, "Unprocessable Entity"), (423, "Locked"),
      (424, "Failed Dependency"), (425, "Too Early"), (426, "Upgrade Required"),
      (428, "Precondition Required"), (429, "Too Many Requests"),
      (431, "Request Header Fields Too Large"), (451, "Unavailable For Legal Reasons"),
      (500, "Internal Server Error"), (501, "Not Implemented"), (502, "Bad Gateway"),
      (503, "Service Unavailable"), (504, "Gateway Timeout"), (505, "HTTP Version Not Supported"),
      (506, "Variant Also Negotiates"), (507, "Insufficient Storage"), (508, "Loop Detected"),
      (510, "Not Extended"), (511, "Network Authentication Required")]

def unexpectedStatus (status : Nat) : String :=
  "Unexpected status: " ++ toString status ++ " " ++ reasonPhrase status

def isSuccess (status : Nat) : Bool := 200 ≤ status && status < 300

end PromqlServer.Prometheus
