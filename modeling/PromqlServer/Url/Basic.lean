/-!
Absolute URLs in their normal form, component by component, and how they are written.
-/

namespace PromqlServer

namespace Url

inductive ParseError where
  | relativeWithoutBase
  | emptyHost
  | invalidPort
  | invalidIpv4
  | invalidIpv6
  | invalidDomain
  | invalidHostCharacter
  deriving DecidableEq, Repr

def ParseError.message : ParseError → String
  | .relativeWithoutBase => "relative URL without a base"
  | .emptyHost => "empty host"
  | .invalidPort => "invalid port number"
  | .invalidIpv4 => "invalid IPv4 address"
  | .invalidIpv6 => "invalid IPv6 address"
  | .invalidDomain => "invalid international domain name"
  | .invalidHostCharacter => "invalid domain character"

/-- What stands after the two slashes. User name and password are percent-encoded, the host is in
its normal form, and the port is not the scheme's own. -/
structure Authority where
  username : String := ""
  password : Option String := none
  host : String
  port : Option Nat := none
  deriving DecidableEq, Repr

/-- Special schemes have a host, a slash at the start of the path, and backslashes that count as
slashes. -/
inductive Kind where
  | file
  | special
  | other
  deriving DecidableEq, Repr

def Kind.ofScheme (scheme : String) : Kind :=
  if scheme = "file" then .file
  else if ["http", "https", "ws", "wss", "ftp"].contains scheme then .special
  else .other

def Kind.isSpecial (k : Kind) : Bool := k ≠ .other

def defaultPort (scheme : String) : Option Nat :=
  if scheme = "http" || scheme = "ws" then some 80
  else if scheme = "https" || scheme = "wss" then some 443
  else if scheme = "ftp" then some 21
  else none

end Url

/-- A URL. `path` is percent-encoded; one that is `rigid` has no segments and cannot be a base. -/
structure Url where
  scheme : String
  authority : Option Url.Authority
  path : List Char
  rigid : Bool := false
  query : Option String := none
  fragment : Option String := none
  deriving DecidableEq, Repr

namespace Url

def kind (u : Url) : Kind := Kind.ofScheme u.scheme

def Authority.write (a : Authority) : String :=
  let user := match a.password with
    | some p => a.username ++ ":" ++ p ++ "@"
    | none => if a.username.isEmpty then "" else a.username ++ "@"
  let port := match a.port with
    | some n => ":" ++ toString n
    | none => ""
  user ++ a.host ++ port

/-- The URL as text. Without an authority a path that starts with two slashes is kept apart from
the colon by a dot segment. -/
def write (u : Url) : String :=
  let authority := match u.authority with
    | some a => "//" ++ a.write
    | none => if !u.rigid && ['/', '/'].isPrefixOf u.path then "/." else ""
  let query := match u.query with
    | some q => "?" ++ q
    | none => ""
  let fragment := match u.fragment with
    | some f => "#" ++ f
    | none => ""
  u.scheme ++ ":" ++ authority ++ String.ofList u.path ++ query ++ fragment

end Url

end PromqlServer
