import PromqlServer.SemanticVersion
import PromqlServer.Settings
import PromqlServer.Url.Address

/-!
The parameters of the program: their names, the form of their values, and what they set.
-/

namespace PromqlServer.CommandLine

open PromqlServer.Text (splitAt)

inductive Parameter where
  | tcp
  | prometheusUrl
  | rpcTrace
  | logLevel
  | leastVersion
  | requestTimeout
  deriving DecidableEq, Repr

namespace Parameter

def all : List Parameter :=
  [.tcp, .prometheusUrl, .rpcTrace, .logLevel, .leastVersion, .requestTimeout]

def name : Parameter → String
  | .tcp => "tcp"
  | .prometheusUrl => "prometheus-url"
  | .rpcTrace => "rpc-trace"
  | .logLevel => "log-level"
  | .leastVersion => "min-prometheus-version"
  | .requestTimeout => "request-timeout"

def valueName : Parameter → String
  | .tcp => "ADDR"
  | .prometheusUrl => "URL"
  | .rpcTrace => "RPC_TRACE"
  | .logLevel => "LOG_LEVEL"
  | .leastVersion => "VERSION"
  | .requestTimeout => "SECONDS"

def about : Parameter → String
  | .tcp => "Listen for TCP connections on this address instead of using stdio"
  | .prometheusUrl => "Prometheus base URL used for completion [default: \"\"]"
  | .rpcTrace => "Trace JSON-RPC traffic to stderr [default: off] [possible values: off, text, json]"
  | .logLevel => "Log level or filter directives, overridden by RUST_LOG [default: info]"
  | .leastVersion => "Oldest Prometheus version served through the metadata API [default: 2.15.0]"
  | .requestTimeout => "Timeout for Prometheus requests, in seconds [default: 30]"

/-- The parameter with its value, as it is written in messages. -/
def usage (p : Parameter) : String := "--" ++ p.name ++ " <" ++ p.valueName ++ ">"

/-- The values to choose from, if there are only some. -/
def choices : Parameter → List String
  | .rpcTrace => ["off", "text", "json"]
  | _ => []

end Parameter

/-- Why a value does not fit. -/
inductive ValueError where
  | noChoice
  | wrong (reason : String)
  deriving DecidableEq, Repr

/-- A byte of an address, without leading zeros. -/
def isAddressByte (cs : List Char) : Bool :=
  !cs.isEmpty && cs.length ≤ 3 && cs.all Char.isDigit && !(cs.length > 1 && cs.head? = some '0') &&
    (Url.readRadix 10 cs).any (· < 256)

def isPort (cs : List Char) : Bool :=
  !cs.isEmpty && cs.all Char.isDigit && (Url.readRadix 10 cs).any (· < 65536)

/-- The number of the link that an address is on. -/
def isZone (cs : List Char) : Bool :=
  !cs.isEmpty && cs.all Char.isDigit && (Url.readRadix 10 cs).any (· < 0x100000000)

/-- An address in brackets, with or without a zone. -/
def isBracketed (cs : List Char) : Bool :=
  match splitAt '%' cs with
  | [address] => (Url.readIpv6 address).isSome
  | [address, zone] => (Url.readIpv6 address).isSome && isZone zone
  | _ => false

/-- A numeric address and a port. -/
def isSocketAddress (text : String) : Bool :=
  match text.toList with
  | '[' :: cs =>
    match cs.dropWhile (· ≠ ']') with
    | ']' :: ':' :: port => isBracketed (cs.takeWhile (· ≠ ']')) && isPort port
    | _ => false
  | cs =>
    match splitAt ':' cs with
    | [host, port] =>
      let bytes := splitAt '.' host
      bytes.length = 4 && bytes.all isAddressByte && isPort port
    | _ => false

/-- A whole number of 64 bits without sign; a plus sign may stand before it. -/
def readSeconds (text : String) : Except ValueError Nat :=
  let invalid : Except ValueError Nat := .error (.wrong "invalid digit found in string")
  let digits := match text.toList with
    | '+' :: c :: cs => c :: cs
    | cs => cs
  if digits.isEmpty then .error (.wrong "cannot parse integer from empty string")
  else if !digits.all Char.isDigit then invalid
  else match Url.readRadix 10 digits with
    | none => invalid
    | some n =>
      if n < 0x10000000000000000 then .ok n else .error (.wrong "number too large to fit in target type")

def readTrace : String → Except ValueError Trace
  | "off" => .ok .off
  | "text" => .ok .text
  | "json" => .ok .json
  | _ => .error .noChoice

/-- The settings with a parameter set. -/
def Parameter.set (p : Parameter) (value : String) (s : Settings) : Except ValueError Settings :=
  match p with
  | .tcp =>
    if isSocketAddress value then .ok { s with transport := .tcp value }
    else .error (.wrong "invalid socket address syntax")
  | .prometheusUrl => .ok { s with prometheusUrl := value }
  | .rpcTrace => (readTrace value).map fun trace => { s with trace }
  | .logLevel => .ok { s with logLevel := value }
  | .leastVersion =>
    match SemanticVersion.parse value with
    | .ok v => .ok { s with client := { s.client with leastVersion := v } }
    | .error e => .error (.wrong e.message)
  | .requestTimeout =>
    (readSeconds value).map fun n => { s with client := { s.client with timeout := 1000 * n } }

end PromqlServer.CommandLine
