import PromqlServer.CommandLine.Arguments
import PromqlServer.Log.Filter

/-!
The start of the program: it reads its arguments, opens its log, and serves. Each of these can end
it.
-/

namespace PromqlServer

namespace CommandLine

open PromqlServer.Log

/-- Why the log file cannot be used. -/
inductive LogFault where
  | noDirectory (reason : String)
  | noFile (path reason : String)
  deriving DecidableEq, Repr

/-- What the program finds where it is started. -/
structure Environment where
  /-- The log filter of the environment. It wins over that of the arguments, unless it is wrong. -/
  logFilter : Option String := none
  logFault : Option LogFault := none
  /-- Why an address cannot be listened on. -/
  addressFault : String → Option String := fun _ => none

/-- How a run ends that does not serve. -/
structure Exit where
  code : Nat
  output : String := ""
  errors : String := ""
  /-- The log file was there before the end. -/
  logOpened : Bool := false
  deriving DecidableEq, Repr

structure Service where
  settings : Settings
  filter : Filter
  deriving DecidableEq, Repr

/-- A fatal error, with the error behind it. -/
def fatal (message : String) (cause : Option String) : String :=
  "Error: " ++ message ++ "\n" ++ match cause with
    | some cause => "\nCaused by:\n    " ++ cause ++ "\n"
    | none => ""

def quotePath (path : String) : String := "\"" ++ path ++ "\""

def LogFault.message : LogFault → String
  | .noDirectory reason => "Failed to create data directory: " ++ reason ++ "\n" ++ fatal reason none
  | .noFile path reason =>
    "Failed to open log file " ++ quotePath path ++ ": " ++ reason ++ "\n" ++ fatal reason none

/-- The filter of the log. -/
def chooseFilter (logFilter : Option String) (level : String) : Except FilterError Filter :=
  match logFilter.map Filter.parse with
  | some (.ok filter) => .ok filter
  | _ => Filter.parse level

/-- What a start comes to: service, or an end. -/
def launch (env : Environment) (arguments : List String) : Except Exit Service :=
  match parseArguments arguments with
  | .error .help => .error { code := 0, output := helpText }
  | .error .version => .error { code := 0, output := versionText }
  | .error (.wrong e) => .error { code := 2, errors := e.message }
  | .ok settings =>
    match env.logFault with
    | some fault => .error { code := 1, errors := fault.message }
    | none =>
      match chooseFilter env.logFilter settings.logLevel with
      | .error e => .error { code := 1, errors := fatal e.message e.cause, logOpened := true }
      | .ok filter =>
        let service : Service := { settings, filter }
        match settings.transport with
        | .stdio => .ok service
        | .tcp address =>
          match env.addressFault address with
          | none => .ok service
          | some reason => .error { code := 1, errors := fatal reason none, logOpened := true }

/-- The record of the start. -/
def startRecord : Record := ⟨.info, "promql_langserver::lsp::server"⟩

/-- The records of a switch that failed. -/
def failedSwitchRecords : List Record :=
  [⟨.warn, "promql_langserver::prometheus::client"⟩, ⟨.warn, "promql_langserver::lsp::backend"⟩]

end CommandLine

/-- A message as a line of the trace, if messages are traced. -/
def Trace.line? : Trace → String → Option String
  | .off, _ => none
  | .text, message => some ("TRACE " ++ message)
  | .json, message => some ((Log.Record.mk .trace "promql_langserver::trace").line message)

end PromqlServer
