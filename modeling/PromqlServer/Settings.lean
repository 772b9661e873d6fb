import PromqlServer.Prometheus.Dialect

/-!
Settings of the server, and where it keeps its data.
-/

namespace PromqlServer

/-- How clients reach the server: one over standard input and output, or any number over a
socket. -/
inductive Transport where
  | stdio
  | tcp (address : String)
  deriving DecidableEq, Repr

/-- Whether the messages of a session are traced, and how. -/
inductive Trace where
  | off
  | text
  | json
  deriving DecidableEq, Repr

structure Settings where
  transport : Transport := .stdio
  /-- The backend to start with; empty for none. -/
  prometheusUrl : String := ""
  trace : Trace := .off
  logLevel : String := "info"
  client : Prometheus.Settings := {}
  deriving DecidableEq, Repr

namespace Settings

def programName : String := "promql-langserver"

def programVersion : String := "0.1.0"

def logFileName : String := "promql-langserver.log"

/-- A path below another one, unless it starts at the root. -/
def joinPath (directory part : String) : String :=
  if directory.isEmpty || part.startsWith "/" then part
  else if directory.endsWith "/" then directory ++ part
  else directory ++ "/" ++ part

/-- The directory of the server's data: below the data directory of the environment if it names
one, else below the home directory, else here. -/
def dataDirectory (dataHome home : Option String) : String :=
  let parent := match dataHome.filter (· ≠ ""), home with
    | some directory, _ => directory
    | none, some home => joinPath home ".local/share"
    | none, none => "."
  joinPath parent programName

def logPath (dataHome home : Option String) : String :=
  joinPath (dataDirectory dataHome home) logFileName

end Settings

end PromqlServer
