import PromqlServer.CommandLine.Program
import PromqlServer.Connection.Listener

/-!
The program. It serves one client over standard input and output. It has no network of its own, so
no backend can be reached and no address can be listened on.
-/

open PromqlServer

/-- Opens the log file for records at its end. -/
def openLog (dataHome home : Option String) :
    IO (Except CommandLine.LogFault IO.FS.Handle) := do
  let path := Settings.logPath dataHome home
  match ← (IO.FS.createDirAll (Settings.dataDirectory dataHome home)).toBaseIO with
  | .error e => return .error (.noDirectory (toString e))
  | .ok _ =>
    match ← (IO.FS.Handle.mk path IO.FS.Mode.append).toBaseIO with
    | .error e => return .error (.noFile path (toString e))
    | .ok handle => return .ok handle

/-- Writes a line to standard error, if messages are traced. -/
def traceLine (trace : Trace) (text : String) : IO Unit :=
  match trace.line? text with
  | some line => IO.eprintln line
  | none => pure ()

def writeMessages (trace : Trace) (output : IO.FS.Stream) (messages : List Rpc.Outgoing) :
    IO Unit := do
  for m in messages do
    let text := m.toJson.write
    traceLine trace ("-> " ++ text)
    output.write ⟨(Connection.frame text).toArray⟩
  output.flush

/-- Reads, handles and answers until the connection is closed. -/
partial def serve (trace : Trace) (input output : IO.FS.Stream) (peer : Connection.Peer) :
    IO Unit := do
  let bytes ← input.read 65536
  traceLine trace ("<- " ++ (String.fromUTF8? bytes).getD "")
  let peer := if bytes.isEmpty then peer.endInput else peer.receive bytes.toList
  let peer := (peer.handleMessages {}).settle {}
  let (messages, peer) := peer.takeAll
  writeMessages trace output messages
  if !peer.closed then serve trace input output peer

def finishWith (e : CommandLine.Exit) : IO UInt32 := do
  IO.print e.output
  IO.eprint e.errors
  return UInt32.ofNat e.code

def main (args : List String) : IO UInt32 := do
  match CommandLine.launch {} args with
  | .error e => if !e.logOpened then return ← finishWith e
  | .ok _ => pure ()
  let log ← openLog (← IO.getEnv "XDG_DATA_HOME") (← IO.getEnv "HOME")
  let fault := match log with
    | .error fault => some fault
    | .ok _ => none
  let env : CommandLine.Environment :=
    { logFilter := ← IO.getEnv "RUST_LOG"
      logFault := fault
      addressFault := fun _ => some "Operation not supported (os error 95)" }
  match CommandLine.launch env args, log with
  | .ok service, .ok handle =>
    if service.filter.enables CommandLine.startRecord then
      handle.putStrLn (CommandLine.startRecord.line "Starting promql-langserver on stdio")
    serve service.settings.trace (← IO.getStdin) (← IO.getStdout) (Connection.newPeer service.settings)
    return 0
  | .error e, _ => finishWith e
  | .ok _, .error fault => finishWith { code := 1, errors := fault.message }
