import PromqlServer.CommandLine.Parameter
import PromqlServer.CommandLine.Similarity

/-!
The arguments of the program. A parameter is written with two hyphens, and its value after an equals
sign or as the next argument. Its value is judged when the next parameter or the end is reached.
-/

namespace PromqlServer.CommandLine

/-- What is wrong with the arguments. -/
inductive ArgumentError where
  /-- There is no such argument; `shown` are those that the usage line shows. -/
  | unexpected (argument : String) (similar : Option String) (shown : List String)
  | unneededValue (flag value : String) (shown : List String)
  | missingValue (parameter : Parameter)
  | repeated (parameter : Parameter)
  | unfit (parameter : Parameter) (value : String) (error : ValueError)
  deriving DecidableEq, Repr

def usageLine (shown : List String) : String :=
  "Usage: " ++ Settings.programName ++ " " ++
    (if shown.isEmpty then "[OPTIONS]" else " ".intercalate shown)

def choicesLine (p : Parameter) : String :=
  if p.choices.isEmpty then "" else "  [possible values: " ++ ", ".intercalate p.choices ++ "]\n"

def tip (kind : String) (similar : Option String) : String :=
  match similar with
  | some word => "  tip: a similar " ++ kind ++ " exists: '" ++ word ++ "'\n\n"
  | none => ""

def missingText (p : Parameter) : String :=
  "a value is required for '" ++ p.usage ++ "' but none was supplied\n" ++ choicesLine p ++ "\n"

def ArgumentError.text : ArgumentError → String
  | .unexpected argument similar shown =>
    "unexpected argument '" ++ argument ++ "' found\n\n" ++ tip "argument" similar ++
      usageLine shown ++ "\n\n"
  | .unneededValue flag value shown =>
    "unexpected value '" ++ value ++ "' for '" ++ flag ++ "' found; no more were expected\n\n" ++
      usageLine shown ++ "\n\n"
  | .missingValue p => missingText p
  | .repeated p =>
    "the argument '" ++ p.usage ++ "' cannot be used multiple times\n\n" ++ usageLine [] ++ "\n\n"
  | .unfit p value (.wrong reason) =>
    "invalid value '" ++ value ++ "' for '" ++ p.usage ++ "': " ++ reason ++ "\n\n"
  | .unfit p value .noChoice =>
    if value.isEmpty then missingText p
    else
      "invalid value '" ++ value ++ "' for '" ++ p.usage ++ "'\n" ++ choicesLine p ++ "\n" ++
        tip "value" (mostSimilar? value p.choices)

def ArgumentError.message (e : ArgumentError) : String :=
  "error: " ++ e.text ++ "For more information, try '--help'.\n"

def versionText : String := Settings.programName ++ " " ++ Settings.programVersion ++ "\n"

def helpEntry (heading about : String) : String :=
  heading ++ "\n          " ++ about ++ "\n"

def helpText : String :=
  "Session and document engine for a PromQL Language Server\n\n" ++ usageLine [] ++
    "\n\nOptions:\n" ++
    String.join (Parameter.all.map fun p => helpEntry ("      " ++ p.usage) p.about) ++
    helpEntry "  -h, --help" "Print help" ++ helpEntry "  -V, --version" "Print version"

/-- Why the reading of the arguments stops before their end. -/
inductive Stop where
  | help
  | version
  | wrong (error : ArgumentError)
  deriving DecidableEq, Repr

/-- How far the reading of the arguments is. -/
structure Progress where
  settings : Settings := {}
  /-- The parameters that came, in their order. -/
  used : List Parameter := []
  /-- A parameter that is not judged yet, and its value if it came. -/
  pending : Option (Parameter × Option String) := none
  /-- After two hyphens alone no parameter comes any more. -/
  trailing : Bool := false
  deriving DecidableEq, Repr

namespace Progress

/-- Judges the pending parameter. What was used is kept also when the value does not fit. -/
def resolve (s : Progress) : Progress × Option ArgumentError :=
  match s.pending with
  | none => (s, none)
  | some (p, none) => ({ s with pending := none }, some (.missingValue p))
  | some (p, some value) =>
    let s := { s with pending := none }
    if p ∈ s.used then ({ s with used := s.used.filter (· ≠ p) }, some (.repeated p))
    else
      let s := { s with used := s.used ++ [p] }
      match p.set value s.settings with
      | .ok settings => ({ s with settings }, none)
      | .error e => (s, some (.unfit p value e))

/-- Goes on if the pending parameter is in order. -/
def settled (s : Progress) : Except Stop Progress :=
  match s.resolve with
  | (s, none) => .ok s
  | (_, some e) => .error (.wrong e)

def flagNames : List String := ["help", "version"]

/-- How the parameter or flag of a name is shown. -/
def usageOf (name : String) : String :=
  match Parameter.all.find? fun p => p.name = name with
  | some p => p.usage
  | none => "--" ++ name

/-- A name that is neither a parameter nor a flag. The one that is meant is shown as used. -/
def unknownName (s : Progress) (name : String) : Stop :=
  let used := s.resolve.1.used.map Parameter.usage
  let similar := mostSimilar? name (Parameter.all.map Parameter.name ++ flagNames)
  let meant := (similar.toList.map usageOf).filter fun text => !used.contains text
  .wrong (.unexpected ("--" ++ name) (similar.map ("--" ++ ·)) (used ++ meant))

def flag (s : Progress) (name : String) (stop : Stop) : Option String → Except Stop Progress
  | none => do
    let _ ← s.settled
    .error stop
  | some value => .error (.wrong (.unneededValue ("--" ++ name) value (s.used.map Parameter.usage)))

/-- An argument with two hyphens before its name. -/
def long (s : Progress) (name : String) (value : Option String) : Except Stop Progress :=
  match Parameter.all.find? fun p => p.name = name with
  | some p => do
    let s ← s.settled
    let s := { s with pending := some (p, value) }
    if value.isSome then s.settled else return s
  | none =>
    if name = "help" then s.flag name .help value
    else if name = "version" then s.flag name .version value
    else .error (s.unknownName name)

/-- An argument with one hyphen before a letter. -/
def short (s : Progress) (letter : Char) : Except Stop Progress :=
  if letter = 'h' then s.flag "help" .help none
  else if letter = 'V' then s.flag "version" .version none
  else .error (.wrong (.unexpected ("-" ++ letter.toString) none []))

/-- An argument without hyphens: the value that is waited for, or nothing that there is. -/
def plain (s : Progress) (argument : String) : Except Stop Progress :=
  match s.pending with
  | some (p, none) =>
    if s.trailing then .error (.wrong (.unexpected argument none []))
    else .ok { s with pending := some (p, some argument) }
  | _ => .error (.wrong (.unexpected argument none []))

def read (s : Progress) (argument : String) : Except Stop Progress :=
  if s.trailing then s.plain argument
  else match argument.toList with
    | ['-', '-'] => .ok { s with trailing := true }
    | '-' :: '-' :: cs =>
      let name := cs.takeWhile (· ≠ '=')
      let value := match cs.drop name.length with
        | _ :: value => some (String.ofList value)
        | [] => none
      s.long (String.ofList name) value
    | '-' :: c :: _ => s.short c
    | _ => s.plain argument

end Progress

/-- The settings that the arguments ask for. -/
def parseArguments (arguments : List String) : Except Stop Settings := do
  let s ← arguments.foldlM Progress.read {}
  return (← s.settled).settings

end PromqlServer.CommandLine
