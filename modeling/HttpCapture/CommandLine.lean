import HttpCapture.Capture.Trace
import HttpCapture.Json.Printer
import HttpCapture.Report.Encoding
import HttpCapture.Settings.File

/-! The command line: what the arguments ask for, and what running it reads, prints and writes. -/

namespace HttpCapture

/-- The files that a run uses. -/
structure Arguments where
  trace : String
  config : Option String
  report : Option String
  deriving DecidableEq, Repr

inductive Request
  | run (args : Arguments)
  | help
  | misuse
  deriving DecidableEq, Repr

namespace Request

def optionNames : List String := ["trace", "config", "report"]

/-- An argument that names an option, and the value after an equals sign if it has one. -/
def option? (arg : String) : Option (String × Option String) :=
  (after? "--".toList arg.toList).bind fun s =>
    let name := String.ofList (s.takeWhile (· != '='))
    if optionNames.contains name then
      some (name, (cutAt '=' s).map fun (_, v) => String.ofList v)
    else none

/-- A dash alone is a value like any other; what starts with one is not. -/
def isValue (arg : String) : Bool := arg.toList.head? != some '-' || arg == "-"

/-- A call needs a trace. -/
def ofOptions (given : List (String × String)) : Request :=
  match given.lookup "trace" with
  | none => .misuse
  | some trace => .run ⟨trace, given.lookup "config", given.lookup "report"⟩

/-- Read the arguments from left to right, up to the first that asks for help or cannot be
understood. Every option stands at most once, and nothing follows a double dash. -/
def scan (given : List (String × String)) : List String → Request
  | [] => ofOptions given
  | arg :: rest =>
    if arg = "--" then if rest.isEmpty then ofOptions given else .misuse
    else if arg = "--help" ∨ "-h".toList <+: arg.toList then .help
    else
      match option? arg, rest with
      | none, _ => .misuse
      | some (name, some value), rest =>
        if (given.lookup name).isSome then .misuse else scan ((name, value) :: given) rest
      | some (_, none), [] => .misuse
      | some (name, none), value :: rest =>
        if (given.lookup name).isSome || !isValue value then .misuse
        else scan ((name, value) :: given) rest
termination_by args => args.length

def ofArguments (args : List String) : Request := scan [] args

end Request

def usage : String :=
  "Usage: http-capture [OPTIONS] --trace <TRACE>\n\n" ++
  "Options:\n" ++
  "      --trace <TRACE>    Packet trace to analyze (JSONL, one packet per line)\n" ++
  "      --config <CONFIG>  Optional config TOML path\n" ++
  "      --report <REPORT>  Write the JSON report here instead of stdout\n" ++
  "  -h, --help             Print help\n"

/-- Exit codes of a run that fails and of a call that cannot be understood. -/
def failureCode : UInt32 := 1

def misuseCode : UInt32 := 2

/-- What stands at a path. -/
inductive FileState
  | absent
  | unreadable
  | holds (content : Bytes)
  deriving DecidableEq, Repr

def FileState.content? : FileState → Option Bytes
  | .holds content => some content
  | _ => none

/-- What is left to do when all input has been read. -/
inductive Outcome
  | print (text : String)
  | write (path text : String)
  | exit (code : UInt32)
  deriving DecidableEq, Repr

/-- Settings that cannot be loaded give way to the standard ones. -/
def Arguments.settings (args : Arguments) (file : String → FileState) : Settings :=
  match args.config with
  | none => .standard
  | some path => (Settings.load (file path).content?).toOption.getD .standard

/-- A trace that is absent holds no packets; one that cannot be read is a failure. -/
def FileState.packets? : FileState → Option (List Packet)
  | .unreadable => none
  | f => (loadTrace f.content?).toOption

/-- Analyse the trace; the report goes where the arguments say, else where the settings say, else to
the standard output. -/
def Arguments.run (args : Arguments) (file : String → FileState) : Outcome :=
  match (file args.trace).packets? with
  | none => .exit failureCode
  | some packets =>
    let settings := args.settings file
    let text := (analyze settings packets).summary.pretty
    match args.report <|> settings.report with
    | some path => .write path text
    | none => .print (text ++ "\n")

/-- What a call comes to, given what stands at each path. -/
def Request.outcome (r : Request) (file : String → FileState) : Outcome :=
  match r with
  | .run args => args.run file
  | .help => .print usage
  | .misuse => .exit misuseCode

end HttpCapture
