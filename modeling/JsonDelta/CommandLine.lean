import JsonDelta.IgnoreList
import JsonDelta.Run
/-!
The command line: arguments and environment variables in, exit status and output out.
-/

namespace JsonDelta.CommandLine

def programName : String := "diffjson"

def ignoreVariable : String := "DIFFJSON_IGNORE"

def logLevelVariable : String := "DIFFJSON_LOG_LEVEL"

def noColorVariable : String := "NO_COLOR"

def usage : String := String.join <| [
  "Usage: " ++ programName ++ " [options] <path1> <path2>",
  "Compare two JSON files or two directories of JSON files.",
  "Options:",
  "  -i, --ignore <accessor>     Field to ignore, e.g. \"['metadata']['timestamp']\".",
  "                              Repeatable; also read whitespace-separated from $" ++
    ignoreVariable,
  "  -t, --truncate_items <n>    Maximum number of items to output, 0 for all (default 100)",
  "  -v, --verbose               Print the difference report of each differing pair",
  "  -r, --recursive             Pair documents in subdirectories too",
  "      --flat                  One line per difference instead of a nested report",
  "      --moves                 Report array items that only changed position",
  "      --color <auto|always|never>",
  "      --log-level <level>     trace, debug, info, warn, error or off (default warn,",
  "                              or $" ++ logLevelVariable ++ ")",
  "  -h, --help                  Show this help"].map (· ++ "\n")

/-! Options. -/

inductive Flag where
  | verbose | recursive | flat | moves
  deriving DecidableEq

inductive Parameter where
  | ignore | limit | color | logLevel
  deriving DecidableEq

/-- What an argument is, by its text before any equals sign. -/
inductive Role where
  | help
  | flag (f : Flag)
  | parameter (p : Parameter)
  | unknown
  | positional
  deriving DecidableEq

/-- Texts that start with a dash are options, except the dash alone. -/
def role (name : String) : Role :=
  match name with
  | "-h" | "--help" => .help
  | "-i" | "--ignore" => .parameter .ignore
  | "-t" | "--truncate_items" | "--truncate-items" => .parameter .limit
  | "--color" => .parameter .color
  | "--log-level" => .parameter .logLevel
  | "-v" | "--verbose" => .flag .verbose
  | "-r" | "--recursive" => .flag .recursive
  | "--flat" => .flag .flat
  | "--moves" => .flag .moves
  | _ =>
    match name.toList with
    | '-' :: _ :: _ => .unknown
    | _ => .positional

/-- Splits an argument that starts with two dashes at its first equals sign. -/
def splitValue (argument : String) : String × Option String :=
  match argument.toList with
  | '-' :: '-' :: _ =>
    match argument.toList.span (· ≠ '=') with
    | (name, _ :: value) => (String.ofList name, some (String.ofList value))
    | (_, []) => (argument, none)
  | _ => (argument, none)

/-! Reading the arguments. -/

structure Settings extends RunOptions where
  logLevel : LogLevel := .warning
  positional : List String := []

/-- Why the arguments start no run. -/
inductive Stop where
  | help
  | usage
  | badLimit
  | unknownOption (name : String)
  deriving DecidableEq

namespace Stop

def exitStatus : Stop → Nat
  | help => 0
  | _ => 2

def message : Stop → String
  | help => CommandLine.usage
  | usage => CommandLine.usage
  | badLimit => "invalid --truncate_items value\n" ++ CommandLine.usage
  | unknownOption name => "unknown option: " ++ name ++ "\n" ++ CommandLine.usage

end Stop

def limit? (text : String) : Option Nat :=
  (Decimal.readNat? text.toList).filter (· < UInt64.size)

namespace Settings

def setFlag (settings : Settings) : Flag → Settings
  | .verbose => { settings with verbose := true }
  | .recursive => { settings with recursive := true }
  | .flat => { settings with layout := .flat }
  | .moves => { settings with reportMoves := true }

/-- Gives a parameter its value; a parameter that ended the arguments has none. -/
def setParameter (settings : Settings) (parameter : Parameter) (value : Option String) :
    Except Stop Settings :=
  match parameter, value with
  | .ignore, some field => .ok { settings with ignore := settings.ignore ++ [field] }
  | .limit, some text =>
    match limit? text with
    | some limit => .ok { settings with limit }
    | none => .error .badLimit
  | .limit, none => .error .badLimit
  | .color, some text =>
    match ColorMode.ofName? text with
    | some colorMode => .ok { settings with colorMode }
    | none => .error .usage
  | .logLevel, some text =>
    match LogLevel.ofName? text with
    | some logLevel => .ok { settings with logLevel }
    | none => .error .usage
  | _, none => .error .usage

/-- The value of a parameter stands after its equals sign or is the whole next argument, whatever
that looks like. A value given to a flag is dropped. -/
def read (settings : Settings) : List String → Except Stop Settings
  | [] => .ok settings
  | argument :: rest =>
    let (name, inlineValue) := splitValue argument
    match role name with
    | .help => .error .help
    | .flag f => read (settings.setFlag f) rest
    | .unknown => .error (.unknownOption name)
    | .positional => read { settings with positional := settings.positional ++ [name] } rest
    | .parameter p =>
      match inlineValue, rest with
      | some value, rest => (settings.setParameter p (some value)).bind fun s => read s rest
      | none, value :: rest => (settings.setParameter p (some value)).bind fun s => read s rest
      | none, [] => settings.setParameter p none

/-- Takes the two paths from the positional arguments and joins the ignored fields with those of
the environment. -/
def complete (settings : Settings) (ignored : String) : Except Stop Settings :=
  match settings.positional with
  | [path1, path2] =>
    .ok { settings with path1, path2, ignore := IgnoreList.merge settings.ignore ignored }
  | _ => .error .usage

end Settings

abbrev Environment := String → Option String

/-- The settings of a run. The environment gives the log level first, if it names one. -/
def settings? (environment : Environment) (arguments : List String) : Except Stop Settings :=
  let logLevel := ((environment logLevelVariable).bind LogLevel.ofName?).getD .warning
  (Settings.read { logLevel } arguments).bind fun settings =>
    settings.complete ((environment ignoreVariable).getD "")

/-! Running. -/

def ignoringLine (field : String) : LogLine :=
  ⟨.debug, "ignoring " ++ (Accessor.parse field).rootedAccessor⟩

structure Output where
  exitStatus : Nat
  out : String
  err : String

variable [StandardHash]

/-- Runs with complete settings; the log goes to the error stream. -/
def Settings.output (settings : Settings) (system : FileSystem) (console : Console) : Output :=
  let (events, summary) := run system console settings.toRunOptions
  let events := settings.ignore.map (fun field => .log (ignoringLine field)) ++ events
  { exitStatus := summary.exitStatus
    out := Event.outText events
    err := Event.errTextWithLog settings.logLevel events }

def execute (system : FileSystem) (console : Console) (environment : Environment)
    (arguments : List String) : Output :=
  match settings? environment arguments with
  | .error stop => { exitStatus := stop.exitStatus, out := "", err := stop.message }
  | .ok settings =>
    settings.output system { console with noColor := (environment noColorVariable).isSome }

end JsonDelta.CommandLine
