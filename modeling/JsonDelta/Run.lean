import JsonDelta.Comparison
import JsonDelta.Pairing
/-!
A comparison run: every pair of documents that two paths name, with the lines it writes to the two
output streams and to the log, in order.
-/

namespace JsonDelta

/-- Something written: a line of the log, or text on one of the output streams. -/
inductive Event where
  | log (line : LogLine)
  | out (text : String)
  | err (text : String)

structure RunOptions extends CompareOptions where
  path1 : String := ""
  path2 : String := ""
  /-- Accessors of the places to ignore. -/
  ignore : List String := []
  /-- The reports of pairs that differ are written. -/
  verbose : Bool := false
  recursive : Bool := false
  colorMode : ColorMode := .auto

/-- The output streams: which of them are terminals, and whether the environment forbids color. -/
structure Console where
  outTerminal : Bool := false
  errTerminal : Bool := false
  noColor : Bool := false

structure Summary where
  identical : Nat := 0
  different : Nat := 0
  errors : Nat := 0
  missing : Nat := 0
  extra : Nat := 0
  invalidInvocation : Bool := false

namespace Summary

/-- Zero when everything was identical and nothing missing or extra. The counts are added as 64-bit
words. -/
def exitStatus (summary : Summary) : Nat :=
  if summary.invalidInvocation then 1
  else
    let faults := summary.different + summary.errors + summary.missing + summary.extra
    if faults % UInt64.size = 0 then 0 else 1

def infoLine (summary : Summary) : LogLine :=
  ⟨.info, Decimal.natText summary.identical ++ " identical, " ++
    Decimal.natText summary.different ++ " different, " ++
    Decimal.natText summary.errors ++ " unreadable, " ++
    Decimal.natText summary.missing ++ " missing, " ++
    Decimal.natText summary.extra ++ " extra"⟩

end Summary

namespace Run

/-! One pair of files. -/

def failed (failure : Failure) : List LogLine × Verdict :=
  ([⟨.warning, failure.kind.name ++ ": " ++ failure.message⟩],
    { outcome := .unreadable, failure := some failure })

def differenceLines (path : String) (verdict : Verdict) : List LogLine :=
  if verdict.outcome = .different then
    [⟨.info, path ++ ": " ++ Decimal.natText verdict.changeCount ++ " difference(s)"⟩]
  else
    []

variable [StandardHash]

/-- Loads and compares the documents at two paths; the old one's failure comes first. -/
def comparePair (system : FileSystem) (options : RunOptions) (render : Report.RenderOptions)
    (oldPath newPath : String) : List LogLine × Verdict :=
  let start : LogLine := ⟨.debug, "comparing " ++ oldPath ++ " <-> " ++ newPath⟩
  let (log, verdict) :=
    match system.load oldPath, system.load newPath with
    | .error failure, _ => failed failure
    | .ok _, .error failure => failed failure
    | .ok old, .ok new =>
      let (log, verdict) := Comparison.compareDocuments (options.ignore.map Accessor.parse)
        options.toCompareOptions render old new
      (log ++ differenceLines newPath verdict, verdict)
  (start :: log, verdict)

/-! Status lines. -/

/-- Every character counts as one column. -/
def padRight (width : Nat) (text : String) : String :=
  text ++ String.ofList (List.replicate (width - text.length) ' ')

def statusLine (color : Bool) (shade : Color) (text : String) : String :=
  shade.paint color text ++ "\n"

def pairText (oldPath newPath : String) : String := padRight 40 oldPath ++ " <-> " ++ newPath

def detailsMark : String := "[details]    "

/-- The lines of a text; a line break at its very end starts no further line. -/
def textLines (text : String) : List String :=
  let lines := text.toList.splitOn '\n'
  (if lines.getLast? = some [] then lines.dropLast else lines).map String.ofList

/-- A report on the error stream, every line of it marked. -/
def detailEvents (report : String) : List Event :=
  .err "\n" :: (textLines report).map (fun line => .err (detailsMark ++ line ++ "\n")) ++
    [.err (detailsMark ++ "\n")]

structure Colors where
  out : Bool
  err : Bool

def outcomeEvents (options : RunOptions) (colors : Colors) (oldPath newPath : String)
    (verdict : Verdict) : List Event :=
  match verdict.outcome with
  | .identical =>
    [.out (statusLine colors.out .green ("✅ [IDENTICAL] " ++ pairText oldPath newPath))]
  | .different =>
    .err (statusLine colors.err .red ("❌ [DIFF] " ++ pairText oldPath newPath)) ::
      if options.verbose then detailEvents verdict.report else []
  | .unreadable =>
    [.err (statusLine colors.err .red
      ("❌ [ERROR] reading or parsing " ++ oldPath ++ " or " ++ newPath ++ "."))]

/-! Whole runs. -/

def nameEvents (colors : Colors) (label : String) (names : List String) : List Event :=
  names.map fun name => .err (statusLine colors.err .red ("❌ " ++ label ++ "  " ++ name))

def summarize (pairing : Pairing) (outcomes : List Outcome) : Summary where
  identical := outcomes.count .identical
  different := outcomes.count .different
  errors := outcomes.count .unreadable
  missing := pairing.missing.length
  extra := pairing.extra.length

def runPairs (system : FileSystem) (options : RunOptions) (colors : Colors) (pairing : Pairing) :
    List Event × Summary :=
  let results := pairing.pairs.map fun (oldPath, newPath) =>
    let (log, verdict) := comparePair system options { color := colors.err } oldPath newPath
    (log.map Event.log ++ outcomeEvents options colors oldPath newPath verdict, verdict.outcome)
  let summary := summarize pairing (results.map (·.2))
  (nameEvents colors "[MISS]" pairing.missing ++ nameEvents colors "[NEW ]" pairing.extra ++
    results.flatMap (·.1) ++ [.log summary.infoLine], summary)

end Run

variable [StandardHash]

open Run in
/-- Compares everything that the two paths of the options name. -/
def run (system : FileSystem) (console : Console) (options : RunOptions) : List Event × Summary :=
  let colors : Colors :=
    { out := options.colorMode.isEnabled console.noColor console.outTerminal
      err := options.colorMode.isEnabled console.noColor console.errTerminal }
  match Pairing.ofPaths system options.recursive options.path1 options.path2 with
  | .error failure =>
    ([.err (statusLine colors.err .red ("Error: " ++ failure.message))],
      { invalidInvocation := true })
  | .ok (log, pairing) =>
    let (events, summary) := runPairs system options colors pairing
    (log.map Event.log ++ events, summary)

namespace Event

def outText (events : List Event) : String :=
  String.join <| events.map fun
    | out text => text
    | _ => ""

def errText (events : List Event) : String :=
  String.join <| events.map fun
    | err text => text
    | _ => ""

def logLines (events : List Event) : List LogLine :=
  events.filterMap fun
    | log line => some line
    | _ => none

/-- The error stream when the log goes there too, from a level on. -/
def errTextWithLog (threshold : LogLevel) (events : List Event) : String :=
  String.join <| events.map fun
    | err text => text
    | log line => if line.isShown threshold then line.render ++ "\n" else ""
    | _ => ""

end Event

end JsonDelta
