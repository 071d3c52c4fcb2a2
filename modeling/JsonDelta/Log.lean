/-!
Log lines and their levels.
-/

namespace JsonDelta

inductive LogLevel where
  | trace | debug | info | warning | error | critical | off
  deriving DecidableEq

namespace LogLevel

def severity : LogLevel → Nat
  | trace => 0
  | debug => 1
  | info => 2
  | warning => 3
  | error => 4
  | critical => 5
  | off => 6

def name : LogLevel → String
  | trace => "trace"
  | debug => "debug"
  | info => "info"
  | warning => "warning"
  | error => "error"
  | critical => "critical"
  | off => "off"

/-- Levels are written by name; two have a short form as well. -/
def ofName? (text : String) : Option LogLevel :=
  if text = "warn" then some warning
  else if text = "err" then some error
  else [trace, debug, info, warning, error, critical, off].find? fun level => level.name = text

end LogLevel

structure LogLine where
  level : LogLevel
  text : String
  deriving DecidableEq

namespace LogLine

def render (line : LogLine) : String := "[" ++ line.level.name ++ "] " ++ line.text

/-- A log shows the lines that are at least as severe as its threshold. -/
def isShown (threshold : LogLevel) (line : LogLine) : Bool :=
  threshold.severity ≤ line.level.severity

end LogLine

end JsonDelta
