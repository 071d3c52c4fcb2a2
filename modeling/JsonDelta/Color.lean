/-!
Terminal colors.
-/

namespace JsonDelta

inductive Color where
  | plain | red | green | yellow
  deriving DecidableEq

namespace Color

/-- The escape code that starts a color; plain text has none. -/
def code? : Color → Option String
  | plain => none
  | red => some "\x1b[31m"
  | green => some "\x1b[32m"
  | yellow => some "\x1b[33m"

def reset : String := "\x1b[0m"

def paint (enabled : Bool) (color : Color) (text : String) : String :=
  match enabled, color.code? with
  | true, some code => code ++ text ++ reset
  | _, _ => text

end Color

inductive ColorMode where
  | auto | always | never
  deriving DecidableEq

namespace ColorMode

def name : ColorMode → String
  | auto => "auto"
  | always => "always"
  | never => "never"

def all : List ColorMode := [auto, always, never]

def ofName? (text : String) : Option ColorMode := all.find? fun mode => mode.name = text

/-- Without an order from the user, only terminals get colors, and none does when the environment
sets `NO_COLOR`, whatever its value. -/
def isEnabled (mode : ColorMode) (noColor terminal : Bool) : Bool :=
  match mode with
  | always => true
  | never => false
  | auto => !noColor && terminal

end ColorMode

end JsonDelta
