import JsonDelta.Path.Basic
import JsonDelta.Text.Blank
/-!
Accessors, the written form of paths: `root['a'][0]`. Writing has no escapes, so a key that holds a
closing bracket cannot be read back. Reading takes the bracketed groups of any text and skips the
rest.
-/

namespace JsonDelta

/-! Writing. -/

def rootMarker : String := "root"

/-- Single quotes, unless the key holds one. -/
def Segment.accessor : Segment → String
  | .index n => "[" ++ Decimal.intText n ++ "]"
  | .key name =>
    let quote := if '\'' ∈ name.toList then "\"" else "'"
    "[" ++ quote ++ name ++ quote ++ "]"

def Path.accessor (path : Path) : String := String.join (path.map Segment.accessor)

def Path.rootedAccessor (path : Path) : String := rootMarker ++ path.accessor

/-! Reading. -/

namespace Accessor

def stripRootChars : List Char → List Char
  | 'r' :: 'o' :: 'o' :: 't' :: rest => rest
  | text => text

/-- The accessor without a leading `root`. -/
def stripRoot (accessor : String) : String := String.ofList (stripRootChars accessor.toList)

/-- The contents of the bracketed groups, in order. `pending` holds the characters since the
opening bracket, last one first. A group without content adds nothing, and neither does one that is
never closed. -/
def groupsFrom : Option (List Char) → List Char → List (List Char)
  | _, [] => []
  | none, c :: rest => groupsFrom (if c = '[' then some [] else none) rest
  | some pending, c :: rest =>
    if c ≠ ']' then groupsFrom (some (c :: pending)) rest
    else if pending = [] then groupsFrom none rest
    else pending.reverse :: groupsFrom none rest

def groups (text : List Char) : List (List Char) := groupsFrom none text

def dropPlus : List Char → List Char
  | '+' :: text => text
  | text => text

/-- An index between blanks: a decimal integer of 64 bits, perhaps after a plus sign. -/
def index? (content : List Char) : Option Int :=
  (Decimal.readInt? (dropPlus (Text.trim content))).filter fun n =>
    Int64.minValue.toInt ≤ n ∧ n ≤ Int64.maxValue.toInt

def isQuote (c : Char) : Bool := c = '\'' || c = '"'

/-- Takes off one pair of equal quotes around the whole content. -/
def unquote : List Char → List Char
  | [] => []
  | c :: rest => if isQuote c ∧ rest.getLast? = some c then rest.dropLast else c :: rest

def segment (content : List Char) : Segment :=
  match index? content with
  | some n => .index n
  | none => .key (String.ofList (unquote content))

/-- The path an accessor names. -/
def parse (accessor : String) : Path :=
  (groups (stripRootChars accessor.toList)).map segment

end Accessor

end JsonDelta
