import JsonDelta.Decimal
/-!
Paths into a document: keys of objects and indices of arrays, from the root down.
-/

namespace JsonDelta

inductive Segment where
  | key (name : String)
  | index (n : Int)
  deriving DecidableEq

abbrev Path := List Segment

/-- A segment without brackets and quotes: an index and the key of its digits look the same. -/
def Segment.text : Segment → String
  | .key name => name
  | .index n => Decimal.intText n

namespace Path

def child (path : Path) (segment : Segment) : Path := path ++ [segment]

end Path

end JsonDelta
