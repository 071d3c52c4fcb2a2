import JsonDelta.Document.Basic
import JsonDelta.Path.Accessor
/-!
Changes between two documents, each with its location. A removal is located in the old document; an
added or moved item is located by its index in the new array.
-/

namespace JsonDelta

/-- A place in a document: its path, and the accessor text of that path. -/
structure Location where
  accessor : String
  path : Path

namespace Location

def root : Location := ⟨rootMarker, []⟩

def child (place : Location) (segment : Segment) : Location :=
  ⟨place.accessor ++ segment.accessor, place.path.child segment⟩

def key (place : Location) (name : String) : Location := place.child (.key name)

def index (place : Location) (i : Nat) : Location := place.child (.index i)

end Location

inductive Change where
  | keyAdded (place : Location) (value : Document)
  | keyRemoved (place : Location) (value : Document)
  | itemAdded (place : Location) (value : Document)
  | itemRemoved (place : Location) (value : Document)
  | valueChanged (place : Location) (old new : Document)
  | itemMoved (list : Location) (source target : Nat) (value : Document)

/-- The line that is logged for a change: only moves are. -/
def Change.traceText? : Change → Option String
  | .itemMoved list source target _ =>
    some (list.accessor ++ ": item " ++ Decimal.natText source ++ " moved to " ++
      Decimal.natText target)
  | _ => none

end JsonDelta
