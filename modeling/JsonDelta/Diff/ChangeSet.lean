import JsonDelta.Diff.Compare
import JsonDelta.Log
/-!
Change sets: changes sorted by kind, each kind in the order of the walk.
-/

namespace JsonDelta

structure ItemChange where
  place : Location
  value : Document

structure ValueChange where
  place : Location
  old : Document
  new : Document

structure ChangeSet where
  keyAdded : List ItemChange := []
  keyRemoved : List ItemChange := []
  itemAdded : List ItemChange := []
  itemRemoved : List ItemChange := []
  valueChanged : List ValueChange := []
  itemMoved : List ItemChange := []

namespace ChangeSet

def size (set : ChangeSet) : Nat :=
  set.keyAdded.length + set.keyRemoved.length + set.itemAdded.length + set.itemRemoved.length +
    set.valueChanged.length + set.itemMoved.length

def isEmpty (set : ChangeSet) : Bool := set.size = 0

def ofChanges (changes : List Change) : ChangeSet where
  keyAdded := changes.filterMap fun
    | .keyAdded place value => some ⟨place, value⟩
    | _ => none
  keyRemoved := changes.filterMap fun
    | .keyRemoved place value => some ⟨place, value⟩
    | _ => none
  itemAdded := changes.filterMap fun
    | .itemAdded place value => some ⟨place, value⟩
    | _ => none
  itemRemoved := changes.filterMap fun
    | .itemRemoved place value => some ⟨place, value⟩
    | _ => none
  valueChanged := changes.filterMap fun
    | .valueChanged place old new => some ⟨place, old, new⟩
    | _ => none
  itemMoved := changes.filterMap fun
    | .itemMoved list _ target value => some ⟨list.index target, value⟩
    | _ => none

variable [StandardHash]

/-- The change set between two documents. -/
def between (options : DiffOptions) (old new : Document) : ChangeSet :=
  ofChanges (old.diff options new)

end ChangeSet

variable [StandardHash]

/-- The lines that comparing two documents logs. -/
def Document.diffLog (options : DiffOptions) (old new : Document) : List LogLine :=
  (old.diff options new).filterMap fun change => change.traceText?.map fun text => ⟨.trace, text⟩

end JsonDelta
