import JsonDelta.Diff.Alignment
import JsonDelta.Diff.Change
/-!
The changes from an old document to a new one, in the order in which the documents are walked: the
old members and items first, then what is new.
-/

namespace JsonDelta

structure DiffOptions where
  /-- Arrays are compared as collections. -/
  ignoreOrder : Bool := true
  /-- Matched items whose index differs are reported, when order is ignored. -/
  reportMoves : Bool := false

namespace Document

variable (options : DiffOptions)

/-- The changes of matched items: none but their moves. -/
def moves (others : List Document) (place : Location) : Nat × Nat → List Change
  | (source, target) =>
    if options.reportMoves ∧ source ≠ target then
      others[target]?.toList.map (.itemMoved place source target)
    else
      []

/-- The changes of an old item without a match: those that `comparisons` finds between it and its
partner, or its removal. -/
def leftoverChanges (comparisons : List (Document → Location → List Change))
    (items others : List Document) (place : Location) : Nat × Option Nat → List Change
  | (i, some j) =>
    match comparisons[i]?, others[j]? with
    | some compare, some other => compare other (place.index i)
    | _, _ => []
  | (i, none) => items[i]?.toList.map (.itemRemoved (place.index i))

def addedItems (others : List Document) (place : Location) (j : Nat) : List Change :=
  others[j]?.toList.map (.itemAdded (place.index j))

def addedMembers (members others : List (String × Document)) (place : Location) : List Change :=
  (others.filter fun m => (members.lookup m.1).isNone).map fun m =>
    .keyAdded (place.key m.1) m.2

variable [StandardHash]

mutual

/-- The changes that lead from one document to another, both at `place`. -/
def changes : Document → Document → Location → List Change
  | object members, object others, place =>
    memberChanges members others place ++ addedMembers members others place
  | array items, array others, place =>
    if options.ignoreOrder then
      let alignment := Alignment.ofItems items others
      alignment.matched.flatMap (moves options others place) ++
        alignment.leftovers.flatMap (leftoverChanges (itemComparisons items) items others place) ++
        alignment.added.flatMap (addedItems others place)
    else
      itemChanges items others 0 place
  | old@(object _), new, place => [.valueChanged place old new]
  | old@(array _), new, place => [.valueChanged place old new]
  | old, new, place => if equal false old new then [] else [.valueChanged place old new]

/-- Each item, ready to be compared with another at a given place. -/
def itemComparisons : List Document → List (Document → Location → List Change)
  | [] => []
  | item :: rest => changes item :: itemComparisons rest

/-- The changes between items at the same index, from index `i` on. -/
def itemChanges : List Document → List Document → Nat → Location → List Change
  | [], others, i, place =>
    (others.zipIdx i).map fun (other, j) => .itemAdded (place.index j) other
  | item :: rest, [], i, place =>
    .itemRemoved (place.index i) item :: itemChanges rest [] (i + 1) place
  | item :: rest, other :: others, i, place =>
    changes item other (place.index i) ++ itemChanges rest others (i + 1) place

/-- The changes of the old members: those that are gone, and those that differ. -/
def memberChanges :
    List (String × Document) → List (String × Document) → Location → List Change
  | [], _, _ => []
  | (key, value) :: rest, others, place =>
    (match others.lookup key with
      | some other => changes value other (place.key key)
      | none => [.keyRemoved (place.key key) value]) ++ memberChanges rest others place

end

theorem itemComparisons_eq_map (items : List Document) :
    itemComparisons options items = items.map (changes options) := by
  induction items with
  | nil => rfl
  | cons item rest ih => rw [itemComparisons, ih, List.map_cons]

theorem changes_array (h : options.ignoreOrder = true) (items others : List Document)
    (place : Location) :
    changes options (array items) (array others) place =
      (Alignment.ofItems items others).matched.flatMap (moves options others place) ++
        (Alignment.ofItems items others).leftovers.flatMap
          (leftoverChanges (items.map (changes options)) items others place) ++
        (Alignment.ofItems items others).added.flatMap (addedItems others place) := by
  rw [changes, if_pos h, itemComparisons_eq_map]

theorem changes_of_kind_ne {old new : Document} (h : old.kind ≠ new.kind) (place : Location) :
    changes options old new place = [.valueChanged place old new] := by
  cases old <;> cases new <;> simp_all [changes, kind, equal]

/-- The changes between two whole documents. -/
def diff (old new : Document) : List Change := changes options old new .root

end Document

end JsonDelta
