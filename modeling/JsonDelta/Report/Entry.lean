import JsonDelta.Color
import JsonDelta.Diff.ChangeSet
/-!
Report entries: the records of a change set as one list, which can be cut to a limit.
-/

namespace JsonDelta

inductive ChangeTag where
  | added | removed | moved
  deriving DecidableEq

namespace ChangeTag

def name : ChangeTag → String
  | added => "added"
  | removed => "removed"
  | moved => "moved"

def all : List ChangeTag := [added, removed, moved]

def leader : ChangeTag → String
  | added => "+ "
  | removed => "- "
  | moved => "  "

def color : ChangeTag → Color
  | added => .green
  | removed => .red
  | moved => .yellow

end ChangeTag

namespace Report

structure Entry where
  path : Path
  tag : ChangeTag
  value : Document

/-- Entries, with a note on those that were left out. -/
structure Listing where
  entries : List Entry
  note : String := ""

namespace Listing

/-- Keeps the first `limit` entries and counts the others; a limit of zero keeps all. -/
def truncate (listing : Listing) (limit : Nat) : Listing :=
  if 0 < limit ∧ limit < listing.entries.length then
    { entries := listing.entries.take limit
      note := "...(" ++ Decimal.natText (listing.entries.length - limit) ++ " more items)" }
  else
    { listing with note := "" }

def moveText : String := "Moved location in list."

def itemEntries (tag : ChangeTag) (items : List ItemChange) : List Entry :=
  items.map fun item => ⟨item.place.path, tag, item.value⟩

/-- A changed value is removed and added at its place. -/
def valueEntries (change : ValueChange) : List Entry :=
  [⟨change.place.path, .removed, change.old⟩, ⟨change.place.path, .added, change.new⟩]

/-- Moves, except at the accessors of changed values. -/
def moveEntries (changed : List ValueChange) (moved : List ItemChange) : List Entry :=
  let accessors := changed.map fun change => change.place.accessor
  (moved.filter fun item => item.place.accessor ∉ accessors).map fun item =>
    ⟨item.place.path, .moved, .string moveText⟩

def entriesOf (set : ChangeSet) : List Entry :=
  itemEntries .added set.keyAdded ++ itemEntries .added set.itemAdded ++
    itemEntries .removed set.keyRemoved ++ itemEntries .removed set.itemRemoved ++
    set.valueChanged.flatMap valueEntries ++ moveEntries set.valueChanged set.itemMoved

/-- The entries of a change set, at most `limit` of them unless it is zero. -/
def flatten (set : ChangeSet) (limit : Nat) : Listing :=
  Listing.truncate ⟨entriesOf set, ""⟩ limit

end Listing

end Report

end JsonDelta
