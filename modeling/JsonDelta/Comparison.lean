import JsonDelta.Document.Edit
import JsonDelta.Failure
import JsonDelta.Report.Render
/-!
Comparing two documents after taking the ignored places out of both.
-/

namespace JsonDelta

inductive Outcome where
  | identical | different | unreadable
  deriving DecidableEq

namespace Outcome

def name : Outcome → String
  | identical => "OK"
  | different => "BAD"
  | unreadable => "FILE_ERROR"

def all : List Outcome := [identical, different, unreadable]

end Outcome

/-- The result for a pair of documents. -/
structure Verdict where
  outcome : Outcome := .identical
  /-- Entries of the report before it was cut. -/
  changeCount : Nat := 0
  report : String := ""
  failure : Option Failure := none

structure CompareOptions where
  /-- Most entries in a report, zero for all. -/
  limit : Nat := 100
  reportMoves : Bool := false
  layout : Report.Layout := .nested

namespace Comparison

def presence (deleted : Option Document) : String :=
  if deleted.isSome then "removed" else "absent"

def ignoreLine (path : Path) (old new : Option Document) : LogLine :=
  ⟨.debug, "ignore " ++ path.rootedAccessor ++ ": old " ++ presence old ++ ", new " ++
    presence new⟩

/-- Deletes each path from both documents, in order, and logs where it was found. -/
def withoutIgnored : List Path → Document → Document → List LogLine × Document × Document
  | [], old, new => ([], old, new)
  | path :: paths, old, new =>
    let old' := old.delete? path
    let new' := new.delete? path
    let (log, rest) := withoutIgnored paths (old'.getD old) (new'.getD new)
    (ignoreLine path old' new' :: log, rest)

def diffOptions (options : CompareOptions) : DiffOptions :=
  { ignoreOrder := true, reportMoves := options.reportMoves }

variable [StandardHash]

/-- The verdict on documents from which nothing has to be removed any more. -/
def verdict (options : CompareOptions) (render : Report.RenderOptions) (old new : Document) :
    Verdict :=
  let changes := ChangeSet.between (diffOptions options) old new
  if changes.isEmpty then
    {}
  else
    let all := Report.Listing.flatten changes 0
    { outcome := .different
      changeCount := all.entries.length
      report := Report.render options.layout render (all.truncate options.limit) }

/-- Compares two documents without the ignored places. -/
def compareDocuments (ignore : List Path) (options : CompareOptions)
    (render : Report.RenderOptions) (old new : Document) : List LogLine × Verdict :=
  let (log, old, new) := withoutIgnored ignore old new
  (log ++ old.diffLog (diffOptions options) new, verdict options render old new)

end Comparison

end JsonDelta
