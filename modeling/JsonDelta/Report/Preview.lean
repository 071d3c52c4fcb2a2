import JsonDelta.Document.Printer
/-!
Previews: a document on one line, summarized and cut when it is too long.
-/

namespace JsonDelta.Document

/-- Containers show their keys or the number of their items, scalars themselves. -/
def summary : Document → String
  | object members =>
    "\x7b " ++ ", ".intercalate (members.map fun m => Text.quoted m.1 ++ ": ...") ++ " \x7d"
  | array items => "[ (" ++ Decimal.natText items.length ++ " items) ]"
  | d => d.text

/-- The first `limit` characters, and how many there were after them. -/
def cut (limit : Nat) (text : String) : String :=
  String.ofList (text.toList.take limit) ++
    "...(" ++ Decimal.natText (text.length - limit) ++ " more chars)"

def preview (limit : Nat) (d : Document) : String :=
  if d.text.length ≤ limit then d.text
  else if d.summary.length ≤ limit then d.summary
  else cut limit d.summary

end JsonDelta.Document
