import JsonDelta.Text.Blank
import JsonDelta.Text.Sorted
/-!
The accessors to ignore, from the command line and from the environment.
-/

namespace JsonDelta.IgnoreList

/-- The given fields and the words of the environment text, in order and each once. -/
def merge (fields : List String) (environment : String) : List String :=
  Text.sortedSet (fields ++ Text.words environment)

end JsonDelta.IgnoreList
