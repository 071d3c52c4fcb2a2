/-!
What can go wrong around documents and their files.
-/

namespace JsonDelta

inductive ErrorKind where
  | fileNotFound | readError | parseError | invalidInvocation
  deriving DecidableEq

namespace ErrorKind

def name : ErrorKind → String
  | fileNotFound => "file_not_found"
  | readError => "read_error"
  | parseError => "parse_error"
  | invalidInvocation => "invalid_invocation"

def all : List ErrorKind := [fileNotFound, readError, parseError, invalidInvocation]

end ErrorKind

inductive Failure where
  /-- Nothing is at the path of a document. -/
  | noSuchFile (path : String)
  /-- A directory is at the path of a document. -/
  | isDirectory (path : String)
  /-- The file of a document cannot be opened. -/
  | cannotOpen (path : String)
  /-- The text of a document, perhaps from a file, is not well formed. -/
  | malformed (path : Option String)
  /-- One of the two paths to compare leads nowhere. -/
  | noSuchPath (path : String)
  /-- The two paths to compare are not of one sort. -/
  | mixedPaths
  deriving DecidableEq

namespace Failure

def kind : Failure → ErrorKind
  | noSuchFile _ => .fileNotFound
  | isDirectory _ => .readError
  | cannotOpen _ => .readError
  | malformed _ => .parseError
  | noSuchPath _ => .invalidInvocation
  | mixedPaths => .invalidInvocation

/-- Stands for the details of a syntax error, which are not reported. -/
def syntaxDetail : String := "<parser message>"

def message : Failure → String
  | noSuchFile path => "no such file: " ++ path
  | isDirectory path => "is a directory: " ++ path
  | cannotOpen path => "cannot open: " ++ path
  | malformed (some path) => path ++ ": " ++ syntaxDetail
  | malformed none => syntaxDetail
  | noSuchPath path => "Path does not exist: " ++ path
  | mixedPaths => "Both arguments must be files or both must be directories."

end Failure

end JsonDelta
