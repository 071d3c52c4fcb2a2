import JsonDelta.Document.Parser
import JsonDelta.Failure
/-!
File trees, and what the path texts of a file system lead to. A device exists, but it is neither a
regular file nor a directory, and nothing is read from it. Every directory can be listed, and what
is in it can be reached.
-/

namespace JsonDelta

inductive FileTree where
  /-- A regular file with all that can be read from it; one that cannot be opened has no content. -/
  | file (content : Option ByteArray)
  | device
  | directory (entries : List (String × FileTree))

namespace FileTree

def isDirectory : FileTree → Bool
  | directory _ => true
  | _ => false

def isRegular : FileTree → Bool
  | file _ => true
  | _ => false

/-- What opening and reading gives, if it can be opened. -/
def content? : FileTree → Option ByteArray
  | file content => content
  | _ => some ByteArray.empty

def updateEntry (name : String) (change : FileTree → FileTree) :
    List (String × FileTree) → List (String × FileTree)
  | [] => [(name, change (directory []))]
  | (n, tree) :: rest =>
    if n = name then (n, change tree) :: rest else (n, tree) :: updateEntry name change rest

/-- Changes what is at the end of a walk; missing directories are made on the way. -/
def update : List String → (FileTree → FileTree) → FileTree → FileTree
  | [], change, tree => change tree
  | name :: names, change, directory entries =>
    directory (updateEntry name (update names change) entries)
  | _ :: _, _, tree => tree

def addDirectory (tree : FileTree) (names : List String) : FileTree := update names id tree

def addFile (tree : FileTree) (names : List String) (content : ByteArray) : FileTree :=
  update names (fun _ => file content) tree

end FileTree

structure FileSystem where
  root : FileTree
  /-- The names from the root to the directory where relative paths start. -/
  workingDirectory : List String := []

namespace FileSystem

/-- Follows names down from a node; `above` holds the directories over it, the nearest one first.
Only a directory can be followed by another name, even by an empty one. -/
def walk : FileTree → List FileTree → List String → Option FileTree
  | tree, _, [] => some tree
  | .directory entries, above, name :: names =>
    if name = "" ∨ name = "." then
      walk (.directory entries) above names
    else if name = ".." then
      match above with
      | [] => walk (.directory entries) [] names
      | parent :: higher => walk parent higher names
    else
      (entries.lookup name).bind fun child => walk child (.directory entries :: above) names
  | _, _, _ :: _ => none

/-- The part of a path text that is looked up: a NUL character ends it. -/
def pathChars (path : String) : List Char := path.toList.takeWhile (· ≠ '\x00')

def pathNames (path : String) : List String := ((pathChars path).splitOn '/').map String.ofList

/-- What a path leads to, if anything; the empty path leads nowhere. -/
def find? (system : FileSystem) (path : String) : Option FileTree :=
  match pathChars path with
  | [] => none
  | '/' :: _ => walk system.root [] (pathNames path)
  | _ => walk system.root [] (system.workingDirectory ++ pathNames path)

/-- The document in the file at a path. The content is read through the buffer of a stream, and the
state of the stream, which is what is tested afterwards, does not show when this breaks off: what
was read before is then taken for the whole content. -/
def load (system : FileSystem) (path : String) : Except Failure Document :=
  match system.find? path with
  | none => .error (.noSuchFile path)
  | some tree =>
    if tree.isDirectory then
      .error (.isDirectory path)
    else
      match tree.content? with
      | none => .error (.cannotOpen path)
      | some content =>
        match Document.ofBytes? content with
        | some d => .ok d
        | none => .error (.malformed (some path))

end FileSystem

end JsonDelta
