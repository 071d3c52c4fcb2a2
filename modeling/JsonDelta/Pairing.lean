import JsonDelta.FileTree
import JsonDelta.Log
import JsonDelta.Decimal
import JsonDelta.Text.Sorted
/-!
What two paths have to compare: a pair of files, or the documents of two directories by name.
-/

namespace JsonDelta

/-- The documents of a file tree are its files with a name in front of `.json`, unless the name
starts with a dot. -/
def isDocumentName (name : String) : Bool :=
  let text := name.toList
  text.head? ≠ some '.' && 5 < text.length && ".json".toList.isSuffixOf text

/-- The documents among the entries of a directory, by their paths below it. -/
def documentNames (recursive : Bool) : List (String × FileTree) → List String
  | [] => []
  | (name, .file _) :: rest =>
    (if isDocumentName name then [name] else []) ++ documentNames recursive rest
  | (name, .directory entries) :: rest =>
    (if recursive then (documentNames recursive entries).map ((name ++ "/") ++ ·) else []) ++
      documentNames recursive rest
  | _ :: rest => documentNames recursive rest

structure Pairing where
  /-- Names of the old directory only. -/
  missing : List String := []
  /-- Names of the new directory only. -/
  extra : List String := []
  /-- Old and new path of the documents to compare. -/
  pairs : List (String × String) := []

namespace Pairing

/-- The path of an entry of a directory. -/
def childPath (path name : String) : String :=
  if path.toList.getLast? = some '/' then path ++ name else path ++ "/" ++ name

def ofDirectories (recursive : Bool) (path1 path2 : String)
    (old new : List (String × FileTree)) : Pairing :=
  let oldNames := Text.sortedSet (documentNames recursive old)
  let newNames := Text.sortedSet (documentNames recursive new)
  { missing := oldNames.filter (· ∉ newNames)
    extra := newNames.filter (· ∉ oldNames)
    pairs := (oldNames.filter (· ∈ newNames)).map fun name =>
      (childPath path1 name, childPath path2 name) }

def summaryLine (pairing : Pairing) : LogLine :=
  ⟨.debug, Decimal.natText pairing.pairs.length ++ " pair(s), " ++
    Decimal.natText pairing.missing.length ++ " missing, " ++
    Decimal.natText pairing.extra.length ++ " extra"⟩

/-- Two directories are paired by name, and two regular files with each other. -/
def ofPaths (system : FileSystem) (recursive : Bool) (path1 path2 : String) :
    Except Failure (List LogLine × Pairing) :=
  match system.find? path1, system.find? path2 with
  | none, _ => .error (.noSuchPath path1)
  | some _, none => .error (.noSuchPath path2)
  | some (.directory old), some (.directory new) =>
    let pairing := ofDirectories recursive path1 path2 old new
    .ok ([pairing.summaryLine], pairing)
  | some old, some new =>
    if old.isRegular ∧ new.isRegular then
      .ok ([], { pairs := [(path1, path2)] })
    else
      .error .mixedPaths

end Pairing

end JsonDelta
