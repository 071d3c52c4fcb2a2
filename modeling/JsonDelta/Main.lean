import JsonDelta.CommandLine
/-!
The program. It takes a snapshot of the files its two paths lead to, runs on it, and writes the
output.
-/

namespace JsonDelta.Snapshot

/-- The names from the root to the end of a path, `..` and `.` resolved. -/
def placeNames (system : FileSystem) (path : String) : List String :=
  let names := FileSystem.pathNames path
  let start := if path.toList.head? = some '/' then [] else system.workingDirectory
  names.foldl (fun done name =>
    if name = "" ∨ name = "." then done
    else if name = ".." then done.dropLast
    else done ++ [name]) start

/-- Copies what is at a path, without the entries of a directory. -/
def addNode (system : FileSystem) (path : String) : IO FileSystem := do
  let place := (← IO.currentDir) / path
  let change (f : FileTree → FileTree) : FileSystem :=
    { system with root := FileTree.update (placeNames system path) f system.root }
  if ← place.isDir then
    return change id
  else if ← place.pathExists then
    if (← place.metadata).type == .file then
      let content ← try some <$> IO.FS.readBinFile place catch _ => pure none
      return change fun _ => .file content
    else
      return change fun _ => .device
  else
    return system

/-- Copies every node on the way to a path, and the documents in the directory at its end. -/
def addPath (system : FileSystem) (recursive : Bool) (path : String) : IO FileSystem := do
  let mut system := system
  let names := FileSystem.pathNames path
  for i in List.range names.length do
    let text := "/".intercalate (names.take (i + 1))
    if text ≠ "" then
      system ← addNode system text
  let place := (← IO.currentDir) / path
  if path ≠ "" ∧ (← place.isDir) then
    let entries ← if recursive then place.walkDir else do pure ((← place.readDir).map (·.path))
    for entry in entries do
      if isDocumentName (entry.fileName.getD "") then
        system ← addNode system entry.toString
  return system

/-- A file system with the working directory only. -/
def start : IO FileSystem := do
  let names := (FileSystem.pathNames (← IO.currentDir).toString).filter (· ≠ "")
  return { root := (FileTree.directory []).addDirectory names, workingDirectory := names }

end JsonDelta.Snapshot

open JsonDelta

def main (arguments : List String) : IO UInt32 := do
  let mut found : List (String × String) := []
  for name in [CommandLine.ignoreVariable, CommandLine.logLevelVariable,
      CommandLine.noColorVariable] do
    if let some value ← IO.getEnv name then
      found := (name, value) :: found
  let known := found
  let environment : CommandLine.Environment := fun name => known.lookup name
  let mut system ← Snapshot.start
  if let .ok settings := CommandLine.settings? environment arguments then
    for path in [settings.path1, settings.path2] do
      system ← Snapshot.addPath system settings.recursive path
  let stdout ← IO.getStdout
  let stderr ← IO.getStderr
  let console : Console :=
    { outTerminal := ← stdout.isTty
      errTerminal := ← stderr.isTty }
  let output := CommandLine.execute system console environment arguments
  stdout.putStr output.out
  stderr.putStr output.err
  return UInt32.ofNat output.exitStatus
