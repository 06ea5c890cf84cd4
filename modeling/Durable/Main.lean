/-
The command on the file system.
-/
import Durable.Command

namespace Durable.Main

/-- The directories that are looked into when a snapshot is taken: the place itself and three levels
below it, which is one more than a package needs. -/
def snapshotDepth : Nat := 4

/-- A snapshot of what a path names, as deep as `depth` says.  What cannot be read is empty. -/
def snapshotOf (path : String) : (depth : Nat) → IO FileTree
  | 0 => pure .empty
  | depth + 1 => do
    let place ← IO.FS.realPath path
    if ← place.isDir then
      let entries ← place.readDir
      let trees ← entries.toList.mapM fun e => do
        pure (e.fileName, ← snapshotOf (Path.join path e.fileName) depth)
      pure (.directory trees)
    else
      try
        pure (.file (String.fromUTF8? (← IO.FS.readBinFile path)))
      catch _ =>
        pure (.file none)

/-- Makes a directory and those above it. -/
def makeDirectory (path : String) : IO (Except EmitError Unit) := do
  try
    unless path.isEmpty do
      IO.FS.createDirAll path
    pure (.ok ())
  catch e =>
    pure (.error (.directory path (toString e)))

/-- Writes a file in a directory that is there. -/
def writeFile (path text : String) : IO (Except EmitError Unit) := do
  try
    IO.FS.writeFile path text
    pure (.ok ())
  catch e =>
    pure (.error (.file path (toString e)))

/-- The file system. -/
def fileSystem : Disk IO where
  look path := do
    if path.isEmpty then
      return none
    try
      pure (some (← snapshotOf path snapshotDepth))
    catch _ =>
      pure none
  write path text := do
    match ← makeDirectory (Path.parent path) with
    | .error e => pure (.error e)
    | .ok () => writeFile path text

end Durable.Main

/-- Runs the command and reports by its exit code whether it succeeded. -/
def main (args : List String) : IO UInt32 := do
  let result ← Durable.Command.run Durable.Main.fileSystem args
  IO.print result.stdout
  IO.eprint result.stderr
  pure (if result.succeeded then 0 else 1)
