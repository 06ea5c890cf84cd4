/-
Reading a package from a directory.

The sources are the files of one extension directly in the directory and one level below
`modules`; everything else is passed over.  Files are read in the order of their names,
so which fault is reported does not depend on the order a directory lists them in.
-/
import Durable.Package.Basic
import Durable.Package.FileTree
import Durable.Package.Manifest

namespace Durable.Package

/-- The ending of a source file's name. -/
def sourceEnding : String := ".wf"

/-- A name that is more than the ending. -/
def isSourceName (name : String) : Bool :=
  name.endsWith sourceEnding && sourceEnding.length < name.length

/-- The text of a file, under the path an error would call it by. -/
def readText (path : String) : FileTree → Except PackageError String
  | .file (some text) => .ok text
  | _ => .error (.unreadable path)

/-- The source files of a directory.  `root` is the package's directory and `below` the path from
there. -/
def sourcesIn (root below : String) (dir : FileTree) : Except PackageError (List Source) :=
  let files := dir.entries.filter fun (name, t) => t.isFile && isSourceName name
  files.mapM fun (name, t) => do
    let path := Path.join below name
    pure ⟨path, ← readText (Path.join root path) t⟩

/-- The source files of all submodules. -/
def submoduleSources (root : String) (dir : FileTree) : Except PackageError (List Source) :=
  match dir.child? modulesDirectory with
  | some modules => do
    let found ← (modules.entries.filter (·.2.isDirectory)).mapM fun (name, t) =>
      sourcesIn root (Path.join modulesDirectory name) t
    pure found.flatten
  | none => .ok []

/-- What the manifest of a directory says; without one, nothing. -/
def readManifest (root : String) (dir : FileTree) : Except PackageError Manifest :=
  match dir.child? Manifest.fileName with
  | some (.file text) => do
    let path := Path.join root Manifest.fileName
    let text ← readText path (.file text)
    match Manifest.read? text with
    | some m => pure m
    | none => .error (.badManifest path)
  | _ => .ok default

/-- The package in a directory, given what the directory's path names. -/
def load (root : String) (found : Option FileTree) : Except PackageError Package := do
  match found with
  | some (.directory entries) =>
    let dir := FileTree.directory entries
    let manifest ← readManifest root dir
    let org := manifest.org.getD "local"
    let name := manifest.name.getD ((Path.fileName? root).getD "main")
    let sources := (← sourcesIn root "" dir) ++ (← submoduleSources root dir)
    if sources.isEmpty then throw (.noSources root)
    let package ← ofSources org name sources
    pure { package with root }
  | _ => .error (.notADirectory root)

end Durable.Package
