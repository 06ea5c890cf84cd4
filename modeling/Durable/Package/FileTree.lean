/-
Directories and files as a value.

A file tree is a snapshot of a directory.  Reading a package asks only what a snapshot
can answer, so it is a function; the program that takes the snapshot does the rest.
Links are followed when the snapshot is taken and are no part of it.
-/
import Durable.Order
import Durable.Package.Path

namespace Durable

/-- A file or a directory. -/
inductive FileTree where
  /-- A file by its text, or by nothing where its bytes are no text. -/
  | file (text : Option String)
  | directory (entries : List (String × FileTree))

namespace FileTree

/-- The empty directory. -/
def empty : FileTree := directory []

def isDirectory : FileTree → Bool
  | directory _ => true
  | file _ => false

def isFile (t : FileTree) : Bool := !t.isDirectory

/-- The entries of a directory in the order of their names. -/
def entries : FileTree → List (String × FileTree)
  | directory es => sortBy (fun a b => decide (a.1 ≤ b.1)) es
  | file _ => []

/-- The entry of a directory with a name. -/
def child? (t : FileTree) (name : String) : Option FileTree :=
  match t with
  | directory es => (es.find? (·.1 == name)).map (·.2)
  | file _ => none

/-- Follows the steps of a path.  The directories passed on the way are kept, nearest first, so that
a step up can return to them; nothing lies above the snapshot. -/
def follow : List FileTree → FileTree → List Path.Component → Option FileTree
  | _, t, [] => some t
  | _, _, .root :: _ => none
  | above, t, .here :: steps => if t.isDirectory then follow above t steps else none
  | [], _, .up :: _ => none
  | parent :: above, t, .up :: steps => if t.isDirectory then follow above parent steps else none
  | above, t, .down name :: steps => do follow (t :: above) (← t.child? name) steps

/-- What a path names, seen from the top of a snapshot.  The empty path names nothing. -/
def lookup? (t : FileTree) (path : String) : Option FileTree :=
  if path.isEmpty then none
  else match follow [] t (Path.components path) with
    | some found => if path.endsWith "/" && found.isFile then none else some found
    | none => none

/-- What lies under a list of names. -/
def at? (t : FileTree) : List String → Option FileTree
  | [] => some t
  | name :: names => do at? (← t.child? name) names

/-- The tree with a file put under a list of names; directories on the way are made. -/
def put (t entry : FileTree) : List String → FileTree
  | [] => entry
  | name :: names =>
    let below := put ((t.child? name).getD empty) entry names
    match t with
    | directory es =>
      if es.any (·.1 == name) then
        directory (es.map fun e => if e.1 == name then (name, below) else e)
      else directory (es ++ [(name, below)])
    | file _ => directory [(name, below)]

/-- What keeps a file from being written. -/
inductive WriteFault where
  /-- A file is in the way of a directory. -/
  | blockedByFile
  /-- A directory cannot be made because there is a file of its name. -/
  | directoryIsFile
  | isDirectory
deriving DecidableEq, Repr

/-- The tree with the directories of a path made where they are missing, and the names that lead to
the last of them.  `above` holds the names passed so far, nearest first.  A file is blocking where
the path could be followed up to it without making anything; behind a directory that was `made`, each
step is one more directory to make, and the file has its name. -/
def makeDirectories (t : FileTree) (made : Bool) (above : List String) :
    List Path.Component → Except WriteFault (FileTree × List String)
  | [] => .ok (t, above.reverse)
  | .root :: steps | .here :: steps => makeDirectories t made above steps
  | .up :: steps => makeDirectories t made (above.drop 1) steps
  | .down name :: steps =>
    let names := (name :: above).reverse
    match t.at? names with
    | some (.directory _) => makeDirectories t made (name :: above) steps
    | some (.file _) => .error (if made || steps.isEmpty then .directoryIsFile else .blockedByFile)
    | none => makeDirectories (t.put .empty names) true (name :: above) steps

/-- The tree with a text written to a path, with the directories on the way to it. -/
def write? (t : FileTree) (path text : String) : Except WriteFault FileTree := do
  let (t, names) ← t.makeDirectories false [] (Path.components (Path.parent path))
  match Path.fileName? path with
  | none => .error .isDirectory
  | some name =>
    match t.at? (names ++ [name]) with
    | some (.directory _) => .error .isDirectory
    | _ => .ok (t.put (.file (some text)) (names ++ [name]))

mutual

/-- Every file of a tree with its path, in the order of the entries. -/
def files (above : String) : FileTree → List (String × Option String)
  | file text => [(above, text)]
  | directory es => filesOfEntries above es

/-- Every file under some entries. -/
def filesOfEntries (above : String) : List (String × FileTree) → List (String × Option String)
  | [] => []
  | (name, t) :: es => files (Path.join above name) t ++ filesOfEntries above es

end

end FileTree

end Durable
