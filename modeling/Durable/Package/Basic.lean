/-
Packages.

A package is a set of source texts that are checked together.  Where a text lies says
which module it belongs to: directly in the package for the default module, one level
below `modules` for a submodule.  The order in which the texts are handed over does
not matter: documents stand in the order of their paths and submodules in the order of
their names.
-/
import Durable.Order
import Durable.Text.Source
import Durable.Tree.Parser.Member
import Durable.Package.Path

namespace Durable

/-- The full name of a module. -/
structure ModuleName where
  org : String
  name : String
deriving DecidableEq, Repr, Inhabited

/-- The text of a module's name. -/
def ModuleName.render (n : ModuleName) : String := n.org ++ "/" ++ n.name

/-- Where a document stands in its package. -/
structure DocId where
  module : Nat
  document : Nat
deriving DecidableEq, Repr, Inhabited

/-- A source text with its tree. -/
structure Document where
  id : DocId
  source : Source
  tree : Module

instance : Inhabited Document := ⟨⟨default, default, ⟨[], [], .synthetic⟩⟩⟩

/-- The path of a document inside its package. -/
def Document.path (d : Document) : String := d.source.path

/-- A module with its documents in the order of their paths. -/
structure PackageModule where
  id : ModuleName
  /-- The directory of a submodule; the default module has none. -/
  submodule : Option String
  documents : List Document

/-- A package: the default module, then the submodules in the order of their names. -/
structure Package where
  org : String
  name : String
  /-- The directory the package was read from, if it was. -/
  root : String
  modules : List PackageModule

/-- What can keep a package from being read. -/
inductive PackageError where
  /-- The text of a file could not be had. -/
  | unreadable (path : String)
  | badManifest (path : String)
  | badSource (location : Location) (cause : SyntaxError)
  | notADirectory (path : String)
  | noSources (path : String)
  | invalidSourcePath (path : String)
deriving DecidableEq, Repr

namespace PackageError

/-- What keeps a file from being read. -/
def notText : String := "stream did not contain valid UTF-8"

/-- The text of an error. -/
def message : PackageError → String
  | unreadable path => "failed to read " ++ path ++ ": " ++ notText
  | badManifest path => "invalid manifest " ++ path
  | badSource location cause => location.render ++ ": " ++ cause.message
  | notADirectory path => path ++ " is not a directory"
  | noSources path => "no source files found in " ++ path
  | invalidSourcePath path => path ++ " is not a package source path"

/-- The text of an error and of what it comes from. -/
def fullMessage (e : PackageError) : String :=
  match e with
  | badSource _ cause => e.message ++ ": " ++ cause.message
  | unreadable _ => e.message ++ ": " ++ notText
  | _ => e.message

end PackageError

namespace Package

/-- The directory that holds the submodules. -/
def modulesDirectory : String := "modules"

/-! ### Reading the sources -/

/-- The submodule that a source path belongs to, none for the default module. -/
def submoduleOf (path : String) : Except PackageError (Option String) :=
  match Path.names path with
  | [_] => .ok none
  | [dir, sub, _] =>
    if dir = modulesDirectory then .ok (some sub) else .error (.invalidSourcePath path)
  | _ => .error (.invalidSourcePath path)

/-- The submodule and the tree of a source text. -/
def readSource (source : Source) : Except PackageError (Option String × Source × Module) := do
  let submodule ← submoduleOf source.path
  let tree ← (parseModule source.text).mapError fun e => .badSource (source.location e.span) e
  pure (submodule, source, tree)

/-! ### Putting them together -/

/-- The documents of the module at an index. -/
def documentsOf (submodule : Option String) (module : Nat)
    (read : List (Option String × Source × Module)) : List Document :=
  (read.filter (·.1 == submodule)).mapIdx fun document (_, source, tree) =>
    ⟨⟨module, document⟩, source, tree⟩

/-- The names of the submodules in order. -/
def submodulesOf (read : List (Option String × Source × Module)) : List String :=
  sortTexts (distinct (read.filterMap (·.1)))

/-- The name of the module in a directory of a package. -/
def moduleNameOf (org name : String) : Option String → ModuleName
  | none => ⟨org, name⟩
  | some sub => ⟨org, name ++ "." ++ sub⟩

/-- The package of some source texts.  They are read in the order of their paths, and the first
fault is reported. -/
def ofSources (org name : String) (sources : List Source) : Except PackageError Package := do
  let read ← (sortBy (fun a b : Source => Path.le a.path b.path) sources).mapM readSource
  let submodules := none :: (submodulesOf read).map some
  let modules := submodules.mapIdx fun i sub =>
    ⟨moduleNameOf org name sub, sub, documentsOf sub i read⟩
  pure { org, name, root := "", modules }

/-! ### Looking things up -/

/-- Every document, module by module. -/
def documents (p : Package) : List Document := p.modules.flatMap (·.documents)

/-- The document at a place. -/
def document? (p : Package) (id : DocId) : Option Document := do
  let m ← p.modules[id.module]?
  m.documents[id.document]?

/-- The document with a path. -/
def documentByPath? (p : Package) (path : String) : Option Document :=
  p.documents.find? fun d => Path.same d.path path

/-- The index of the module with a name. -/
def moduleIndex? (p : Package) (name : ModuleName) : Option Nat :=
  p.modules.findIdx? (·.id == name)

end Package

end Durable
