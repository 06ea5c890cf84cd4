/-
The command that checks a package.

The command reads one directory, writes a report, and on request writes the routed
sources.  All it decides is decided here, over any place that can be read from and
written to; a snapshot of a directory is such a place, and so is the file system.
-/
import Durable.Check
import Durable.Report
import Durable.Package.Load

namespace Durable

/-- What the command is asked to check. -/
structure CheckRequest where
  packageDir : String
  /-- Where to write the routed sources. -/
  emitDir : Option String
  format : ReportFormat
deriving DecidableEq, Repr

/-- What the command is asked to do. -/
inductive Command where
  | help
  | check (request : CheckRequest)
deriving DecidableEq, Repr

/-- What can be wrong with the arguments. -/
inductive UsageError where
  | emitWithoutPath
  | formatWithoutName
  | unknownFormat (name : String)
  | unknownArgument (arg : String)
  | secondDirectory (arg : String)
  | noDirectory
deriving DecidableEq, Repr

/-- The text of an error. -/
def UsageError.message : UsageError → String
  | emitWithoutPath => "--emit requires a path"
  | formatWithoutName => "--format requires text or json"
  | unknownFormat name => "Invalid format: " ++ name
  | unknownArgument arg => "Unknown argument: " ++ arg
  | secondDirectory arg => "Unexpected argument: " ++ arg
  | noDirectory => "package directory is required"

/-- What keeps the sources from being written. -/
inductive EmitError where
  | directory (path cause : String)
  | file (path cause : String)
deriving DecidableEq, Repr

/-- The text of an error. -/
def EmitError.message : EmitError → String
  | directory path cause => "Failed to create " ++ path ++ ": " ++ cause
  | file path cause => "Failed to write " ++ path ++ ": " ++ cause

/-- A place with directories and files. -/
structure Disk (m : Type → Type) where
  /-- What a path names. -/
  look : String → m (Option FileTree)
  /-- Writes a file, with the directories on the way to it. -/
  write : (path text : String) → m (Except EmitError Unit)

/-- What a run of the command leaves behind apart from files. -/
structure CommandResult where
  succeeded : Bool
  stdout : String
  stderr : String
deriving DecidableEq, Repr

namespace Command

/-- How the command is used. -/
def usage : String :=
  String.intercalate "\n"
    ["Usage: flowbind-check <dir> [OPTIONS]",
     "",
     "Check a workflow package and rewrite its activity calls.",
     "",
     "OPTIONS:",
     "    --emit <out-dir>       Write rewritten sources under this directory (only when no errors)",
     "    --format <text|json>   Diagnostic output format (default: text)",
     "    --help                 Show this help message",
     "",
     "ENVIRONMENT:",
     "    RUST_LOG               Log filter for stderr output (default: warn)",
     "",
     "EXAMPLES:",
     "    # Report diagnostics only",
     "    flowbind-check ./orders",
     "",
     "    # Check and write rewritten sources",
     "    flowbind-check ./orders --emit ./target/orders",
     "",
     "    # Machine-readable diagnostics",
     "    flowbind-check ./orders --format json",
     "",
     ""]

/-! ### Arguments -/

/-- The format with a name. -/
def formatNamed : String → Except UsageError ReportFormat
  | "text" => .ok .text
  | "json" => .ok .json
  | name => .error (.unknownFormat name)

/-- The command that arguments ask for, given what those before them set.  They are taken from left
to right: a request for help is granted before what is behind it is looked at. -/
def ofArgsFrom (dir emit : Option String) (format : ReportFormat) :
    List String → Except UsageError Command
  | [] =>
    match dir with
    | some packageDir => .ok (.check ⟨packageDir, emit, format⟩)
    | none => .error .noDirectory
  | "--help" :: _ | "-h" :: _ => .ok .help
  | ["--emit"] => .error .emitWithoutPath
  | "--emit" :: path :: args => ofArgsFrom dir (some path) format args
  | ["--format"] => .error .formatWithoutName
  | "--format" :: name :: args => do ofArgsFrom dir emit (← formatNamed name) args
  | arg :: args =>
    if arg.startsWith "-" then .error (.unknownArgument arg)
    else if dir.isSome then .error (.secondDirectory arg)
    else ofArgsFrom (some arg) emit format args

/-- The command that arguments ask for. -/
def ofArgs (args : List String) : Except UsageError Command := ofArgsFrom none none .text args

/-! ### Running -/

/-- What is said of a package before its diagnostics. -/
def heading (p : Package) : String :=
  "Checking package: " ++ p.org ++ "/" ++ p.name ++ " (" ++ toString p.documents.length
    ++ " documents)\n"

/-- What is said of a package behind its diagnostics. -/
def tally (ds : Diagnostics) : String :=
  toString (ds.count .error) ++ " error(s), " ++ toString (ds.count .warning) ++ " warning(s)\n"

/-- What is said of an error. -/
def complaint (message : String) : String := "Error: " ++ message ++ "\n"

/-- What is said of the sources that were written. -/
def emitted (dir : String) (documents : List Routing.RoutedDocument) : String :=
  "Wrote " ++ toString documents.length ++ " document(s) to " ++ dir ++ " ("
    ++ toString (documents.filter (·.changed)).length ++ " rewritten)\n"

/-- Writes documents until one cannot be written. -/
def writeAll {m : Type → Type} [Monad m] (disk : Disk m) (dir : String) :
    List Routing.RoutedDocument → m (Except EmitError Unit)
  | [] => pure (.ok ())
  | d :: ds => do
    match ← disk.write (Path.join dir d.path) d.text with
    | .error e => pure (.error e)
    | .ok () => writeAll disk dir ds

/-- Checks a package. -/
def runCheck {m : Type → Type} [Monad m] (disk : Disk m) (r : CheckRequest) : m CommandResult := do
  match Package.load r.packageDir (← disk.look r.packageDir) with
  | .error e =>
    pure ⟨false, "", complaint ("Failed to load package " ++ r.packageDir ++ ": " ++ e.fullMessage)⟩
  | .ok package =>
    let outcome := Check.check package {}
    let stdout := outcome.diagnostics.report r.format
    let said := heading package ++ tally outcome.diagnostics
    match r.emitDir, outcome.routed with
    | none, _ => pure ⟨outcome.isClean, stdout, said⟩
    | some _, none =>
      pure ⟨outcome.isClean, stdout, said ++ "Skipping emit: package has errors\n"⟩
    | some dir, some documents =>
      match ← writeAll disk dir documents with
      | .ok () => pure ⟨outcome.isClean, stdout, said ++ emitted dir documents⟩
      | .error e => pure ⟨false, stdout, said ++ complaint e.message⟩

/-- Runs the command that arguments ask for. -/
def run {m : Type → Type} [Monad m] (disk : Disk m) (args : List String) : m CommandResult :=
  match ofArgs args with
  | .error e => pure ⟨false, "", complaint e.message ++ "\n" ++ usage⟩
  | .ok .help => pure ⟨true, "", usage⟩
  | .ok (.check r) => runCheck disk r

/-! ### Snapshots -/

/-- Writes a file to a snapshot. -/
def writeToSnapshot (path text : String) : StateM FileTree (Except EmitError Unit) := fun t =>
  match t.write? path text with
  | .ok t' => (.ok (), t')
  | .error .blockedByFile =>
    (.error (.directory (Path.parent path) "Not a directory (os error 20)"), t)
  | .error .directoryIsFile =>
    (.error (.directory (Path.parent path) "File exists (os error 17)"), t)
  | .error .isDirectory => (.error (.file path "Is a directory (os error 21)"), t)

/-- A snapshot as a place to run the command on. -/
def snapshot : Disk (StateM FileTree) where
  look path := fun t => (t.lookup? path, t)
  write := writeToSnapshot

/-- Runs the command on a snapshot; the snapshot afterwards has what was written. -/
def runOnSnapshot (args : List String) (t : FileTree) : CommandResult × FileTree :=
  (run snapshot args).run t

end Command

end Durable
