/-
Diagnostics.

A violation is a rule that was broken, with the names its text mentions; a diagnostic is
a violation at a place of a file.  Every rule has a number that is stable, from which
tools know it.
-/
import Durable.Order
import Durable.Text.Source
import Durable.Package.Path

namespace Durable

/-- How much a violation matters. -/
inductive Severity where
  | error | warning
deriving DecidableEq, Repr

namespace Severity

/-- The severity at the start of a line for people. -/
def label : Severity → String
  | error => "ERROR" | warning => "WARNING"

/-- The severity as tools read it. -/
def tag : Severity → String
  | error => "error" | warning => "warning"

end Severity

/-- A rule that was broken. -/
inductive Violation where
  -- What a service must not be.
  | resourceMethod
  | noEntryMethod
  | methodParam
  | methodUnmarked
  | methodNotIsolated
  | queryReturn
  | methodReturn
  | secondEntryMethod
  -- What the signature of an activity must not be.
  | activityParam
  | activityReturn
  -- What the signature of a process must not be.
  | contextParam
  | inputParam
  | inputAfterEvents
  | eventsParam
  | tooManyParams
  | processReturn
  -- What the body of an entry must not do.
  | mutableInLock (global : String)
  | activityBoundToVar
  -- How an activity must not be called.
  | targetNotActivity (target : String)
  | directCall (activity : String)
  | missingArgument (activity param : String)
  | unknownArgument (activity param : String)
  | restParams (activity : String)
  | uncheckedArguments
deriving DecidableEq, Repr

namespace Violation

/-- The number of a rule. -/
def number : Violation → Nat
  | resourceMethod => 100 | noEntryMethod => 101 | methodParam => 102 | methodUnmarked => 103
  | methodNotIsolated => 104 | queryReturn => 105 | methodReturn => 106 | activityParam => 107
  | mutableInLock _ => 108 | activityBoundToVar => 109 | activityReturn => 110
  | contextParam => 111 | inputParam => 112 | inputAfterEvents => 113 | eventsParam => 114
  | tooManyParams => 115 | processReturn => 116 | targetNotActivity _ => 117 | directCall _ => 118
  | missingArgument _ _ => 119 | unknownArgument _ _ => 120 | restParams _ => 121
  | secondEntryMethod => 122 | uncheckedArguments => 123

/-- The violation of the rule with a number, by the names that its text mentions. -/
def ofNumber? (a b : String) : Nat → Option Violation
  | 100 => some resourceMethod | 101 => some noEntryMethod | 102 => some methodParam
  | 103 => some methodUnmarked | 104 => some methodNotIsolated | 105 => some queryReturn
  | 106 => some methodReturn | 107 => some activityParam | 108 => some (mutableInLock a)
  | 109 => some activityBoundToVar | 110 => some activityReturn | 111 => some contextParam
  | 112 => some inputParam | 113 => some inputAfterEvents | 114 => some eventsParam
  | 115 => some tooManyParams | 116 => some processReturn | 117 => some (targetNotActivity a)
  | 118 => some (directCall a) | 119 => some (missingArgument a b)
  | 120 => some (unknownArgument a b) | 121 => some (restParams a) | 122 => some secondEntryMethod
  | 123 => some uncheckedArguments
  | _ => none

/-- The code of a rule. -/
def code (v : Violation) : String := "WORKFLOW_" ++ toString v.number

/-- Arguments that cannot be read off the source are only worth a warning. -/
def severity : Violation → Severity
  | uncheckedArguments => .warning
  | _ => .error

/-- What a rule says. -/
def message : Violation → String
  | resourceMethod => "resource methods are not allowed in a workflow service"
  | noEntryMethod => "workflow service should contain remote method `execute`"
  | methodParam =>
    "parameters of a remote method in a workflow service should be a subtype of `anydata`"
  | methodUnmarked =>
    "remote methods in a workflow service should be annotated with `@workflow:Signal` or "
      ++ "`@workflow:Query` annotation"
  | methodNotIsolated => "remote methods in a workflow service should be isolated"
  | queryReturn =>
    "return type of a remote method annotated with `@workflow:Query` should be a subtype of "
      ++ "`anydata|error`"
  | methodReturn =>
    "return type of a remote method in a workflow service should be a subtype of `error?`"
  | secondEntryMethod => "workflow service should contain only one remote method `execute`"
  | activityParam => "parameters of an activity function should be a subtype of `anydata`"
  | activityReturn => "return type of an activity function should be a subtype of `anydata|error`"
  | contextParam => "first parameter of a process function should be of type `workflow:Context`"
  | inputParam => "input parameter of a process function should be a subtype of `anydata`"
  | inputAfterEvents =>
    "input parameter of a process function should come before the events parameter"
  | eventsParam =>
    "events parameter of a process function should be a record whose fields are all "
      ++ "`future<anydata>`"
  | tooManyParams => "a process function accepts at most a context, an input and an events parameter"
  | processReturn => "return type of a process function should be a subtype of `anydata|error`"
  | mutableInLock v => "execute function cannot access mutable global variable `" ++ v ++ "`"
  | activityBoundToVar => "cannot use var binding pattern when calling an activity function"
  | targetNotActivity t =>
    "`" ++ t ++ "` passed to `callActivity` should be a function annotated with "
      ++ "`@workflow:Activity`"
  | directCall a => "activity function `" ++ a ++ "` cannot be called directly; use `callActivity`"
  | missingArgument a p => "missing required parameter `" ++ p ++ "` for activity `" ++ a ++ "`"
  | unknownArgument a p => "`" ++ p ++ "` is not a parameter of activity `" ++ a ++ "`"
  | restParams a =>
    "activity `" ++ a ++ "` declares rest parameters, which `callActivity` does not support"
  | uncheckedArguments =>
    "arguments of `callActivity` are not a mapping literal; parameter names are not checked"

end Violation

/-- A violation at a place of the document that is being checked. -/
structure Finding where
  violation : Violation
  span : Span
deriving DecidableEq, Repr

/-- A violation at a place of a file. -/
structure Diagnostic where
  violation : Violation
  location : Location
deriving DecidableEq, Repr

namespace Diagnostic

/-- A finding in a source text. -/
def ofFinding (source : Source) (f : Finding) : Diagnostic := ⟨f.violation, source.location f.span⟩

def severity (d : Diagnostic) : Severity := d.violation.severity

/-- The line that tells a person about a diagnostic. -/
def render (d : Diagnostic) : String :=
  d.severity.label ++ " [" ++ d.location.render ++ "] " ++ d.violation.message ++ " ("
    ++ d.violation.code ++ ")"

/-- The order of diagnostics: by file, line, column and rule. -/
def compare (a b : Diagnostic) : Ordering :=
  (Path.compare a.location.file b.location.file).then
    ((Ord.compare a.location.line b.location.line).then
      ((Ord.compare a.location.column b.location.column).then
        (Ord.compare a.violation.number b.violation.number)))

end Diagnostic

/-- Diagnostics in the order in which they are reported. -/
abbrev Diagnostics := List Diagnostic

namespace Diagnostics

/-- The diagnostics by file and position; those that are level keep their order. -/
def sorted (ds : Diagnostics) : Diagnostics := sortBy (fun a b => (a.compare b).isLE) ds

/-- How many diagnostics there are of a severity. -/
def count (s : Severity) (ds : Diagnostics) : Nat := (ds.filter (·.severity == s)).length

def hasErrors (ds : Diagnostics) : Bool := ds.any (·.severity == .error)

end Diagnostics

end Durable
