/-
The registries of a host: processes, activities, and the events that processes accept.

The activities that belong to a process are registered under the name of the process, a
point and their own name.  A process finds its own activities first.
-/
import Durable.Registry.Basic
import Durable.Text.Visible

namespace Durable

/-- A handle that is known by a name: an activity or a process. -/
structure Named (η : Type) where
  name : String
  handle : η

/-- The description of an activity or a process, told by the word for it. -/
def Named.describe {η : Type} (word : String) (n : Named η) : String :=
  word ++ " \x7b name: " ++ Text.visibleQuote n.name ++ " \x7d"

/-- The registries of a host, over the handles of activities and of processes. -/
structure Registries (α π : Type) where
  processes : Registry π
  activities : Registry α
  /-- The names of the events that a process accepts, by the name of the process. -/
  events : Registry (List String)

/-- What is registered for one process. -/
structure Registration where
  name : String
  /-- The names of its activities, without the name of the process. -/
  activities : List String
  events : List String
deriving DecidableEq, Repr

namespace Registries

variable {α π : Type}

/-- Registries without names. -/
def empty : Registries α π := ⟨.empty "process", .empty "activity", .empty "events"⟩

/-- The name under which an activity of a process is registered. -/
def scopedName (process activity : String) : String := process ++ "." ++ activity

/-- The name of an activity inside its process, if a registered name is that of one. -/
def shortName? (process registered : String) : Option String :=
  let scope := (scopedName process "").toList
  if scope.isPrefixOf registered.toList then
    some (String.ofList (registered.toList.drop scope.length))
  else none

/-- The activity that a process calls by a name: its own, or else the one of that name. -/
def activityFor? (r : Registries α π) (process activity : String) : Option α :=
  match r.activities.lookup? (scopedName process activity) with
  | some a => some a
  | none => r.activities.lookup? activity

/-- Registers a process; a name that is taken is not. -/
def registerProcess (r : Registries α π) (p : Named π) : Bool × Registries α π :=
  let (isNew, processes) := r.processes.register p.name p.handle
  (isNew, { r with processes })

/-- Registers an activity; a name that is taken is not. -/
def registerActivity (r : Registries α π) (a : Named α) : Bool × Registries α π :=
  let (isNew, activities) := r.activities.register a.name a.handle
  (isNew, { r with activities })

/-- Registers the events that a process accepts, unless some are registered already. -/
def registerEvents (r : Registries α π) (process : String) (events : List String) :
    Bool × Registries α π :=
  let (isNew, registry) := r.events.register process events
  (isNew, { r with events := registry })

/-- Registers activities one by one; the answer says how many of them were new. -/
def registerActivities (r : Registries α π) : List (Named α) → Nat × Registries α π
  | [] => (0, r)
  | a :: more =>
    let (isNew, afterOne) := r.registerActivity a
    let (count, afterAll) := afterOne.registerActivities more
    (count + (if isNew then 1 else 0), afterAll)

/-- What is registered for a process. -/
def registration (r : Registries α π) (process : String) : Registration where
  name := process
  activities := r.activities.names.filterMap (shortName? process)
  events := (r.events.lookup? process).getD []

/-- What is registered, process by process. -/
def registrations (r : Registries α π) : List Registration :=
  r.processes.names.map r.registration

/-- Removes every name. -/
def clear (r : Registries α π) : Registries α π :=
  ⟨r.processes.clear, r.activities.clear, r.events.clear⟩

/-- The description of the registries. -/
def describe (r : Registries α π) : String :=
  "Registries \x7b processes: " ++ r.processes.describe ++ ", activities: "
    ++ r.activities.describe ++ ", events: " ++ r.events.describe ++ " \x7d"

end Registries

end Durable
