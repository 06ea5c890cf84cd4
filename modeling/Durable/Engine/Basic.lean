/-
The embedded engine.

The engine keeps the instances of workflows: which process each runs, the events that
were delivered to it, what came of it, and until when it sleeps.  Each operation is a
function of the engine's state; what processes and activities do is none of the
engine's business, and the clock is read by the caller, who also says what came of
asking for a thread.

An instance that has ended keeps its events and its output until another one is started
under its id.

Operations are taken whole: what another thread does to the engine while an operation is
on its way is not told.
-/
import Durable.Engine.Clock
import Durable.Engine.Error
import Durable.Registry.Registries
import Durable.Thread
import Durable.Value.Basic

namespace Durable

/-- How far a workflow has come. -/
inductive Status where
  | running | completed | failed
deriving DecidableEq, Repr

/-- The word for a status. -/
def Status.word : Status → String
  | running => "running" | completed => "completed" | failed => "failed"

/-- What came of a workflow: a value, or the text of a failure. -/
abbrev Output := Except String EngineValue

/-- The status of a workflow that ended in an output. -/
def Status.ofOutput : Output → Status
  | .ok _ => completed
  | .error _ => failed

/-- An instance of a workflow. -/
structure Instance where
  process : String
  status : Status
  /-- The events that were delivered, in the order they came. -/
  events : List (String × EngineValue)
  output : Option Output

/-- An instance that has just been started. -/
def Instance.started (process : String) : Instance := ⟨process, .running, [], none⟩

/-- The deadline of a sleep. -/
structure Deadline where
  workflow : String
  sleep : String
  instant : Nat
deriving DecidableEq, Repr

/-- The state of an engine. -/
structure Engine where
  serviceUrl : String
  namespaceName : String
  instances : Table Instance
  deadlines : List Deadline
  closed : Bool

namespace Engine

variable {α π : Type}

/-- An engine for a service and a namespace. -/
def create (serviceUrl namespaceName : String) : Engine :=
  ⟨serviceUrl, namespaceName, [], [], false⟩

/-! ### Reading -/

/-- The instance with an id. -/
def instance? (e : Engine) (id : String) : Except EngineError Instance :=
  match e.instances.get? id with
  | some i => .ok i
  | none => .error (.workflowNotFound id)

/-- The status of a workflow. -/
def status? (e : Engine) (id : String) : Option Status := (e.instances.get? id).map (·.status)

/-- The output of a workflow that has ended. -/
def output? (e : Engine) (id : String) : Option Output := (e.instances.get? id).bind (·.output)

/-- A workflow is there and has not ended. -/
def isRunning (e : Engine) (id : String) : Bool := e.status? id == some .running

/-- The events that were delivered to a workflow. -/
def events (e : Engine) (id : String) : Except EngineError (List (String × EngineValue)) :=
  (e.instance? id).map (·.events)

/-- The value of the last event of a name that was delivered to a workflow. -/
def lastEvent (e : Engine) (id event : String) : Except EngineError (Option EngineValue) := do
  let all ← e.events id
  pure ((all.reverse.find? (·.1 == event)).map (·.2))

/-- The deadline of a sleep. -/
def deadline? (e : Engine) (id sleep : String) : Option Nat :=
  (e.deadlines.find? fun d => d.workflow == id && d.sleep == sleep).map (·.instant)

/-! ### Activities -/

/-- The activity with a name. -/
def activity (r : Registries α π) (name : String) : Except EngineError α :=
  match r.activities.lookup? name with
  | some a => .ok a
  | none => .error (.activityNotFound name)

/-- The activity that a process calls by a name. -/
def activityFor (r : Registries α π) (process name : String) : Except EngineError α :=
  match r.activityFor? process name with
  | some a => .ok a
  | none => .error (.activityNotFound name)

/-! ### The life of an instance -/

/-- A workflow that was started. -/
structure Started (π : Type) where
  id : String
  process : π

/-- The engine with an instance under an id. -/
def withInstance (e : Engine) (id : String) (i : Instance) : Engine :=
  { e with instances := e.instances.put id i }

/-- The instance under an id ends in an output; its sleeps are over. -/
def finish (e : Engine) (id : String) (output : Output) : Engine :=
  let awake := { e with deadlines := e.deadlines.filter fun d => d.workflow != id }
  match e.instances.get? id with
  | some i => awake.withInstance id { i with status := .ofOutput output, output := some output }
  | none => awake

/-- The name of the thread that a process runs on. -/
def threadName (process : String) : String := "flowbind-process-" ++ process

/-- Starts a process.  The workflow goes by the id that the input names, or else by a fresh one; an
id can be used again when its last instance has ended.

The new instance is put in its place before a thread is asked for.  Without a thread it has failed
at once.  A panic leaves it where it is: it counts as running, and no process ever ends it. -/
def start (r : Registries α π) (e : Engine) (fresh process : String) (input : EngineValue)
    (spawn : Spawn) : Except Fault (Started π) × Engine :=
  match r.processes.lookup? process with
  | none => (.error (.error (.processNotFound process)), e)
  | some handle =>
    let id := input.workflowId?.getD fresh
    if e.isRunning id then (.error (.error (.alreadyRunning id)), e)
    else
      let begun := e.withInstance id (.started process)
      match threadFault? (threadName process), spawn with
      | some text, _ => (.error (.panic (some text)), begun)
      | none, .made => (.ok ⟨id, handle⟩, begun)
      | none, .refused cause =>
        (.error (.error (.unavailable ("cannot start process thread: " ++ cause))),
          begun.finish id (.error cause))

/-! ### Events -/

/-- The first of some events that a process does not accept.  A process without registered events
accepts all. -/
def refusedEvent? (r : Registries α π) (process : String) (events : List (String × EngineValue)) :
    Option String :=
  match r.events.lookup? process with
  | some accepted => (events.find? fun (name, _) => !accepted.contains name).map (·.1)
  | none => none

/-- Delivers event data to the running instance of a process that the data names.  The answer is
false for an instance that has ended. -/
def send (r : Registries α π) (e : Engine) (process : String) (data : EngineValue) :
    Except EngineError Bool × Engine :=
  match data.workflowId? with
  | none => (.error .missingWorkflowId, e)
  | some id =>
    match e.instances.get? id with
    | none => (.error (.workflowNotFound id), e)
    | some i =>
      if i.process ≠ process then (.error (.workflowNotFound id), e)
      else match refusedEvent? r process data.otherFields with
        | some event => (.error (.unknownEvent process event), e)
        | none =>
          if i.status = .running then
            (.ok true, e.withInstance id { i with events := i.events ++ data.otherFields })
          else (.ok false, e)

/-! ### Sleeping -/

/-- How long a sleep lasts from now on.  The first sleep of an instance under an id sets the
deadline, and every later one only waits for what is left; an instance that has ended does not sleep.
A deadline that cannot be told is a panic. -/
def sleep (e : Engine) (id sleepId : String) (duration now : Nat) : Except Fault Nat × Engine :=
  match e.instances.get? id with
  | none => (.error (.error (.workflowNotFound id)), e)
  | some i =>
    if i.status ≠ .running then (.ok 0, e)
    else match e.deadline? id sleepId with
      | some instant => (.ok (instant - now), e)
      | none =>
        match Clock.deadline? now duration with
        | some instant =>
          (.ok (instant - now), { e with deadlines := e.deadlines ++ [⟨id, sleepId, instant⟩] })
        | none => (.error (.panic (some "deadline out of range")), e)

/-- Lets go of the engine's service.  Nothing depends on it. -/
def close (e : Engine) : Engine := { e with closed := true }

end Engine

end Durable
