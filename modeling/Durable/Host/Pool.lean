/-
The workers of a host.

Calls that block are made by workers, and the caller waits for the outcome.  A job that
panics is reported to its caller, and the worker lives on.

How jobs wait for a worker that is free is not told, nor what happens to a job while
another caller stops the workers.
-/
import Durable.Host.Error
import Durable.Thread

namespace Durable

/-- A pool of workers. -/
structure Pool where
  workers : Nat
  /-- Jobs are accepted. -/
  accepting : Bool
  /-- Those who wait for jobs are sent away. -/
  cancelled : Bool
deriving DecidableEq, Repr

/-- What a job comes to: a value, or a panic with its text if it has one. -/
inductive JobOutcome (β : Type) where
  | returned (b : β)
  | panicked (text : Option String)
deriving DecidableEq, Repr

namespace Pool

variable {β : Type}

/-- A pool with some workers, but at least one. -/
def start (threads : Nat) : Pool := ⟨max threads 1, true, false⟩

/-- A pool whose workers get their threads one after another.  Without a pool, the first thread that
was refused is told. -/
def create (threads : Nat) (spawn : Nat → Spawn) : Except HostError Pool :=
  match (List.range (max threads 1)).findSome? fun worker => (spawn worker).cause? with
  | some cause => .error (.workerSpawn cause)
  | none => .ok (start threads)

/-- Fails if an operation cannot be handed to the workers. -/
def accept (p : Pool) (operation : String) : Except HostError Unit :=
  if !p.accepting then .error .poolClosed
  else if p.cancelled then .error (.interrupted operation)
  else .ok ()

/-- What the caller of a job gets. -/
def run (p : Pool) (operation : String) (job : JobOutcome β) : Except HostError β :=
  match p.accept operation with
  | .error e => .error e
  | .ok () =>
    match job with
    | .returned b => .ok b
    | .panicked text => .error (.ofPanic text)

/-- Sends away those who wait. -/
def cancel (p : Pool) : Pool := { p with cancelled := true }

/-- Stops the workers. -/
def shutdown (_ : Pool) : Pool := ⟨0, false, true⟩

end Pool

end Durable
