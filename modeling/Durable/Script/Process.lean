/-
Processes given as data.

A process is a function of workflow code too.  A script is a list of instructions that
are carried out in order; most of them log what they find, and the log is what comes of
the process.  Two instructions can hold a process up: one waits for an event, the other
for a deadline.
-/
import Durable.Engine.Basic

namespace Durable

/-- One step of a process. -/
inductive Instruction where
  /-- Logs the id of the workflow. -/
  | workflowId
  /-- Logs the name of the process. -/
  | processName
  /-- Logs the input. -/
  | input
  /-- Calls an activity and logs what it answers. -/
  | call (activity : String) (args : EngineValue)
  /-- Logs the value of the last event of a name. -/
  | event (name : String)
  /-- Logs all events. -/
  | events
  /-- Waits until an event of a name is there. -/
  | awaitEvent (name : String)
  /-- Sleeps for some milliseconds. -/
  | sleep (id : String) (duration : Nat)
  | fail (message : String)
  | panic

/-- A process, as its instructions. -/
abbrev ProcessScript := List Instruction

/-- A process on its way: what it has still to do and what it has logged, the latest first. -/
structure Run (ε : Type) where
  engine : ε
  workflow : String
  process : String
  input : EngineValue
  todo : List Instruction
  log : List EngineValue
  /-- The instant the process sleeps until. -/
  wakes : Option Nat

/-- How an answer is logged. -/
def logOfAnswer : Except EngineError EngineValue → EngineValue
  | .ok v => .object [("ok", v)]
  | .error e => .object [("error", .string e.kind), ("message", .string e.message)]

/-- How the last event of a name is logged. -/
def logOfEvent : Option EngineValue → EngineValue
  | some v => .object [("some", v)]
  | none => .null

/-- How events are logged. -/
def logOfEvents (events : List (String × EngineValue)) : EngineValue :=
  .array (events.map fun (name, v) => .array [.string name, v])

/-- How a sleep is logged: it succeeded, and whether all of its duration was waited for. -/
def logOfSleep (duration waited : Nat) : EngineValue :=
  .array [.bool true, .bool (0 < duration && duration ≤ waited)]

/-- What comes of a process that panics. -/
def panicOutput (process : String) : Output := .error ("process `" ++ process ++ "` panicked")

end Durable
