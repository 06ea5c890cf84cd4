/-
What an engine can fail with.
-/

namespace Durable

/-- A failure that an engine reports. -/
inductive EngineError where
  | processNotFound (name : String)
  | activityNotFound (name : String)
  | workflowNotFound (id : String)
  | alreadyRunning (id : String)
  /-- Event data does not say which workflow it is for. -/
  | missingWorkflowId
  | unknownEvent (process event : String)
  /-- An activity or a process ended in failure. -/
  | failed (message : String)
  | unavailable (cause : String)
deriving DecidableEq, Repr

namespace EngineError

/-- The name of the kind of a failure. -/
def kind : EngineError → String
  | processNotFound _ => "ProcessNotFound"
  | activityNotFound _ => "ActivityNotFound"
  | workflowNotFound _ => "WorkflowNotFound"
  | alreadyRunning _ => "WorkflowAlreadyRunning"
  | missingWorkflowId => "MissingWorkflowId"
  | unknownEvent _ _ => "UnknownEvent"
  | failed _ => "Failed"
  | unavailable _ => "Unavailable"

/-- The text of a failure. -/
def message : EngineError → String
  | processNotFound name => "process `" ++ name ++ "` is not registered"
  | activityNotFound name => "activity `" ++ name ++ "` is not registered"
  | workflowNotFound id => "workflow `" ++ id ++ "` not found"
  | alreadyRunning id => "workflow `" ++ id ++ "` is already running"
  | missingWorkflowId => "event data must contain an `id` field"
  | unknownEvent process event =>
    "process `" ++ process ++ "` does not accept event `" ++ event ++ "`"
  | failed text => text
  | unavailable cause => "engine unavailable: " ++ cause

end EngineError

/-- What can come of a call apart from a result: a failure that is reported, or a panic, which
carries its text if it has one. -/
inductive Fault where
  | error (e : EngineError)
  | panic (text : Option String)
deriving DecidableEq, Repr

end Durable
