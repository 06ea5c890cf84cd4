/-
What activities and processes may look like from outside.

An activity takes plain data and returns plain data or an error.  A process takes up to
three parameters in a fixed order, each of which may be missing: the context, an input
of plain data, and a record of events.  Once the order is broken the parameters behind
say nothing, so at most one of them is reported.
-/
import Durable.Diagnostic
import Durable.Model.Types

namespace Durable.Rule

variable (m : Model) (doc : DocId)

/-- The finding that a written return type is not admitted. -/
def returnFinding (ok : TypeDesc → Bool) (v : Violation) : Option TypeDesc → List Finding
  | some t => if ok t then [] else [⟨v, t.span⟩]
  | none => []

/-- The findings that parameters are no plain data. -/
def paramFindings (v : Violation) (params : List Param) : List Finding :=
  (params.filter fun p => !m.isAnydata doc p.type).map fun p => ⟨v, p.span⟩

/-- What is wrong with the signature of an activity. -/
def activitySignature (f : Function) : List Finding :=
  paramFindings m doc .activityParam f.params
    ++ returnFinding (m.isAnydataOrError doc) .activityReturn f.returns

/-- The greatest number of parameters of a process. -/
def maxProcessParams : Nat := 3

/-- A first parameter that is meant to be the context: it is called so, or its type is. -/
def looksLikeContext (p : Param) : Bool :=
  p.name.name == "ctx" || p.name.name == "context"
    || (match p.type with
      | .named r => r.name.name == "Context"
      | _ => false)

/-- The first parameter behind the context that is out of place, given which of input and events came
before it. -/
def orderFinding (hasInput hasEvents : Bool) : List Param → Option Finding
  | [] => none
  | p :: ps =>
    if m.isEventsRecord doc p.type then
      if hasEvents then some ⟨.tooManyParams, p.span⟩ else orderFinding hasInput true ps
    else if hasInput then some ⟨.eventsParam, p.span⟩
    else if m.isAnydata doc p.type then
      if hasEvents then some ⟨.inputAfterEvents, p.span⟩ else orderFinding true hasEvents ps
    else some ⟨.inputParam, p.span⟩

/-- What is wrong with the parameters of a process. -/
def processParams (f : Function) : Option Finding :=
  if maxProcessParams < f.params.length then some ⟨.tooManyParams, f.name.span⟩
  else match f.params with
    | [] => none
    | first :: others =>
      if m.isFrameworkType doc .context first.type then orderFinding m doc false false others
      else if looksLikeContext first then some ⟨.contextParam, first.span⟩
      else orderFinding m doc false false (first :: others)

/-- What is wrong with the signature of a process. -/
def processSignature (f : Function) : List Finding :=
  (processParams m doc f).toList
    ++ returnFinding (m.isAnydataOrError doc) .processReturn f.returns

end Durable.Rule
