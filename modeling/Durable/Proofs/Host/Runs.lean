/-
A host at work: requests, one after the other.

`Host.serve` answers one request and `Host.serveAll` a whole sequence of them.  The log of a
sequence holds every request with what came of it, in order, so that a statement about all
sequences is one about what their logs hold and which host they leave.  A request whose call of the
engine is refused counts like any other: a process or an activity may have been registered on the
way to the refusal.
-/
import Durable.Proofs.Registry.Processes

namespace Durable

variable {α π ε : Type}

/-- What can be asked of a host. -/
inductive HostRequest (α π ε : Type) where
  | initClient (engine : ε)
  | closeClient
  | shutdown
  | clearRegistries
  | registerProcess (e : Enrolment α π)
  | registerServiceActivities (activities : List (Named α))
  | callActivity (a : Named α) (args : Value)
  | invokeActivity (name : String) (args : List Value)
  | startProcess (p : Named π) (input : Value)
  | sendEvent (process : String) (data : Value)

/-- What comes of a request. -/
inductive HostOutcome (ε : Type) where
  | done (result : Except HostError Unit)
  | counted (count : Nat)
  /-- The engine is called, or it is said why not. -/
  | called (call : Except HostError (EngineCall ε))
  /-- The handle is given up, and the engine is to be closed unless it was before. -/
  | closed (call : Except HostError (Option (EngineCall ε)))

/-- A request with what came of it. -/
structure Exchange (α π ε : Type) where
  request : HostRequest α π ε
  outcome : HostOutcome ε

namespace Host

/-- Answers a request. -/
def serve (h : Host α π ε) : HostRequest α π ε → HostOutcome ε × Host α π ε
  | .initClient engine => (h.initClient engine).map .done id
  | .closeClient => h.closeClient.map .closed id
  | .shutdown => (.done (.ok ()), h.shutdown)
  | .clearRegistries => (.done (.ok ()), h.clearRegistries)
  | .registerProcess e => (h.registerProcess e.process e.activities e.events).map .done id
  | .registerServiceActivities as => (h.registerServiceActivities as).map .counted id
  | .callActivity a args => (h.callActivity a args).map .called id
  | .invokeActivity name args => (.called (h.invokeActivity name args), h)
  | .startProcess p input => (h.startProcess p input).map .called id
  | .sendEvent process data => (.called (h.sendEvent process data), h)

/-- Answers requests one after the other. -/
def serveAll (h : Host α π ε) : List (HostRequest α π ε) → List (Exchange α π ε) × Host α π ε
  | [] => ([], h)
  | q :: more =>
    let (outcome, next) := h.serve q
    let (log, last) := next.serveAll more
    (⟨q, outcome⟩ :: log, last)

theorem serveAll_nil (h : Host α π ε) : h.serveAll [] = ([], h) := rfl

theorem serveAll_cons (h : Host α π ε) (q : HostRequest α π ε) (more : List (HostRequest α π ε)) :
    h.serveAll (q :: more) =
      (⟨q, (h.serve q).1⟩ :: ((h.serve q).2.serveAll more).1, ((h.serve q).2.serveAll more).2) :=
  rfl

/-- What one request leaves true of the log so far and the host, every sequence does. -/
theorem serveAll_induction {P : List (Exchange α π ε) → Host α π ε → Prop}
    (step : ∀ log h q, P log h → P (log ++ [⟨q, (h.serve q).1⟩]) (h.serve q).2)
    {log : List (Exchange α π ε)} {h : Host α π ε} (start : P log h)
    (requests : List (HostRequest α π ε)) :
    P (log ++ (h.serveAll requests).1) (h.serveAll requests).2 := by
  induction requests generalizing log h with
  | nil =>
    rw [serveAll_nil, List.append_nil]
    exact start
  | cons q more ih =>
    rw [serveAll_cons, List.append_cons]
    exact ih (step log h q start)

end Host

end Durable
