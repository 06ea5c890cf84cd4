/-
What happened to a workflow since it was started.

A step is an operation of the engine with all that it takes from outside.  `Since` ties a state to
the log of the steps that were made since a workflow was started under an id, each with the state it
was made in.  The log goes on past the end of the workflow, but not past the start of another one
under the same id, so that it is the story of one instance; steps that concern other workflows are
in it like those that concern this one, and nothing is assumed about their order.

Two facts carry whatever is said about such a story.  The instance is there throughout and holds
what was delivered to it, step by step (`Since.exists_instance`), and it is running until a step
ends it (`isRunning_after`).
-/
import Durable.Proofs.Engine.Lifecycle

namespace Durable

namespace Engine

variable {α π : Type} {e : Engine} {id : String} {i : Instance}

/-! ### Steps -/

/-- What can be done to an engine, with all that it takes from outside: the registries, an id that
is made up, the answer to a request for a thread, a reading of the clock, what came of a process. -/
inductive Step (α π : Type) where
  | start (r : Registries α π) (fresh process : String) (input : EngineValue) (spawn : Spawn)
  | finish (id : String) (output : Output)
  | send (r : Registries α π) (process : String) (data : EngineValue)
  | sleep (id sleepId : String) (duration now : Nat)
  | close

/-- The state that a step leaves. -/
def after (e : Engine) : Step α π → Engine
  | .start r fresh process input spawn => (start r e fresh process input spawn).2
  | .finish id output => e.finish id output
  | .send r process data => (e.send r process data).2
  | .sleep id sleepId duration now => (e.sleep id sleepId duration now).2
  | .close => e.close

/-- A step starts a workflow under an id: it puts a new instance there, whether or not there is a
thread for its process. -/
def Starts (e : Engine) (id : String) : Step α π → Prop
  | .start r fresh process input _ => ∃ handle, e.Begins r fresh process input id handle
  | _ => False

/-- A step ends the workflow with an id. -/
def Step.ends (id : String) : Step α π → Bool
  | .finish other _ => id == other
  | _ => false

/-- The events that a step delivers to a workflow: the fields of event data that the engine accepts
for it. -/
def delivered (e : Engine) (id : String) : Step α π → List (String × EngineValue)
  | .send r process data =>
    if (e.send r process data).1 = .ok true ∧ data.workflowId? = some id
    then data.otherFields else []
  | _ => []

/-- A step that starts no other workflow under an id leaves the instance there as it is, but for its
end and for the events that are delivered to it. -/
theorem exists_instance_after (h : e.instances.get? id = some i) (s : Step α π)
    (same : ¬ e.Starts id s) :
    ∃ i', (e.after s).instances.get? id = some i' ∧ i'.events = i.events ++ e.delivered id s := by
  cases s with
  | start r fresh process input spawn =>
    refine ⟨i, ?_, by simp [delivered]⟩
    rw [after, instances_start (not_exists.mp same) spawn, h]
  | finish other output =>
    rw [after, instances_finish]
    split
    · next hid =>
      subst hid
      rw [h]
      exact ⟨_, rfl, by simp [delivered]⟩
    · exact ⟨i, h, by simp [delivered]⟩
  | send r process data =>
    obtain ⟨other, j, haccepts⟩ | ⟨answer, hanswer, heq⟩ := send_cases r e process data
    · by_cases hid : other = id
      · subst hid
        obtain rfl := Option.some.inj (h.symm.trans haccepts.found)
        refine ⟨_, by rw [after, haccepts.send_eq, instances_withInstance_self], ?_⟩
        simp [delivered, haccepts.send_eq, haccepts.named]
      · refine ⟨i, ?_, ?_⟩
        · rw [after, haccepts.send_eq, instances_withInstance_of_ne _ _ (Ne.symm hid), h]
        · simp [delivered, haccepts.send_eq, haccepts.named, hid]
    · exact ⟨i, by rw [after, heq, h], by simp [delivered, heq, hanswer]⟩
  | sleep other sleepId duration now =>
    refine ⟨i, ?_, by simp [delivered]⟩
    obtain heq | ⟨-, instant, heq⟩ := sleep_cases e other sleepId duration now <;>
      rw [after, heq, h]
  | close => exact ⟨i, h, by simp [delivered]⟩

/-- Behind a step a workflow is running that was running, unless the step ends it. -/
theorem isRunning_after {s : Step α π} (same : ¬ e.Starts id s) :
    (e.after s).isRunning id = (e.isRunning id && !s.ends id) := by
  cases s with
  | start r fresh process input spawn =>
    have hsame : (Engine.start r e fresh process input spawn).2.instances.get? id =
        e.instances.get? id := instances_start (not_exists.mp same) spawn
    simp [after, isRunning, status?, hsame, Step.ends]
  | finish other output => rw [after, isRunning_finish]; rfl
  | send r process data => simp [after, isRunning_send, Step.ends]
  | sleep other sleepId duration now => simp [after, isRunning_sleep, Step.ends]
  | close => simp [after, close, isRunning, status?, Step.ends]

theorem Coherent.after (h : e.Coherent) (s : Step α π) : (e.after s).Coherent := by
  cases s with
  | start r fresh process input spawn => exact h.start r fresh process input spawn
  | finish id output => exact h.finish id output
  | send r process data => exact h.send r process data
  | sleep id sleepId duration now => exact h.sleep id sleepId duration now
  | close => exact ⟨h.settled, h.awake⟩

/-! ### The story of an instance -/

/-- A step with the state it was made in. -/
structure Move (α π : Type) where
  before : Engine
  step : Step α π

/-- A workflow was started under an id, in a state that operations lead to, and the log tells what
was done to the engine since.  No other workflow was started under the id. -/
inductive Since (α π : Type) (id : String) : Engine → List (Move α π) → Prop
  | start {before : Engine} {processes : List String} (reached : Reached α π before processes)
      {s : Step α π} (starts : before.Starts id s) : Since α π id (before.after s) []
  | step {e : Engine} {log : List (Move α π)} (since : Since α π id e log) (s : Step α π)
      (same : ¬ e.Starts id s) : Since α π id (e.after s) (log ++ [⟨e, s⟩])

/-- Where a step starts a workflow no other is running, and an instance without events is there
behind it. -/
theorem Starts.exists_instance {s : Step α π} (h : e.Starts id s) : e.isRunning id = false ∧
    ∃ i, (e.after s).instances.get? id = some i ∧ i.events = [] := by
  cases s with
  | start r fresh process input spawn =>
    obtain ⟨handle, hbegins⟩ := h
    exact ⟨hbegins.free, exists_instance_start hbegins spawn⟩
  | finish | send | sleep | close => exact h.elim

namespace Since

variable {log : List (Move α π)}

theorem coherent (h : Since α π id e log) : e.Coherent := by
  induction h with
  | @start _ _ reached s _ => exact reached.coherent.after s
  | step _ s _ ih => exact ih.after s

/-- The instance is there, and its events are those that were delivered to it. -/
theorem exists_instance (h : Since α π id e log) :
    ∃ i, e.instances.get? id = some i ∧
      i.events = log.flatMap fun m => m.before.delivered id m.step := by
  induction h with
  | start _ starts => exact starts.exists_instance.2
  | step since s same ih =>
    obtain ⟨i, hi, hevents⟩ := ih
    obtain ⟨i', hi', hevents'⟩ := exists_instance_after hi s same
    exact ⟨i', hi', by simp [hevents', hevents]⟩

end Since

/-! ### A story of one workflow -/

/-- The input of a workflow `w`. -/
def orderInput : EngineValue := .object [("id", .string "w")]

/-- A workflow `w` is to be started, and there is a thread for it. -/
def startOrder : Step Unit Unit := .start orders "" "order" orderInput .made

/-- A workflow `w` was started. -/
def startedOrder : Engine := (create "localhost:7233" "default").after startOrder

/-- An engine in which no workflow `w` is running starts it. -/
theorem starts_startOrder (h : e.isRunning "w" = false) : e.Starts "w" startOrder :=
  ⟨(), rfl, rfl, h⟩

theorem since_startedOrder : Since Unit Unit "w" startedOrder [] :=
  .start (.create "localhost:7233" "default") (starts_startOrder rfl)

end Engine

end Durable
