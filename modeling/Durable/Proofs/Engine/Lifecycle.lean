/-
The life of workflows in an engine.

`Reached e processes` says that operations in some order lead from an empty engine to the state
`e`, while the processes of the workflows in `processes` are still on their way.  A process is on
its way from the start that was granted to it until it finishes, and it finishes by its own hand;
the engine is not asked whether its workflow is running.

That it always is, is part of the invariant: processes on their way and running instances are the
same, but for the instances that a panic left behind.  So a process never settles the instance of a
successor that was started under the same id.

An operation is one step.  What its thread looks at and what it writes belong together: a sleep that
finds its workflow running notes the deadline before that workflow can end, and a start without a
thread ends its instance before anyone else finds it.  Runs in which another thread acts in between
are not among these.
-/
import Mathlib.Data.List.Nodup
import Durable.Engine.Basic

namespace Durable

/-- The output of an instance says how far it has come. -/
structure Instance.Settled (i : Instance) : Prop where
  running : i.output = none ↔ i.status = .running
  completed : (∃ v, i.output = some (.ok v)) ↔ i.status = .completed
  failed : (∃ text, i.output = some (.error text)) ↔ i.status = .failed

namespace Instance

theorem settled_started (process : String) : (started process).Settled := by
  constructor <;> simp [started]

theorem settled_ended (i : Instance) (output : Output) :
    { i with status := .ofOutput output, output := some output : Instance }.Settled := by
  cases output <;> constructor <;> simp [Status.ofOutput]

/-- Events say nothing about how far an instance has come. -/
theorem Settled.withEvents {i : Instance} (h : i.Settled) (events : List (String × EngineValue)) :
    { i with events : Instance }.Settled := ⟨h.running, h.completed, h.failed⟩

end Instance

namespace Engine

variable {α π : Type} {e e' : Engine} {id : String} {i : Instance} {processes : List String}

/-! ### What an operation does to the state -/

/-- What is read of an instance. -/
theorem reads_of_instance (h : e.instances.get? id = some i) :
    e.status? id = some i.status ∧ e.events id = .ok i.events ∧ e.output? id = i.output := by
  simp [status?, events, instance?, output?, h, Except.map]

theorem isRunning_eq_true :
    e.isRunning id = true ↔ ∃ i, e.instances.get? id = some i ∧ i.status = .running := by
  simp [isRunning, status?]

@[simp] theorem instances_withInstance_self (e : Engine) (id : String) (i : Instance) :
    (e.withInstance id i).instances.get? id = some i := Table.get?_put_self _ _ _

theorem instances_withInstance_of_ne (e : Engine) (i : Instance) {other : String} (h : other ≠ id) :
    (e.withInstance id i).instances.get? other = e.instances.get? other :=
  Table.get?_put_of_ne _ _ h

theorem isRunning_withInstance (e : Engine) (id other : String) (i : Instance) :
    (e.withInstance id i).isRunning other =
      if other = id then i.status == .running else e.isRunning other := by
  unfold isRunning status?
  split
  · rename_i h
    simp [h]
  · rename_i h
    rw [instances_withInstance_of_ne _ _ h]

theorem instances_finish (e : Engine) (id other : String) (output : Output) :
    (e.finish id output).instances.get? other =
      if other = id then
        (e.instances.get? id).map fun i =>
          { i with status := .ofOutput output, output := some output }
      else e.instances.get? other := by
  unfold finish
  by_cases hid : other = id
  · subst hid
    cases hi : e.instances.get? other <;> simp [hi]
  · rw [if_neg hid]
    cases e.instances.get? id with
    | none => rfl
    | some i => exact instances_withInstance_of_ne _ _ hid

theorem instances_finish_self (h : e.instances.get? id = some i) (output : Output) :
    (e.finish id output).instances.get? id =
      some { i with status := .ofOutput output, output := some output } := by
  rw [instances_finish, if_pos rfl, h]
  rfl

theorem deadlines_finish (e : Engine) (id : String) (output : Output) :
    (e.finish id output).deadlines = e.deadlines.filter (·.workflow != id) := by
  unfold finish
  cases e.instances.get? id <;> rfl

theorem isRunning_finish (e : Engine) (id other : String) (output : Output) :
    (e.finish id output).isRunning other = (e.isRunning other && other != id) := by
  have hended : (Status.ofOutput output == .running) = false := by cases output <;> rfl
  unfold isRunning status?
  rw [instances_finish]
  by_cases hid : other = id
  · cases hi : e.instances.get? id <;> simp [hid, hi, hended]
  · simp [hid]

/-- A start puts a new instance under an id: the process is registered, the workflow is to go by the
id, and no instance is running there. -/
structure Begins (e : Engine) (r : Registries α π) (fresh process : String) (input : EngineValue)
    (id : String) (handle : π) : Prop where
  registered : r.processes.lookup? process = some handle
  named : input.workflowId?.getD fresh = id
  free : e.isRunning id = false

namespace Begins

variable {r : Registries α π} {fresh process : String} {input : EngineValue} {handle : π}

theorem start_made (h : e.Begins r fresh process input id handle)
    (hnamed : threadFault? (threadName process) = none) :
    start r e fresh process input .made =
      (.ok ⟨id, handle⟩, e.withInstance id (.started process)) := by
  obtain ⟨hprocess, rfl, hfree⟩ := h
  simp [start, hprocess, hfree, hnamed]

theorem start_refused (h : e.Begins r fresh process input id handle)
    (hnamed : threadFault? (threadName process) = none) (cause : String) :
    start r e fresh process input (.refused cause) =
      (.error (.error (.unavailable ("cannot start process thread: " ++ cause))),
        (e.withInstance id (.started process)).finish id (.error cause)) := by
  obtain ⟨hprocess, rfl, hfree⟩ := h
  simp [start, hprocess, hfree, hnamed]

theorem start_unnamed (h : e.Begins r fresh process input id handle) {text : String}
    (hunnamed : threadFault? (threadName process) = some text) (spawn : Spawn) :
    start r e fresh process input spawn =
      (.error (.panic (some text)), e.withInstance id (.started process)) := by
  obtain ⟨hprocess, rfl, hfree⟩ := h
  simp [start, hprocess, hfree, hunnamed]

end Begins

/-- What a start comes to. -/
inductive StartCase (r : Registries α π) (e : Engine) (fresh process : String)
    (input : EngineValue) (spawn : Spawn) : Prop
  /-- Nothing is begun, and the state is left alone. -/
  | refused {fault : EngineError} (idle : ∀ id handle, ¬ e.Begins r fresh process input id handle)
      (call : start r e fresh process input spawn = (.error (.error fault), e))
  | granted {id : String} {handle : π} (begins : e.Begins r fresh process input id handle)
      (named : threadFault? (threadName process) = none) (made : spawn = .made)
      (call : start r e fresh process input spawn =
        (.ok ⟨id, handle⟩, e.withInstance id (.started process)))
  /-- There is no thread, and the instance ends. -/
  | failed {id cause : String} {handle : π} (begins : e.Begins r fresh process input id handle)
      (named : threadFault? (threadName process) = none) (unmade : spawn = .refused cause)
      (call : start r e fresh process input spawn =
        (.error (.error (.unavailable ("cannot start process thread: " ++ cause))),
          (e.withInstance id (.started process)).finish id (.error cause)))
  /-- The thread has no name that can be told, and the instance stays. -/
  | stranded {id text : String} {handle : π} (begins : e.Begins r fresh process input id handle)
      (unnamed : threadFault? (threadName process) = some text)
      (call : start r e fresh process input spawn =
        (.error (.panic (some text)), e.withInstance id (.started process)))

theorem start_cases (r : Registries α π) (e : Engine) (fresh process : String)
    (input : EngineValue) (spawn : Spawn) : StartCase r e fresh process input spawn := by
  cases hprocess : r.processes.lookup? process with
  | none =>
    refine .refused (fun id handle h => ?_) (by simp [start, hprocess]; rfl)
    rw [h.registered] at hprocess
    contradiction
  | some handle =>
    cases hrunning : e.isRunning (input.workflowId?.getD fresh) with
    | true =>
      refine .refused (fun id handle h => ?_) (by simp [start, hprocess, hrunning]; rfl)
      rw [h.named, h.free] at hrunning
      contradiction
    | false =>
      have hbegins : e.Begins r fresh process input (input.workflowId?.getD fresh) handle :=
        ⟨hprocess, rfl, hrunning⟩
      cases hname : threadFault? (threadName process) with
      | some text => exact .stranded hbegins hname (hbegins.start_unnamed hname spawn)
      | none =>
        cases spawn with
        | made => exact .granted hbegins hname rfl (hbegins.start_made hname)
        | refused cause => exact .failed hbegins hname rfl (hbegins.start_refused hname cause)

/-- Nothing begins under the id of a running workflow. -/
theorem start_of_isRunning {fresh : String} {input : EngineValue}
    (hrunning : e.isRunning (input.workflowId?.getD fresh) = true) (r : Registries α π)
    (process : String) (spawn : Spawn) :
    ∃ fault, start r e fresh process input spawn = (.error fault, e) := by
  cases start_cases r e fresh process input spawn with
  | refused _ call => exact ⟨_, call⟩
  | granted hbegins | failed hbegins | stranded hbegins =>
    rw [hbegins.named, hbegins.free] at hrunning
    exact absurd hrunning Bool.false_ne_true

/-- A start that begins nothing under an id leaves the instance there as it is. -/
theorem instances_start {r : Registries α π} {fresh process : String} {input : EngineValue}
    (idle : ∀ handle, ¬ e.Begins r fresh process input id handle) (spawn : Spawn) :
    (start r e fresh process input spawn).2.instances.get? id = e.instances.get? id := by
  have hother : ∀ {other handle}, e.Begins r fresh process input other handle → id ≠ other :=
    fun hbegins hid => idle _ (hid ▸ hbegins)
  cases start_cases r e fresh process input spawn with
  | refused _ call => rw [call]
  | granted hbegins _ _ call => rw [call, instances_withInstance_of_ne _ _ (hother hbegins)]
  | failed hbegins _ _ call =>
    rw [call, instances_finish, if_neg (hother hbegins),
      instances_withInstance_of_ne _ _ (hother hbegins)]
  | stranded hbegins _ call => rw [call, instances_withInstance_of_ne _ _ (hother hbegins)]

/-- What a start leaves that begins: an instance without events. -/
theorem exists_instance_start {r : Registries α π} {fresh process : String} {input : EngineValue}
    {handle : π} (hbegins : e.Begins r fresh process input id handle) (spawn : Spawn) :
    ∃ i, (start r e fresh process input spawn).2.instances.get? id = some i ∧ i.events = [] := by
  have hsame : ∀ {other handle'}, e.Begins r fresh process input other handle' → other = id :=
    fun hother => hother.named.symm.trans hbegins.named
  cases start_cases r e fresh process input spawn with
  | refused idle _ => exact absurd hbegins (idle id handle)
  | granted hother _ _ call =>
    rw [call, hsame hother]
    exact ⟨_, instances_withInstance_self _ _ _, rfl⟩
  | failed hother _ _ call =>
    rw [call, hsame hother]
    exact ⟨_, instances_finish_self (instances_withInstance_self _ _ _) _, rfl⟩
  | stranded hother _ call =>
    rw [call, hsame hother]
    exact ⟨_, instances_withInstance_self _ _ _, rfl⟩

/-- A start notes no deadline. -/
theorem mem_deadlines_start {r : Registries α π} {fresh process : String} {input : EngineValue}
    {spawn : Spawn} {d : Deadline} (h : d ∈ (start r e fresh process input spawn).2.deadlines) :
    d ∈ e.deadlines := by
  cases start_cases r e fresh process input spawn with
  | refused _ call | granted _ _ _ call | stranded _ _ call =>
    rw [call] at h
    exact h
  | failed _ _ _ call =>
    rw [call, deadlines_finish] at h
    exact (List.mem_filter.mp h).1

/-- An engine accepts event data for an instance: the data names it, it is one of the process and
running, and the process accepts all events that the data tells of. -/
structure Accepts (e : Engine) (r : Registries α π) (process : String) (data : EngineValue)
    (id : String) (i : Instance) : Prop where
  named : data.workflowId? = some id
  found : e.instances.get? id = some i
  ofProcess : i.process = process
  running : i.status = .running
  known : ∀ accepted, r.events.lookup? process = some accepted →
    ∀ field ∈ data.otherFields, field.1 ∈ accepted

theorem refusedEvent?_eq_none_iff {r : Registries α π} {process : String}
    {events : List (String × EngineValue)} :
    refusedEvent? r process events = none ↔ ∀ accepted, r.events.lookup? process = some accepted →
      ∀ event ∈ events, event.1 ∈ accepted := by
  unfold refusedEvent?
  cases r.events.lookup? process <;> simp

/-- Accepted event data is appended to the events of the instance it is accepted for. -/
theorem Accepts.send_eq {r : Registries α π} {process : String} {data : EngineValue}
    (h : e.Accepts r process data id i) : e.send r process data =
      (.ok true, e.withInstance id { i with events := i.events ++ data.otherFields }) := by
  simp [send, h.named, h.found, h.ofProcess, refusedEvent?_eq_none_iff.mpr h.known, h.running]

/-- Event data is either accepted for an instance, or the answer is another and the state is left
alone. -/
theorem send_cases (r : Registries α π) (e : Engine) (process : String) (data : EngineValue) :
    (∃ id i, e.Accepts r process data id i) ∨
      ∃ answer, answer ≠ .ok true ∧ e.send r process data = (answer, e) := by
  unfold send
  cases hid : data.workflowId? with
  | none => exact .inr ⟨.error .missingWorkflowId, nofun, rfl⟩
  | some id =>
    cases hi : e.instances.get? id with
    | none => exact .inr ⟨.error (.workflowNotFound id), nofun, by simp [hi]⟩
    | some i =>
      simp only [hi]
      by_cases hprocess : i.process = process
      · rw [if_neg (not_not_intro hprocess)]
        cases hevents : refusedEvent? r process data.otherFields with
        | some event => exact .inr ⟨.error (.unknownEvent process event), nofun, rfl⟩
        | none =>
          by_cases hrunning : i.status = .running
          · exact .inl ⟨id, i, hid, hi, hprocess, hrunning, refusedEvent?_eq_none_iff.mp hevents⟩
          · exact .inr ⟨.ok false, nofun, by rw [if_neg hrunning]⟩
      · exact .inr ⟨.error (.workflowNotFound id), nofun, by rw [if_pos hprocess]⟩

/-- Sleeping either leaves the state alone or notes a deadline for a running instance. -/
theorem sleep_cases (e : Engine) (id sleepId : String) (duration now : Nat) :
    (e.sleep id sleepId duration now).2 = e ∨
    e.isRunning id = true ∧ ∃ instant, (e.sleep id sleepId duration now).2 =
      { e with deadlines := e.deadlines ++ [⟨id, sleepId, instant⟩] } := by
  unfold sleep
  cases hi : e.instances.get? id with
  | none => exact .inl rfl
  | some i =>
    simp only
    split
    · exact .inl rfl
    · rename_i hrunning
      split
      · exact .inl rfl
      · split
        · exact .inr ⟨isRunning_eq_true.mpr ⟨i, hi, by simpa using hrunning⟩, _, rfl⟩
        · exact .inl rfl

/-! ### The invariant -/

/-- Every instance is settled, and only running instances sleep. -/
structure Coherent (e : Engine) : Prop where
  settled : ∀ id i, e.instances.get? id = some i → i.Settled
  awake : ∀ d ∈ e.deadlines, e.isRunning d.workflow = true

namespace Coherent

theorem create (serviceUrl namespaceName : String) :
    (Engine.create serviceUrl namespaceName).Coherent :=
  ⟨fun _ _ h => by simp [Engine.create, Table.get?] at h, fun _ h => by simp [Engine.create] at h⟩

/-- A settled instance can be put wherever no sleeper loses its running instance by it. -/
theorem withInstance (h : e.Coherent) (hi : i.Settled)
    (hkept : e.isRunning id = true → i.status = .running) : (e.withInstance id i).Coherent where
  settled other j hj := by
    by_cases hid : other = id
    · subst hid
      rw [instances_withInstance_self, Option.some.injEq] at hj
      exact hj ▸ hi
    · rw [instances_withInstance_of_ne _ _ hid] at hj
      exact h.settled other j hj
  awake d hd := by
    have hrunning := h.awake d hd
    rw [isRunning_withInstance]
    split
    · rename_i hid
      simpa using hkept (hid ▸ hrunning)
    · exact hrunning

theorem finish (h : e.Coherent) (id : String) (output : Output) : (e.finish id output).Coherent where
  settled other i hi := by
    rw [instances_finish] at hi
    split at hi
    · obtain ⟨j, -, rfl⟩ := Option.map_eq_some_iff.mp hi
      exact j.settled_ended output
    · exact h.settled other i hi
  awake d hd := by
    -- The sleeps of the instance are over, so it does not matter that it ends.
    rw [deadlines_finish, List.mem_filter] at hd
    rw [isRunning_finish, h.awake d hd.1, Bool.true_and]
    exact hd.2

theorem start (h : e.Coherent) (r : Registries α π) (fresh process : String) (input : EngineValue)
    (spawn : Spawn) : (start r e fresh process input spawn).2.Coherent := by
  have hbegun : ∀ id, (e.withInstance id (.started process)).Coherent := fun id =>
    h.withInstance (Instance.settled_started process) fun _ => rfl
  cases start_cases r e fresh process input spawn with
  | refused _ call => rwa [call]
  | @granted id _ _ _ _ call | @stranded id _ _ _ _ call =>
    rw [call]
    exact hbegun id
  | @failed id cause _ _ _ _ call =>
    rw [call]
    exact (hbegun id).finish id (.error cause)

/-- A workflow that is not running has no deadlines. -/
theorem no_deadlines (h : e.Coherent) (hrunning : e.isRunning id = false) :
    ∀ d ∈ e.deadlines, d.workflow ≠ id := by
  rintro d hd rfl
  rw [h.awake d hd] at hrunning
  exact Bool.false_ne_true hrunning.symm

/-- Where a start begins, no deadline is left of a workflow that was there before. -/
theorem no_deadlines_start (h : e.Coherent) {r : Registries α π} {fresh process : String}
    {input : EngineValue} {handle : π} (hbegins : e.Begins r fresh process input id handle)
    (spawn : Spawn) :
    ∀ d ∈ (Engine.start r e fresh process input spawn).2.deadlines, d.workflow ≠ id :=
  fun d hd => h.no_deadlines hbegins.free d (mem_deadlines_start hd)

theorem send (h : e.Coherent) (r : Registries α π) (process : String) (data : EngineValue) :
    (e.send r process data).2.Coherent := by
  obtain ⟨id, i, haccepts⟩ | ⟨answer, -, heq⟩ := send_cases r e process data
  · rw [haccepts.send_eq]
    exact h.withInstance ((h.settled id i haccepts.found).withEvents _) fun _ => haccepts.running
  · rw [heq]
    exact h

theorem sleep (h : e.Coherent) (id sleepId : String) (duration now : Nat) :
    (e.sleep id sleepId duration now).2.Coherent := by
  obtain heq | ⟨hrunning, instant, heq⟩ := sleep_cases e id sleepId duration now
  · rw [heq]
    exact h
  · rw [heq]
    refine ⟨h.settled, fun d hd => ?_⟩
    rcases List.mem_append.mp hd with hd | hd
    · exact h.awake d hd
    · rw [List.mem_singleton.mp hd]
      exact hrunning

end Coherent

/-! ### Who is running behind an operation -/

theorem isRunning_send (r : Registries α π) (e : Engine) (process : String) (data : EngineValue)
    (other : String) : (e.send r process data).2.isRunning other = e.isRunning other := by
  obtain ⟨id, i, haccepts⟩ | ⟨answer, -, heq⟩ := send_cases r e process data
  · rw [haccepts.send_eq, isRunning_withInstance]
    split
    · rename_i hid
      simp [hid, haccepts.running, isRunning_eq_true.mpr ⟨i, haccepts.found, haccepts.running⟩]
    · rfl
  · rw [heq]

theorem isRunning_sleep (e : Engine) (id sleepId : String) (duration now : Nat) (other : String) :
    (e.sleep id sleepId duration now).2.isRunning other = e.isRunning other := by
  obtain heq | ⟨-, instant, heq⟩ := sleep_cases e id sleepId duration now <;> rw [heq]
  rfl

/-- There is a running instance under an id, and its process could be given a thread. -/
def HasThread (e : Engine) (id : String) : Prop :=
  ∃ i, e.instances.get? id = some i ∧ i.status = .running ∧
    threadFault? (threadName i.process) = none

theorem HasThread.isRunning (h : e.HasThread id) : e.isRunning id = true := by
  obtain ⟨i, hi, hrunning, -⟩ := h
  exact isRunning_eq_true.mpr ⟨i, hi, hrunning⟩

theorem hasThread_withInstance {other : String} : (e.withInstance id i).HasThread other ↔
    if other = id then i.status = .running ∧ threadFault? (threadName i.process) = none
    else e.HasThread other := by
  unfold HasThread
  split
  · next hid => simp [hid]
  · next hid => rw [instances_withInstance_of_ne _ _ hid]

theorem hasThread_finish {other : String} (output : Output) :
    (e.finish id output).HasThread other ↔ e.HasThread other ∧ other ≠ id := by
  unfold HasThread
  rw [instances_finish]
  split
  · next hid =>
    cases output <;> simp [hid, Status.ofOutput]
  · next hid => simp [hid]

theorem hasThread_send (r : Registries α π) (process : String) (data : EngineValue)
    (other : String) : (e.send r process data).2.HasThread other ↔ e.HasThread other := by
  obtain ⟨id, i, haccepts⟩ | ⟨answer, -, heq⟩ := send_cases r e process data
  · rw [haccepts.send_eq, hasThread_withInstance]
    split
    · next hid => simp [HasThread, hid, haccepts.found]
    · rfl
  · rw [heq]

theorem hasThread_sleep (id sleepId : String) (duration now : Nat) (other : String) :
    (e.sleep id sleepId duration now).2.HasThread other ↔ e.HasThread other := by
  obtain heq | ⟨-, instant, heq⟩ := sleep_cases e id sleepId duration now <;> rw [heq]
  rfl

/-! ### Runs -/

/-- Operations lead from an empty engine to a state, and the processes of some workflows have not
finished there.  Reading is no step, since it leaves nothing behind; the registries, the ids that
are made up, the answers to requests for threads, the readings of the clock and the outputs may be
any. -/
inductive Reached (α π : Type) : Engine → List String → Prop
  | create (serviceUrl namespaceName : String) : Reached α π (create serviceUrl namespaceName) []
  | granted {e e' : Engine} {processes : List String} {r : Registries α π} {fresh process : String}
      {input : EngineValue} {spawn : Spawn} {started : Started π} (before : Reached α π e processes)
      (call : start r e fresh process input spawn = (.ok started, e')) :
      Reached α π e' (started.id :: processes)
  | refused {e e' : Engine} {processes : List String} {r : Registries α π} {fresh process : String}
      {input : EngineValue} {spawn : Spawn} {fault : Fault} (before : Reached α π e processes)
      (call : start r e fresh process input spawn = (.error fault, e')) : Reached α π e' processes
  | finish {e : Engine} {processes : List String} {id : String} (before : Reached α π e processes)
      (onItsWay : id ∈ processes) (output : Output) :
      Reached α π (e.finish id output) (processes.erase id)
  | send {e : Engine} {processes : List String} (before : Reached α π e processes)
      (r : Registries α π) (process : String) (data : EngineValue) :
      Reached α π (e.send r process data).2 processes
  | sleep {e : Engine} {processes : List String} (before : Reached α π e processes)
      (id sleepId : String) (duration now : Nat) :
      Reached α π (e.sleep id sleepId duration now).2 processes
  | close {e : Engine} {processes : List String} (before : Reached α π e processes) :
      Reached α π e.close processes

/-- The processes on their way are those of the running instances that have a thread, one for
each. -/
structure Accounts (e : Engine) (processes : List String) : Prop where
  nodup : processes.Nodup
  mem_iff : ∀ id, id ∈ processes ↔ e.HasThread id

namespace Accounts

/-- No process is on its way where a start begins. -/
theorem not_mem (h : e.Accounts processes) {r : Registries α π} {fresh process : String}
    {input : EngineValue} {handle : π} (hbegins : e.Begins r fresh process input id handle) :
    id ∉ processes := by
  intro hmem
  have hrunning := ((h.mem_iff id).mp hmem).isRunning
  rw [hbegins.free] at hrunning
  exact Bool.false_ne_true hrunning

theorem granted (h : e.Accounts processes) {r : Registries α π} {fresh process : String}
    {input : EngineValue} {handle : π} (hbegins : e.Begins r fresh process input id handle)
    (hnamed : threadFault? (threadName process) = none) :
    (e.withInstance id (.started process)).Accounts (id :: processes) where
  nodup := List.nodup_cons.mpr ⟨h.not_mem hbegins, h.nodup⟩
  mem_iff other := by
    rw [hasThread_withInstance, List.mem_cons, h.mem_iff]
    split
    · next hid => simp [hid, Instance.started, hnamed]
    · next hid => simp [hid]

/-- An instance that is put where none is running and has no thread concerns no process. -/
theorem threadless (h : e.Accounts processes) (hfree : id ∉ processes) {e' : Engine}
    (hothers : ∀ other, e'.HasThread other ↔ other ≠ id ∧ e.HasThread other) :
    e'.Accounts processes where
  nodup := h.nodup
  mem_iff other := by
    rw [hothers, h.mem_iff]
    refine ⟨fun hthread => ⟨?_, hthread⟩, And.right⟩
    rintro rfl
    exact hfree ((h.mem_iff other).mpr hthread)

end Accounts

namespace Reached

theorem coherent (h : Reached α π e processes) : e.Coherent := by
  induction h with
  | create serviceUrl namespaceName => exact .create serviceUrl namespaceName
  | @granted _ _ _ r fresh process input spawn _ _ call ih
  | @refused _ _ _ r fresh process input spawn _ _ call ih =>
    have := ih.start r fresh process input spawn
    rwa [call] at this
  | finish _ _ output ih => exact ih.finish _ output
  | send _ r process data ih => exact ih.send r process data
  | sleep _ id sleepId duration now ih => exact ih.sleep id sleepId duration now
  | close _ ih => exact ⟨ih.settled, ih.awake⟩

theorem accounts (h : Reached α π e processes) : e.Accounts processes := by
  induction h with
  | create => exact ⟨.nil, fun id => by simp [Engine.create, HasThread, Table.get?]⟩
  | @granted e e' processes r fresh process input spawn started _ call ih =>
    cases start_cases r e fresh process input spawn with
    | granted hbegins hnamed _ heq =>
      rw [heq] at call
      obtain ⟨hstarted, rfl⟩ := Prod.mk.inj call
      rw [← Except.ok.inj hstarted]
      exact ih.granted hbegins hnamed
    | refused _ heq | failed _ _ _ heq | stranded _ _ heq => simp [heq] at call
  | @refused e e' processes r fresh process input spawn fault _ call ih =>
    cases start_cases r e fresh process input spawn with
    | granted _ _ _ heq => simp [heq] at call
    | refused _ heq =>
      obtain ⟨-, rfl⟩ := Prod.mk.inj (heq.symm.trans call)
      exact ih
    | @failed id cause _ hbegins _ _ heq =>
      obtain ⟨-, rfl⟩ := Prod.mk.inj (heq.symm.trans call)
      refine ih.threadless (ih.not_mem hbegins) fun other => ?_
      rw [hasThread_finish, hasThread_withInstance]
      by_cases hid : other = id <;> simp [hid]
    | @stranded id _ _ hbegins hunnamed heq =>
      obtain ⟨-, rfl⟩ := Prod.mk.inj (heq.symm.trans call)
      refine ih.threadless (ih.not_mem hbegins) fun other => ?_
      rw [hasThread_withInstance]
      by_cases hid : other = id <;> simp [hid, Instance.started, hunnamed]
  | finish _ _ output ih =>
    refine ⟨ih.nodup.erase _, fun id => ?_⟩
    rw [ih.nodup.mem_erase_iff, ih.mem_iff, hasThread_finish, and_comm]
  | send _ r process data ih =>
    exact ⟨ih.nodup, fun id => by rw [ih.mem_iff, hasThread_send]⟩
  | sleep _ id sleepId duration now ih =>
    exact ⟨ih.nodup, fun other => by rw [ih.mem_iff, hasThread_sleep]⟩
  | close _ ih => exact ⟨ih.nodup, ih.mem_iff⟩

end Reached

/-- **Workflows live one life at a time.**  In every state that an engine can reach, instances have
outputs as their statuses say, only running instances sleep, and the processes on their way are
those of the running instances that have a thread.  An id whose instance is running is refused, and
nothing changes; under the id of an instance that has ended a registered process starts anew, with
nothing left of what was before.  It is running as soon as there is a thread for it; if there is
none, it has failed with the cause; and where the thread has no name that can be told, it is running
without one. -/
theorem reached_lifecycle (h : Reached α π e processes) :
    e.Coherent ∧ e.Accounts processes ∧
    ∀ (r : Registries α π) (fresh process : String) (input : EngineValue) (spawn : Spawn)
      (id : String), input.workflowId?.getD fresh = id →
      (e.status? id = some .running →
        ∃ fault, start r e fresh process input spawn = (.error fault, e)) ∧
      (∀ status handle, e.status? id = some status → status ≠ .running →
        r.processes.lookup? process = some handle →
        ∃ answer e', start r e fresh process input spawn = (answer, e') ∧
          e'.events id = .ok [] ∧ (∀ d ∈ e'.deadlines, d.workflow ≠ id) ∧
          (threadFault? (threadName process) = none → spawn = .made →
            answer = .ok ⟨id, handle⟩ ∧ e'.status? id = some .running ∧ e'.output? id = none) ∧
          (threadFault? (threadName process) = none → ∀ cause, spawn = .refused cause →
            answer = .error (.error (.unavailable ("cannot start process thread: " ++ cause))) ∧
              e'.status? id = some .failed ∧ e'.output? id = some (.error cause)) ∧
          (∀ text, threadFault? (threadName process) = some text →
            answer = .error (.panic (some text)) ∧
              e'.status? id = some .running ∧ e'.output? id = none)) := by
  refine ⟨h.coherent, h.accounts, ?_⟩
  rintro r fresh process input spawn id rfl
  refine ⟨fun hrunning => start_of_isRunning (by simp [isRunning, hrunning]) r process spawn,
    fun status handle hstatus hended hhandle => ?_⟩
  have hbegins : e.Begins r fresh process input (input.workflowId?.getD fresh) handle :=
    ⟨hhandle, rfl, by simpa [isRunning, hstatus] using hended⟩
  obtain ⟨i, hi, hevents⟩ := exists_instance_start hbegins spawn
  have hbegun := instances_withInstance_self e (input.workflowId?.getD fresh) (.started process)
  refine ⟨_, _, (Prod.eta _).symm, (reads_of_instance hi).2.1.trans (congrArg _ hevents),
    h.coherent.no_deadlines_start hbegins spawn, ?_, ?_, ?_⟩
  · rintro hnamed rfl
    obtain ⟨hstatus', -, houtput⟩ := reads_of_instance hbegun
    rw [hbegins.start_made hnamed]
    exact ⟨rfl, hstatus', houtput⟩
  · rintro hnamed cause rfl
    obtain ⟨hstatus', -, houtput⟩ := reads_of_instance (instances_finish_self hbegun (.error cause))
    rw [hbegins.start_refused hnamed]
    exact ⟨rfl, hstatus', houtput⟩
  · intro text hunnamed
    obtain ⟨hstatus', -, houtput⟩ := reads_of_instance hbegun
    rw [hbegins.start_unnamed hunnamed]
    exact ⟨rfl, hstatus', houtput⟩

/-- Registries of one process. -/
def orders : Registries Unit Unit := (Registries.empty.registerProcess ⟨"order", ()⟩).2

/-- A workflow `w` was started, slept, was sent an event, and failed. -/
def failedOrder : Engine :=
  let started := (start orders (create "localhost:7233" "default") "" "order"
    (.object [("id", .string "w")]) .made).2
  let asleep := (started.sleep "w" "pause" 5 0).2
  let told := (asleep.send orders "order" (.object [("id", .string "w"), ("paid", .bool true)])).2
  told.finish "w" (.error "boom")

theorem restart_of_failedOrder :
    Reached Unit Unit failedOrder [] ∧ failedOrder.status? "w" = some .failed ∧
    failedOrder.events "w" = .ok [("paid", .bool true)] ∧
    (∃ e', start orders failedOrder "" "order" (.object [("id", .string "w")]) .made
        = (.ok ⟨"w", ()⟩, e') ∧
      e'.status? "w" = some .running ∧ e'.events "w" = .ok [] ∧ e'.output? "w" = none ∧
      ∀ d ∈ e'.deadlines, d.workflow ≠ "w") ∧
    ∃ e', (start orders failedOrder "" "order" (.object [("id", .string "w")])
        (.refused "no memory")).2 = e' ∧
      e'.status? "w" = some .failed ∧ e'.events "w" = .ok [] ∧
      e'.output? "w" = some (.error "no memory") := by
  have hstarted : start orders (create "localhost:7233" "default") "" "order"
      (.object [("id", .string "w")]) .made = (.ok ⟨"w", ()⟩, _) := rfl
  have hreached : Reached Unit Unit failedOrder [] :=
    ((((Reached.create _ _).granted hstarted).sleep "w" "pause" 5 0).send orders "order"
      (.object [("id", .string "w"), ("paid", .bool true)])).finish
      (List.mem_singleton_self _) (.error "boom")
  have hnamed : threadFault? (threadName "order") = none := rfl
  have hlife := fun spawn => (reached_lifecycle hreached).2.2 orders "" "order"
    (.object [("id", .string "w")]) spawn "w" rfl
  obtain ⟨_, e₁, hcall₁, hevents₁, hawake, hgranted, -⟩ :=
    (hlife .made).2 .failed () rfl (by decide) rfl
  obtain ⟨_, e₂, hcall₂, hevents₂, -, -, hfailed, -⟩ :=
    (hlife (.refused "no memory")).2 .failed () rfl (by decide) rfl
  obtain ⟨hanswer, hstatus₁, houtput₁⟩ := hgranted hnamed rfl
  obtain ⟨-, hstatus₂, houtput₂⟩ := hfailed hnamed _ rfl
  exact ⟨hreached, rfl, rfl, ⟨e₁, hanswer ▸ hcall₁, hstatus₁, hevents₁, houtput₁, hawake⟩,
    e₂, by rw [hcall₂], hstatus₂, hevents₂, houtput₂⟩

end Engine

end Durable
