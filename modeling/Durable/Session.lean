/-
A host at work: a story told step by step.

A session holds a host, the engines it may be given, the processes on their way, and a
clock.  Processes go as far as they can as soon as they can: when they are started, when
an event reaches them, and when the clock reaches a deadline they sleep until.  The
clock moves only where the story waits for something.
-/
import Durable.Host.Basic
import Durable.Script.Activity
import Durable.Script.Process

namespace Durable

/-- The engines of a session. -/
inductive EngineRef where
  /-- The engine that is there from the start. -/
  | standing
  /-- The engine that the host makes for itself. -/
  | own
  /-- An engine that is out of reach. -/
  | down
deriving DecidableEq, Repr

/-- The state of a session. -/
structure Session where
  host : Host ActivityHandler ProcessScript EngineRef
  standing : Engine
  own : Engine
  runs : List (Run EngineRef)
  /-- The instant it is. -/
  now : Nat
  /-- How often each activity was called, by its serial number. -/
  calls : List (Nat × Nat)
  /-- How many activities were made. -/
  serials : Nat
  /-- How many workflow ids were made up. -/
  freshIds : Nat

/-- A step of a story that answers something. -/
abbrev SessionM := StateM Session

namespace Session

/-- The instant that a session begins at, in November of 2026. -/
def beginning : Nat := 1795000000 * Clock.second

/-- A session of a host with a configuration. -/
def create (config : Config) : Except HostError Session := do
  let host ← Host.create config fun _ => .made
  let engine := Engine.create config.serviceUrl config.namespaceName
  pure ⟨host, engine, engine, [], beginning, [], 0, 0⟩

/-! ### Engines -/

/-- The state of an engine; the one that is out of reach has none. -/
def engine? (s : Session) : EngineRef → Option Engine
  | .standing => some s.standing
  | .own => some s.own
  | .down => none

/-- The session with an engine in another state. -/
def withEngine (s : Session) (ref : EngineRef) (e : Engine) : Session :=
  match ref with
  | .standing => { s with standing := e }
  | .own => { s with own := e }
  | .down => s

/-- How often an activity was called. -/
def callsOf (s : Session) (serial : Nat) : Nat :=
  ((s.calls.find? (·.1 == serial)).map (·.2)).getD 0

/-- What an activity answers to arguments. -/
def answerOf (handler : ActivityHandler) (args : EngineValue) (s : Session) :
    Except Fault EngineValue × Session :=
  let earlier := s.callsOf handler.serial
  (handler.script.answer earlier args,
    { s with calls := (handler.serial, earlier + 1) :: s.calls })

/-! ### Processes -/

/-- An engine notes what came of a process. -/
def finish (s : Session) (run : Run EngineRef) (output : Output) : Session :=
  match s.engine? run.engine with
  | some e => s.withEngine run.engine (e.finish run.workflow output)
  | none => s

/-- The events that have reached a process. -/
def eventsOf (s : Session) (run : Run EngineRef) : List (String × EngineValue) :=
  match s.engine? run.engine with
  | some e => (e.events run.workflow).toOption.getD []
  | none => []

/-- The value of the last event of a name that has reached a process. -/
def lastEventOf (s : Session) (run : Run EngineRef) (name : String) : Option EngineValue :=
  match s.engine? run.engine with
  | some e => (e.lastEvent run.workflow name).toOption.join
  | none => none

/-- What an activity answers to a process that calls it. -/
def callFrom (s : Session) (run : Run EngineRef) (name : String) (args : EngineValue) :
    Except Fault EngineValue × Session :=
  match Engine.activityFor s.host.registries run.process name with
  | .ok handler => answerOf handler args s
  | .error e => (.error (.error e), s)

/-- How long a process has to sleep. -/
def sleepFrom (s : Session) (run : Run EngineRef) (id : String) (duration : Nat) :
    Except Fault Nat × Session :=
  match s.engine? run.engine with
  | some e =>
    let (wait, e') := e.sleep run.workflow id duration s.now
    (wait, s.withEngine run.engine e')
  | none => (.error (.panic none), s)

/-- Carries out the instructions of a process until it is held up or has ended.  A process that has
ended is gone; of one that is held up what is left remains. -/
def goOn (s : Session) (run : Run EngineRef) : List Instruction → Session × Option (Run EngineRef)
  | [] => (s.finish run (.ok (.array run.log.reverse)), none)
  | i :: todo =>
    let note (s : Session) (v : EngineValue) : Session × Option (Run EngineRef) :=
      goOn s { run with log := v :: run.log } todo
    match i with
    | .workflowId => note s (.string run.workflow)
    | .processName => note s (.string run.process)
    | .input => note s run.input
    | .event name => note s (logOfEvent (s.lastEventOf run name))
    | .events => note s (logOfEvents (s.eventsOf run))
    | .call name args =>
      match s.callFrom run name args with
      | (.ok v, s') => note s' (logOfAnswer (.ok v))
      | (.error (.error e), s') => note s' (logOfAnswer (.error e))
      | (.error (.panic _), s') => (s'.finish run (panicOutput run.process), none)
    | .awaitEvent name =>
      if (s.eventsOf run).any (·.1 == name) then goOn s run todo
      else (s, some { run with todo := i :: todo })
    | .sleep id duration =>
      match s.sleepFrom run id duration with
      | (.ok wait, s') =>
        if wait = 0 then note s' (logOfSleep duration wait)
        else
          (s', some
            { run with
              todo
              log := logOfSleep duration wait :: run.log
              wakes := some (s'.now + wait) })
      | (.error _, s') => (s'.finish run (panicOutput run.process), none)
    | .fail message => (s.finish run (.error message), none)
    | .panic => (s.finish run (panicOutput run.process), none)

/-- Lets a process go on. -/
def resume (s : Session) (run : Run EngineRef) : Session × Option (Run EngineRef) :=
  s.goOn { run with wakes := none } run.todo

/-- Lets the processes go on that `ready` picks. -/
def resumeWhere (ready : Run EngineRef → Bool) (s : Session) : Session :=
  let (after, runs) := s.runs.foldl (fun (s, kept) run =>
    if ready run then
      let (s', left) := s.resume run
      (s', kept ++ left.toList)
    else (s, kept ++ [run])) (s, [])
  { after with runs }

/-! ### The clock -/

/-- The earliest instant that a process sleeps until. -/
def nextWake? (s : Session) : Option Nat := (s.runs.filterMap (·.wakes)).min?

/-- Moves the clock, but not back. -/
def clockAt (s : Session) (instant : Nat) : Session := { s with now := max s.now instant }

/-- The clock moves on to an instant, unless `done` holds before.  At every deadline on the way the
processes that sleep until then go on; `steps` bounds how often that can happen. -/
def advance (done : Session → Bool) (instant : Nat) : (steps : Nat) → Session → Session
  | 0, s => if done s then s else s.clockAt instant
  | steps + 1, s =>
    if done s then s
    else match s.nextWake? with
      | some wake =>
        if wake ≤ instant then
          advance done instant steps ((s.clockAt wake).resumeWhere (·.wakes == some wake))
        else s.clockAt instant
      | none => s.clockAt instant

/-- How often processes can go on at most: each time one of their instructions is used up. -/
def stepsLeft (s : Session) : Nat := s.runs.foldr (fun run n => run.todo.length + 1 + n) 0

/-- Waits for a duration, unless `done` holds before. -/
def waitFor (done : Session → Bool) (duration : Nat) (s : Session) : Session :=
  s.advance done (s.now + duration) s.stepsLeft

/-! ### Requests -/

/-- An engine executes an activity. -/
def executeActivity (name : String) (args : EngineValue) (s : Session) :
    Except Fault EngineReply × Session :=
  match Engine.activity s.host.registries name with
  | .error e => (.error (.error e), s)
  | .ok handler =>
    let (answer, s') := answerOf handler args s
    (answer.map .value, s')

/-- The next workflow id that is made up. -/
def freshId (s : Session) : String := "$" ++ toString (s.freshIds + 1)

/-- An engine starts a process, which goes as far as it can.  Threads are always to be had.  If a
start panics its instance is lost with the id that was made up for it, since nobody is told. -/
def startProcess (ref : EngineRef) (e : Engine) (process : String) (input : EngineValue)
    (s : Session) : Except Fault EngineReply × Session :=
  let isNamed := input.workflowId?.isSome
  match Engine.start s.host.registries e s.freshId process input .made with
  | (.error fault, e') => (.error fault, if isNamed then s.withEngine ref e' else s)
  | (.ok started, e') =>
    let used := if isNamed then s.freshIds else s.freshIds + 1
    let s' := { s.withEngine ref e' with freshIds := used }
    let (after, left) := s'.goOn ⟨ref, started.id, process, input, [], [], none⟩ started.process
    (.ok (.workflowId started.id), { after with runs := after.runs ++ left.toList })

/-- An engine delivers event data, and the process it reaches goes as far as it can. -/
def sendEvent (ref : EngineRef) (e : Engine) (process : String) (data : EngineValue)
    (s : Session) : Except Fault EngineReply × Session :=
  match e.send s.host.registries process data with
  | (.error err, _) => (.error (.error err), s)
  | (.ok delivered, e') =>
    let reached (run : Run EngineRef) : Bool :=
      run.engine == ref && data.workflowId? == some run.workflow && run.wakes.isNone
    (.ok (.delivered delivered), (s.withEngine ref e').resumeWhere reached)

/-- An engine answers a request. -/
def answer (ref : EngineRef) (request : EngineRequest) : SessionM (Except Fault EngineReply) :=
  fun s =>
    match s.engine? ref with
    | none => (.error (.error (.unavailable "down")), s)
    | some e =>
      match request with
      | .executeActivity name args => s.executeActivity name args
      | .startProcess process input => s.startProcess ref e process input
      | .sendEvent process data => s.sendEvent ref e process data
      | .close => (.ok .closed, s.withEngine ref e.close)

/-! ### Steps of a story: the host -/

/-- A new activity. -/
def newActivity (name : String) (script : ActivityScript) : SessionM (Named ActivityHandler) :=
  fun s => (⟨name, ⟨s.serials, script⟩⟩, { s with serials := s.serials + 1 })

/-- Sets the host's handle to an engine. -/
def initClient (ref : EngineRef) : SessionM (Except HostError Unit) := fun s =>
  let (result, host) := s.host.initClient ref
  (result, { s with host })

/-- Gives the host's handle up.  Whether the engine lets go does not matter. -/
def closeClient : SessionM (Except HostError Unit) := fun s =>
  match s.host.closeClient with
  | (.error e, host) => (.error e, { s with host })
  | (.ok none, host) => (.ok (), { s with host })
  | (.ok (some call), host) =>
    let (_, s') := answer call.engine call.request { s with host }
    (.ok (), s')

/-- Stops the host's workers. -/
def shutdown : SessionM Unit := fun s => ((), { s with host := s.host.shutdown })

/-- Changes the registries of the host. -/
def register {β : Type}
    (change : Registries ActivityHandler ProcessScript →
      β × Registries ActivityHandler ProcessScript) : SessionM β := fun s =>
  let (result, registries) := change s.host.registries
  (result, { s with host := { s.host with registries } })

/-- Registers a process with its activities and events. -/
def registerProcess (p : Named ProcessScript) (activities : List (Named ActivityHandler))
    (events : List String) : SessionM (Except HostError Unit) := fun s =>
  let (result, host) := s.host.registerProcess p activities events
  (result, { s with host })

/-- Registers the activities of a service. -/
def registerServiceActivities (activities : List (Named ActivityHandler)) : SessionM Nat := fun s =>
  let (count, host) := s.host.registerServiceActivities activities
  (count, { s with host })

/-- Makes a call of the host. -/
def perform (operation : Operation) (call : Except HostError (EngineCall EngineRef)) :
    SessionM (Except HostError HostReply) :=
  match call with
  | .error e => pure (.error e)
  | .ok c => do pure (Host.conclude operation (← answer c.engine c.request))

/-- Workflow code calls an activity with arguments by name. -/
def callActivity (a : Named ActivityHandler) (args : Value) :
    SessionM (Except HostError HostReply) := fun s =>
  let (call, host) := s.host.callActivity a args
  perform .callActivity call { s with host }

/-- Workflow code calls a registered activity with arguments by position. -/
def invokeActivity (name : String) (args : List Value) : SessionM (Except HostError HostReply) :=
  fun s => perform .invokeActivity (s.host.invokeActivity name args) s

/-- Workflow code starts a process. -/
def launch (p : Named ProcessScript) (input : Value) : SessionM (Except HostError HostReply) :=
  fun s =>
    let (call, host) := s.host.startProcess p input
    perform .startProcess call { s with host }

/-- Workflow code sends event data. -/
def notify (process : String) (data : Value) : SessionM (Except HostError HostReply) := fun s =>
  perform .sendEvent (s.host.sendEvent process data) s

/-! ### Steps of a story: the standing engine -/

/-- Sleeps on behalf of a workflow; the answer is how long. -/
def sleepFor (id sleepId : String) (duration : Nat) : SessionM (Except Fault Nat) := fun s =>
  let (wait, e) := s.standing.sleep id sleepId duration s.now
  let s' := { s with standing := e }
  match wait with
  | .ok d => (.ok d, s'.waitFor (fun _ => false) d)
  | .error f => (.error f, s')

/-- Waits until a workflow has ended, but not longer than a duration; the answer is its status. -/
def awaitEnd (id : String) (duration : Nat) : SessionM (Option Status) := fun s =>
  match s.standing.status? id with
  | none => (none, s)
  | some _ =>
    let after := s.waitFor (fun s => !s.standing.isRunning id) duration
    (after.standing.status? id, after)

end Session

end Durable
