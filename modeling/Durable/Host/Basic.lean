/-
The host: what workflow code is registered with and reaches the engine through.

A host has one handle to an engine, which is set once and never replaced.  Each call of
the engine is prepared here: the host registers what has to be registered, sees to it
that there is a handle to call and a worker to call it, brings the arguments into the
engine's form, and says which request is made of which engine.  The answer to the
request is brought back into the form of workflow code.
-/
import Durable.Host.Pool
import Durable.Registry.Registries

namespace Durable

/-- What is asked of an engine. -/
inductive EngineRequest where
  | executeActivity (name : String) (args : EngineValue)
  | startProcess (process : String) (input : EngineValue)
  | sendEvent (process : String) (data : EngineValue)
  | close

/-- What an engine answers. -/
inductive EngineReply where
  | value (v : EngineValue)
  | workflowId (id : String)
  | delivered (isRunning : Bool)
  | closed

/-- What the host answers to workflow code. -/
inductive HostReply where
  | value (v : Value)
  | workflowId (id : String)
  | delivered (isRunning : Bool)
  | closed

/-- The operations that call the engine. -/
inductive Operation where
  | callActivity | invokeActivity | startProcess | sendEvent
deriving DecidableEq, Repr

/-- The name of an operation in messages. -/
def Operation.name : Operation → String
  | callActivity => "callActivity"
  | invokeActivity => "invokeActivity"
  | startProcess => "startProcess"
  | sendEvent => "sendEvent"

/-- A host, over the handles of activities, of processes and of engines. -/
structure Host (α π ε : Type) where
  config : Config
  registries : Registries α π
  pool : Pool
  client : Option ε
  closed : Bool

/-- A request and the engine it is made of. -/
structure EngineCall (ε : Type) where
  engine : ε
  request : EngineRequest

namespace Host

variable {α π ε : Type}

/-- A host with a configuration that can be used, and with workers. -/
def create (config : Config) (spawn : Nat → Spawn) : Except HostError (Host α π ε) := do
  (config.validate).mapError .config
  let pool ← Pool.create config.workerThreads spawn
  pure ⟨config, .empty, pool, none, false⟩

/-! ### The handle to the engine -/

/-- Sets the handle, unless there is one. -/
def initClient (h : Host α π ε) (engine : ε) : Except HostError Unit × Host α π ε :=
  match h.client with
  | some _ => (.error .clientAlreadyInitialized, h)
  | none => (.ok (), { h with client := some engine })

/-- Gives the handle up, and says which engine is to be closed.  The second time there is nothing
left to do. -/
def closeClient (h : Host α π ε) : Except HostError (Option (EngineCall ε)) × Host α π ε :=
  match h.client with
  | none => (.error .clientNotInitialized, h)
  | some engine =>
    if h.closed then (.ok none, h) else (.ok (some ⟨engine, .close⟩), { h with closed := true })

/-- The handle, if it can be used. -/
def engine (h : Host α π ε) : Except HostError ε :=
  if h.closed then .error .clientClosed
  else match h.client with
    | some engine => .ok engine
    | none => .error .clientNotInitialized

/-- Stops the workers. -/
def shutdown (h : Host α π ε) : Host α π ε := { h with pool := h.pool.shutdown }

/-! ### Registering -/

/-- Registers a process with its activities and the events it accepts.  Nothing is registered for a
process whose name is taken. -/
def registerProcess (h : Host α π ε) (p : Named π) (activities : List (Named α))
    (events : List String) : Except HostError Unit × Host α π ε :=
  match h.registries.registerProcess p with
  | (false, _) => (.error (.duplicateRegistration p.name), h)
  | (true, withProcess) =>
    let own := activities.map fun a => { a with name := Registries.scopedName p.name a.name }
    let (_, withActivities) := withProcess.registerActivities own
    let withEvents :=
      if events.isEmpty then withActivities else (withActivities.registerEvents p.name events).2
    (.ok (), { h with registries := withEvents })

/-- Registers the activities of a service; the answer says how many of them were new. -/
def registerServiceActivities (h : Host α π ε) (activities : List (Named α)) : Nat × Host α π ε :=
  let (count, registries) := h.registries.registerActivities activities
  (count, { h with registries })

/-- Removes everything that is registered. -/
def clearRegistries (h : Host α π ε) : Host α π ε := { h with registries := h.registries.clear }

/-! ### Calling the engine -/

/-- The call that a request makes, if there is an engine to call, a worker to call it, and the
arguments can be brought into the engine's form. -/
def dispatch (h : Host α π ε) (operation : Operation)
    (request : Except ConversionError EngineRequest) : Except HostError (EngineCall ε) := do
  let engine ← h.engine
  h.pool.accept operation.name
  let request ← request.mapError .conversion
  pure ⟨engine, request⟩

/-- Calls an activity with arguments by name.  The activity is registered if its name is not. -/
def callActivity (h : Host α π ε) (a : Named α) (args : Value) :
    Except HostError (EngineCall ε) × Host α π ε :=
  let known := { h with registries := (h.registries.registerActivity a).2 }
  (known.dispatch .callActivity (args.toEngineObject.map (.executeActivity a.name)), known)

/-- Calls a registered activity with arguments by position. -/
def invokeActivity (h : Host α π ε) (name : String) (args : List Value) :
    Except HostError (EngineCall ε) :=
  if h.registries.activities.contains name then
    h.dispatch .invokeActivity ((Value.array args).toEngine.map (.executeActivity name))
  else .error (.activityNotFound name)

/-- Starts a process.  The process is registered if its name is not. -/
def startProcess (h : Host α π ε) (p : Named π) (input : Value) :
    Except HostError (EngineCall ε) × Host α π ε :=
  let known := { h with registries := (h.registries.registerProcess p).2 }
  (known.dispatch .startProcess (input.toEngineObject.map (.startProcess p.name)), known)

/-- Sends event data to an instance of a process. -/
def sendEvent (h : Host α π ε) (process : String) (data : Value) :
    Except HostError (EngineCall ε) :=
  h.dispatch .sendEvent (data.toEngineObject.map (.sendEvent process))

/-- What workflow code gets to know of an engine's answer. -/
def conclude (operation : Operation) : Except Fault EngineReply → Except HostError HostReply
  | .ok (.value v) => .ok (.value (Value.ofEngine v))
  | .ok (.workflowId id) => .ok (.workflowId id)
  | .ok (.delivered isRunning) => .ok (.delivered isRunning)
  | .ok .closed => .ok .closed
  | .error (.error e) => .error (.engine operation.name e)
  | .error (.panic text) => .error (.ofPanic text)

end Host

end Durable
