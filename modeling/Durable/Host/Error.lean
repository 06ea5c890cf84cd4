/-
What a host can fail with.
-/
import Durable.Config
import Durable.Engine.Error
import Durable.Value.Convert

namespace Durable

/-- A failure that a host reports. -/
inductive HostError where
  | config (cause : ConfigError)
  | duplicateRegistration (process : String)
  | activityNotFound (name : String)
  | clientAlreadyInitialized
  | clientNotInitialized
  | clientClosed
  | conversion (cause : ConversionError)
  | engine (operation : String) (cause : EngineError)
  | poolClosed
  | workerSpawn (cause : String)
  | workerPanicked (text : String)
  | interrupted (operation : String)
deriving DecidableEq, Repr

namespace HostError

/-- The name of the kind of a failure; where a failure has a cause, that of the cause follows. -/
def kind : HostError → String
  | config cause => "Config." ++ cause.kind
  | duplicateRegistration _ => "DuplicateRegistration"
  | activityNotFound _ => "ActivityNotFound"
  | clientAlreadyInitialized => "ClientAlreadyInitialized"
  | clientNotInitialized => "ClientNotInitialized"
  | clientClosed => "ClientClosed"
  | conversion cause => "Conversion." ++ cause.kind
  | engine _ cause => "Engine." ++ cause.kind
  | poolClosed => "PoolClosed"
  | workerSpawn _ => "WorkerSpawn"
  | workerPanicked _ => "WorkerPanicked"
  | interrupted _ => "Interrupted"

/-- The text of a failure. -/
def message : HostError → String
  | config cause => cause.message
  | duplicateRegistration process => "process `" ++ process ++ "` is already registered"
  | activityNotFound name => "activity `" ++ name ++ "` is not registered"
  | clientAlreadyInitialized => "engine client is already initialized"
  | clientNotInitialized => "engine client is not initialized"
  | clientClosed => "engine client is closed"
  | conversion cause => cause.message
  | engine operation cause => operation ++ " failed: " ++ cause.message
  | poolClosed => "worker pool is shut down"
  | workerSpawn cause => "failed to spawn worker thread: " ++ cause
  | workerPanicked text => "worker panicked: " ++ text
  | interrupted operation => "interrupted while waiting for " ++ operation

/-- A panic on a worker. -/
def ofPanic (text : Option String) : HostError := workerPanicked (text.getD "unknown panic")

end HostError

end Durable
