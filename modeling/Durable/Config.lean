/-
The configuration of a host.
-/
import Durable.Number.Word
import Durable.Text.Blank

namespace Durable

/-- What a host is set up with. -/
structure Config where
  /-- The address of the engine. -/
  serviceUrl : String := "localhost:7233"
  namespaceName : String := "default"
  /-- How many workers call the engine. -/
  workerThreads : Nat := 4
  /-- How many calls may wait for a worker. -/
  queueCapacity : Nat := 256
deriving DecidableEq, Repr, Inhabited

/-- What can be wrong with a configuration. -/
inductive ConfigError where
  | invalidValue (variableName value : String)
  | zero (setting : String)
  | empty (setting : String)
deriving DecidableEq, Repr

/-- The name of the kind of an error. -/
def ConfigError.kind : ConfigError → String
  | invalidValue _ _ => "InvalidValue" | zero _ => "Zero" | empty _ => "Empty"

/-- The text of an error. -/
def ConfigError.message : ConfigError → String
  | invalidValue variableName value => "invalid " ++ variableName ++ ": " ++ value
  | zero setting => setting ++ " must be greater than zero"
  | empty setting => setting ++ " must not be empty"

namespace Config

/-- Fails unless every setting can be used; the first one that cannot is reported. -/
def validate (c : Config) : Except ConfigError Unit :=
  if (Text.trimBlank c.serviceUrl).isEmpty then .error (.empty "service_url")
  else if (Text.trimBlank c.namespaceName).isEmpty then .error (.empty "namespace")
  else if c.workerThreads = 0 then .error (.zero "worker_threads")
  else if c.queueCapacity = 0 then .error (.zero "queue_capacity")
  else .ok ()

/-- The number that digits spell. -/
def numberOf (digits : List Char) : Nat :=
  digits.foldl (fun n d => 10 * n + (d.toNat - '0'.toNat)) 0

/-- The count that a text spells: digits, perhaps behind a plus sign, that fit 64 bits. -/
def count? (text : String) : Option Nat :=
  let digits := match text.toList with
    | '+' :: ds => ds
    | ds => ds
  if digits.isEmpty || !digits.all Char.isDigit then none
  else if numberOf digits < Word.bound then some (numberOf digits)
  else none

/-- A count that a variable may set.  Blanks around it do not matter. -/
def countSetting (lookup : String → Option String) (variableName : String) (usual : Nat) :
    Except ConfigError Nat :=
  match lookup variableName with
  | none => .ok usual
  | some value =>
    match count? (Text.trimBlank value) with
    | some n => .ok n
    | none => .error (.invalidValue variableName value)

/-- The configuration that variables set. -/
def ofLookup (lookup : String → Option String) : Except ConfigError Config := do
  let usual : Config := {}
  let workerThreads ← countSetting lookup "FLOWBIND_WORKER_THREADS" usual.workerThreads
  let queueCapacity ← countSetting lookup "FLOWBIND_QUEUE_CAPACITY" usual.queueCapacity
  let c : Config :=
    { serviceUrl := (lookup "FLOWBIND_SERVICE_URL").getD usual.serviceUrl
      namespaceName := (lookup "FLOWBIND_NAMESPACE").getD usual.namespaceName
      workerThreads, queueCapacity }
  c.validate
  pure c

end Config

end Durable
