/-
Activities given as data.

An activity is a function of workflow code, which cannot be looked into.  Scripts stand
in for such functions: each answers from its arguments and from how often it was called
before.
-/
import Durable.Host.Pool
import Durable.Value.Basic

namespace Durable

/-- What an activity does. -/
inductive ActivityScript where
  /-- Answers its arguments. -/
  | echo
  | always (v : EngineValue)
  | fail (message : String)
  | panic (text : String)
  /-- Answers one field of its arguments. -/
  | field (key : String)
  /-- Answers one item of its arguments. -/
  | item (index : Nat)
  /-- Answers how often it was called. -/
  | count

/-- An activity as it is registered.  The serial number tells it from others that do the same. -/
structure ActivityHandler where
  serial : Nat
  script : ActivityScript

/-- A value that has to be there. -/
def valueOr (message : String) : Option EngineValue → Except Fault EngineValue
  | some v => .ok v
  | none => .error (.error (.failed message))

/-- What an activity answers to arguments when it was called some times before. -/
def ActivityScript.answer (earlier : Nat) (args : EngineValue) :
    ActivityScript → Except Fault EngineValue
  | echo => .ok args
  | always v => .ok v
  | fail message => .error (.error (.failed message))
  | panic text => .error (.panic (some text))
  | field key => valueOr ("missing " ++ key) (args.get? key)
  | item index => valueOr "missing argument" (args.item? index)
  | count => .ok (.ofNat (earlier + 1))

end Durable
