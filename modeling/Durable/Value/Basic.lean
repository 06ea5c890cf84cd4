/-
Values.

Workflow code works with values of its own; the engine accepts and returns engine
values, which are what can be written down and sent.  An engine number is always
finite, and whole numbers and others are kept apart.
-/
import Durable.Table
import Durable.Number.Text
import Durable.Number.Word

namespace Durable

/-- A value of workflow code. -/
inductive Value where
  | nil
  | boolean (b : Bool)
  | int (i : Int64)
  | float (d : Double)
  /-- A decimal number by its text. -/
  | decimal (text : String)
  | string (s : String)
  | array (items : List Value)
  | map (entries : List (String × Value))
  /-- A function by its name. -/
  | function (name : String)
deriving Repr, Inhabited

namespace Value

/-- What a value is called in messages. -/
def kind : Value → String
  | nil => "nil"
  | boolean _ => "boolean"
  | int _ => "int"
  | float _ => "float"
  | decimal _ => "decimal"
  | string _ => "string"
  | array _ => "array"
  | map _ => "map"
  | function _ => "function"

/-- The field of a map. -/
def get? (v : Value) (key : String) : Option Value :=
  match v with
  | map entries => Table.get? entries key
  | _ => none

/-- The content of a string. -/
def text? : Value → Option String
  | string s => some s
  | _ => none

end Value

/-- A number that the engine can hold. -/
inductive EngineNumber where
  /-- A whole number that fits 64 bits, with a sign or without one. -/
  | int (i : Int) (inRange : Word.leastSigned ≤ i ∧ i < Word.bound)
  | float (d : Double) (finite : d.isFinite = true)
deriving DecidableEq, Repr

namespace EngineNumber

instance : Inhabited EngineNumber := ⟨int 0 (by decide)⟩

/-- A whole number, if the engine can hold it as one. -/
def ofInt? (i : Int) : Option EngineNumber :=
  if h : Word.leastSigned ≤ i ∧ i < Word.bound then some (int i h) else none

/-- A floating-point number, if it is finite. -/
def ofDouble? (d : Double) : Option EngineNumber :=
  if h : d.isFinite = true then some (float d h) else none

/-- The text of a number. -/
def text : EngineNumber → String
  | int i _ => toString i
  | float d _ => d.text

end EngineNumber

/-- A value that the engine can hold. -/
inductive EngineValue where
  | null
  | bool (b : Bool)
  | number (n : EngineNumber)
  | string (s : String)
  | array (items : List EngineValue)
  | object (fields : List (String × EngineValue))
deriving Repr, Inhabited

namespace EngineValue

/-- The field of an object. -/
def get? (v : EngineValue) (key : String) : Option EngineValue :=
  match v with
  | object fields => Table.get? fields key
  | _ => none

/-- The item of an array. -/
def item? (v : EngineValue) (index : Nat) : Option EngineValue :=
  match v with
  | array items => items[index]?
  | _ => none

/-- The workflow that a value names by its `id` field. -/
def workflowId? (v : EngineValue) : Option String :=
  match v.get? "id" with
  | some (string s) => some s
  | some (number n) => some n.text
  | _ => none

/-- The fields of an object other than `id`. -/
def otherFields : EngineValue → List (String × EngineValue)
  | object fields => fields.filter fun (key, _) => key != "id"
  | _ => []

/-- The natural number as an engine value; those out of range are null. -/
def ofNat (n : Nat) : EngineValue :=
  match EngineNumber.ofInt? n with
  | some m => number m
  | none => null

end EngineValue

end Durable
