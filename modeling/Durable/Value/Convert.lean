/-
Values to and from the engine.

What can be written down crosses over as it is.  A decimal becomes the number that its
text spells.  Functions cannot cross, nor can numbers that are not finite; of several
obstacles in one value the first one in reading order is reported.
-/
import Durable.Value.Basic
import Durable.Number.Decimal

namespace Durable

/-- What keeps a value from crossing to the engine. -/
inductive ConversionError where
  | notFinite (d : Double)
  | invalidDecimal (text : String)
  | unsupported (kind : String)
  | unexpectedShape (expected found : String)
deriving DecidableEq, Repr

/-- The name of the kind of an error. -/
def ConversionError.kind : ConversionError → String
  | notFinite _ => "NonFiniteFloat"
  | invalidDecimal _ => "InvalidDecimal"
  | unsupported _ => "Unsupported"
  | unexpectedShape _ _ => "UnexpectedShape"

/-- The text of a number that is not finite. -/
def Double.textOfNonFinite (d : Double) : String :=
  if d.isNaN then "NaN" else if d.isNegative then "-inf" else "inf"

/-- The text of an error. -/
def ConversionError.message : ConversionError → String
  | notFinite d => "float " ++ d.textOfNonFinite ++ " has no engine representation"
  | invalidDecimal text => "invalid decimal `" ++ text ++ "`"
  | unsupported kind => kind ++ " values cannot be sent to the engine"
  | unexpectedShape expected found => "expected " ++ expected ++ ", found " ++ found

/-- A whole number of 64 bits with a sign. -/
def EngineNumber.ofInt64 (i : Int64) : EngineNumber :=
  .int i.toInt ⟨Int64.le_toInt i, Int.lt_trans (Int64.toInt_lt i) (by decide)⟩

/-- The number that a text spells.  Whole numbers stay whole where they fit, apart from the negative
zero; all others are rounded. -/
def EngineNumber.read? (text : String) : Option EngineNumber := do
  let d ← Decimal.read? text
  let whole := if d.isWhole && !(d.negative && d.digits == 0) then ofInt? d.toInt else none
  match whole with
  | some n => pure n
  | none => ofDouble? (← d.toDouble?)

namespace Value

mutual

/-- A value as the engine holds it. -/
def toEngine : Value → Except ConversionError EngineValue
  | nil => .ok .null
  | boolean b => .ok (.bool b)
  | int i => .ok (.number (.ofInt64 i))
  | float d =>
    match EngineNumber.ofDouble? d with
    | some n => .ok (.number n)
    | none => .error (.notFinite d)
  | decimal text =>
    match EngineNumber.read? text with
    | some n => .ok (.number n)
    | none => .error (.invalidDecimal text)
  | string s => .ok (.string s)
  | array items => (toEngineItems items).map .array
  | map entries => (toEngineFields entries).map .object
  | function _ => .error (.unsupported "function")

/-- The items of an array as the engine holds them. -/
def toEngineItems : List Value → Except ConversionError (List EngineValue)
  | [] => .ok []
  | v :: vs => do
    let e ← toEngine v
    let es ← toEngineItems vs
    pure (e :: es)

/-- The entries of a map as the engine holds them. -/
def toEngineFields : List (String × Value) → Except ConversionError (List (String × EngineValue))
  | [] => .ok []
  | (key, v) :: vs => do
    let e ← toEngine v
    let es ← toEngineFields vs
    pure ((key, e) :: es)

end

/-- A map as the engine holds it; nothing else is accepted. -/
def toEngineObject : Value → Except ConversionError EngineValue
  | map entries => toEngine (map entries)
  | v => .error (.unexpectedShape "map" v.kind)

/-- A number of the engine: a whole one that does not fit 64 bits with a sign is rounded. -/
def ofEngineNumber : EngineNumber → Value
  | .int i _ =>
    if Word.leastSigned ≤ i ∧ i < Word.signedBound then int (Int64.ofInt i)
    else float (Double.ofInt i)
  | .float d _ => float d

mutual

/-- A value that comes from the engine. -/
def ofEngine : EngineValue → Value
  | .null => nil
  | .bool b => boolean b
  | .number n => ofEngineNumber n
  | .string s => string s
  | .array items => array (ofEngineItems items)
  | .object fields => map (ofEngineFields fields)

/-- The items of an array that come from the engine. -/
def ofEngineItems : List EngineValue → List Value
  | [] => []
  | e :: es => ofEngine e :: ofEngineItems es

/-- The fields of an object that come from the engine. -/
def ofEngineFields : List (String × EngineValue) → List (String × Value)
  | [] => []
  | (key, e) :: es => (key, ofEngine e) :: ofEngineFields es

end

end Value

end Durable
