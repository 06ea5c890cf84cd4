/-
Values of a TOML document.

Only texts and the shape of tables matter to what is read from a document, so numbers
and truth values are one case, and so are dates and times.  Tables remember how they came
to be, because that decides whether a later line may add to them.
-/

namespace Durable.Toml

/-- How a table came to be. -/
inductive Origin where
  /-- By its own header, or as the document itself. -/
  | header
  /-- By the header of a table below it. -/
  | implied
  /-- By a dotted key. -/
  | dotted
  /-- Between braces. -/
  | inline
deriving DecidableEq, Repr

/-- A value. -/
inductive Value where
  | text (value : String)
  /-- A number or a truth value. -/
  | scalar
  /-- A date, a time or both. -/
  | moment
  | array (items : List Value)
  | table (origin : Origin) (entries : List (String × Value))
  /-- Tables that each came from a header in double brackets. -/
  | tables (items : List Value)

namespace Value

/-- The entries of a table. -/
def entries : Value → List (String × Value)
  | table _ es => es
  | _ => []

/-- The value under a key. -/
def get? (v : Value) (key : String) : Option Value := (v.entries.find? (·.1 == key)).map (·.2)

/-- The table with a value under a key, in place of one that was there. -/
def set (v : Value) (key : String) (new : Value) : Value :=
  match v with
  | table o es =>
    if es.any (·.1 == key) then table o (es.map fun e => if e.1 == key then (key, new) else e)
    else table o (es ++ [(key, new)])
  | other => other

end Value

end Durable.Toml
