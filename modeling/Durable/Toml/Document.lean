/-
Reading TOML documents.

A document is a sequence of lines: headers name the table that the following lines add
to.  A table may be named by one header only, a header may not lead through a value,
and a dotted key may not add to a table that has a header of its own.
-/
import Durable.Toml.Reader

namespace Durable.Toml

open Reader

/-! ### Headers -/

/-- Changes the table that a header's path leads to.  Tables on the way are made where they are
missing; an array of tables is entered at its last table; a table between braces is closed. -/
def atPath (change : Value → Option Value) : List String → Value → Option Value
  | [], t => change t
  | key :: keys, t =>
    match t.get? key with
    | none => do pure (t.set key (← atPath change keys (.table .implied [])))
    | some (.table .inline _) => none
    | some (.table o es) => do pure (t.set key (← atPath change keys (.table o es)))
    | some (.tables items) =>
      match items.getLast? with
      | some last => do pure (t.set key (.tables (items.dropLast ++ [← atPath change keys last])))
      | none => none
    | some _ => none

/-- Makes the table that a header names.  It may be there already only because a table below it was
named before. -/
def openTable (key : String) (t : Value) : Option Value :=
  match t.get? key with
  | none => some (t.set key (.table .header []))
  | some (.table .implied es) => some (t.set key (.table .header es))
  | some _ => none

/-- Adds a table to the array of tables that a header names. -/
def openItem (key : String) (t : Value) : Option Value :=
  match t.get? key with
  | none => some (t.set key (.tables [.table .header []]))
  | some (.tables items) => some (t.set key (.tables (items ++ [.table .header []])))
  | some _ => none

/-- A document under way: what was read, and the path of the table that lines add to. -/
structure Progress where
  document : Value
  path : List String

/-- Takes a header into account. -/
def Progress.header (p : Progress) (isArray : Bool) (key : List String) : Option Progress := do
  let last ← key.getLast?
  let change := if isArray then openItem last else openTable last
  pure ⟨← atPath change key.dropLast p.document, key⟩

/-- Takes a line with a key and a value into account. -/
def Progress.entry (p : Progress) (key : List String) (v : Value) : Option Progress := do
  let document ← atPath (insertDotted key v) p.path p.document
  pure { p with document }

/-! ### Lines -/

/-- Lifts a step that may fail. -/
def orReject {α : Type} : Option α → Reader α
  | some a => pure a
  | none => reject

/-- A header, from behind its opening bracket. -/
def readHeader (p : Progress) : Reader Progress := do
  let isArray ← accept "["
  let key ← readKey
  expect (if isArray then "]]" else "]")
  orReject (p.header isArray key)

/-- A key and its value. -/
def readEntry (p : Progress) : Reader Progress := do
  let key ← readKey
  expect "="
  skipSpaces
  let v ← readValue nestingLimit
  orReject (p.entry key v)

/-- One line, through its end. -/
def readLine (p : Progress) : Reader (Progress × Bool) := do
  skipSpaces
  let p ← match ← peek? with
    | none => pure p
    | some '#' => pure p
    | some '\n' => pure p
    | some '\r' => pure p
    | some '[' => do skip 1; readHeader p
    | some _ => readEntry p
  skipSpaces
  skipComment
  if ← acceptNewline then pure (p, false)
  else if (← rest).isEmpty then pure (p, true)
  else reject

/-- The document that a text is, if it is well formed.  A byte order mark at its start is passed. -/
def read? (text : String) : Option Value := do
  let cs := match text.toList with
    | '\ufeff' :: cs => cs
    | cs => cs
  let (p, _) ← repeated readLine ⟨.table .header [], []⟩ cs
  pure p.document

end Durable.Toml
