/-
The manifest of a package.

A package may say what it is called in a file at its root.  The file is TOML; of it only
the organization and the name under `package` are read, and both may be left out.
-/
import Durable.Toml.Document

namespace Durable

/-- What a manifest says. -/
structure Manifest where
  org : Option String
  name : Option String
deriving DecidableEq, Repr, Inhabited

namespace Manifest

/-- The name of the file. -/
def fileName : String := "Flowbind.toml"

/-- An entry that has to be a text if it is there. -/
def optionalText : Option Toml.Value → Option (Option String)
  | none => some none
  | some (.text s) => some (some s)
  | some _ => none

/-- What stands under `package`: a table, or the same two texts in order.  A date or a time says
neither of them. -/
def ofValue? : Toml.Value → Option Manifest
  | .table o es => do
    let org ← optionalText ((Toml.Value.table o es).get? "org")
    let name ← optionalText ((Toml.Value.table o es).get? "name")
    pure ⟨org, name⟩
  | .array (.text org :: .text name :: _) => some ⟨some org, some name⟩
  | .moment => some ⟨none, none⟩
  | _ => none

/-- The manifest that a text is, if it is well formed. -/
def read? (text : String) : Option Manifest := do
  let document ← Toml.read? text
  match document.get? "package" with
  | none => some ⟨none, none⟩
  | some v => ofValue? v

end Manifest

end Durable
