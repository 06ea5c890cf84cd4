/-
Registries: names with what they stand for.

The first registration of a name wins: a name that is taken is not given away again
until it is removed.
-/
import Durable.Table

namespace Durable

/-- A registry of handles by their names. -/
structure Registry (η : Type) where
  /-- What the registry is called in descriptions. -/
  kind : String
  entries : Table η

namespace Registry

variable {η : Type}

/-- A registry without names. -/
def empty (kind : String) : Registry η := ⟨kind, []⟩

/-- The handle of a name. -/
def lookup? (r : Registry η) (name : String) : Option η := r.entries.get? name

def contains (r : Registry η) (name : String) : Bool := (r.lookup? name).isSome

/-- Registers a handle under a name, unless the name is taken; the answer says which. -/
def register (r : Registry η) (name : String) (handle : η) : Bool × Registry η :=
  if r.contains name then (false, r) else (true, { r with entries := r.entries.put name handle })

/-- Removes a name; the answer says whether it was there. -/
def unregister (r : Registry η) (name : String) : Bool × Registry η :=
  (r.contains name, { r with entries := r.entries.erase name })

/-- Removes every name. -/
def clear (r : Registry η) : Registry η := { r with entries := [] }

/-- How many names there are. -/
def size (r : Registry η) : Nat := r.entries.length

/-- The names in order. -/
def names (r : Registry η) : List String := r.entries.keys

/-- The description of a registry. -/
def describe (r : Registry η) : String :=
  "Registry \x7b kind: \"" ++ r.kind ++ "\", size: " ++ toString r.size ++ " \x7d"

end Registry

end Durable
