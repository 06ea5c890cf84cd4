/-
Finite maps in the order of their keys.

A table is the list of its entries, sorted by key, with one entry for a key.  Every
table that is built by `put` and `erase` from the empty one is of this form, and so
equal tables have equal entries.
-/

namespace Durable

/-- A map from texts, as its entries in the order of their keys. -/
abbrev Table (α : Type) := List (String × α)

namespace Table

variable {α : Type}

/-- What stands under a key. -/
def get? (t : Table α) (key : String) : Option α :=
  match t with
  | [] => none
  | (k, a) :: more => if k = key then some a else get? more key

/-- Something stands under a key. -/
def has (t : Table α) (key : String) : Bool := (t.get? key).isSome

/-- Puts an entry under a key, in place of the one that is there. -/
def put (t : Table α) (key : String) (a : α) : Table α :=
  match t with
  | [] => [(key, a)]
  | (k, b) :: more =>
    if k = key then (key, a) :: more
    else if key < k then (key, a) :: (k, b) :: more
    else (k, b) :: put more key a

/-- Takes the entry under a key away. -/
def erase (t : Table α) (key : String) : Table α := t.filter fun (k, _) => k != key

@[simp] theorem get?_put_self (t : Table α) (key : String) (a : α) :
    (t.put key a).get? key = some a := by
  induction t with
  | nil => simp [put, get?]
  | cons entry more ih =>
    obtain ⟨k, b⟩ := entry
    rw [put]
    split
    · simp [get?]
    · rename_i hk
      split
      · simp [get?]
      · rw [get?, if_neg hk, ih]

theorem get?_put_of_ne (t : Table α) {key other : String} (a : α) (h : other ≠ key) :
    (t.put key a).get? other = t.get? other := by
  induction t with
  | nil => simp [put, get?, h.symm]
  | cons entry more ih =>
    obtain ⟨k, b⟩ := entry
    rw [put]
    split
    · rename_i hk
      subst hk
      simp [get?, h.symm]
    · split
      · rw [get?, if_neg h.symm]
      · rw [get?, get?, ih]

/-- The keys in order. -/
def keys (t : Table α) : List String := t.map (·.1)

/-- The table of some entries; of several under one key the last counts. -/
def ofEntries (entries : List (String × α)) : Table α :=
  entries.foldl (fun t (key, a) => t.put key a) []

end Table

end Durable
