/-
Sorting.

A list is sorted by inserting its items one by one, each in front of the first item
that must come behind it.  Items that are level with each other keep their order, and
the recursion follows the list, so that the result on a given list can be computed by
unfolding.
-/

namespace Durable

variable {α : Type}

/-- Inserts an item into a sorted list, in front of the items it is not above. -/
def insertSorted (le : α → α → Bool) (a : α) : List α → List α
  | [] => [a]
  | b :: bs => if le a b then a :: b :: bs else b :: insertSorted le a bs

/-- A list in order; items that are level keep their order. -/
def sortBy (le : α → α → Bool) : List α → List α
  | [] => []
  | a :: as => insertSorted le a (sortBy le as)

/-- The first occurrence of each item. -/
def distinct [BEq α] : List α → List α
  | [] => []
  | a :: as => a :: (distinct as).filter (· != a)

/-- Texts in the order of their code points. -/
def sortTexts (xs : List String) : List String := sortBy (fun a b => decide (a ≤ b)) xs

end Durable
