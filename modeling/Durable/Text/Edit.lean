/-
Editing a text in place.

An edit replaces a span of the text as it was read; a span without extent inserts.  Edits are
made from the back of the text to its front, so that making one does not move the
others.
-/
import Durable.Order
import Durable.Text.Span
import Durable.Text.Bytes

namespace Durable.Text

/-- The replacement of a span. -/
structure Edit where
  span : Span
  text : String
deriving DecidableEq, Repr, Inhabited

namespace Edit

/-- The insertion of a text at an offset. -/
def insertion (offset : Nat) (text : String) : Edit := ⟨⟨offset, offset⟩, text⟩

/-- Makes one edit; one whose span is no part of the text changes nothing. -/
def apply (cs : List Char) (e : Edit) : List Char :=
  if e.span.start ≤ e.span.stop then
    match splitAtByte e.span.start cs with
    | some (before, rest) =>
      match splitAtByte (e.span.stop - e.span.start) rest with
      | some (_, after) => before ++ e.text.toList ++ after
      | none => cs
    | none => cs
  else cs

/-- Makes edits that do not overlap.  Of two at one offset the first in the list is made first and
so comes to stand behind the other. -/
def applyAll (text : String) (edits : List Edit) : String :=
  let ordered := sortBy (fun a b : Edit => decide (b.span.start ≤ a.span.start)) edits
  String.ofList (ordered.foldl apply text.toList)

end Edit

end Durable.Text
