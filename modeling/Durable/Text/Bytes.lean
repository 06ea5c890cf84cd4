/-
Byte offsets on a list of characters.

`byteLength` is the width of a text in UTF-8, and `splitAtByte` cuts a text at a
byte offset, failing exactly when the offset falls inside a character or past the
end.  Slicing by a span is two cuts.  Everything that reads or edits a text by
offset goes through these two functions, so "on a character boundary and in
bounds" is one notion, `splitAtByte` returning something.
-/

namespace Durable.Text

/-- The number of bytes of a text in UTF-8. -/
def byteLength : List Char → Nat
  | [] => 0
  | c :: cs => c.utf8Size + byteLength cs

/-- The two parts of a text around a byte offset, when the offset is a character boundary. -/
def splitAtByte : Nat → List Char → Option (List Char × List Char)
  | 0, cs => some ([], cs)
  | _ + 1, [] => none
  | n + 1, c :: cs =>
    if c.utf8Size ≤ n + 1 then
      (splitAtByte (n + 1 - c.utf8Size) cs).map fun (before, after) => (c :: before, after)
    else none

/-- The characters between two byte offsets, when both are boundaries and in order. -/
def slice? (cs : List Char) (start stop : Nat) : Option (List Char) :=
  if start ≤ stop then do
    let (_, after) ← splitAtByte start cs
    let (piece, _) ← splitAtByte (stop - start) after
    pure piece
  else none

end Durable.Text
