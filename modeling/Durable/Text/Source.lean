/-
A named source text and the positions people read in it.

Tools hand each other byte offsets; people want lines and columns.  `lineCol`
turns the first into the second for any offset at all: past the end it answers for
the last line, and inside a character it answers the line with column one.
-/
import Durable.Text.Span
import Durable.Text.Bytes

namespace Durable

/-- A source text under the path it goes by. -/
structure Source where
  path : String
  text : String
deriving DecidableEq, Repr, Inhabited

/-- A range of a named file in lines and columns, both counted from one. -/
structure Location where
  file : String
  line : Nat
  column : Nat
  endLine : Nat
  endColumn : Nat
deriving DecidableEq, Repr, Inhabited

namespace Location

/-- The form editors jump to: file, line and column. -/
def render (l : Location) : String :=
  l.file ++ ":" ++ toString l.line ++ ":" ++ toString l.column

end Location

namespace Text

/-- The offsets just behind the newlines of a text that itself starts at `offset`. -/
def newlineStops (offset : Nat) : List Char → List Nat
  | [] => []
  | c :: cs =>
    let next := offset + c.utf8Size
    if c = '\n' then next :: newlineStops next cs else newlineStops next cs

/-- The offsets at which the lines of a text start; there is always a first line. -/
def lineStarts (cs : List Char) : List Nat := 0 :: newlineStops 0 cs

/-- The line and column of an offset: the last line that starts at or before it, and one more than
the number of characters between that start and the offset. -/
def lineCol (cs : List Char) (offset : Nat) : Nat × Nat :=
  let starts := (lineStarts cs).filter (· ≤ offset)
  let lineStart := starts.getLastD 0
  let column := match slice? cs lineStart (min offset (byteLength cs)) with
    | some line => line.length
    | none => 0
  (starts.length, column + 1)

end Text

namespace Source

/-- The number of bytes of the text. -/
def size (s : Source) : Nat := Text.byteLength s.text.toList

/-- The text of a span, or nothing where the span is out of range or cuts a character. -/
def slice (s : Source) (span : Span) : String :=
  String.ofList ((Text.slice? s.text.toList span.start span.stop).getD [])

/-- The line and column of a byte offset. -/
def lineCol (s : Source) (offset : Nat) : Nat × Nat := Text.lineCol s.text.toList offset

/-- A span as lines and columns of this file. -/
def location (s : Source) (span : Span) : Location :=
  let (line, column) := s.lineCol span.start
  let (endLine, endColumn) := s.lineCol span.stop
  { file := s.path, line, column, endLine, endColumn }

end Source

end Durable
