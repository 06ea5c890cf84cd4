/-
Places in a source text.

A place is a byte offset into the text's UTF-8 form.  Offsets count bytes rather
than characters because two stages have to agree on them without sharing a data
structure: the tokens name places, and an edit cuts the text there.
-/

namespace Durable

/-- The half-open range of byte offsets `[start, stop)`. -/
structure Span where
  start : Nat
  stop : Nat
deriving DecidableEq, Repr, Inhabited

namespace Span

/-- The span of a node that no source text was read for. -/
def synthetic : Span := ⟨0, 0⟩

/-- The smallest span that covers both. -/
def cover (a b : Span) : Span := ⟨min a.start b.start, max a.stop b.stop⟩

/-- A span without extent, reversed ones included. -/
def isEmpty (s : Span) : Bool := decide (s.stop ≤ s.start)

/-- Every byte of `inner` lies in `outer`. -/
def Contains (outer inner : Span) : Prop := outer.start ≤ inner.start ∧ inner.stop ≤ outer.stop

end Span

end Durable
