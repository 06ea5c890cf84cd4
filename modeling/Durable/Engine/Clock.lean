/-
Instants and durations.

Both are counted in nanoseconds, instants from the beginning of 1970.  A duration that
is too long to be added to an instant counts as none, and an instant behind the last
one that can be told is a fault.
-/

namespace Durable.Clock

/-- The nanoseconds of a second. -/
def second : Nat := 1000000000

/-- The nanoseconds of a millisecond. -/
def millisecond : Nat := 1000000

/-- The longest duration that can be added to an instant: as many milliseconds as a word with a
sign can count. -/
def longestDelay : Nat := 9223372036854775807 * millisecond

/-- The last instant that can be told: the end of the year 262142. -/
def lastInstant : Nat := 8210266876799 * second + (second - 1)

/-- What a duration counts as when it is added to an instant. -/
def delay (duration : Nat) : Nat := if duration ≤ longestDelay then duration else 0

/-- The instant that lies a duration behind another, if it can be told. -/
def deadline? (now duration : Nat) : Option Nat :=
  if now + delay duration ≤ lastInstant then some (now + delay duration) else none

end Durable.Clock
