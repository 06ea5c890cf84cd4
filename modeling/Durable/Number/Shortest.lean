/-
The shortest decimal that reads back as a number.

A number stands for all reals that round to it: those between the midpoints to its two
neighbours, the midpoints included when its significand is even.  Among the decimals in
that interval the shortest ones are looked for on grids of growing fineness, and of
those the nearest to the number is taken.  A grid with a point in the interval has one
next to the number itself, so two candidates per grid are enough.
-/
import Durable.Number.Double

namespace Durable.Double

/-- The interval of reals that round to a number, over a common denominator, with the number itself:
`low / den`, `value / den` and `high / den`. -/
structure Neighbourhood where
  low : Nat
  value : Nat
  high : Nat
  den : Nat
  /-- The two ends round to the number too. -/
  closed : Bool

/-- The reals that round to a finite positive number.  Below a power of two the neighbour is only
half as far. -/
def neighbourhood (d : Double) : Neighbourhood :=
  let (m, q) := d.decode
  let narrow := m = fractionBound && leastPower < q
  let (scale, den) := if 0 ≤ q then (Nat.pow 2 q.toNat, 1) else (1, Nat.pow 2 (-q).toNat)
  { low := (if narrow then 4 * m - 1 else 4 * m - 2) * scale
    value := 4 * m * scale
    high := (4 * m + 2) * scale
    den := 4 * den
    closed := m % 2 = 0 }

/-- `digits * 10 ^ power` lies in a neighbourhood; both sides are compared over `10 ^ -power` where
the power is negative. -/
def Neighbourhood.holds (n : Neighbourhood) (digits : Nat) (power : Int) : Bool :=
  let point := if 0 ≤ power then digits * Nat.pow 10 power.toNat * n.den else digits * n.den
  let unit := if 0 ≤ power then 1 else Nat.pow 10 (-power).toNat
  if n.closed then n.low * unit ≤ point && point ≤ n.high * unit
  else n.low * unit < point && point < n.high * unit

/-- Twice the distance of a grid point from the number, over the common denominator. -/
def Neighbourhood.distance (n : Neighbourhood) (digits : Nat) (power : Int) : Nat :=
  let point := if 0 ≤ power then digits * Nat.pow 10 power.toNat * n.den else digits * n.den
  let unit := if 0 ≤ power then 1 else Nat.pow 10 (-power).toNat
  let value := n.value * unit
  (point - value) + (value - point)

/-- The grid point in a neighbourhood that is nearest to the number, on the grid of multiples of a
power of ten; of two equally near ones the even. -/
def Neighbourhood.onGrid? (n : Neighbourhood) (power : Int) : Option Nat :=
  let floor := if 0 ≤ power then n.value / (n.den * Nat.pow 10 power.toNat)
    else n.value * Nat.pow 10 (-power).toNat / n.den
  let below := n.holds floor power && 0 < floor
  let above := n.holds (floor + 1) power
  if below && above then
    let b := n.distance floor power
    let a := n.distance (floor + 1) power
    if b < a then some floor
    else if a < b then some (floor + 1)
    else some (floor + floor % 2)
  else if below then some floor
  else if above then some (floor + 1)
  else none

/-- The first grid with a point in a neighbourhood, from a power of ten downwards. -/
def Neighbourhood.search (n : Neighbourhood) : Nat → Int → Nat × Int
  | 0, power => (0, power)
  | steps + 1, power =>
    match n.onGrid? power with
    | some digits => (digits, power)
    | none => search n steps (power - 1)

/-- The shortest digits that read back as a finite number, and the power of ten they are scaled by.
Zero has no digits.  The coarsest grid is above every number, the finest below the least. -/
def shortest (d : Double) : Nat × Int :=
  if d.magnitude = 0 then (0, 0) else d.neighbourhood.search 660 310

end Durable.Double
