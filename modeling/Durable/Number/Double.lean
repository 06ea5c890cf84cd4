/-
Binary floating-point numbers of 64 bits.

A number is its bits, so that equality tells apart what the format tells apart: the
two zeros are different and a NaN is equal to itself.  A finite number is read as
`significand * 2 ^ power` with a sign; `nearest` goes the other way, from a ratio of
naturals to the closest number, halves to the even side.
-/

namespace Durable

/-- A number in the 64-bit binary format, by its bits. -/
structure Double where
  bits : UInt64
deriving DecidableEq, Repr, Inhabited

namespace Double

/-- The weight of the sign bit: two to the power 63. -/
def signWeight : Nat := 9223372036854775808

/-- What the fraction bits stay below: two to the power 52. -/
def fractionBound : Nat := 4503599627370496

/-- The first pattern of magnitude bits that is no finite number. -/
def infinityBits : Nat := 2047 * fractionBound

/-- The least power of two that a significand is scaled by. -/
def leastPower : Int := -1074

/-- The sign bit is set. -/
def isNegative (d : Double) : Bool := signWeight ≤ d.bits.toNat

/-- The bits without the sign. -/
def magnitude (d : Double) : Nat := d.bits.toNat % signWeight

/-- Neither infinite nor a NaN. -/
def isFinite (d : Double) : Bool := d.magnitude < infinityBits

def isNaN (d : Double) : Bool := infinityBits < d.magnitude

/-- The significand and the power of two of a finite number. -/
def decode (d : Double) : Nat × Int :=
  let field : Nat := d.magnitude / fractionBound
  let fraction := d.magnitude % fractionBound
  if field = 0 then (fraction, leastPower)
  else (fractionBound + fraction, leastPower + ((field : Int) - 1))

/-- The number with a sign and magnitude bits. -/
def ofMagnitude (negative : Bool) (magnitude : Nat) : Double :=
  ⟨UInt64.ofNat ((if negative then signWeight else 0) + magnitude)⟩

/-- A ratio rounded to the nearest natural, halves to the even side. -/
def roundRatio (num den : Nat) : Nat :=
  let floor := num / den
  let twice := 2 * (num % den)
  if twice < den then floor
  else if den < twice then floor + 1
  else floor + floor % 2

/-- The ratio `num / den` divided by a power of two, as a ratio. -/
def scaleRatio (num den : Nat) (power : Int) : Nat × Nat :=
  if 0 ≤ power then (num, den * Nat.pow 2 power.toNat) else (num * Nat.pow 2 (-power).toNat, den)

/-- The power of two that leaves a ratio with a significand of 53 bits, or the least one there is. -/
def powerFor (num den : Nat) : Int :=
  let guess := max ((num.log2 : Int) - den.log2 - 53) leastPower
  let (n, d) := scaleRatio num den guess
  if 2 * fractionBound ≤ n / d then guess + 1 else guess

/-- The magnitude bits of the number nearest to a positive ratio; they reach `infinityBits` where the
ratio is out of range.  A significand that rounds up to the next power of two carries into the field
of the exponent, where it belongs. -/
def nearestMagnitude (num den : Nat) : Nat :=
  if num = 0 then 0
  else
    let power := powerFor num den
    let (n, d) := scaleRatio num den power
    (power - leastPower).toNat * fractionBound + roundRatio n d

/-- The finite number nearest to a ratio with a sign, if it is in range. -/
def nearest? (negative : Bool) (num den : Nat) : Option Double :=
  let magnitude := nearestMagnitude num den
  if magnitude < infinityBits then some (ofMagnitude negative magnitude) else none

/-- The number nearest to a whole number; those in use are all in range. -/
def ofInt (i : Int) : Double :=
  ofMagnitude (i < 0) (min (nearestMagnitude i.natAbs 1) infinityBits)

/-- The number nearest to a natural. -/
def ofNat (n : Nat) : Double := ofInt n

/-! ### Arithmetic without signs -/

def zero : Double := ⟨0⟩

/-- The number nearest to a power of ten. -/
def powerOfTen (power : Nat) : Double := ofNat (Nat.pow 10 power)

/-- The value of a finite number without its sign, as a ratio. -/
def ratio (d : Double) : Nat × Nat :=
  let (m, q) := d.decode
  if 0 ≤ q then (m * Nat.pow 2 q.toNat, 1) else (m, Nat.pow 2 (-q).toNat)

/-- A product, rounded, if it is in range. -/
def times? (a b : Double) : Option Double :=
  nearest? false (a.ratio.1 * b.ratio.1) (a.ratio.2 * b.ratio.2)

/-- A quotient, rounded, if it is in range; the divisor is not zero. -/
def over? (a b : Double) : Option Double :=
  nearest? false (a.ratio.1 * b.ratio.2) (a.ratio.2 * b.ratio.1)

/-- A number with the sign that is asked for. -/
def withSign (negative : Bool) (d : Double) : Double := ofMagnitude negative d.magnitude

end Double

end Durable
