/-
Reading decimal numbers.

The grammar is that of numbers in JSON: an optional minus sign, a whole part without
needless zeros, and optional fraction and exponent.  A text without fraction and
exponent is a whole number.

Digits are gathered as long as they fit 64 bits; those behind are only counted.  What
was gathered is rounded once and then scaled by a power of ten, which rounds again.  So
short decimals of middling size are read as the nearest number, and long or extreme
ones may be a last place away from it.
-/
import Durable.Number.Double
import Durable.Number.Word

namespace Durable

/-- A decimal as it is read: `digits * 10 ^ exponent` with a sign. -/
structure Decimal where
  negative : Bool
  /-- The digits that were gathered; they fit 64 bits. -/
  digits : Nat
  exponent : Int
  /-- It was written without fraction and exponent, and all its digits were gathered. -/
  isWhole : Bool
deriving DecidableEq, Repr

namespace Decimal

/-- The value of a digit. -/
def digitValue (d : Char) : Nat := d.toNat - '0'.toNat

/-- Gathers digits behind a number while it fits, and gives those that are left. -/
def gather (n : Nat) : List Char → Nat × List Char
  | [] => (n, [])
  | d :: ds =>
    if 10 * n + digitValue d < Word.bound then gather (10 * n + digitValue d) ds else (n, d :: ds)

/-- The digits of a whole part and what follows them: a zero stands alone. -/
def wholePart? : List Char → Option (List Char × List Char)
  | '0' :: cs => some (['0'], cs)
  | cs =>
    let ds := cs.takeWhile Char.isDigit
    if ds.isEmpty then none else some (ds, cs.dropWhile Char.isDigit)

/-- The digits behind a point, if there is one, and what follows them. -/
def fractionPart? : List Char → Option (List Char × List Char)
  | '.' :: cs =>
    let ds := cs.takeWhile Char.isDigit
    if ds.isEmpty then none else some (ds, cs.dropWhile Char.isDigit)
  | cs => some ([], cs)

/-- The number that a text of digits alone spells. -/
def unsigned? (ds : List Char) : Option Nat :=
  if ds.isEmpty || !ds.all Char.isDigit then none
  else some (ds.foldl (fun n d => 10 * n + digitValue d) 0)

/-- The exponent that ends a number; nothing may follow it. -/
def exponentPart? : List Char → Option Int
  | [] => some 0
  | e :: cs =>
    if e == 'e' || e == 'E' then
      match cs with
      | '-' :: ds => (unsigned? ds).map fun n => -(n : Int)
      | '+' :: ds => (unsigned? ds).map fun n => (n : Int)
      | ds => (unsigned? ds).map fun n => (n : Int)
    else none

/-- The decimal that a text spells. -/
def read? (text : String) : Option Decimal := do
  let (negative, unsigned) := match text.toList with
    | '-' :: cs => (true, cs)
    | cs => (false, cs)
  let (whole, afterWhole) ← wholePart? unsigned
  let (fraction, afterFraction) ← fractionPart? afterWhole
  let exponent ← exponentPart? afterFraction
  let (n, uncounted) := gather 0 whole
  let (digits, ignored) := gather n fraction
  pure
    { negative, digits
      exponent := exponent + uncounted.length - (fraction.length - ignored.length : Nat)
      isWhole := afterWhole.isEmpty && uncounted.isEmpty }

/-- The greatest power of ten that there is a number near. -/
def greatestPower : Nat := 308

/-- A number scaled by a power of ten, if the result is in range.  Below the least power the scaling
takes two steps, and what would need a third is too small to tell from zero. -/
def scale? (f : Double) (exponent : Int) : Option Double :=
  if 0 ≤ exponent then
    if exponent ≤ greatestPower then f.times? (.powerOfTen exponent.toNat) else none
  else
    let down := (-exponent).toNat
    if down ≤ greatestPower then f.over? (.powerOfTen down)
    else if down ≤ 2 * greatestPower then do
      (← f.over? (.powerOfTen greatestPower)).over? (.powerOfTen (down - greatestPower))
    else some Double.zero

/-- The number that a decimal is read as, if it is in range. -/
def toDouble? (d : Decimal) : Option Double :=
  if d.digits = 0 then some (Double.zero.withSign d.negative)
  else (scale? (.ofNat d.digits) d.exponent).map (·.withSign d.negative)

/-- The whole number that a decimal spells, with its sign. -/
def toInt (d : Decimal) : Int := if d.negative then -(d.digits : Int) else d.digits

end Decimal

end Durable
