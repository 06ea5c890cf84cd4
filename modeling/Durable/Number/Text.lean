/-
How numbers are written.

A number is written with the fewest digits that read back.  Those of middling size are
written plainly, with a point even where nothing stands behind it; the others with one
digit in front of the point and a signed power of ten.
-/
import Durable.Number.Shortest

namespace Durable.Double

/-- The powers of ten between which numbers are written plainly: the leading digit of a plain number
stands for a power from `least` on and below `bound`. -/
structure PlainRange where
  least : Int
  bound : Int

/-- Numbers from `10 ^ -5` on and below `10 ^ 16` are written plainly. -/
def plainRange : PlainRange := ⟨-5, 16⟩

/-- Digits scaled by a power of ten, written plainly. -/
def plainText (digits : List Char) (power : Int) : List Char :=
  let whole := digits.length + power
  if 0 ≤ power then digits ++ List.replicate power.toNat '0' ++ ['.', '0']
  else if 0 < whole then digits.take whole.toNat ++ '.' :: digits.drop whole.toNat
  else '0' :: '.' :: List.replicate (-whole).toNat '0' ++ digits

/-- Digits with the first of them standing for a power of ten, written with that power. -/
def scaledText (digits : List Char) (leading : Int) : List Char :=
  let mantissa := match digits with
    | [] | [_] => digits
    | d :: ds => d :: '.' :: ds
  mantissa ++ 'e' :: (if leading < 0 then '-' else '+') :: (toString leading.natAbs).toList

/-- The text of a finite number. -/
def text (d : Double) : String :=
  let (n, power) := d.shortest
  let digits := (toString n).toList
  let leading := (digits.length : Int) - 1 + power
  let unsigned :=
    if plainRange.least ≤ leading && leading < plainRange.bound then plainText digits power
    else scaledText digits leading
  String.ofList (if d.isNegative then '-' :: unsigned else unsigned)

end Durable.Double
