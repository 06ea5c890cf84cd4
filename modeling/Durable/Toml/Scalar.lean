/-
Numbers, truth values and dates of TOML.

These are told apart by their spelling alone.  Each is a run of characters that no other
part of a line can hold, so it is cut out first and then has to match one of the grammars
as a whole.
-/
import Durable.Text.Blank
import Durable.Number.Word

namespace Durable.Toml

/-- A character that a scalar may contain. -/
def isScalarChar (c : Char) : Bool :=
  c.isAlphanum || c == '_' || c == '+' || c == '-' || c == '.' || c == ':'

/-! ### Digits -/

/-- Digits of a base, at least one, with single underscores only between them. -/
def isDigitRun (isDigit : Char → Bool) : List Char → Bool
  | [] => false
  | [c] => isDigit c
  | c :: '_' :: cs => isDigit c && isDigitRun isDigit cs
  | c :: cs => isDigit c && isDigitRun isDigit cs

/-- The number that digits spell in a base; underscores do not count. -/
def readBase (base : Nat) (ds : List Char) : Nat :=
  (ds.filter (· != '_')).foldl (fun n c => base * n + digitValue c) 0
where
  /-- The value of a digit of base sixteen. -/
  digitValue (c : Char) : Nat :=
    if c.isDigit then c.toNat - '0'.toNat else c.toLower.toNat - 'a'.toNat + 10

/-- A text without its sign, and whether that was a minus. -/
def splitSign : List Char → Bool × List Char
  | '-' :: cs => (true, cs)
  | '+' :: cs => (false, cs)
  | cs => (false, cs)

/-- A whole number in base ten without needless zeros. -/
def isWholeRun (ds : List Char) : Bool :=
  isDigitRun Char.isDigit ds && (ds == ['0'] || ds.head? != some '0')

/-! ### Numbers -/

/-- A whole number in the range of 64 bits. -/
def isInteger (cs : List Char) : Bool :=
  match cs with
  | '0' :: 'x' :: ds => isDigitRun Text.isHexDigit ds && readBase 16 ds < Word.signedBound
  | '0' :: 'o' :: ds =>
    isDigitRun (fun c => '0' ≤ c && c ≤ '7') ds && readBase 8 ds < Word.signedBound
  | '0' :: 'b' :: ds =>
    isDigitRun (fun c => c == '0' || c == '1') ds && readBase 2 ds < Word.signedBound
  | _ =>
    let (negative, ds) := splitSign cs
    isWholeRun ds && readBase 10 ds < Word.signedBound + (if negative then 1 else 0)

/-- The exponent of a number: its letter, an optional sign and digits. -/
def isExponent : List Char → Bool
  | e :: cs => (e == 'e' || e == 'E') && isDigitRun Char.isDigit (splitSign cs).2
  | [] => false

/-- The number that the exponent of a number spells; none counts as zero. -/
def exponentValue (cs : List Char) : Int :=
  let (negative, ds) := splitSign (cs.drop 1)
  if negative then -(readBase 10 ds : Int) else readBase 10 ds

/-- What is nearer to infinity than to the greatest number of 64 bits begins here: at two to the
power 1024 less half a place, which is two to the power 970. -/
def infinityBound : Nat := Nat.pow 2 1024 - Nat.pow 2 970

/-- A number of this many digits in front of its point may reach `infinityBound`; one of more digits
does, and one of less does not. -/
def infinityDigits : Nat := 309

/-- The number that digits with an exponent of ten spell is nearer to a finite number than to
infinity. -/
def isNearFinite (digits : List Char) (exponent : Int) : Bool :=
  let ds := digits.dropWhile (· == '0')
  let whole := ds.length + exponent
  if ds.isEmpty || whole < infinityDigits then true
  else if infinityDigits < whole then false
  else if 0 ≤ exponent then readBase 10 ds * Nat.pow 10 exponent.toNat < infinityBound
  else readBase 10 ds < infinityBound * Nat.pow 10 (-exponent).toNat

/-- A number with a fraction or an exponent.  It may be too small for 64 bits and, with a minus, too
great as well, but not without a minus. -/
def isFraction (cs : List Char) : Bool :=
  let (negative, unsigned) := splitSign cs
  let isDigitChar (c : Char) : Bool := c.isDigit || c == '_'
  let whole := unsigned.takeWhile isDigitChar
  let afterWhole := unsigned.dropWhile isDigitChar
  let hasPoint := afterWhole.head? == some '.'
  let fraction := if hasPoint then (afterWhole.drop 1).takeWhile isDigitChar else []
  let exponent := if hasPoint then (afterWhole.drop 1).dropWhile isDigitChar else afterWhole
  let digits := (whole ++ fraction).filter (· != '_')
  let places := (fraction.filter (· != '_')).length
  isWholeRun whole
    && (!hasPoint || isDigitRun Char.isDigit fraction)
    && (isExponent exponent || (hasPoint && exponent.isEmpty))
    && (negative || isNearFinite digits (exponentValue exponent - places))

/-- One of the numbers that are written as words. -/
def isSpecialNumber (cs : List Char) : Bool :=
  let word := (splitSign cs).2
  word == ['i', 'n', 'f'] || word == ['n', 'a', 'n']

/-! ### Dates -/

/-- Two digits that spell a number between two bounds. -/
def isPair (low high : Nat) : List Char → Bool
  | [a, b] => a.isDigit && b.isDigit && low ≤ readBase 10 [a, b] && readBase 10 [a, b] ≤ high
  | _ => false

/-- The number of days of a month. -/
def daysIn (year month : Nat) : Nat :=
  if month = 2 then
    if year % 4 = 0 && (year % 100 != 0 || year % 400 = 0) then 29 else 28
  else if month = 4 || month = 6 || month = 9 || month = 11 then 30 else 31

/-- A date: four, two and two digits with hyphens between them. -/
def isDate (cs : List Char) : Bool :=
  match cs with
  | [y₁, y₂, y₃, y₄, '-', m₁, m₂, '-', d₁, d₂] =>
    [y₁, y₂, y₃, y₄].all Char.isDigit && isPair 1 12 [m₁, m₂]
      && isPair 1 (daysIn (readBase 10 [y₁, y₂, y₃, y₄]) (readBase 10 [m₁, m₂])) [d₁, d₂]
  | _ => false

/-- A time of day: hours, minutes and seconds, with an optional fraction of a second. -/
def isTime (cs : List Char) : Bool :=
  match cs with
  | h₁ :: h₂ :: ':' :: m₁ :: m₂ :: ':' :: s₁ :: s₂ :: more =>
    isPair 0 23 [h₁, h₂] && isPair 0 59 [m₁, m₂] && isPair 0 60 [s₁, s₂]
      && (match more with
        | [] => true
        | '.' :: ds => !ds.isEmpty && ds.all Char.isDigit
        | _ => false)
  | _ => false

/-- An offset from universal time. -/
def isOffset (cs : List Char) : Bool :=
  match cs with
  | ['Z'] | ['z'] => true
  | [sign, h₁, h₂, ':', m₁, m₂] =>
    (sign == '+' || sign == '-') && isPair 0 23 [h₁, h₂] && isPair 0 59 [m₁, m₂]
  | _ => false

/-- A time of day that an offset may follow. -/
def isTimeWithOffset (cs : List Char) : Bool :=
  let isTimeChar (c : Char) : Bool := c.isDigit || c == ':' || c == '.'
  let offset := cs.dropWhile isTimeChar
  isTime (cs.takeWhile isTimeChar) && (offset.isEmpty || isOffset offset)

/-- A date, a time, or a date with a time behind it. -/
def isMoment (cs : List Char) : Bool :=
  isDate cs || isTime cs
    || (isDate (cs.take 10) && (match cs.drop 10 with
      | sep :: time => (sep == 'T' || sep == 't' || sep == ' ') && isTimeWithOffset time
      | [] => false))

/-- A truth value or a number. -/
def isScalar (cs : List Char) : Bool :=
  cs == "true".toList || cs == "false".toList || isInteger cs || isFraction cs
    || isSpecialNumber cs

end Durable.Toml
