/-
Blank characters.

The language skips the characters that Unicode gives the property `White_Space`,
a set larger than the one `Char.isWhitespace` knows: it also holds the vertical
tab, the form feed, the next-line character and the spaces outside ASCII.
-/

namespace Durable.Text

/-- The code points with the property `White_Space`, as closed ranges in order. -/
def blankRanges : List (Nat × Nat) :=
  [(0x9, 0xD), (0x20, 0x20), (0x85, 0x85), (0xA0, 0xA0), (0x1680, 0x1680), (0x2000, 0x200A),
   (0x2028, 0x2029), (0x202F, 0x202F), (0x205F, 0x205F), (0x3000, 0x3000)]

/-- A character that separates tokens. -/
def isBlank (c : Char) : Bool :=
  blankRanges.any fun (low, high) => low ≤ c.toNat && c.toNat ≤ high

/-- A letter, digit or underscore of ASCII: what a word may go on with. -/
def isWordChar (c : Char) : Bool := c.isAlphanum || c == '_'

/-- A letter or underscore of ASCII: what a word may start with. -/
def isWordStart (c : Char) : Bool := c.isAlpha || c == '_'

/-- A digit of base sixteen in either case. -/
def isHexDigit (c : Char) : Bool :=
  c.isDigit || ('a' ≤ c && c ≤ 'f') || ('A' ≤ c && c ≤ 'F')

/-- A text without the blanks at its two ends. -/
def trimBlank (s : String) : String :=
  String.ofList ((s.toList.dropWhile isBlank).reverse.dropWhile isBlank).reverse

end Durable.Text
