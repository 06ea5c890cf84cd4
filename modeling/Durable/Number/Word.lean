/-
What fits a word of 64 bits.
-/

namespace Durable.Word

/-- The least whole number that a word with a sign holds: minus two to the power 63. -/
abbrev leastSigned : Int := -9223372036854775808

/-- The naturals that a word with a sign holds are below two to the power 63. -/
abbrev signedBound : Nat := 9223372036854775808

/-- The naturals that a word holds are below two to the power 64. -/
abbrev bound : Nat := 18446744073709551616

end Durable.Word
