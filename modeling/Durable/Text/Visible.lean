/-
Texts as they are shown inside descriptions.

A text is put between quotes, and what cannot be told by eye is escaped: the usual
control characters by a letter, all others by their number.
-/
import Durable.Text.Hidden

namespace Durable.Text

/-- A natural in base sixteen. -/
def hexText (n : Nat) : List Char := Nat.toDigits 16 n

/-- How a character is shown. -/
def visibleChar (c : Char) : List Char :=
  match c with
  | '"' => ['\\', '"']
  | '\\' => ['\\', '\\']
  | '\n' => ['\\', 'n']
  | '\r' => ['\\', 'r']
  | '\t' => ['\\', 't']
  | '\x00' => ['\\', '0']
  | c => if isHidden c then ['\\', 'u', '\x7b'] ++ hexText c.toNat ++ ['\x7d'] else [c]

/-- How a text is shown, quotes included. -/
def visibleQuote (text : String) : String :=
  String.ofList ('"' :: text.toList.flatMap visibleChar ++ ['"'])

end Durable.Text
