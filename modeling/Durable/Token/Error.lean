/-
What can be wrong with a source text.

Reading stops at the first fault, so a fault is one value: its cause and its place.
-/
import Durable.Text.Span

namespace Durable

/-- The first fault of a source text. -/
inductive SyntaxError where
  /-- No token starts with this character. -/
  | unexpectedChar (char : Char) (span : Span)
  /-- A string literal whose line or text ends before its closing quote. -/
  | unterminatedString (span : Span)
  /-- A backslash before a character that names no escape. -/
  | invalidEscape (letter : Char) (span : Span)
  /-- A token that cannot continue what stands before it. -/
  | unexpected (expected found : String) (span : Span)
  /-- A rule that repeats without reading anything.  No source text leads here; the readers
  bound their loops by the text's length and report this if a bound is ever met. -/
  | noProgress (span : Span)
deriving DecidableEq, Repr, Inhabited

namespace SyntaxError

/-- The place of a fault. -/
def span : SyntaxError → Span
  | unexpectedChar _ s => s
  | unterminatedString s => s
  | invalidEscape _ s => s
  | unexpected _ _ s => s
  | noProgress s => s

/-- The name of the kind of a fault. -/
def kind : SyntaxError → String
  | unexpectedChar _ _ => "UnexpectedChar"
  | unterminatedString _ => "UnterminatedString"
  | invalidEscape _ _ => "InvalidEscape"
  | unexpected _ _ _ => "Unexpected"
  | noProgress _ => "NoProgress"

/-- The text that tells a person about a fault. -/
def message : SyntaxError → String
  | unexpectedChar c _ => "unexpected character `" ++ c.toString ++ "`"
  | unterminatedString _ => "unterminated string literal"
  | invalidEscape c _ => "invalid escape sequence `\\" ++ c.toString ++ "`"
  | unexpected expected found _ => "expected " ++ expected ++ ", found " ++ found
  | noProgress _ => "the text cannot be read to its end"

end SyntaxError

end Durable
