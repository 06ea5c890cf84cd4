/-
String literals: how a value is written between quotes, and how it is read back.

Writing escapes six characters; reading also knows an escaped apostrophe, which
writing never needs.  Reading stops at the closing quote and reports the two ways
in which a literal can fail: the line or the text ends first, or a backslash stands
before a character that no escape is named for.  Every result also carries the
characters it read, from which the caller computes places.
-/

namespace Durable.Text

/-- The letter an escape is written with, for the characters that need one. -/
def escapeLetter? : Char → Option Char
  | '"' => some '"'
  | '\\' => some '\\'
  | '\n' => some 'n'
  | '\t' => some 't'
  | '\r' => some 'r'
  | '\x00' => some '0'
  | _ => none

/-- The character that an escape stands for, by its letter. -/
def unescape? : Char → Option Char
  | 'n' => some '\n'
  | 't' => some '\t'
  | 'r' => some '\r'
  | '\\' => some '\\'
  | '"' => some '"'
  | '\x27' => some '\x27'
  | '0' => some '\x00'
  | _ => none

/-- The inside of the literal that stands for a value. -/
def escape : List Char → List Char
  | [] => []
  | c :: cs =>
    match escapeLetter? c with
    | some e => '\\' :: e :: escape cs
    | none => c :: escape cs

/-- The literal for a value, quotes included. -/
def quote (value : String) : String :=
  String.ofList ('"' :: escape value.toList ++ ['"'])

/-- What reading a literal from behind its opening quote can find. -/
inductive QuotedScan where
  /-- The value, the characters up to and including the closing quote, and what follows. -/
  | closed (value read rest : List Char)
  /-- The line or the text ended; `read` is all that was passed, a line end included. -/
  | unterminated (read : List Char)
  /-- The backslash behind `before` is followed by `letter`, which names no escape. -/
  | badEscape (before : List Char) (letter : Char)

namespace QuotedScan

/-- The scan of a text that starts with `read`, standing for the character `c`, given the scan of
the rest. -/
def push (c : Char) (read : List Char) : QuotedScan → QuotedScan
  | closed value more rest => closed (c :: value) (read ++ more) rest
  | unterminated more => unterminated (read ++ more)
  | badEscape before letter => badEscape (read ++ before) letter

end QuotedScan

/-- Reads a literal from behind its opening quote. -/
def scanQuoted : List Char → QuotedScan
  | [] => .unterminated []
  | ['\\'] => .unterminated ['\\']
  | '\\' :: e :: cs =>
    match unescape? e with
    | some c => (scanQuoted cs).push c ['\\', e]
    | none => .badEscape [] e
  | '"' :: cs => .closed [] ['"'] cs
  | '\n' :: _ => .unterminated ['\n']
  | c :: cs => (scanQuoted cs).push c [c]

end Durable.Text
