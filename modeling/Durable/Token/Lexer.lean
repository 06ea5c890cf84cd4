/-
Reading a text as tokens.

Each scanner returns a `Lexeme`: the token's kind, the characters it is made of and
the characters behind it.  A lexeme never loses text: `text ++ rest` is what the
scanner was given, and `text` is not empty.  `tokenize` alternates between skipping
what carries no meaning and scanning one lexeme; offsets are the running sum of
byte lengths.  Where two tokens could start at one place the longer one is taken.
-/
import Durable.Text.Bytes
import Durable.Text.Blank
import Durable.Text.Quoted
import Durable.Token.Basic
import Durable.Token.Error

namespace Durable.Lexer

open Durable.Text

/-! ### What separates tokens -/

/-- Splits off the blanks and comments that a text starts with.  A comment runs from two slashes to
the end of its line; the flag says that one is open. -/
def splitTrivia : Bool → List Char → List Char × List Char
  | _, [] => ([], [])
  | true, c :: cs =>
    let (skipped, rest) := splitTrivia (c != '\n') cs
    (c :: skipped, rest)
  | false, '/' :: '/' :: cs =>
    let (skipped, rest) := splitTrivia true cs
    ('/' :: '/' :: skipped, rest)
  | false, c :: cs =>
    if isBlank c then
      let (skipped, rest) := splitTrivia false cs
      (c :: skipped, rest)
    else ([], c :: cs)

/-! ### Lexemes -/

/-- A scanned token: its kind, the characters it is made of, and what follows them. -/
structure Lexeme where
  kind : TokenKind
  text : List Char
  rest : List Char

/-- Reserved words are words too; every other word is a name. -/
def classifyWord (word : List Char) : TokenKind :=
  let text := String.ofList word
  match Keyword.ofText? text with
  | some k => .keyword k
  | none => .ident text

/-- A word: as many letters, digits and underscores as there are. -/
def scanWord (cs : List Char) : Lexeme :=
  let word := cs.takeWhile isWordChar
  ⟨classifyWord word, word, cs.dropWhile isWordChar⟩

/-- A name behind an apostrophe, which may spell a reserved word and may even be empty. -/
def scanQuotedName (afterMark : List Char) : Lexeme :=
  let word := afterMark.takeWhile isWordChar
  ⟨.ident (String.ofList word), '\x27' :: word, afterMark.dropWhile isWordChar⟩

/-! ### Numbers -/

/-- The fraction of a number: a point, only if a digit follows it. -/
def fractionLength : List Char → Nat
  | '.' :: c :: cs => if c.isDigit then 1 + ((c :: cs).takeWhile Char.isDigit).length else 0
  | _ => 0

/-- The exponent of a number: its letter and an optional sign, only if a digit follows them. -/
def exponentLength : List Char → Nat
  | e :: cs =>
    if e == 'e' || e == 'E' then
      let sign := match cs with
        | s :: _ => if s == '+' || s == '-' then 1 else 0
        | [] => 0
      let digits := ((cs.drop sign).takeWhile Char.isDigit).length
      if digits = 0 then 0 else 1 + sign + digits
    else 0
  | [] => 0

/-- The letter that marks a number as decimal or floating, unless a word goes on behind it. -/
def suffixLength : List Char → Nat
  | c :: cs =>
    if c == 'd' || c == 'D' || c == 'f' || c == 'F' then
      match cs with
      | next :: _ => if isWordChar next then 0 else 1
      | [] => 1
    else 0
  | [] => 0

/-- A number in base sixteen from behind its mark, or in base ten with whatever fraction, exponent
and suffix it has; any of the three makes it a floating one. -/
def scanNumber (cs : List Char) : Lexeme :=
  match cs with
  | '0' :: 'x' :: digits => hex 'x' digits
  | '0' :: 'X' :: digits => hex 'X' digits
  | _ =>
    let whole := (cs.takeWhile Char.isDigit).length
    let fraction := fractionLength (cs.drop whole)
    let exponent := exponentLength (cs.drop (whole + fraction))
    let suffix := suffixLength (cs.drop (whole + fraction + exponent))
    let length := whole + fraction + exponent + suffix
    let text := cs.take length
    let number := String.ofList text
    ⟨if length = whole then .int number else .float number, text, cs.drop length⟩
where
  /-- The number whose mark is `letter` and whose digits start the given text. -/
  hex (letter : Char) (digits : List Char) : Lexeme :=
    let text := '0' :: letter :: digits.takeWhile isHexDigit
    ⟨.int (String.ofList text), text, digits.dropWhile isHexDigit⟩

/-! ### One token -/

/-- Scans a string literal from behind its opening quote, which stands at `offset`. -/
def scanString (offset : Nat) (afterQuote : List Char) : Except SyntaxError Lexeme :=
  match scanQuoted afterQuote with
  | .closed value read rest => .ok ⟨.string (String.ofList value), '"' :: read, rest⟩
  | .unterminated read => .error (.unterminatedString ⟨offset, offset + 1 + byteLength read⟩)
  | .badEscape before letter =>
    let start := offset + 1 + byteLength before
    .error (.invalidEscape letter ⟨start, start + 1 + letter.utf8Size⟩)

/-- Scans the token that starts with `c` at a byte offset. -/
def scanToken (offset : Nat) (c : Char) (cs : List Char) : Except SyntaxError Lexeme :=
  if isWordStart c then .ok (scanWord (c :: cs))
  else if c = '\x27' then .ok (scanQuotedName cs)
  else if c.isDigit then .ok (scanNumber (c :: cs))
  else if c = '"' then scanString offset cs
  else match Mark.ofChars? (c :: cs) with
    | some m =>
      let length := m.text.length
      .ok ⟨.mark m, (c :: cs).take length, (c :: cs).drop length⟩
    | none => .error (.unexpectedChar c ⟨offset, offset + c.utf8Size⟩)

/-! ### The whole text -/

/-- The tokens of a text that starts at a byte offset, and the mark of its end.  Each round reads at
least a character, so a fuel above the text's length lasts. -/
def tokensFrom : Nat → Nat → List Char → Except SyntaxError (List Token)
  | 0, offset, _ => .error (.noProgress ⟨offset, offset⟩)
  | fuel + 1, offset, cs =>
    let (skipped, rest) := splitTrivia false cs
    let start := offset + byteLength skipped
    match rest with
    | [] => .ok [⟨.endOfFile, ⟨start, start⟩⟩]
    | c :: more => do
      let lexeme ← scanToken start c more
      let stop := start + byteLength lexeme.text
      let tokens ← tokensFrom fuel stop lexeme.rest
      pure (⟨lexeme.kind, ⟨start, stop⟩⟩ :: tokens)

end Durable.Lexer

namespace Durable

/-- The tokens of a source text, the last of them marking its end. -/
def tokenize (text : String) : Except SyntaxError (List Token) :=
  let cs := text.toList
  Lexer.tokensFrom (cs.length + 1) 0 cs

end Durable
