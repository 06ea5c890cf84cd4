/-
Reading tokens.

A parser is a function from a cursor to a result and a later cursor, or to the first
fault.  The cursor holds the tokens that are left; the mark of the end of the text is
not among them but is what `peek` shows when nothing is left, so there is no token
behind which a parser could run.  Only `advance` moves the cursor, by one token, and
only `attempt?` moves it back.

Repetition is bounded by the number of tokens left.  Every repeated step reads at
least one token, so the bound is never met; `SyntaxError.noProgress` is what would
be reported if it were.
-/
import Durable.Token.Error
import Durable.Tree.Basic

namespace Durable

/-- A position in a list of tokens. -/
structure Cursor where
  /-- The tokens not read yet, without the mark of the end. -/
  rest : List Token
  /-- The offset behind the last token read, or zero before the first. -/
  passed : Nat
  /-- The place of the mark of the end. -/
  finish : Span
deriving DecidableEq, Repr

namespace Cursor

/-- The start of a list of tokens whose last one marks the end. -/
def ofTokens (tokens : List Token) : Cursor :=
  { rest := tokens.dropLast, passed := 0, finish := (tokens.getLast?.map (·.span)).getD .synthetic }

/-- The token `n` places ahead; behind the last one there is only the mark of the end. -/
def tokenAt (c : Cursor) (n : Nat) : Token := c.rest[n]?.getD ⟨.endOfFile, c.finish⟩

/-- The kind of the token `n` places ahead. -/
def kindAt (c : Cursor) (n : Nat) : TokenKind := (c.tokenAt n).kind

/-- The kind of the next token. -/
def kind (c : Cursor) : TokenKind := c.kindAt 0

/-- The offset at which the next token starts. -/
def start (c : Cursor) : Nat := (c.tokenAt 0).span.start

/-- The span from an offset to the end of the last token read. -/
def since (c : Cursor) (start : Nat) : Span := ⟨start, max c.passed start⟩

/-- The cursor behind the next token; the mark of the end is never passed. -/
def advance (c : Cursor) : Cursor :=
  match c.rest with
  | [] => c
  | t :: ts => { c with rest := ts, passed := t.span.stop }

/-- Two tokens touch: no blank and no comment stands between them. -/
def touching (c : Cursor) (n : Nat) : Bool :=
  (c.tokenAt n).span.stop == (c.tokenAt (n + 1)).span.start

/-- A reference through an import's prefix starts here: a word, a colon and a name that touch. -/
def atQualified (c : Cursor) : Bool :=
  c.kindAt 1 == .mark .colon
    && (match c.kindAt 2 with | .ident _ => true | _ => false)
    && c.touching 0 && c.touching 1

end Cursor

/-- Reads a value at a cursor, or finds the first fault. -/
abbrev Parser (α : Type) := StateT Cursor (Except SyntaxError) α

namespace Parser

variable {α β : Type}

/-- Reports that the next token is not what could stand here. -/
def unexpected (expected : String) : Parser α := fun c =>
  .error (.unexpected expected c.kind.describe (c.tokenAt 0).span)

/-- Reports a repetition that read nothing. -/
def noProgress : Parser α := fun c => .error (.noProgress (c.tokenAt 0).span)

/-- The kind of the next token. -/
def peek : Parser TokenKind := fun c => .ok (c.kind, c)

/-- The kind of the token `n` places ahead. -/
def peekAt (n : Nat) : Parser TokenKind := fun c => .ok (c.kindAt n, c)

/-- The offset at which the next token starts. -/
def start : Parser Nat := fun c => .ok (c.start, c)

/-- The span from an offset to the end of what was read. -/
def since (start : Nat) : Parser Span := fun c => .ok (c.since start, c)

/-- Reads the next token, whatever it is. -/
def advance : Parser Token := fun c => .ok (c.tokenAt 0, c.advance)

/-- The next token is of a kind. -/
def at? (k : TokenKind) : Parser Bool := fun c => .ok (c.kind == k, c)

/-- Reads the next token if it is of a kind, and says whether it was. -/
def accept (k : TokenKind) : Parser Bool := fun c =>
  if c.kind == k then .ok (true, c.advance) else .ok (false, c)

/-- Reads a token of a kind, which an error calls by `name`. -/
def expectNamed (k : TokenKind) (name : String) : Parser Span := fun c =>
  if c.kind == k then .ok ((c.tokenAt 0).span, c.advance) else unexpected name c

/-- Reads a mark or a reserved word. -/
def expect (k : TokenKind) : Parser Span := expectNamed k k.describe

/-- Reads nothing more: the text has to end here. -/
def expectEnd : Parser Unit := do
  let _ ← expectNamed .endOfFile "end of input"

/-- Reads a name. -/
def ident : Parser Ident := do
  match ← peek with
  | .ident name => pure ⟨name, (← advance).span⟩
  | _ => unexpected "identifier"

/-- Reads a name where reserved words are names too, as behind a point. -/
def memberName : Parser Ident := do
  match ← peek with
  | .ident name => pure ⟨name, (← advance).span⟩
  | .keyword k => pure ⟨k.text, (← advance).span⟩
  | _ => unexpected "name"

/-- Reads a reference: a name, or a name behind an import's prefix. -/
def nameRef : Parser NameRef := do
  let c ← get
  if c.atQualified then
    let via ← memberName
    let _ ← advance
    let name ← ident
    pure ⟨some via, name, ← since c.start⟩
  else
    return .simple (← ident)

/-- Tries a parser: where it finds a fault, nothing is read. -/
def attempt? (p : Parser α) : Parser (Option α) := fun c =>
  match p c with
  | .ok (a, c') => .ok (some a, c')
  | .error _ => .ok (none, c)

/-! ### Repetition -/

/-- Reads items until `done` says so, at most `fuel` of them. -/
def manyUpTo (done : Parser Bool) (item : Parser α) : Nat → Parser (List α)
  | 0 => noProgress
  | fuel + 1 => do
    if ← done then pure []
    else
      let first ← item
      let others ← manyUpTo done item fuel
      pure (first :: others)

/-- Reads items until `done` says so. -/
def many (done : Parser Bool) (item : Parser α) : Parser (List α) := fun c =>
  manyUpTo done item (c.rest.length + 1) c

/-- Extends a value as long as `grow` can, at most `fuel` times. -/
def extendUpTo (grow : α → Parser (Option α)) : Nat → α → Parser α
  | 0, _ => noProgress
  | fuel + 1, a => do
    match ← grow a with
    | some b => extendUpTo grow fuel b
    | none => pure a

/-- Extends a value as long as `grow` can. -/
def extend (grow : α → Parser (Option α)) (a : α) : Parser α := fun c =>
  extendUpTo grow (c.rest.length + 1) a c

/-- Reads the items of a list whose opening mark has been read, up to its closing one. -/
def commaList (close : Mark) (item : Parser α) : Parser (List α) := do
  if ← accept (.mark close) then pure []
  else
    let first ← item
    let others ← many (ended close) item
    pure (first :: others)
where
  /-- Between two items stands a comma; behind the last one the closing mark. -/
  ended (close : Mark) : Parser Bool := do
    if ← accept (.mark .comma) then pure false
    else
      let _ ← expect (.mark close)
      pure true

/-- Reads items with a mark between them. -/
def separatedBy (m : Mark) (item : Parser α) : Parser (List α) := do
  let first ← item
  let others ← many (return !(← accept (.mark m))) item
  pure (first :: others)

end Parser

end Durable
