/-
Reading TOML values.

The readers work on a list of characters and fail without saying why: a document is
either well formed or not.  There are limits to how deep values nest and how long keys get.
-/
import Durable.Toml.Value
import Durable.Toml.Scalar

namespace Durable.Toml

/-- Reads a value from the start of a text. -/
abbrev Reader (α : Type) := StateT (List Char) Option α

namespace Reader

variable {α : Type}

/-- Fails. -/
def reject : Reader α := fun _ => none

/-- The characters that are left. -/
def rest : Reader (List Char) := get

/-- The next character. -/
def peek? : Reader (Option Char) := fun cs => some (cs.head?, cs)

/-- Passes some characters. -/
def skip (n : Nat) : Reader Unit := modify (List.drop n)

/-- Passes a text if it comes next, and says whether it did. -/
def accept (s : String) : Reader Bool := fun cs =>
  if s.toList.isPrefixOf cs then some (true, cs.drop s.toList.length) else some (false, cs)

/-- Passes a text that has to come next. -/
def expect (s : String) : Reader Unit := do
  if !(← accept s) then reject

/-- Takes characters as long as they are of a class. -/
def takeWhile (p : Char → Bool) : Reader (List Char) := fun cs =>
  some (cs.takeWhile p, cs.dropWhile p)

/-- Repeats a step until it says that it is done, at most once for each character of a text and once
more. -/
def repeatAlong (step : α → Reader (α × Bool)) : (along : List Char) → α → Reader α
  | [], a => do
    let (b, done) ← step a
    if done then pure b else reject
  | _ :: along, a => do
    let (b, done) ← step a
    if done then pure b else repeatAlong step along b

/-- Repeats a step until it says that it is done.  Each time but the last it passes a character, so
there are not more times than characters left and once more. -/
def repeated (step : α → Reader (α × Bool)) (a : α) : Reader α := fun cs =>
  repeatAlong step cs a cs

end Reader

open Reader

/-! ### Blanks and comments -/

/-- A blank or a tab. -/
def isSpace (c : Char) : Bool := c == ' ' || c == '\t'

/-- A character that may stand in a comment or in a text on one line. -/
def isPlain (c : Char) : Bool := c == '\t' || (' ' ≤ c && c != '\x7f')

/-- Passes blanks. -/
def skipSpaces : Reader Unit := do
  let _ ← takeWhile isSpace

/-- Passes the end of a line, if it comes next. -/
def acceptNewline : Reader Bool := do
  if ← accept "\n" then pure true else accept "\r\n"

/-- Passes a comment, if one comes next. -/
def skipComment : Reader Unit := do
  if ← accept "#" then
    let _ ← takeWhile isPlain

/-- Passes blanks, comments and ends of lines. -/
def skipLines : Reader Unit :=
  repeated (fun _ => do
    skipSpaces
    skipComment
    if ← acceptNewline then pure ((), false) else pure ((), true)) ()

/-! ### Texts -/

/-- The character that an escape names by four or eight digits. -/
def readCodePoint (digits : Nat) : Reader Char := do
  let ds := (← rest).take digits
  if ds.length = digits && ds.all Text.isHexDigit then
    skip digits
    let n := readBase 16 ds
    if n.isValidChar then pure (Char.ofNat n) else reject
  else reject

/-- The character that an escape stands for, from behind its backslash. -/
def readEscape : Reader Char := do
  match ← peek? with
  | some 'b' => skip 1; pure '\x08'
  | some 't' => skip 1; pure '\t'
  | some 'n' => skip 1; pure '\n'
  | some 'f' => skip 1; pure '\x0c'
  | some 'r' => skip 1; pure '\r'
  | some '"' => skip 1; pure '"'
  | some '\\' => skip 1; pure '\\'
  | some 'u' => skip 1; readCodePoint 4
  | some 'U' => skip 1; readCodePoint 8
  | _ => reject

/-- A text on one line, from behind its opening quote. -/
def readBasic : Reader String := do
  let reversed ← repeated (fun read => do
    if ← accept "\"" then pure (read, true)
    else if ← accept "\\" then pure ((← readEscape) :: read, false)
    else match ← peek? with
      | some c => if isPlain c then do skip 1; pure (c :: read, false) else reject
      | none => reject) []
  pure (String.ofList reversed.reverse)

/-- A text on one line without escapes, from behind its opening quote. -/
def readLiteral : Reader String := do
  let cs ← takeWhile fun c => isPlain c && c != '\x27'
  expect "\x27"
  pure (String.ofList cs)

/-- How many quotes come next, up to five. -/
def countQuotes (quote : Char) : Reader Nat := do
  pure (((← rest).takeWhile (· == quote)).take 5).length

/-- Passes blanks and ends of lines. -/
def skipBlankLines : Reader Unit :=
  repeated (fun _ => do
    skipSpaces
    if ← acceptNewline then pure ((), false) else pure ((), true)) ()

/-- A backslash at the end of a line joins the next line that is not blank. -/
def joinLines : Reader Bool := do
  let after := (← rest).dropWhile isSpace
  if after.head? == some '\n' || after.take 2 == ['\r', '\n'] then
    skipBlankLines
    pure true
  else pure false

/-- One step through a text on several lines; what was read stands in reverse.  Three quotes end it,
and up to two more before them belong to it. -/
def longStep (quote : Char) (escapes : Bool) (read : List Char) : Reader (List Char × Bool) := do
  let quotes ← countQuotes quote
  if 3 ≤ quotes then
    skip quotes
    pure (List.replicate (quotes - 3) quote ++ read, true)
  else if ← acceptNewline then pure ('\n' :: read, false)
  else match ← peek? with
    | some c =>
      if escapes && c == '\\' then do
        skip 1
        if ← joinLines then pure (read, false) else pure ((← readEscape) :: read, false)
      else if isPlain c then do
        skip 1
        pure (c :: read, false)
      else reject
    | none => reject

/-- A text on several lines, from behind its three opening quotes.  A line end right behind them
does not belong to it. -/
def readLong (quote : Char) (escapes : Bool) : Reader String := do
  let _ ← acceptNewline
  let reversed ← repeated (longStep quote escapes) []
  pure (String.ofList reversed.reverse)

/-! ### Keys -/

/-- A character of a key without quotes. -/
def isKeyChar (c : Char) : Bool := c.isAlphanum || c == '_' || c == '-'

/-- One part of a key. -/
def readKeyPart : Reader String := do
  if ← accept "\"" then readBasic
  else if ← accept "\x27" then readLiteral
  else
    let word ← takeWhile isKeyChar
    if word.isEmpty then reject else pure (String.ofList word)

/-- How deep arrays and inline tables may nest, and how many parts a key may have. -/
def nestingLimit : Nat := 79

/-- A key: parts with points between them. -/
def readKey : Reader (List String) := do
  let parts ← repeated (fun parts => do
    skipSpaces
    let part ← readKeyPart
    skipSpaces
    let more ← accept "."
    pure (parts ++ [part], !more)) []
  if nestingLimit < parts.length then reject else pure parts

/-! ### Tables -/

/-- Puts a value under a dotted key.  On the way there, tables are made where they are missing, a
table with a header of its own cannot be entered, and an array of tables is entered at its last one.
The table that gets the value must come from dotted keys, and no key can be given twice. -/
def insertDotted : List String → Value → Value → Option Value
  | [], _, _ => none
  | [key], v, t => if (t.get? key).isSome then none else some (t.set key v)
  | key :: keys, v, t =>
    let endsHere := keys.length == 1
    match t.get? key with
    | none => do pure (t.set key (← insertDotted keys v (.table .dotted [])))
    | some (.table origin es) =>
      if origin == .dotted || (origin == .implied && !endsHere) then do
        pure (t.set key (← insertDotted keys v (.table origin es)))
      else none
    | some (.tables items) =>
      match items.getLast? with
      | some last =>
        if endsHere then none
        else do
          let below ← insertDotted keys v last
          pure (t.set key (.tables (items.dropLast ++ [below])))
      | none => none
    | some _ => none

/-! ### Values -/

/-- A number, a truth value, a date or a time.  A time may be set off from its date by one blank. -/
def readScalar : Reader Value := do
  let first ← takeWhile isScalarChar
  let more ← rest
  let continues := isDate first && (match more with
    | ' ' :: c :: _ => c.isDigit
    | _ => false)
  let token ← if continues then do
      skip 1
      pure (first ++ ' ' :: (← takeWhile isScalarChar))
    else pure first
  if isMoment token then pure .moment else if isScalar token then pure .scalar else reject

/-- The items of an array, from behind its opening bracket. -/
def readItems (item : Reader Value) : Reader (List Value) := do
  let reversed ← repeated (fun items => do
    skipLines
    if ← accept "]" then pure (items, true)
    else
      let v ← item
      skipLines
      if ← accept "," then pure (v :: items, false)
      else
        expect "]"
        pure (v :: items, true)) []
  pure reversed.reverse

/-- The entries of an inline table, from behind its opening brace. -/
def readEntries (item : Reader Value) : Reader Value := do
  skipSpaces
  if ← accept "\x7d" then pure (.table .inline [])
  else repeated (fun t => do
    let key ← readKey
    expect "="
    skipSpaces
    let v ← item
    skipSpaces
    match insertDotted key v t with
    | none => reject
    | some t =>
      if ← accept "," then pure (t, false)
      else
        expect "\x7d"
        pure (t, true)) (.table .inline [])

/-- A value whose arrays and inline tables nest at most `depth` deep. -/
def readValue : (depth : Nat) → Reader Value
  | 0 => readFlat
  | depth + 1 => do
    if ← accept "[" then .array <$> readItems (readValue depth)
    else if ← accept "\x7b" then readEntries (readValue depth)
    else readFlat
where
  /-- A text or a scalar. -/
  readFlat : Reader Value := do
    if ← accept "\"\"\"" then .text <$> readLong '"' true
    else if ← accept "\x27\x27\x27" then .text <$> readLong '\x27' false
    else if ← accept "\"" then .text <$> readBasic
    else if ← accept "\x27" then .text <$> readLiteral
    else readScalar

end Durable.Toml
