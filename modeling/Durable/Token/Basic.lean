/-
Tokens.

A token is a kind and a place.  Reserved words and punctuation marks are two closed
sets, each with one table that gives its spelling; the spelling is used both to
recognise the token and to name it in an error.
-/
import Durable.Text.Span

namespace Durable

/-- The reserved words.  The last fifteen name types. -/
inductive Keyword where
  | kwImport | kwAs | kwFunction | kwReturns | kwReturn | kwService | kwOn | kwRemote | kwResource
  | kwIsolated | kwPublic | kwPrivate | kwFinal | kwConfigurable | kwTransactional | kwVar | kwType
  | kwRecord | kwMap | kwFuture | kwStream | kwListener | kwAnnotate | kwConst | kwLock | kwIf
  | kwElse | kwWhile | kwForeach | kwIn | kwCheck | kwCheckpanic | kwNew | kwWait | kwStart | kwTrue
  | kwFalse | kwIs | kwPanic | kwFail | kwBreak | kwContinue | kwDo
  | kwInt | kwFloat | kwDecimal | kwString | kwBoolean | kwByte | kwAnydata | kwAny | kwJson | kwXml
  | kwError | kwReadonly | kwNever | kwHandle | kwTypedesc
deriving DecidableEq, Repr

namespace Keyword

/-- The spelling of a reserved word. -/
def text : Keyword → String
  | kwImport => "import" | kwAs => "as" | kwFunction => "function" | kwReturns => "returns"
  | kwReturn => "return" | kwService => "service" | kwOn => "on" | kwRemote => "remote"
  | kwResource => "resource" | kwIsolated => "isolated" | kwPublic => "public"
  | kwPrivate => "private" | kwFinal => "final" | kwConfigurable => "configurable"
  | kwTransactional => "transactional" | kwVar => "var" | kwType => "type" | kwRecord => "record"
  | kwMap => "map" | kwFuture => "future" | kwStream => "stream" | kwListener => "listener"
  | kwAnnotate => "annotation" | kwConst => "const" | kwLock => "lock" | kwIf => "if"
  | kwElse => "else" | kwWhile => "while" | kwForeach => "foreach" | kwIn => "in"
  | kwCheck => "check" | kwCheckpanic => "checkpanic" | kwNew => "new" | kwWait => "wait"
  | kwStart => "start" | kwTrue => "true" | kwFalse => "false" | kwIs => "is" | kwPanic => "panic"
  | kwFail => "fail" | kwBreak => "break" | kwContinue => "continue" | kwDo => "do"
  | kwInt => "int" | kwFloat => "float" | kwDecimal => "decimal" | kwString => "string"
  | kwBoolean => "boolean" | kwByte => "byte" | kwAnydata => "anydata" | kwAny => "any"
  | kwJson => "json" | kwXml => "xml" | kwError => "error" | kwReadonly => "readonly"
  | kwNever => "never" | kwHandle => "handle" | kwTypedesc => "typedesc"

/-- Every reserved word once. -/
def all : List Keyword :=
  [kwImport, kwAs, kwFunction, kwReturns, kwReturn, kwService, kwOn, kwRemote, kwResource,
   kwIsolated, kwPublic, kwPrivate, kwFinal, kwConfigurable, kwTransactional, kwVar, kwType,
   kwRecord, kwMap, kwFuture, kwStream, kwListener, kwAnnotate, kwConst, kwLock, kwIf, kwElse,
   kwWhile, kwForeach, kwIn, kwCheck, kwCheckpanic, kwNew, kwWait, kwStart, kwTrue, kwFalse, kwIs,
   kwPanic, kwFail, kwBreak, kwContinue, kwDo, kwInt, kwFloat, kwDecimal, kwString, kwBoolean,
   kwByte, kwAnydata, kwAny, kwJson, kwXml, kwError, kwReadonly, kwNever, kwHandle, kwTypedesc]

/-- The reserved word with a given spelling. -/
def ofText? (word : String) : Option Keyword := all.find? (·.text == word)

end Keyword

/-- The punctuation marks and operators. -/
inductive Mark where
  | openBrace | closeBrace | openBracePipe | closePipeBrace | openParen | closeParen
  | openBracket | closeBracket | semicolon | comma | dot | ellipsis | colon | question | atSign
  | assign | plusAssign | minusAssign | starAssign | slashAssign | equal | notEqual
  | less | greater | lessEqual | greaterEqual | plus | minus | star | slash | percent | bang
  | andAnd | orOr | pipe | amp | rightArrow | fatArrow
deriving DecidableEq, Repr

namespace Mark

/-- The spelling of a mark. -/
def text : Mark → String
  | openBrace => "\x7b" | closeBrace => "\x7d" | openBracePipe => "\x7b|"
  | closePipeBrace => "|\x7d" | openParen => "(" | closeParen => ")" | openBracket => "["
  | closeBracket => "]" | semicolon => ";" | comma => "," | dot => "." | ellipsis => "..."
  | colon => ":" | question => "?" | atSign => "@" | assign => "=" | plusAssign => "+="
  | minusAssign => "-=" | starAssign => "*=" | slashAssign => "/=" | equal => "=="
  | notEqual => "!=" | less => "<" | greater => ">" | lessEqual => "<=" | greaterEqual => ">="
  | plus => "+" | minus => "-" | star => "*" | slash => "/" | percent => "%" | bang => "!"
  | andAnd => "&&" | orOr => "||" | pipe => "|" | amp => "&" | rightArrow => "->"
  | fatArrow => "=>"

/-- Every mark once, those that start another behind the one they start. -/
def all : List Mark :=
  [ellipsis, openBracePipe, closePipeBrace, rightArrow, fatArrow, equal, notEqual, lessEqual,
   greaterEqual, andAnd, orOr, plusAssign, minusAssign, starAssign, slashAssign, openBrace,
   closeBrace, openParen, closeParen, openBracket, closeBracket, semicolon, comma, dot, colon,
   question, atSign, assign, less, greater, plus, minus, star, slash, percent, bang, pipe, amp]

/-- The longest mark that a text starts with. -/
def ofChars? (cs : List Char) : Option Mark := all.find? fun m => m.text.toList.isPrefixOf cs

end Mark

/-- What a token is. -/
inductive TokenKind where
  /-- A name that is no reserved word, or any word written behind an apostrophe. -/
  | ident (name : String)
  | keyword (word : Keyword)
  /-- A whole number, as written. -/
  | int (text : String)
  /-- A number with a fraction, an exponent or a suffix, as written. -/
  | float (text : String)
  /-- A string literal, by its value. -/
  | string (value : String)
  | mark (mark : Mark)
  | endOfFile
deriving DecidableEq, Repr, Inhabited

namespace TokenKind

/-- How an error names a token. -/
def describe : TokenKind → String
  | ident name => "identifier `" ++ name ++ "`"
  | keyword word => "`" ++ word.text ++ "`"
  | int text => "number `" ++ text ++ "`"
  | float text => "number `" ++ text ++ "`"
  | string _ => "string literal"
  | mark m => "`" ++ m.text ++ "`"
  | endOfFile => "end of file"

end TokenKind

/-- A token and the place it was read from. -/
structure Token where
  kind : TokenKind
  span : Span
deriving DecidableEq, Repr, Inhabited

end Durable
