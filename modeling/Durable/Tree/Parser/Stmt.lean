/-
Reading statements.

A statement that starts with a type looks like an expression for as long as the type
lasts: `a[]` and `a[1]` part company at the third token.  So a declaration is tried
first, and where it does not go through, the same tokens are read as an expression or
an assignment.
-/
import Durable.Tree.Parser.Expr

namespace Durable

/-- The parsers that statements recurse into. -/
structure StmtGrammar where
  block : Parser Block
  /-- A conditional statement, from the word `if` on. -/
  ifElse : Parser Stmt

namespace StmtGrammar

open Durable.Parser

variable (g : Grammar) (s : StmtGrammar)

/-- The declaration of a local variable, through its semicolon. -/
def localVar : Parser LocalVar := do
  let annotations ← g.annotations
  let isFinal ← accept (.keyword .kwFinal)
  let type ← g.type
  let name ← ident
  let next ← peek
  if !(next == .mark .assign || next == .mark .semicolon) then unexpected "`=` or `;`"
  let init ← if ← accept (.mark .assign) then some <$> g.expr else pure none
  let _ ← expect (.mark .semicolon)
  pure ⟨annotations, isFinal, type, name, init⟩

/-- The sign of an assignment that is written with a token. -/
def assignOp? : TokenKind → Option AssignOp
  | .mark m => AssignOp.ofMark? m
  | _ => none

/-- An expression or an assignment, through its semicolon. -/
def exprOrAssign (origin : Nat) : Parser Stmt := do
  let target ← g.expr
  match assignOp? (← peek) with
  | some op =>
    let _ ← advance
    let value ← g.expr
    let _ ← expect (.mark .semicolon)
    return .assign target op value (← since origin)
  | none =>
    let _ ← expect (.mark .semicolon)
    return .expr target (← since origin)

/-- A statement that no word announces: a declaration if it reads as one, else an expression or an
assignment. -/
def declarationOrExpr (origin : Nat) : Parser Stmt := do
  match ← attempt? (localVar g) with
  | some decl => return .localVar decl (← since origin)
  | none => exprOrAssign g origin

/-- A loop over the items of a value. -/
def foreach (origin : Nat) : Parser Stmt := do
  let _ ← advance
  let type ← g.type
  let name ← ident
  let _ ← expect (.keyword .kwIn)
  let items ← g.expr
  let body ← s.block
  return .foreach type name items body (← since origin)

/-- A block that may have a handler for what fails in it. -/
def attempt (origin : Nat) : Parser Stmt := do
  let _ ← advance
  let body ← s.block
  if ← accept (.keyword .kwOn) then
    let _ ← expect (.keyword .kwFail)
    let type ← g.type
    let name ← ident
    let handler ← s.block
    return .attemptOnFail body type name handler (← since origin)
  else return .attempt body (← since origin)

/-- A statement that a reserved word starts. -/
def keywordStmt (origin : Nat) (k : Keyword) : Parser Stmt := do
  match k with
  | .kwLock =>
    let _ ← advance
    return .lock (← s.block) (← since origin)
  | .kwIf => s.ifElse
  | .kwWhile =>
    let _ ← advance
    let condition ← g.expr
    return .whileLoop condition (← s.block) (← since origin)
  | .kwForeach => foreach g s origin
  | .kwReturn =>
    let _ ← advance
    let value ← if ← at? (.mark .semicolon) then pure none else some <$> g.expr
    let _ ← expect (.mark .semicolon)
    return .giveBack value (← since origin)
  | .kwDo => attempt g s origin
  | .kwPanic =>
    let _ ← advance
    let value ← g.expr
    let _ ← expect (.mark .semicolon)
    return .panic value (← since origin)
  | .kwFail =>
    let _ ← advance
    let value ← g.expr
    let _ ← expect (.mark .semicolon)
    return .fail value (← since origin)
  | .kwBreak =>
    let _ ← advance
    let _ ← expect (.mark .semicolon)
    return .leave (← since origin)
  | .kwContinue =>
    let _ ← advance
    let _ ← expect (.mark .semicolon)
    return .again (← since origin)
  | .kwFinal => return .localVar (← localVar g) (← since origin)
  | .kwVar => return .localVar (← localVar g) (← since origin)
  | _ => declarationOrExpr g origin

/-- A statement. -/
def stmt : Parser Stmt := do
  let origin ← start
  match ← peek with
  | .mark .openBrace => return .block (← s.block) (← since origin)
  | .mark .atSign => return .localVar (← localVar g) (← since origin)
  | .keyword k => keywordStmt g s origin k
  | _ => declarationOrExpr g origin

/-- The end of a list in braces: its closing brace, which must come before the text ends. -/
def closingBrace : Parser Bool := do
  if ← accept (.mark .closeBrace) then return true
  if ← at? .endOfFile then unexpected (TokenKind.mark .closeBrace).describe
  return false

/-- Statements in braces. -/
def bracedStmts : Parser Block := do
  let origin ← start
  let _ ← expect (.mark .openBrace)
  let stmts ← many closingBrace (stmt g s)
  return .mk stmts (← since origin)

/-- A conditional statement; behind `else` stands another one or a block. -/
def ifStmt : Parser Stmt := do
  let origin ← start
  let _ ← expect (.keyword .kwIf)
  let condition ← g.expr
  let body ← s.block
  let otherwise ← if ← accept (.keyword .kwElse) then some <$> alternative else pure none
  return .ifElse condition body otherwise (← since origin)
where
  /-- What follows the word `else`. -/
  alternative : Parser Stmt := do
    if ← at? (.keyword .kwIf) then s.ifElse
    else
      let origin ← start
      return .block (← s.block) (← since origin)

/-- The productions over the parsers they recurse into. -/
def next : StmtGrammar where
  block := bracedStmts g s
  ifElse := ifStmt g s

end StmtGrammar

/-- The grammar of statements over one of expressions, `depth` levels deep. -/
def stmtGrammar (g : Grammar) : Nat → StmtGrammar
  | 0 => ⟨Parser.noProgress, Parser.noProgress⟩
  | depth + 1 => (stmtGrammar g depth).next g

end Durable
