/-
Reading whole modules.

The path of a service and the path of a resource method are kept as the text they were
written in, blanks and comments included, so these two productions also need the
source text.  All the others work on tokens alone.
-/
import Durable.Text.Source
import Durable.Token.Lexer
import Durable.Tree.Parser.Stmt

namespace Durable

open Durable.Parser

/-- The parsers that members are made of. -/
structure MemberGrammar where
  source : Source
  exprs : Grammar
  stmts : StmtGrammar

namespace MemberGrammar

variable (m : MemberGrammar)

/-! ### Imports and modifiers -/

/-- The parts of a module's name behind the first one. -/
def furtherParts : Parser (List Ident) := many (return !(← accept (.mark .dot))) memberName

/-- An import, through its semicolon. -/
def importDecl : Parser Import := do
  let origin ← start
  let _ ← expect (.keyword .kwImport)
  let first ← memberName
  let (org, head) ← if ← accept (.mark .slash) then (some first, ·) <$> memberName
    else pure (none, first)
  let path := head :: (← furtherParts)
  let rename ← if ← accept (.keyword .kwAs) then some <$> ident else pure none
  let _ ← expect (.mark .semicolon)
  return ⟨org, path, rename, ← since origin⟩

/-- The modifier that is written with a token. -/
def modifier? : TokenKind → Option Modifier
  | .keyword k => Modifier.ofKeyword? k
  | _ => none

/-- The modifiers that stand before a declaration. -/
def modifiers : Parser Modifiers :=
  many (return (modifier? (← peek)).isNone) do
    match modifier? (← peek) with
    | some q => return (q, (← advance).span)
    | none => unexpected "modifier"

/-! ### Functions -/

/-- A parameter of a function. -/
def param : Parser Param := do
  let origin ← start
  let annotations ← m.exprs.annotations
  let type ← m.exprs.type
  if ← accept (.mark .ellipsis) then
    let name ← ident
    return ⟨annotations, .rest, type, name, none, ← since origin⟩
  let name ← ident
  if ← accept (.mark .assign) then
    let default ← m.exprs.expr
    return ⟨annotations, .defaultable, type, name, some default, ← since origin⟩
  return ⟨annotations, .required, type, name, none, ← since origin⟩

/-- Passes one token of a resource path.  Inside brackets, of which `depth` are open, a parenthesis
belongs to the path; outside it ends the path. -/
def passPathToken (depth : Nat) : Parser (Option Nat) := do
  let next ← peek
  if depth == 0 && next == .mark .openParen then return none
  let depth ← match next with
    | .mark .openBracket => pure (depth + 1)
    | .mark .closeBracket => pure (depth - 1)
    | .endOfFile => unexpected (TokenKind.mark .openParen).describe
    | _ => pure depth
  let _ ← advance
  return some depth

/-- The text between a resource method's name and its parameters, if there is any. -/
def resourcePath : Parser (Option String) := do
  let origin ← start
  let _ ← extend passPathToken 0
  let stop := (← get).passed
  if stop ≤ origin then return none
  return some (m.source.slice ⟨origin, stop⟩)

/-- A function behind its annotations and modifiers; the modifiers started at `origin`. -/
def function (origin : Nat) (annotations : List Annotation) (modifiers : Modifiers) :
    Parser Function := do
  let _ ← expect (.keyword .kwFunction)
  let name ← memberName
  let resourcePath ← if modifiers.has .resource then m.resourcePath else pure none
  let _ ← expect (.mark .openParen)
  let params ← commaList .closeParen m.param
  let returns ← if ← accept (.keyword .kwReturns) then
      let _ ← m.exprs.annotations
      some <$> m.exprs.type
    else pure none
  let body ← m.stmts.block
  return { annotations, modifiers, name, resourcePath, params, returns, body,
           span := ← since origin }

/-! ### Variables, constants and types -/

/-- The declaration of a variable behind its modifiers; `init` reads its initial value. -/
def varDecl (init : Parser Expr) (origin : Nat) (annotations : List Annotation)
    (modifiers : Modifiers) : Parser VarDecl := do
  let type ← m.exprs.type
  let name ← ident
  let init ← if ← accept (.mark .assign) then some <$> init else pure none
  let _ ← expect (.mark .semicolon)
  return { annotations, modifiers, type, name, init, span := ← since origin }

/-- The initial value of a module's variable, which may be left to its configuration. -/
def configurableInit : Parser Expr := do
  if (← at? (.mark .question)) && (← peekAt 1) == .mark .semicolon then
    return .required (← advance).span
  else m.exprs.expr

/-- A constant or a listener behind its word. -/
def valueDecl (origin : Nat) (annotations : List Annotation) (modifiers : Modifiers) :
    Parser ValueDecl := do
  let _ ← advance
  let type ← if (← peekAt 1) == .mark .assign then pure none else some <$> m.exprs.type
  let name ← ident
  let _ ← expect (.mark .assign)
  let value ← m.exprs.expr
  let _ ← expect (.mark .semicolon)
  return { annotations, modifiers, type, name, value, span := ← since origin }

/-- A type definition, from the word `type` on. -/
def typeDef (origin : Nat) (annotations : List Annotation) (modifiers : Modifiers) :
    Parser TypeDef := do
  let _ ← advance
  let name ← ident
  let type ← m.exprs.type
  let _ ← expect (.mark .semicolon)
  return { annotations, modifiers, name, type, span := ← since origin }

/-- One attach point: the words up to a comma or a semicolon. -/
def attachPoint : Parser String := do
  let words ← many pointEnds memberName
  return " ".intercalate (words.map (·.name))
where
  /-- A comma or a semicolon comes next. -/
  pointEnds : Parser Bool := do
    let next ← peek
    return next == .mark .comma || next == .mark .semicolon

/-- The declaration of an annotation, from the word `annotation` on. -/
def annotationDecl (origin : Nat) (modifiers : Modifiers) : Parser AnnotationDecl := do
  let _ ← advance
  let second ← peekAt 1
  let type ← if second == .keyword .kwOn || second == .mark .semicolon then pure none
    else some <$> m.exprs.type
  let name ← ident
  let attachPoints ← if ← accept (.keyword .kwOn) then separatedBy .comma attachPoint else pure []
  let _ ← expect (.mark .semicolon)
  return { modifiers, type, name, attachPoints, span := ← since origin }

/-! ### Services -/

/-- Passes one token of a service's path, which goes up to the word `on`. -/
def passBaseToken (_ : Unit) : Parser (Option Unit) := do
  if ← at? (.keyword .kwOn) then return none
  if ← at? .endOfFile then unexpected (TokenKind.keyword .kwOn).describe
  let _ ← advance
  return some ()

/-- The path of a service: from a slash up to the word `on`, or a string literal. -/
def basePath : Parser (Option String) := do
  match ← peek with
  | .mark .slash =>
    let origin ← start
    extend passBaseToken ()
    return some (m.source.slice ⟨origin, (← get).passed⟩)
  | .string _ => return some (m.source.slice (← advance).span)
  | _ => return none

/-- A member of a service. -/
def serviceMember : Parser ServiceMember := do
  let annotations ← m.exprs.annotations
  let origin ← start
  let modifiers ← modifiers
  if ← at? (.keyword .kwFunction) then
    return .method (← m.function origin annotations modifiers)
  else return .field (← m.varDecl m.exprs.expr origin annotations modifiers)

/-- A service behind its annotations and modifiers; the modifiers started at `origin`. -/
def service (origin : Nat) (annotations : List Annotation) (modifiers : Modifiers) :
    Parser Service := do
  let keywordSpan ← expect (.keyword .kwService)
  let type ← match ← peek with
    | .ident _ => some <$> m.exprs.type
    | .mark .openParen => some <$> m.exprs.type
    | _ => pure none
  let basePath ← m.basePath
  let _ ← expect (.keyword .kwOn)
  let listeners ← separatedBy .comma m.exprs.expr
  let _ ← expect (.mark .openBrace)
  let members ← many StmtGrammar.closingBrace m.serviceMember
  return { annotations, modifiers, type, basePath, listeners, members, keywordSpan,
           span := ← since origin }

/-! ### Modules -/

/-- A member of a module. -/
def member : Parser Member := do
  let annotations ← m.exprs.annotations
  let origin ← start
  let modifiers ← modifiers
  match ← peek with
  | .keyword .kwFunction => return .function (← m.function origin annotations modifiers)
  | .keyword .kwService => return .service (← m.service origin annotations modifiers)
  | .keyword .kwConst => return .const (← m.valueDecl origin annotations modifiers)
  | .keyword .kwType => return .type (← m.typeDef origin annotations modifiers)
  | .keyword .kwListener => return .listener (← m.valueDecl origin annotations modifiers)
  | .keyword .kwAnnotate => return .annotationDecl (← m.annotationDecl origin modifiers)
  | _ => return .moduleVar (← m.varDecl m.configurableInit origin annotations modifiers)

/-- A module: its imports, then its members, up to the end of the text. -/
def module : Parser Module := do
  let imports ← many (return !(← at? (.keyword .kwImport))) importDecl
  let members ← many (at? .endOfFile) m.member
  return ⟨imports, members, ⟨0, m.source.size⟩⟩

end MemberGrammar

/-! ### Whole texts -/

/-- A cursor at the start of a text. -/
def Cursor.ofText (text : String) : Except SyntaxError Cursor := Cursor.ofTokens <$> tokenize text

/-- A grammar deep enough for all that a cursor has before it. -/
def Cursor.grammar (c : Cursor) : Grammar := Durable.grammar (c.rest.length + 1)

/-- Reads a text that is one expression. -/
def parseExpr (text : String) : Except SyntaxError Expr := do
  let c ← Cursor.ofText text
  let (e, c) ← c.grammar.expr c
  let _ ← expectEnd c
  pure e

/-- Reads a text that is one type. -/
def parseType (text : String) : Except SyntaxError TypeDesc := do
  let c ← Cursor.ofText text
  let (t, c) ← c.grammar.type c
  let _ ← expectEnd c
  pure t

/-- Reads a text that is a module. -/
def parseModule (text : String) : Except SyntaxError Module := do
  let c ← Cursor.ofText text
  let exprs := c.grammar
  let stmts := stmtGrammar exprs (c.rest.length + 1)
  let (m, _) ← (MemberGrammar.mk ⟨"", text⟩ exprs stmts).module c
  pure m

end Durable
