/-
Reading types and expressions.

The productions for types and expressions refer to each other, so each is written with
the parsers it recurses into as an argument, a `Grammar`.  `grammar n` ties the knot
`n` levels deep.  Every production reads a token before it recurses, so a grammar
deeper than the number of tokens never runs out.

Operators are read by precedence climbing: a right operand is read with a floor one
above the operator's own precedence, which makes equal precedences group to the left.
-/
import Durable.Tree.Parser.Basic

namespace Durable

/-- The parsers that productions recurse into. -/
structure Grammar where
  type : Parser TypeDesc
  expr : Parser Expr
  /-- An expression whose operators bind at least as tightly as a floor. -/
  binary : Nat → Parser Expr
  unary : Parser Expr

namespace Grammar

open Durable.Parser

variable (g : Grammar)

/-! ### Parts that both kinds of production use -/

/-- A field of a mapping. -/
def mappingField : Parser MappingField := do
  if ← accept (.mark .ellipsis) then return .spread (← g.expr)
  match ← peek with
  | .string key =>
    let keySpan := (← advance).span
    let _ ← expect (.mark .colon)
    return .string key keySpan (← g.expr)
  | .mark .openBracket =>
    let _ ← advance
    let key ← g.expr
    let _ ← expect (.mark .closeBracket)
    let _ ← expect (.mark .colon)
    return .computed key (← g.expr)
  | .ident _ => word
  | .keyword _ => word
  | _ => unexpected "mapping field"
where
  /-- A field that starts with a word: its key, or a variable that is key and value at once. -/
  word : Parser MappingField := do
    let key ← memberName
    if ← accept (.mark .colon) then return .word key (← g.expr)
    else return .shorthand (.simple key)

/-- A mapping in braces. -/
def mapping : Parser Expr := do
  let origin ← start
  let _ ← expect (.mark .openBrace)
  let fields ← commaList .closeBrace g.mappingField
  return .mapping fields (← since origin)

/-- An annotation, from its at sign on. -/
def annotationTag : Parser Annotation := do
  let origin ← start
  let _ ← advance
  let name ← nameRef
  let value ← if ← at? (.mark .openBrace) then some <$> g.mapping else pure none
  return ⟨name, value, ← since origin⟩

/-- The annotations that stand before a declaration. -/
def annotations : Parser (List Annotation) := many (return !(← at? (.mark .atSign))) g.annotationTag

/-! ### Types -/

/-- The type in angle brackets. -/
def typeArgument : Parser TypeDesc := do
  let _ ← expect (.mark .less)
  let type ← g.type
  let _ ← expect (.mark .greater)
  pure type

/-- A parameter of a function type: its type, and whether it takes any number of arguments.  A name
may follow and says nothing. -/
def typeParam : Parser (Bool × TypeDesc) := do
  let type ← g.type
  let isRest ← accept (.mark .ellipsis)
  if let .ident _ ← peek then let _ ← advance
  pure (isRest, type)

/-- What follows the word `function` in a type that started at `origin`. -/
def functionType (origin : Nat) : Parser TypeDesc := do
  if ← accept (.mark .openParen) then
    let params ← commaList .closeParen g.typeParam
    let returns ← if ← accept (.keyword .kwReturns) then some <$> g.type else pure none
    let fixed := params.filterMap fun (isRest, t) => if isRest then none else some t
    let rest := (params.filterMap fun (isRest, t) => if isRest then some t else none).getLast?
    return .function fixed rest returns (← since origin)
  else return .anyFunction (← since origin)

/-- The word `readonly` marks a field where a type follows it; before a mark it is a type itself. -/
def atReadonlyMark : Parser Bool := do
  if !(← at? (.keyword .kwReadonly)) then return false
  let typeFollows := match ← peekAt 1 with
    | .ident _ => true
    | .keyword _ => true
    | _ => false
  let second ← peekAt 2
  return typeFollows && !(second == .mark .semicolon || second == .mark .assign)

/-- A field of a record type, or the type of the fields that are not listed. -/
def recordItem : Parser (RecordField ⊕ TypeDesc) := do
  let origin ← start
  let isReadonly ← atReadonlyMark
  if isReadonly then let _ ← advance
  let type ← g.type
  if ← accept (.mark .ellipsis) then
    let _ ← expect (.mark .semicolon)
    return .inr type
  let name ← memberName
  let isOptional ← accept (.mark .question)
  let default ← if ← accept (.mark .assign) then some <$> g.expr else pure none
  let _ ← expect (.mark .semicolon)
  return .inl (.mk isReadonly type name isOptional default (← since origin))

/-- What follows the word `record` in a type that started at `origin`. -/
def recordType (origin : Nat) : Parser TypeDesc := do
  let closed ← accept (.mark .openBracePipe)
  if !closed then let _ ← expect (.mark .openBrace)
  let close := if closed then Mark.closePipeBrace else Mark.closeBrace
  let items ← many (accept (.mark close)) g.recordItem
  let fields := items.filterMap fun | .inl f => some f | .inr _ => none
  let rest := (items.filterMap fun | .inl _ => none | .inr t => some t).getLast?
  return .record closed fields rest (← since origin)

/-- A type that a reserved word starts. -/
def keywordType (k : Keyword) : Parser TypeDesc := do
  let origin ← start
  match BuiltinType.ofKeyword? k with
  | some b =>
    if (← get).atQualified then return .named (← nameRef)
    let _ ← advance
    return .builtin b (← since origin)
  | none =>
    match k with
    | .kwVar =>
      let _ ← advance
      return .inferred (← since origin)
    | .kwMap =>
      let _ ← advance
      return .map (← g.typeArgument) (← since origin)
    | .kwFuture =>
      let _ ← advance
      if ← at? (.mark .less) then return .future (some (← g.typeArgument)) (← since origin)
      else return .future none (← since origin)
    | .kwStream =>
      let _ ← advance
      let _ ← expect (.mark .less)
      let item ← g.type
      let completion ← if ← accept (.mark .comma) then some <$> g.type else pure none
      let _ ← expect (.mark .greater)
      return .stream item completion (← since origin)
    | .kwFunction =>
      let _ ← advance
      g.functionType origin
    | .kwRecord =>
      let _ ← advance
      g.recordType origin
    | .kwTrue =>
      let _ ← advance
      return .singleton (.bool true) (← since origin)
    | .kwFalse =>
      let _ ← advance
      return .singleton (.bool false) (← since origin)
    | _ => unexpected "type"

/-- A type without operators around it. -/
def primaryType : Parser TypeDesc := do
  let origin ← start
  match ← peek with
  | .keyword k => g.keywordType k
  | .ident _ => return .named (← nameRef)
  | .mark .openParen =>
    let _ ← advance
    if ← accept (.mark .closeParen) then return .nil (← since origin)
    let inner ← g.type
    let _ ← expect (.mark .closeParen)
    return .paren inner (← since origin)
  | .string value =>
    let _ ← advance
    return .singleton (.string value) (← since origin)
  | .int text =>
    let _ ← advance
    return .singleton (.int text) (← since origin)
  | .float text =>
    let _ ← advance
    return .singleton (.float text) (← since origin)
  | _ => unexpected "type"

/-- A type with the question marks and empty brackets behind it. -/
def postfixType : Parser TypeDesc := do
  let origin ← start
  let inner ← g.primaryType
  extend (grow origin) inner
where
  /-- One question mark, or one pair of brackets. -/
  grow (origin : Nat) (t : TypeDesc) : Parser (Option TypeDesc) := do
    if ← accept (.mark .question) then return some (.optional t (← since origin))
    if (← at? (.mark .openBracket)) && (← peekAt 1) == .mark .closeBracket then
      let _ ← advance
      let _ ← advance
      return some (.array t (← since origin))
    return none

/-- Types joined by ampersands. -/
def intersectionType : Parser TypeDesc := do
  let origin ← start
  match ← separatedBy .amp g.postfixType with
  | [only] => return only
  | members => return .intersection members (← since origin)

/-- Types joined by bars, which bind less tightly than ampersands. -/
def unionType : Parser TypeDesc := do
  let origin ← start
  match ← separatedBy .pipe g.intersectionType with
  | [only] => return only
  | members => return .union members (← since origin)

/-! ### Expressions -/

/-- An argument of a call. -/
def arg : Parser Arg := do
  if ← accept (.mark .ellipsis) then return .rest (← g.expr)
  match ← peek, ← peekAt 1 with
  | .ident _, .mark .assign =>
    let name ← ident
    let _ ← advance
    return .named name (← g.expr)
  | _, _ => return .positional (← g.expr)

/-- The arguments behind an opening parenthesis. -/
def args : Parser (List Arg) := commaList .closeParen g.arg

/-- A reference, called if arguments follow. -/
def nameOrCall : Parser Expr := do
  let origin ← start
  let ref ← nameRef
  if ← accept (.mark .openParen) then return .call ref (← g.args) (← since origin)
  else return .name ref

/-- A call of the constructor `error`, the one reserved word that is called by itself. -/
def errorCall : Parser Expr := do
  let origin ← start
  let word ← memberName
  let _ ← advance
  return .call (.simple word) (← g.args) (← since origin)

/-- The construction of an object: its type and its arguments may both be left out. -/
def construct : Parser Expr := do
  let origin ← start
  let _ ← advance
  let type ← match ← peek with
    | .ident _ => some <$> g.postfixType
    | _ => pure none
  let args ← if ← accept (.mark .openParen) then g.args else pure []
  return .construct type args (← since origin)

/-- A literal of one token. -/
def literal (value : Literal) : Parser Expr := do
  let origin ← start
  let _ ← advance
  return .literal value (← since origin)

/-- An expression that a reserved word starts. -/
def keywordExpr (k : Keyword) : Parser Expr := do
  match k with
  | .kwTrue => literal (.bool true)
  | .kwFalse => literal (.bool false)
  | .kwNew => g.construct
  | _ =>
    let c ← get
    if k == .kwError && c.kindAt 1 == .mark .openParen then g.errorCall
    else if (BuiltinType.ofKeyword? k).isSome && c.atQualified then g.nameOrCall
    else unexpected "expression"

/-- An expression without operators around it. -/
def primary : Parser Expr := do
  let origin ← start
  match ← peek with
  | .int text => literal (.int text)
  | .float text => literal (.float text)
  | .string value => literal (.string value)
  | .mark .openParen =>
    let _ ← advance
    if ← accept (.mark .closeParen) then return .literal .nil (← since origin)
    let inner ← g.expr
    let _ ← expect (.mark .closeParen)
    return .paren inner (← since origin)
  | .mark .openBrace => g.mapping
  | .mark .openBracket =>
    let _ ← advance
    let items ← commaList .closeBracket g.expr
    return .list items (← since origin)
  | .keyword k => g.keywordExpr k
  | .ident _ => g.nameOrCall
  | _ => unexpected "expression"

/-- An expression with the accesses, calls and indexes behind it. -/
def accessed : Parser Expr := do
  let origin ← start
  let inner ← g.primary
  extend (grow origin) inner
where
  /-- One access, call or index. -/
  grow (origin : Nat) (e : Expr) : Parser (Option Expr) := do
    match ← peek with
    | .mark .dot =>
      let _ ← advance
      let name ← memberName
      if ← accept (.mark .openParen) then
        return some (.methodCall e name (← g.args) (← since origin))
      else return some (.field e name (← since origin))
    | .mark .rightArrow =>
      let _ ← advance
      let name ← memberName
      let _ ← expect (.mark .openParen)
      return some (.remoteCall e name (← g.args) (← since origin))
    | .mark .openBracket =>
      let _ ← advance
      let position ← g.expr
      let _ ← expect (.mark .closeBracket)
      return some (.index e position (← since origin))
    | _ => return none

/-- The operator that stands before an operand and is written with a token. -/
def unaryOp? : TokenKind → Option UnaryOp
  | .mark .minus => some .negate
  | .mark .plus => some .plus
  | .mark .bang => some .not
  | .keyword .kwCheck => some .check
  | .keyword .kwCheckpanic => some .checkPanic
  | .keyword .kwWait => some .wait
  | .keyword .kwStart => some .start
  | _ => none

/-- An expression with the operators and casts before it. -/
def unaryExpr : Parser Expr := do
  let origin ← start
  let next ← peek
  match unaryOp? next with
  | some op =>
    let _ ← advance
    return .unary op (← g.unary) (← since origin)
  | none =>
    if next == .mark .less then
      let type ← g.typeArgument
      return .cast type (← g.unary) (← since origin)
    else g.accessed

/-- The operator between two operands that is written with a token. -/
def binaryOp? : TokenKind → Option BinaryOp
  | .mark m => BinaryOp.ofMark? m
  | _ => none

/-- Operands joined by operators that bind at least as tightly as a floor. -/
def binaryExpr (floor : Nat) : Parser Expr := do
  let origin ← start
  let left ← g.unaryExpr
  extend (grow origin) left
where
  /-- One operator and its right operand, or one type test. -/
  grow (origin : Nat) (left : Expr) : Parser (Option Expr) := do
    let next ← peek
    if next == .keyword .kwIs && floor ≤ typeTestPrecedence then
      let _ ← advance
      return some (.typeTest left (← g.type) (← since origin))
    match binaryOp? next with
    | some op =>
      if op.precedence < floor then return none
      let _ ← advance
      return some (.binary op left (← g.binary (op.precedence + 1)) (← since origin))
    | none => return none

/-- An expression, a conditional one if a question mark follows. -/
def conditional : Parser Expr := do
  let origin ← start
  let condition ← g.binaryExpr 0
  if ← accept (.mark .question) then
    let ifTrue ← g.expr
    let _ ← expect (.mark .colon)
    let ifFalse ← g.expr
    return .conditional condition ifTrue ifFalse (← since origin)
  else return condition

/-- The productions over the parsers they recurse into. -/
def next : Grammar where
  type := g.unionType
  expr := g.conditional
  binary := g.binaryExpr
  unary := g.unaryExpr

end Grammar

/-- The grammar of types and expressions, `depth` levels deep. -/
def grammar : Nat → Grammar
  | 0 => ⟨Parser.noProgress, Parser.noProgress, fun _ => Parser.noProgress, Parser.noProgress⟩
  | depth + 1 => (grammar depth).next

end Durable
