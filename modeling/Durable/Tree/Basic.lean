/-
Trees of the workflow language.

Every node knows the span it was read from; nodes that a program builds carry
`Span.synthetic`.  Expressions and types refer to each other, because a record field
may have a default and a cast names a type, so they are one family; statements and
blocks are a second one on top.  Members of a module are plain structures.

Three decisions are made here once.  The operators that stand before their operand,
words like `check` included, are one kind of node.  A variable of a module and a field
of a service are the same structure, as are a constant and a listener.  And a name is
never confused with a reference: an `Ident` is a word at a place, a `NameRef` may go
through an import.
-/
import Durable.Token.Basic

namespace Durable

/-! ### Names -/

/-- A word used as a name, and its place. -/
structure Ident where
  name : String
  span : Span
deriving DecidableEq, Repr, Inhabited

/-- A reference by name, possibly `via` the prefix of an import. -/
structure NameRef where
  via : Option Ident
  name : Ident
  span : Span
deriving DecidableEq, Repr, Inhabited

namespace NameRef

/-- The reference that is just a name. -/
def simple (name : Ident) : NameRef := ⟨none, name, name.span⟩

/-- A reference that no source text was read for. -/
def synthetic (via : Option String) (name : String) : NameRef :=
  ⟨via.map (⟨·, .synthetic⟩), ⟨name, .synthetic⟩, .synthetic⟩

/-- The text of a reference. -/
def asWritten (r : NameRef) : String :=
  match r.via with
  | some p => p.name ++ ":" ++ r.name.name
  | none => r.name.name

end NameRef

/-! ### Operators, literals and type names -/

/-- What stands before an operand. -/
inductive UnaryOp where
  | negate | plus | not | check | checkPanic | wait | start
deriving DecidableEq, Repr

/-- How an operator is printed before its operand; words are set off by a blank. -/
def UnaryOp.text : UnaryOp → String
  | negate => "-" | plus => "+" | not => "!" | check => "check " | checkPanic => "checkpanic "
  | wait => "wait " | start => "start "

/-- What stands between two operands. -/
inductive BinaryOp where
  | or | and | equal | notEqual | less | greater | lessEqual | greaterEqual
  | add | subtract | multiply | divide | remainder
deriving DecidableEq, Repr

namespace BinaryOp

/-- The mark an operator is written with. -/
def mark : BinaryOp → Mark
  | or => .orOr | and => .andAnd | equal => .equal | notEqual => .notEqual | less => .less
  | greater => .greater | lessEqual => .lessEqual | greaterEqual => .greaterEqual | add => .plus
  | subtract => .minus | multiply => .star | divide => .slash | remainder => .percent

/-- Every operator once. -/
def all : List BinaryOp :=
  [or, and, equal, notEqual, less, greater, lessEqual, greaterEqual, add, subtract, multiply,
   divide, remainder]

/-- The operator written with a mark. -/
def ofMark? (m : Mark) : Option BinaryOp := all.find? (·.mark == m)

/-- How tightly an operator binds; the tightest has the greatest number. -/
def precedence : BinaryOp → Nat
  | or => 1
  | and => 2
  | equal | notEqual => 3
  | less | greater | lessEqual | greaterEqual => 4
  | add | subtract => 5
  | multiply | divide | remainder => 6

end BinaryOp

/-- How tightly the test of a value against a type binds. -/
def typeTestPrecedence : Nat := 4

/-- What joins the two sides of an assignment. -/
inductive AssignOp where
  | assign | add | subtract | multiply | divide
deriving DecidableEq, Repr

namespace AssignOp

/-- The mark an assignment is written with. -/
def mark : AssignOp → Mark
  | assign => .assign | add => .plusAssign | subtract => .minusAssign | multiply => .starAssign
  | divide => .slashAssign

/-- The assignment written with a mark. -/
def ofMark? (m : Mark) : Option AssignOp :=
  [assign, add, subtract, multiply, divide].find? (·.mark == m)

end AssignOp

/-- A value written out.  Numbers keep their spelling. -/
inductive Literal where
  | nil
  | bool (value : Bool)
  | int (text : String)
  | float (text : String)
  | string (value : String)
deriving DecidableEq, Repr, Inhabited

/-- The types that reserved words name. -/
inductive BuiltinType where
  | int | float | decimal | string | boolean | byte | anydata | any | json | xml | error | readonly
  | never | handle | typedesc
deriving DecidableEq, Repr

namespace BuiltinType

/-- The reserved word of a type. -/
def keyword : BuiltinType → Keyword
  | int => .kwInt | float => .kwFloat | decimal => .kwDecimal | string => .kwString
  | boolean => .kwBoolean | byte => .kwByte | anydata => .kwAnydata | any => .kwAny
  | json => .kwJson | xml => .kwXml | error => .kwError | readonly => .kwReadonly
  | never => .kwNever | handle => .kwHandle | typedesc => .kwTypedesc

/-- Every type named by a reserved word, once. -/
def all : List BuiltinType :=
  [int, float, decimal, string, boolean, byte, anydata, any, json, xml, error, readonly, never,
   handle, typedesc]

/-- The type a reserved word names. -/
def ofKeyword? (k : Keyword) : Option BuiltinType := all.find? (·.keyword == k)

end BuiltinType

/-! ### Types and expressions -/

mutual

/-- A type as written. -/
inductive TypeDesc where
  | builtin (type : BuiltinType) (span : Span)
  | nil (span : Span)
  /-- The word `var`: the type is that of the initial value. -/
  | inferred (span : Span)
  | named (ref : NameRef)
  | optional (inner : TypeDesc) (span : Span)
  | array (inner : TypeDesc) (span : Span)
  | union (members : List TypeDesc) (span : Span)
  | intersection (members : List TypeDesc) (span : Span)
  | map (inner : TypeDesc) (span : Span)
  | future (inner : Option TypeDesc) (span : Span)
  | stream (item : TypeDesc) (completion : Option TypeDesc) (span : Span)
  /-- The word `function` alone: any function. -/
  | anyFunction (span : Span)
  | function (params : List TypeDesc) (rest returns : Option TypeDesc) (span : Span)
  | record (closed : Bool) (fields : List RecordField) (rest : Option TypeDesc) (span : Span)
  | singleton (value : Literal) (span : Span)
  | paren (inner : TypeDesc) (span : Span)

/-- A field of a record type. -/
inductive RecordField where
  | mk (isReadonly : Bool) (type : TypeDesc) (name : Ident) (isOptional : Bool)
    (default : Option Expr) (span : Span)

/-- An expression. -/
inductive Expr where
  | literal (value : Literal) (span : Span)
  | name (ref : NameRef)
  | call (callee : NameRef) (args : List Arg) (span : Span)
  | methodCall (receiver : Expr) (method : Ident) (args : List Arg) (span : Span)
  /-- A call over the network, `receiver->method(args)`. -/
  | remoteCall (receiver : Expr) (method : Ident) (args : List Arg) (span : Span)
  | field (target : Expr) (name : Ident) (span : Span)
  | index (target position : Expr) (span : Span)
  | mapping (fields : List MappingField) (span : Span)
  | list (items : List Expr) (span : Span)
  | unary (op : UnaryOp) (operand : Expr) (span : Span)
  | binary (op : BinaryOp) (left right : Expr) (span : Span)
  | typeTest (operand : Expr) (type : TypeDesc) (span : Span)
  | conditional (condition ifTrue ifFalse : Expr) (span : Span)
  | cast (type : TypeDesc) (operand : Expr) (span : Span)
  | construct (type : Option TypeDesc) (args : List Arg) (span : Span)
  | paren (inner : Expr) (span : Span)
  /-- The question mark that says a configured value has no default. -/
  | required (span : Span)

/-- An argument of a call. -/
inductive Arg where
  | positional (value : Expr)
  | named (name : Ident) (value : Expr)
  | rest (value : Expr)

/-- A field of a mapping. -/
inductive MappingField where
  | word (key : Ident) (value : Expr)
  | string (key : String) (keySpan : Span) (value : Expr)
  | computed (key value : Expr)
  /-- A variable that gives both key and value. -/
  | shorthand (ref : NameRef)
  | spread (value : Expr)

end

instance : Inhabited TypeDesc := ⟨.nil .synthetic⟩
instance : Inhabited Expr := ⟨.literal .nil .synthetic⟩

namespace TypeDesc

/-- The place of a type. -/
def span : TypeDesc → Span
  | builtin _ s | nil s | inferred s | optional _ s | array _ s | union _ s | intersection _ s
  | map _ s | future _ s | stream _ _ s | anyFunction s | function _ _ _ s | record _ _ _ s
  | singleton _ s | paren _ s => s
  | named r => r.span

/-- The type is the word `var` itself. -/
def isInferred : TypeDesc → Bool
  | inferred _ => true
  | _ => false

end TypeDesc

namespace RecordField

def isReadonly : RecordField → Bool | mk r _ _ _ _ _ => r
def type : RecordField → TypeDesc | mk _ t _ _ _ _ => t
def name : RecordField → Ident | mk _ _ n _ _ _ => n
def isOptional : RecordField → Bool | mk _ _ _ o _ _ => o
def default : RecordField → Option Expr | mk _ _ _ _ d _ => d
def span : RecordField → Span | mk _ _ _ _ _ s => s

end RecordField

namespace Expr

/-- The place of an expression. -/
def span : Expr → Span
  | literal _ s | call _ _ s | methodCall _ _ _ s | remoteCall _ _ _ s | field _ _ s | index _ _ s
  | mapping _ s | list _ s | unary _ _ s | binary _ _ _ s | typeTest _ _ s | conditional _ _ _ s
  | cast _ _ s | construct _ _ s | paren _ s | required s => s
  | name r => r.span

/-- An expression without the parentheses around it. -/
def unparenthesized : Expr → Expr
  | paren inner _ => inner.unparenthesized
  | e => e

end Expr

/-- The value an argument passes. -/
def Arg.value : Arg → Expr
  | positional e | named _ e | rest e => e

namespace MappingField

/-- The key of a field, when reading the source is enough to know it. -/
def staticKey? : MappingField → Option String
  | word key _ => some key.name
  | string key _ _ => some key
  | shorthand r => if r.via.isNone then some r.name.name else none
  | computed _ _ | spread _ => none

end MappingField

/-! ### Statements -/

/-- A tag on a declaration. -/
structure Annotation where
  name : NameRef
  value : Option Expr
  span : Span

/-- The declaration of a local variable. -/
structure LocalVar where
  annotations : List Annotation
  isFinal : Bool
  type : TypeDesc
  name : Ident
  init : Option Expr

mutual

/-- A statement. -/
inductive Stmt where
  | localVar (decl : LocalVar) (span : Span)
  | assign (target : Expr) (op : AssignOp) (value : Expr) (span : Span)
  | expr (value : Expr) (span : Span)
  /-- A critical section. -/
  | lock (body : Block) (span : Span)
  | ifElse (condition : Expr) (body : Block) (otherwise : Option Stmt) (span : Span)
  | whileLoop (condition : Expr) (body : Block) (span : Span)
  | foreach (type : TypeDesc) (name : Ident) (items : Expr) (body : Block) (span : Span)
  | giveBack (value : Option Expr) (span : Span)
  | attempt (body : Block) (span : Span)
  /-- A block with a handler for the errors that fail inside it. -/
  | attemptOnFail (body : Block) (type : TypeDesc) (name : Ident) (handler : Block) (span : Span)
  | block (body : Block) (span : Span)
  | panic (value : Expr) (span : Span)
  | fail (value : Expr) (span : Span)
  | leave (span : Span)
  | again (span : Span)

/-- Statements in braces. -/
inductive Block where
  | mk (stmts : List Stmt) (span : Span)

end

namespace Block

def stmts : Block → List Stmt | mk ss _ => ss
def span : Block → Span | mk _ s => s

end Block

/-- The place of a statement. -/
def Stmt.span : Stmt → Span
  | localVar _ s | assign _ _ _ s | expr _ s | lock _ s | ifElse _ _ _ s | whileLoop _ _ s
  | foreach _ _ _ _ s | giveBack _ s | attempt _ s | attemptOnFail _ _ _ _ s | block _ s
  | panic _ s | fail _ s | leave s | again s => s

/-! ### Members -/

/-- The words that may stand before a member. -/
inductive Modifier where
  | exported | internal | isolated | remote | resource | transactional | final | configurable
deriving DecidableEq, Repr

namespace Modifier

/-- The reserved word of a modifier. -/
def keyword : Modifier → Keyword
  | exported => .kwPublic | internal => .kwPrivate | isolated => .kwIsolated | remote => .kwRemote
  | resource => .kwResource | transactional => .kwTransactional | final => .kwFinal
  | configurable => .kwConfigurable

/-- The modifier a reserved word stands for. -/
def ofKeyword? (k : Keyword) : Option Modifier :=
  [exported, internal, isolated, remote, resource, transactional, final, configurable].find?
    (·.keyword == k)

end Modifier

/-- Modifiers as written, repeated ones included. -/
abbrev Modifiers := List (Modifier × Span)

/-- A modifier is among those written. -/
def Modifiers.has (ms : Modifiers) (m : Modifier) : Bool := ms.any (·.1 == m)

/-- What a call may pass for a parameter: exactly one value, one or none, or any number. -/
inductive ParamKind where
  | required | defaultable | rest
deriving DecidableEq, Repr

/-- A parameter of a function. -/
structure Param where
  annotations : List Annotation
  kind : ParamKind
  type : TypeDesc
  name : Ident
  default : Option Expr
  span : Span

/-- A function, or a method of a service. -/
structure Function where
  annotations : List Annotation
  modifiers : Modifiers
  name : Ident
  /-- The path a resource method answers under, as written. -/
  resourcePath : Option String
  params : List Param
  returns : Option TypeDesc
  body : Block
  span : Span

namespace Function

def isIsolated (f : Function) : Bool := f.modifiers.has .isolated
def isRemote (f : Function) : Bool := f.modifiers.has .remote
def isResource (f : Function) : Bool := f.modifiers.has .resource

end Function

/-- A variable of a module, or a field of a service. -/
structure VarDecl where
  annotations : List Annotation
  modifiers : Modifiers
  type : TypeDesc
  name : Ident
  init : Option Expr
  span : Span

/-- A name that is given its value where it is declared: a constant or a listener. -/
structure ValueDecl where
  annotations : List Annotation
  modifiers : Modifiers
  type : Option TypeDesc
  name : Ident
  value : Expr
  span : Span

/-- A name for a type. -/
structure TypeDef where
  annotations : List Annotation
  modifiers : Modifiers
  name : Ident
  type : TypeDesc
  span : Span

/-- The declaration of an annotation. -/
structure AnnotationDecl where
  modifiers : Modifiers
  type : Option TypeDesc
  name : Ident
  /-- The kinds of declaration it may be attached to. -/
  attachPoints : List String
  span : Span

/-- A member of a service. -/
inductive ServiceMember where
  | method (function : Function)
  | field (decl : VarDecl)

/-- A service: an object whose methods answer what its listeners receive. -/
structure Service where
  annotations : List Annotation
  modifiers : Modifiers
  type : Option TypeDesc
  /-- The path the service answers under, as written. -/
  basePath : Option String
  listeners : List Expr
  members : List ServiceMember
  keywordSpan : Span
  span : Span

/-- The methods of a service in source order. -/
def Service.methods (s : Service) : List Function :=
  s.members.filterMap fun
    | .method f => some f
    | .field _ => none

/-- A member of a module. -/
inductive Member where
  | function (decl : Function)
  | service (decl : Service)
  | moduleVar (decl : VarDecl)
  | const (decl : ValueDecl)
  | type (decl : TypeDef)
  | listener (decl : ValueDecl)
  | annotationDecl (decl : AnnotationDecl)

/-- The place of a member, from its first modifier on. -/
def Member.span : Member → Span
  | function d => d.span
  | service d => d.span
  | moduleVar d => d.span
  | const d => d.span
  | type d => d.span
  | listener d => d.span
  | annotationDecl d => d.span

/-! ### Modules -/

/-- An import of another module. -/
structure Import where
  org : Option Ident
  /-- The parts of the module's dotted name. -/
  path : List Ident
  /-- The prefix the import asks for. -/
  rename : Option Ident
  span : Span
deriving DecidableEq, Repr, Inhabited

namespace Import

/-- The dotted name of the imported module. -/
def moduleName (i : Import) : String := ".".intercalate (i.path.map (·.name))

/-- The prefix an import is used by: the one it asks for, or the last part of its module's name. -/
def boundName (i : Import) : String :=
  match i.rename with
  | some p => p.name
  | none => (i.path.getLast?.map (·.name)).getD ""

end Import

/-- What one source text declares. -/
structure Module where
  imports : List Import
  members : List Member
  span : Span

end Durable
