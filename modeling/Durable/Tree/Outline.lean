/-
The outline of a tree: its nodes in reading order.

An analysis that asks "which calls stand in this body" does not care which of forty
kinds of node it passes on the way.  An outline says once and for all what the parts of
each node are and in which order they are read; analyses are then short walks over
outlines, and what they visit is decided here alone.

Annotation tags and names of types are not nodes: a `ref` node is always a reference to
a value.
-/
import Durable.Tree.Basic

namespace Durable

/-- A part of a tree that analyses look at. -/
inductive Node where
  | module (m : Module)
  | member (m : Member)
  | function (f : Function)
  | service (s : Service)
  | annotationTag (a : Annotation)
  | param (p : Param)
  | type (t : TypeDesc)
  | block (b : Block)
  | stmt (s : Stmt)
  | localVar (d : LocalVar)
  | expr (e : Expr)
  | arg (a : Arg)
  | field (f : MappingField)
  | ref (r : NameRef)

/-- A node with the outlines of its parts. -/
inductive Outline where
  | mk (node : Node) (parts : List Outline)

namespace Outline

def node : Outline → Node | mk n _ => n
def parts : Outline → List Outline | mk _ ps => ps

mutual

/-- The nodes of an outline, each before its parts. -/
def nodes : Outline → List Node
  | .mk n parts => n :: nodesOfAll parts

/-- The nodes of several outlines. -/
def nodesOfAll : List Outline → List Node
  | [] => []
  | o :: os => o.nodes ++ nodesOfAll os

end

mutual

/-- What a walk collects.  `enter` says what a node gives under the circumstances it is met in, and
under which circumstances its parts are met; with none its parts are passed over. -/
def walk {γ α : Type} (enter : γ → Node → List α × Option γ) (circumstances : γ) : Outline → List α
  | .mk n parts =>
    match enter circumstances n with
    | (found, some inside) => found ++ walkAll enter inside parts
    | (found, none) => found

/-- What a walk collects from several outlines met under the same circumstances. -/
def walkAll {γ α : Type} (enter : γ → Node → List α × Option γ) (circumstances : γ) :
    List Outline → List α
  | [] => []
  | o :: os => o.walk enter circumstances ++ walkAll enter circumstances os

end

end Outline

/-! ### Types and expressions -/

/-- The outline of a reference. -/
def NameRef.outline (r : NameRef) : Outline := .mk (.ref r) []

mutual

/-- The outlines of the parts of a type. -/
def TypeDesc.parts : TypeDesc → List Outline
  | .builtin _ _ | .nil _ | .inferred _ | .named _ | .anyFunction _ | .singleton _ _ => []
  | .optional t _ | .array t _ | .map t _ | .paren t _ => [.mk (.type t) t.parts]
  | .union ts _ | .intersection ts _ => typeOutlines ts
  | .future none _ => []
  | .future (some t) _ => [.mk (.type t) t.parts]
  | .stream item none _ => [.mk (.type item) item.parts]
  | .stream item (some done) _ => [.mk (.type item) item.parts, .mk (.type done) done.parts]
  | .function params rest returns _ =>
    typeOutlines params
      ++ (match rest with | some t => [.mk (.type t) t.parts] | none => [])
      ++ (match returns with | some t => [.mk (.type t) t.parts] | none => [])
  | .record _ fields rest _ =>
    recordFieldOutlines fields
      ++ (match rest with | some t => [.mk (.type t) t.parts] | none => [])

/-- The outlines of several types. -/
def typeOutlines : List TypeDesc → List Outline
  | [] => []
  | t :: ts => .mk (.type t) t.parts :: typeOutlines ts

/-- The outlines of the types and defaults of record fields. -/
def recordFieldOutlines : List RecordField → List Outline
  | [] => []
  | .mk _ t _ _ none _ :: fields => .mk (.type t) t.parts :: recordFieldOutlines fields
  | .mk _ t _ _ (some e) _ :: fields =>
    .mk (.type t) t.parts :: .mk (.expr e) e.parts :: recordFieldOutlines fields

/-- The outlines of the parts of an expression. -/
def Expr.parts : Expr → List Outline
  | .literal _ _ | .required _ => []
  | .name r => [r.outline]
  | .call callee args _ => callee.outline :: argOutlines args
  | .methodCall receiver _ args _ | .remoteCall receiver _ args _ =>
    .mk (.expr receiver) receiver.parts :: argOutlines args
  | .field target _ _ => [.mk (.expr target) target.parts]
  | .index target position _ =>
    [.mk (.expr target) target.parts, .mk (.expr position) position.parts]
  | .mapping fields _ => fieldOutlines fields
  | .list items _ => exprOutlines items
  | .unary _ operand _ => [.mk (.expr operand) operand.parts]
  | .binary _ left right _ => [.mk (.expr left) left.parts, .mk (.expr right) right.parts]
  | .typeTest operand type _ => [.mk (.expr operand) operand.parts, .mk (.type type) type.parts]
  | .conditional condition ifTrue ifFalse _ =>
    [.mk (.expr condition) condition.parts, .mk (.expr ifTrue) ifTrue.parts,
     .mk (.expr ifFalse) ifFalse.parts]
  | .cast type operand _ => [.mk (.type type) type.parts, .mk (.expr operand) operand.parts]
  | .construct none args _ => argOutlines args
  | .construct (some t) args _ => .mk (.type t) t.parts :: argOutlines args
  | .paren inner _ => [.mk (.expr inner) inner.parts]

/-- The outlines of several expressions. -/
def exprOutlines : List Expr → List Outline
  | [] => []
  | e :: es => .mk (.expr e) e.parts :: exprOutlines es

/-- The outlines of the arguments of a call. -/
def argOutlines : List Arg → List Outline
  | [] => []
  | .positional e :: args =>
    .mk (.arg (.positional e)) [.mk (.expr e) e.parts] :: argOutlines args
  | .named name e :: args =>
    .mk (.arg (.named name e)) [.mk (.expr e) e.parts] :: argOutlines args
  | .rest e :: args => .mk (.arg (.rest e)) [.mk (.expr e) e.parts] :: argOutlines args

/-- The outlines of the fields of a mapping. -/
def fieldOutlines : List MappingField → List Outline
  | [] => []
  | .word key e :: fields =>
    .mk (.field (.word key e)) [.mk (.expr e) e.parts] :: fieldOutlines fields
  | .string key span e :: fields =>
    .mk (.field (.string key span e)) [.mk (.expr e) e.parts] :: fieldOutlines fields
  | .computed key e :: fields =>
    .mk (.field (.computed key e)) [.mk (.expr key) key.parts, .mk (.expr e) e.parts]
      :: fieldOutlines fields
  | .shorthand r :: fields => .mk (.field (.shorthand r)) [r.outline] :: fieldOutlines fields
  | .spread e :: fields =>
    .mk (.field (.spread e)) [.mk (.expr e) e.parts] :: fieldOutlines fields

end

/-- The outline of a type. -/
def TypeDesc.outline (t : TypeDesc) : Outline := .mk (.type t) t.parts

/-- The outline of an expression. -/
def Expr.outline (e : Expr) : Outline := .mk (.expr e) e.parts

/-- The outline of an expression that may be missing. -/
def optionalExpr (e : Option Expr) : List Outline := (e.map Expr.outline).toList

/-- The outline of a type that may be missing. -/
def optionalType (t : Option TypeDesc) : List Outline := (t.map TypeDesc.outline).toList

/-! ### Statements -/

/-- The outline of an annotation. -/
def Annotation.outline (a : Annotation) : Outline := .mk (.annotationTag a) (optionalExpr a.value)

/-- The outline of a local variable's declaration. -/
def LocalVar.outline (d : LocalVar) : Outline :=
  .mk (.localVar d) (d.annotations.map Annotation.outline ++ d.type.outline :: optionalExpr d.init)

mutual

/-- The outlines of the parts of a statement. -/
def Stmt.parts : Stmt → List Outline
  | .localVar d _ => [d.outline]
  | .assign target _ value _ => [target.outline, value.outline]
  | .expr e _ | .panic e _ | .fail e _ | .giveBack (some e) _ => [e.outline]
  | .lock body _ | .block body _ | .attempt body _ => [.mk (.block body) body.parts]
  | .ifElse condition body none _ => [condition.outline, .mk (.block body) body.parts]
  | .ifElse condition body (some s) _ =>
    [condition.outline, .mk (.block body) body.parts, .mk (.stmt s) s.parts]
  | .whileLoop condition body _ => [condition.outline, .mk (.block body) body.parts]
  | .foreach type _ items body _ =>
    [type.outline, items.outline, .mk (.block body) body.parts]
  | .attemptOnFail body type _ handler _ =>
    [.mk (.block body) body.parts, type.outline, .mk (.block handler) handler.parts]
  | .giveBack none _ | .leave _ | .again _ => []

/-- The outlines of the statements of a block. -/
def Block.parts : Block → List Outline
  | .mk stmts _ => stmtOutlines stmts

/-- The outlines of several statements. -/
def stmtOutlines : List Stmt → List Outline
  | [] => []
  | s :: ss => .mk (.stmt s) s.parts :: stmtOutlines ss

end

/-- The outline of a block. -/
def Block.outline (b : Block) : Outline := .mk (.block b) b.parts

/-! ### Members -/

/-- The outline of a parameter. -/
def Param.outline (p : Param) : Outline :=
  .mk (.param p) (p.annotations.map Annotation.outline ++ p.type.outline :: optionalExpr p.default)

/-- The outline of a function. -/
def Function.outline (f : Function) : Outline :=
  .mk (.function f)
    (f.annotations.map Annotation.outline ++ f.params.map Param.outline ++ optionalType f.returns
      ++ [f.body.outline])

/-- The outlines of the parts of a variable's declaration. -/
def VarDecl.parts (v : VarDecl) : List Outline :=
  v.annotations.map Annotation.outline ++ v.type.outline :: optionalExpr v.init

/-- The outlines of the parts of a constant or a listener. -/
def ValueDecl.parts (d : ValueDecl) : List Outline :=
  d.annotations.map Annotation.outline ++ optionalType d.type ++ [d.value.outline]

/-- The outlines of a member of a service.  A field is not a node of its own. -/
def ServiceMember.outlines : ServiceMember → List Outline
  | method f => [f.outline]
  | field v => v.parts

/-- The outline of a service. -/
def Service.outline (s : Service) : Outline :=
  .mk (.service s)
    (s.annotations.map Annotation.outline ++ optionalType s.type ++ s.listeners.map Expr.outline
      ++ s.members.flatMap ServiceMember.outlines)

/-- The outline of a member of a module. -/
def Member.outline (m : Member) : Outline :=
  .mk (.member m) <| match m with
    | function f => [f.outline]
    | service s => [s.outline]
    | moduleVar v => v.parts
    | const d => d.parts
    | type d => d.annotations.map Annotation.outline ++ [d.type.outline]
    | listener d => d.parts
    | annotationDecl d => optionalType d.type

/-- The outline of a module.  Imports are not nodes. -/
def Module.outline (m : Module) : Outline := .mk (.module m) (m.members.map Member.outline)

end Durable
