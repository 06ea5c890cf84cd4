/-
Changing the expressions of a tree in place.

`Module.editM` meets every expression that is not part of an annotation or a type,
outer ones first, and puts what an edit makes of it in its place.  An edit may change
what an expression says but not which parts it has: the parts are those it had before,
edited in turn.  Everything else of the tree is kept.

The edit may have effects, and `enter` is told of every node on the way, so that the
order of the visit is part of the meaning.
-/
import Durable.Tree.Outline

namespace Durable

/-! ### The expressions an expression is made of -/

/-- The argument with another value. -/
def Arg.withValue (e : Expr) : Arg → Arg
  | positional _ => positional e
  | named name _ => named name e
  | rest _ => rest e

/-- Arguments with other values, in order; arguments without a new value keep theirs. -/
def withArgValues : List Arg → List Expr → List Arg
  | a :: args, e :: es => a.withValue e :: withArgValues args es
  | args, _ => args

/-- Mapping fields with other keys and values, in order. -/
def withFieldValues : List MappingField → List Expr → List MappingField
  | .shorthand r :: fields, es => .shorthand r :: withFieldValues fields es
  | .computed _ _ :: fields, key :: e :: es => .computed key e :: withFieldValues fields es
  | .word key _ :: fields, e :: es => .word key e :: withFieldValues fields es
  | .string key span _ :: fields, e :: es => .string key span e :: withFieldValues fields es
  | .spread _ :: fields, e :: es => .spread e :: withFieldValues fields es
  | fields, _ => fields

/-- An expression over other operands, which are given in reading order.  Types are no operands. -/
def Expr.withOperands : Expr → List Expr → Expr
  | .call callee args s, es => .call callee (withArgValues args es) s
  | .methodCall _ method args s, e :: es => .methodCall e method (withArgValues args es) s
  | .remoteCall _ method args s, e :: es => .remoteCall e method (withArgValues args es) s
  | .field _ word s, [e] => .field e word s
  | .index _ _ s, [e, p] => .index e p s
  | .mapping fields s, es => .mapping (withFieldValues fields es) s
  | .list _ s, es => .list es s
  | .unary op _ s, [e] => .unary op e s
  | .binary op _ _ s, [l, r] => .binary op l r s
  | .typeTest _ t s, [e] => .typeTest e t s
  | .conditional _ _ _ s, [c, t, f] => .conditional c t f s
  | .cast t _ s, [e] => .cast t e s
  | .construct t args s, es => .construct t (withArgValues args es) s
  | .paren _ s, [e] => .paren e s
  | e, _ => e

/-! ### Editing -/

section

variable {m : Type → Type} [Monad m] (enter : Node → m Unit) (edit : Expr → m Expr)

/-- Edits an expression, given how to edit its operands: itself first, then they. -/
def Expr.editOver (e : Expr) (operands : m (List Expr)) : m Expr := do
  enter (.expr e)
  let edited ← edit e
  return edited.withOperands (← operands)

mutual

/-- The edited operands of an expression. -/
def Expr.editOperands : Expr → m (List Expr)
  | .literal _ _ | .name _ | .required _ => pure []
  | .call _ args _ | .construct _ args _ => editArgs args
  | .methodCall receiver _ args _ | .remoteCall receiver _ args _ => do
    let receiver ← receiver.editOver enter edit receiver.editOperands
    return receiver :: (← editArgs args)
  | .mapping fields _ => editFields fields
  | .list items _ => editExprs items
  | .field e _ _ | .unary _ e _ | .cast _ e _ | .typeTest e _ _ | .paren e _ => do
    return [← e.editOver enter edit e.editOperands]
  | .index e f _ | .binary _ e f _ => do
    let e ← e.editOver enter edit e.editOperands
    let f ← f.editOver enter edit f.editOperands
    return [e, f]
  | .conditional e f g _ => do
    let e ← e.editOver enter edit e.editOperands
    let f ← f.editOver enter edit f.editOperands
    let g ← g.editOver enter edit g.editOperands
    return [e, f, g]

/-- The edited expressions of a list. -/
def editExprs : List Expr → m (List Expr)
  | [] => return []
  | e :: es => do
    let e ← e.editOver enter edit e.editOperands
    return e :: (← editExprs es)

/-- The edited values of arguments. -/
def editArgs : List Arg → m (List Expr)
  | [] => return []
  | .positional e :: args | .named _ e :: args | .rest e :: args => do
    let e ← e.editOver enter edit e.editOperands
    return e :: (← editArgs args)

/-- The edited keys and values of mapping fields. -/
def editFields : List MappingField → m (List Expr)
  | [] => return []
  | .shorthand _ :: fields => editFields fields
  | .computed key e :: fields => do
    let key ← key.editOver enter edit key.editOperands
    let e ← e.editOver enter edit e.editOperands
    return key :: e :: (← editFields fields)
  | .word _ e :: fields | .string _ _ e :: fields | .spread e :: fields => do
    let e ← e.editOver enter edit e.editOperands
    return e :: (← editFields fields)

end

/-- The edited expression. -/
def Expr.editM (e : Expr) : m Expr := e.editOver enter edit (e.editOperands enter edit)

/-- The edited expression, if there is one. -/
def editOptional (e : Option Expr) : m (Option Expr) := e.mapM (·.editM enter edit)

/-- The edited declaration: its initial value changes, its annotations and its type do not. -/
def LocalVar.editM (d : LocalVar) : m LocalVar := do
  enter (.localVar d)
  return { d with init := ← editOptional enter edit d.init }

/-- Edits a statement, given how to edit what stands in it. -/
def Stmt.editOver (s : Stmt) (inside : m Stmt) : m Stmt := do
  enter (.stmt s)
  inside

/-- Edits a block, given how to edit its statements. -/
def Block.editOver (b : Block) (inside : m Block) : m Block := do
  enter (.block b)
  inside

mutual

/-- The statement with everything in it edited. -/
def Stmt.editInside : Stmt → m Stmt
  | .localVar d s => return .localVar (← d.editM enter edit) s
  | .assign target op value s => do
    let target ← target.editM enter edit
    return .assign target op (← value.editM enter edit) s
  | .expr e s => return .expr (← e.editM enter edit) s
  | .lock body s => return .lock (← body.editOver enter body.editInside) s
  | .ifElse condition body none s => do
    let condition ← condition.editM enter edit
    return .ifElse condition (← body.editOver enter body.editInside) none s
  | .ifElse condition body (some other) s => do
    let condition ← condition.editM enter edit
    let body ← body.editOver enter body.editInside
    return .ifElse condition body (some (← other.editOver enter other.editInside)) s
  | .whileLoop condition body s => do
    let condition ← condition.editM enter edit
    return .whileLoop condition (← body.editOver enter body.editInside) s
  | .foreach type name items body s => do
    let items ← items.editM enter edit
    return .foreach type name items (← body.editOver enter body.editInside) s
  | .giveBack e s => return .giveBack (← editOptional enter edit e) s
  | .attempt body s => return .attempt (← body.editOver enter body.editInside) s
  | .attemptOnFail body type name handler s => do
    let body ← body.editOver enter body.editInside
    return .attemptOnFail body type name (← handler.editOver enter handler.editInside) s
  | .block body s => return .block (← body.editOver enter body.editInside) s
  | .panic e s => return .panic (← e.editM enter edit) s
  | .fail e s => return .fail (← e.editM enter edit) s
  | .leave s => return .leave s
  | .again s => return .again s

/-- The block with its statements edited. -/
def Block.editInside : Block → m Block
  | .mk stmts s => return .mk (← editStmts stmts) s

/-- The edited statements of a list. -/
def editStmts : List Stmt → m (List Stmt)
  | [] => return []
  | s :: ss => do
    let s ← s.editOver enter s.editInside
    return s :: (← editStmts ss)

end

/-- The edited parameter: its default changes. -/
def Param.editM (p : Param) : m Param :=
  return { p with default := ← editOptional enter edit p.default }

/-- The edited function: the defaults of its parameters, then its body. -/
def Function.editM (f : Function) : m Function := do
  enter (.function f)
  let params ← f.params.mapM (·.editM enter edit)
  return { f with params, body := ← f.body.editOver enter (f.body.editInside enter edit) }

/-- The edited declaration of a variable. -/
def VarDecl.editM (v : VarDecl) : m VarDecl :=
  return { v with init := ← editOptional enter edit v.init }

/-- The edited declaration of a constant or a listener. -/
def ValueDecl.editM (d : ValueDecl) : m ValueDecl :=
  return { d with value := ← d.value.editM enter edit }

/-- The edited member of a service. -/
def ServiceMember.editM : ServiceMember → m ServiceMember
  | method f => return .method (← f.editM enter edit)
  | field v => return .field (← v.editM enter edit)

/-- The edited service: its listeners, then its members. -/
def Service.editM (s : Service) : m Service := do
  enter (.service s)
  let listeners ← s.listeners.mapM (·.editM enter edit)
  return { s with listeners, members := ← s.members.mapM (·.editM enter edit) }

/-- The edited member of a module. -/
def Member.editM (d : Member) : m Member := do
  enter (.member d)
  match d with
  | function f => return .function (← f.editM enter edit)
  | service s => return .service (← s.editM enter edit)
  | moduleVar v => return .moduleVar (← v.editM enter edit)
  | const v => return .const (← v.editM enter edit)
  | type t => return .type t
  | listener v => return .listener (← v.editM enter edit)
  | annotationDecl a => return .annotationDecl a

/-- The edited module. -/
def Module.editM (d : Module) : m Module :=
  return { d with members := ← d.members.mapM (·.editM enter edit) }

end

end Durable
