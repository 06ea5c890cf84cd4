/-
The places in a tree.

An extent is the place of a node with the extents of what belongs to the node, every node that
has a place included: names and modifiers as much as statements.  What belongs to a declaration
comes in two groups, because annotations belong to a member of a module or a service and are no
part of its place.  A parameter's and a local variable's are parts like the others.

Arguments, fields of mappings and declarations of local variables have no place of their own;
what belongs to them belongs to the node that they stand in.
-/
import Durable.Tree.Basic

namespace Durable

/-- The place of a node, the annotations that stand before it, and its parts. -/
inductive Extent where
  | mk (span : Span) (tags parts : List Extent)

namespace Extent

def span : Extent → Span | mk s _ _ => s
def tags : Extent → List Extent | mk _ ts _ => ts
def parts : Extent → List Extent | mk _ _ ps => ps

/-- The extent of a node without annotations. -/
def node (span : Span) (parts : List Extent) : Extent := mk span [] parts

/-- The extent of a node that nothing belongs to. -/
def leaf (span : Span) : Extent := node span []

mutual

/-- An extent and those of all that belongs to its node. -/
def all : Extent → List Extent
  | mk s tags parts => mk s tags parts :: (allOf tags ++ allOf parts)

/-- Several extents and those of all that belongs to their nodes. -/
def allOf : List Extent → List Extent
  | [] => []
  | x :: xs => x.all ++ allOf xs

end

@[simp] theorem allOf_nil : allOf [] = [] := rfl

@[simp] theorem allOf_cons (s : Span) (tags parts xs : List Extent) :
    allOf (mk s tags parts :: xs) = mk s tags parts :: (allOf tags ++ allOf parts) ++ allOf xs :=
  rfl

theorem allOf_eq_flatMap (xs : List Extent) : allOf xs = xs.flatMap all := by
  induction xs with
  | nil => rfl
  | cons x xs ih => rw [allOf, ih, List.flatMap_cons]

@[simp] theorem allOf_append (xs ys : List Extent) : allOf (xs ++ ys) = allOf xs ++ allOf ys := by
  simp only [allOf_eq_flatMap, List.flatMap_append]

theorem allOf_subset {xs ys : List Extent} (h : xs ⊆ ys) : allOf xs ⊆ allOf ys := by
  intro x hx
  rw [allOf_eq_flatMap, List.mem_flatMap] at hx ⊢
  obtain ⟨y, hy, hxy⟩ := hx
  exact ⟨y, h hy, hxy⟩

theorem mem_all (x : Extent) : x ∈ x.all := by
  cases x
  exact List.mem_cons_self

theorem mem_allOf {x : Extent} {xs : List Extent} (h : x ∈ xs) : x ∈ allOf xs := by
  rw [allOf_eq_flatMap, List.mem_flatMap]
  exact ⟨x, h, x.mem_all⟩

/-- What belongs to a part of a node belongs to the node. -/
theorem all_subset {x y : Extent} (h : y ∈ x.parts) : y.all ⊆ x.all := by
  intro z hz
  cases x with
  | mk s tags parts =>
    have hparts : z ∈ allOf parts := by
      rw [allOf_eq_flatMap, List.mem_flatMap]
      exact ⟨y, h, hz⟩
    exact List.mem_cons_of_mem _ (List.mem_append_right _ hparts)

/-- What belongs to a node stands where it should: its parts inside it, annotations before it. -/
structure Nests (x : Extent) : Prop where
  contains : ∀ y ∈ allOf x.parts, x.span.Contains y.span
  before : ∀ y ∈ allOf x.tags, y.span.stop ≤ x.span.start

/-- The place of a node is sound in a text of a size that has these tokens: it starts and stops as
tokens do, it is not empty, it does not reach beyond the text, and what belongs to the node stands
where it should. -/
structure Sound (tokens : List Token) (size : Nat) (x : Extent) : Prop where
  starts : ∃ t ∈ tokens, t.kind ≠ .endOfFile ∧ x.span.start = t.span.start
  stops : ∃ t ∈ tokens, t.kind ≠ .endOfFile ∧ x.span.stop = t.span.stop
  nonempty : x.span.start < x.span.stop
  within : x.span.stop ≤ size
  nests : x.Nests

end Extent

open Extent

/-! ### Names -/

def Ident.extent (x : Ident) : Extent := leaf x.span

def NameRef.extent (r : NameRef) : Extent :=
  node r.span (r.via.toList.map Ident.extent ++ [r.name.extent])

/-! ### Types and expressions -/

mutual

/-- The extent of a type.  The name of a type has the place of the type itself. -/
def TypeDesc.extent : TypeDesc → Extent
  | .builtin _ s | .nil s | .inferred s | .anyFunction s | .singleton _ s => leaf s
  | .named r => r.extent
  | .optional t s | .array t s | .map t s | .paren t s => node s [t.extent]
  | .union ts s | .intersection ts s => node s (typeExtents ts)
  | .future none s => leaf s
  | .future (some t) s => node s [t.extent]
  | .stream item none s => node s [item.extent]
  | .stream item (some done) s => node s [item.extent, done.extent]
  | .function params rest returns s =>
    node s <| typeExtents params
      ++ (match rest with | some t => [t.extent] | none => [])
      ++ (match returns with | some t => [t.extent] | none => [])
  | .record _ fields rest s =>
    node s <| recordFieldExtents fields ++ (match rest with | some t => [t.extent] | none => [])

def typeExtents : List TypeDesc → List Extent
  | [] => []
  | t :: ts => t.extent :: typeExtents ts

def RecordField.extent : RecordField → Extent
  | .mk _ t x _ none s => node s [t.extent, x.extent]
  | .mk _ t x _ (some e) s => node s [t.extent, x.extent, e.extent]

def recordFieldExtents : List RecordField → List Extent
  | [] => []
  | f :: fs => f.extent :: recordFieldExtents fs

/-- The extent of an expression.  A reference has the place of the expression that it is. -/
def Expr.extent : Expr → Extent
  | .literal _ s | .required s => leaf s
  | .name r => r.extent
  | .call callee args s => node s (callee.extent :: argExtents args)
  | .methodCall receiver method args s | .remoteCall receiver method args s =>
    node s (receiver.extent :: method.extent :: argExtents args)
  | .field target x s => node s [target.extent, x.extent]
  | .index target position s => node s [target.extent, position.extent]
  | .mapping fields s => node s (fieldExtents fields)
  | .list items s => node s (exprExtents items)
  | .unary _ operand s => node s [operand.extent]
  | .binary _ left right s => node s [left.extent, right.extent]
  | .typeTest operand type s => node s [operand.extent, type.extent]
  | .conditional condition ifTrue ifFalse s =>
    node s [condition.extent, ifTrue.extent, ifFalse.extent]
  | .cast type operand s => node s [type.extent, operand.extent]
  | .construct none args s => node s (argExtents args)
  | .construct (some t) args s => node s (t.extent :: argExtents args)
  | .paren inner s => node s [inner.extent]

def exprExtents : List Expr → List Extent
  | [] => []
  | e :: es => e.extent :: exprExtents es

/-- The extents of what belongs to an argument. -/
def Arg.extents : Arg → List Extent
  | .positional e | .rest e => [e.extent]
  | .named x e => [x.extent, e.extent]

def argExtents : List Arg → List Extent
  | [] => []
  | a :: as => a.extents ++ argExtents as

/-- The extents of what belongs to a field of a mapping. -/
def MappingField.extents : MappingField → List Extent
  | .word key e => [key.extent, e.extent]
  | .string _ s e => [leaf s, e.extent]
  | .computed key e => [key.extent, e.extent]
  | .shorthand r => [r.extent]
  | .spread e => [e.extent]

def fieldExtents : List MappingField → List Extent
  | [] => []
  | f :: fs => f.extents ++ fieldExtents fs

end

theorem typeExtents_eq (ts : List TypeDesc) : typeExtents ts = ts.map TypeDesc.extent := by
  induction ts with
  | nil => rfl
  | cons t ts ih => rw [typeExtents, ih, List.map_cons]

theorem recordFieldExtents_eq (fs : List RecordField) :
    recordFieldExtents fs = fs.map RecordField.extent := by
  induction fs with
  | nil => rfl
  | cons f fs ih => rw [recordFieldExtents, ih, List.map_cons]

theorem exprExtents_eq (es : List Expr) : exprExtents es = es.map Expr.extent := by
  induction es with
  | nil => rfl
  | cons e es ih => rw [exprExtents, ih, List.map_cons]

theorem argExtents_eq (as : List Arg) : argExtents as = as.flatMap Arg.extents := by
  induction as with
  | nil => rfl
  | cons a as ih => rw [argExtents, ih, List.flatMap_cons]

theorem fieldExtents_eq (fs : List MappingField) :
    fieldExtents fs = fs.flatMap MappingField.extents := by
  induction fs with
  | nil => rfl
  | cons f fs ih => rw [fieldExtents, ih, List.flatMap_cons]

theorem TypeDesc.span_extent (t : TypeDesc) : t.extent.span = t.span := by
  cases t with
  | future t s => cases t <;> rfl
  | stream t u s => cases u <;> rfl
  | function params rest returns s => cases rest <;> cases returns <;> rfl
  | record closed fields rest s => cases rest <;> rfl
  | _ => rfl

/-- The extents of a type that may be missing. -/
def typeExtent? (t : Option TypeDesc) : List Extent := t.toList.map TypeDesc.extent

/-- The extents of an expression that may be missing. -/
def exprExtent? (e : Option Expr) : List Extent := e.toList.map Expr.extent

/-! ### Statements -/

def Annotation.extent (a : Annotation) : Extent :=
  node a.span (a.name.extent :: exprExtent? a.value)

/-- The extents of what belongs to a local variable's declaration. -/
def LocalVar.extents (d : LocalVar) : List Extent :=
  d.annotations.map Annotation.extent ++ d.type.extent :: d.name.extent :: exprExtent? d.init

mutual

def Stmt.extent : Stmt → Extent
  | .localVar d s => node s d.extents
  | .assign target _ value s => node s [target.extent, value.extent]
  | .expr e s | .panic e s | .fail e s => node s [e.extent]
  | .lock body s | .block body s | .attempt body s => node s [body.extent]
  | .ifElse condition body none s => node s [condition.extent, body.extent]
  | .ifElse condition body (some other) s =>
    node s [condition.extent, body.extent, other.extent]
  | .whileLoop condition body s => node s [condition.extent, body.extent]
  | .foreach type x items body s =>
    node s [type.extent, x.extent, items.extent, body.extent]
  | .giveBack e s => node s (exprExtent? e)
  | .attemptOnFail body type x handler s =>
    node s [body.extent, type.extent, x.extent, handler.extent]
  | .leave s | .again s => leaf s

def Block.extent : Block → Extent
  | .mk stmts s => node s (stmtExtents stmts)

def stmtExtents : List Stmt → List Extent
  | [] => []
  | s :: ss => s.extent :: stmtExtents ss

end

/-! ### Members -/

/-- The extents of modifiers, which are words. -/
def Modifiers.extents (ms : Modifiers) : List Extent := ms.map fun m => leaf m.2

def Param.extent (p : Param) : Extent :=
  node p.span <| p.annotations.map Annotation.extent ++ p.type.extent :: p.name.extent
    :: exprExtent? p.default

def Function.extent (f : Function) : Extent :=
  .mk f.span (f.annotations.map Annotation.extent) <| f.modifiers.extents ++ f.name.extent
    :: f.params.map Param.extent ++ typeExtent? f.returns ++ [f.body.extent]

def VarDecl.extent (v : VarDecl) : Extent :=
  .mk v.span (v.annotations.map Annotation.extent) <|
    v.modifiers.extents ++ v.type.extent :: v.name.extent :: exprExtent? v.init

def ValueDecl.extent (d : ValueDecl) : Extent :=
  .mk d.span (d.annotations.map Annotation.extent) <|
    d.modifiers.extents ++ typeExtent? d.type ++ [d.name.extent, d.value.extent]

def TypeDef.extent (d : TypeDef) : Extent :=
  .mk d.span (d.annotations.map Annotation.extent) <|
    d.modifiers.extents ++ [d.name.extent, d.type.extent]

def AnnotationDecl.extent (d : AnnotationDecl) : Extent :=
  node d.span <| d.modifiers.extents ++ typeExtent? d.type ++ [d.name.extent]

def ServiceMember.extent : ServiceMember → Extent
  | method f => f.extent
  | field v => v.extent

def Service.extent (s : Service) : Extent :=
  .mk s.span (s.annotations.map Annotation.extent) <| s.modifiers.extents ++ leaf s.keywordSpan
    :: typeExtent? s.type ++ s.listeners.map Expr.extent ++ s.members.map ServiceMember.extent

def Member.extent : Member → Extent
  | function d => d.extent
  | service d => d.extent
  | moduleVar d => d.extent
  | const d => d.extent
  | type d => d.extent
  | listener d => d.extent
  | annotationDecl d => d.extent

/-! ### Modules -/

def Import.extent (i : Import) : Extent :=
  node i.span (i.org.toList.map Ident.extent ++ i.path.map Ident.extent
    ++ i.rename.toList.map Ident.extent)

/-- The extents of the imports and the members of a module. -/
def Module.extents (m : Module) : List Extent :=
  m.imports.map Import.extent ++ m.members.map Member.extent

end Durable
