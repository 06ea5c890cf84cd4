/-
What kinds of nodes stand where in an outline.

Annotations, types and expressions hold nothing that declares a name or runs: all nodes below
them are plain.  What else an outline has of structure is that every statement has the parts
that belong to it.  Walks that look for declarations or statements need no more than these two
facts about trees, and neither depends on what a walk is looking for.
-/
import Durable.Tree.Outline

namespace Durable

/-- A node of an annotation, a type or an expression. -/
def Node.isPlain : Node → Bool
  | .annotationTag _ | .type _ | .expr _ | .arg _ | .field _ | .ref _ => true
  | _ => false

namespace Outline

mutual

/-- Only annotations, types and expressions stand in an outline. -/
def Plain : Outline → Prop
  | .mk n parts => n.isPlain = true ∧ PlainAll parts

/-- Only annotations, types and expressions stand in some outlines. -/
def PlainAll : List Outline → Prop
  | [] => True
  | o :: os => o.Plain ∧ PlainAll os

end

@[simp] theorem plainAll_nil : PlainAll [] := trivial

@[simp] theorem plainAll_cons (o : Outline) (os : List Outline) :
    PlainAll (o :: os) ↔ o.Plain ∧ PlainAll os := Iff.rfl

theorem plain_mk (n : Node) (parts : List Outline) :
    (Outline.mk n parts).Plain ↔ n.isPlain = true ∧ PlainAll parts := Iff.rfl

theorem plainAll_iff (os : List Outline) : PlainAll os ↔ ∀ o ∈ os, o.Plain := by
  induction os with
  | nil => simp
  | cons o os ih => simp [ih]

@[simp] theorem plainAll_append (os os' : List Outline) :
    PlainAll (os ++ os') ↔ PlainAll os ∧ PlainAll os' := by
  simp only [plainAll_iff, List.mem_append]
  grind

end Outline

open Outline

/-! ### Types and expressions -/

mutual

theorem TypeDesc.parts_plain : ∀ t : TypeDesc, PlainAll t.parts
  | .builtin _ _ | .nil _ | .inferred _ | .named _ | .anyFunction _ | .singleton _ _
  | .future none _ => by simp [TypeDesc.parts]
  | .optional t _ | .array t _ | .map t _ | .paren t _ | .future (some t) _
  | .stream t none _ => by
    simpa [TypeDesc.parts, plain_mk, Node.isPlain] using t.parts_plain
  | .union ts _ | .intersection ts _ => by
    simpa [TypeDesc.parts] using typeOutlines_plain ts
  | .stream item (some done) _ => by
    simpa [TypeDesc.parts, plain_mk, Node.isPlain] using And.intro item.parts_plain done.parts_plain
  | .function params rest returns _ => by
    have hparams := typeOutlines_plain params
    cases rest with
    | none => cases returns with
      | none => simpa [TypeDesc.parts] using hparams
      | some t => simpa [TypeDesc.parts, plain_mk, Node.isPlain] using And.intro hparams t.parts_plain
    | some u => cases returns with
      | none => simpa [TypeDesc.parts, plain_mk, Node.isPlain] using And.intro hparams u.parts_plain
      | some t =>
        simpa [TypeDesc.parts, plain_mk, Node.isPlain, and_assoc]
          using And.intro hparams (And.intro u.parts_plain t.parts_plain)
  | .record _ fields rest _ => by
    have hfields := recordFieldOutlines_plain fields
    cases rest with
    | none => simpa [TypeDesc.parts] using hfields
    | some t => simpa [TypeDesc.parts, plain_mk, Node.isPlain] using And.intro hfields t.parts_plain

theorem typeOutlines_plain : ∀ ts : List TypeDesc, PlainAll (typeOutlines ts)
  | [] => by simp [typeOutlines]
  | t :: ts => by
    simpa [typeOutlines, plain_mk, Node.isPlain] using And.intro t.parts_plain (typeOutlines_plain ts)

theorem recordFieldOutlines_plain : ∀ fs : List RecordField, PlainAll (recordFieldOutlines fs)
  | [] => by simp [recordFieldOutlines]
  | .mk _ t _ _ none _ :: fs => by
    simpa [recordFieldOutlines, plain_mk, Node.isPlain]
      using And.intro t.parts_plain (recordFieldOutlines_plain fs)
  | .mk _ t _ _ (some e) _ :: fs => by
    simpa [recordFieldOutlines, plain_mk, Node.isPlain]
      using And.intro t.parts_plain (And.intro e.parts_plain (recordFieldOutlines_plain fs))

theorem Expr.parts_plain : ∀ e : Expr, PlainAll e.parts
  | .literal _ _ | .required _ => by simp [Expr.parts]
  | .name r => by simp [Expr.parts, NameRef.outline, plain_mk, Node.isPlain]
  | .call callee args _ => by
    simpa [Expr.parts, NameRef.outline, plain_mk, Node.isPlain] using argOutlines_plain args
  | .methodCall e _ args _ | .remoteCall e _ args _ => by
    simpa [Expr.parts, plain_mk, Node.isPlain] using And.intro e.parts_plain (argOutlines_plain args)
  | .field e _ _ | .unary _ e _ | .paren e _ => by simpa [Expr.parts, plain_mk, Node.isPlain] using e.parts_plain
  | .index e f _ | .binary _ e f _ => by
    simpa [Expr.parts, plain_mk, Node.isPlain] using And.intro e.parts_plain f.parts_plain
  | .mapping fields _ => by simpa [Expr.parts] using fieldOutlines_plain fields
  | .list items _ => by simpa [Expr.parts] using exprOutlines_plain items
  | .typeTest e t _ => by
    simpa [Expr.parts, plain_mk, Node.isPlain] using And.intro e.parts_plain t.parts_plain
  | .cast t e _ => by
    simpa [Expr.parts, plain_mk, Node.isPlain] using And.intro t.parts_plain e.parts_plain
  | .conditional e f g _ => by
    simpa [Expr.parts, plain_mk, Node.isPlain]
      using And.intro e.parts_plain (And.intro f.parts_plain g.parts_plain)
  | .construct none args _ => by simpa [Expr.parts] using argOutlines_plain args
  | .construct (some t) args _ => by
    simpa [Expr.parts, plain_mk, Node.isPlain] using And.intro t.parts_plain (argOutlines_plain args)

theorem exprOutlines_plain : ∀ es : List Expr, PlainAll (exprOutlines es)
  | [] => by simp [exprOutlines]
  | e :: es => by
    simpa [exprOutlines, plain_mk, Node.isPlain] using And.intro e.parts_plain (exprOutlines_plain es)

theorem argOutlines_plain : ∀ as : List Arg, PlainAll (argOutlines as)
  | [] => by simp [argOutlines]
  | .positional e :: as | .named _ e :: as | .rest e :: as => by
    simpa [argOutlines, plain_mk, Node.isPlain] using And.intro e.parts_plain (argOutlines_plain as)

theorem fieldOutlines_plain : ∀ fs : List MappingField, PlainAll (fieldOutlines fs)
  | [] => by simp [fieldOutlines]
  | .word _ e :: fs | .string _ _ e :: fs | .spread e :: fs => by
    simpa [fieldOutlines, plain_mk, Node.isPlain] using And.intro e.parts_plain (fieldOutlines_plain fs)
  | .computed k e :: fs => by
    simpa [fieldOutlines, plain_mk, Node.isPlain, and_assoc]
      using And.intro k.parts_plain (And.intro e.parts_plain (fieldOutlines_plain fs))
  | .shorthand r :: fs => by
    simpa [fieldOutlines, NameRef.outline, plain_mk, Node.isPlain] using fieldOutlines_plain fs

end

theorem TypeDesc.outline_plain (t : TypeDesc) : t.outline.Plain := by
  simpa [TypeDesc.outline, plain_mk, Node.isPlain] using t.parts_plain

theorem Expr.outline_plain (e : Expr) : e.outline.Plain := by
  simpa [Expr.outline, plain_mk, Node.isPlain] using e.parts_plain

theorem optionalExpr_plain (e : Option Expr) : PlainAll (optionalExpr e) := by
  cases e <;> simp [optionalExpr, Expr.outline_plain]

theorem optionalType_plain (t : Option TypeDesc) : PlainAll (optionalType t) := by
  cases t <;> simp [optionalType, TypeDesc.outline_plain]

theorem Annotation.outline_plain (a : Annotation) : a.outline.Plain := by
  simpa [plain_mk, Node.isPlain, Annotation.outline] using optionalExpr_plain a.value

theorem annotations_plain (as : List Annotation) : PlainAll (as.map Annotation.outline) := by
  simp [plainAll_iff, Annotation.outline_plain]


/-! ### Statements -/

namespace Outline

mutual

/-- Every statement in an outline has the parts that belong to it, and nothing but annotations,
types and expressions stands in the declaration of a local variable. -/
def Shaped : Outline → Prop
  | .mk n parts =>
    (∀ s, n = .stmt s → parts = s.parts) ∧ (∀ d, n = .localVar d → PlainAll parts)
      ∧ ShapedAll parts

/-- The same of some outlines. -/
def ShapedAll : List Outline → Prop
  | [] => True
  | o :: os => o.Shaped ∧ ShapedAll os

end

@[simp] theorem shapedAll_nil : ShapedAll [] := trivial

@[simp] theorem shapedAll_cons (o : Outline) (os : List Outline) :
    ShapedAll (o :: os) ↔ o.Shaped ∧ ShapedAll os := Iff.rfl

theorem shaped_mk (n : Node) (parts : List Outline) :
    (Outline.mk n parts).Shaped ↔ (∀ s, n = .stmt s → parts = s.parts) ∧
      (∀ d, n = .localVar d → PlainAll parts) ∧ ShapedAll parts := Iff.rfl

theorem shapedAll_iff (os : List Outline) : ShapedAll os ↔ ∀ o ∈ os, o.Shaped := by
  induction os with
  | nil => simp
  | cons o os ih => simp [ih]

@[simp] theorem shapedAll_append (os os' : List Outline) :
    ShapedAll (os ++ os') ↔ ShapedAll os ∧ ShapedAll os' := by
  simp only [shapedAll_iff, List.mem_append]
  grind

mutual

theorem Plain.shaped : ∀ {o : Outline}, o.Plain → o.Shaped
  | .mk n parts, h => by
    refine ⟨fun s hs => ?_, fun d hd => h.2, PlainAll.shaped h.2⟩
    rw [hs] at h
    exact absurd h.1 (by simp [Node.isPlain])

theorem PlainAll.shaped : ∀ {os : List Outline}, PlainAll os → ShapedAll os
  | [], _ => trivial
  | _ :: _, h => ⟨h.1.shaped, PlainAll.shaped h.2⟩

end

end Outline

theorem TypeDesc.outline_shaped (t : TypeDesc) : t.outline.Shaped := t.outline_plain.shaped

theorem Expr.outline_shaped (e : Expr) : e.outline.Shaped := e.outline_plain.shaped

theorem optionalExpr_shaped (e : Option Expr) : ShapedAll (optionalExpr e) :=
  (optionalExpr_plain e).shaped

theorem optionalType_shaped (t : Option TypeDesc) : ShapedAll (optionalType t) :=
  (optionalType_plain t).shaped

theorem annotations_shaped (as : List Annotation) : ShapedAll (as.map Annotation.outline) :=
  (annotations_plain as).shaped

theorem LocalVar.outline_shaped (d : LocalVar) : d.outline.Shaped := by
  have hparts : PlainAll (d.annotations.map Annotation.outline ++ d.type.outline
      :: optionalExpr d.init) := by
    simp [annotations_plain, TypeDesc.outline_plain, optionalExpr_plain]
  exact ⟨fun s hs => by simp at hs, fun _ _ => hparts, hparts.shaped⟩

mutual

theorem Stmt.parts_shaped : ∀ s : Stmt, ShapedAll s.parts
  | .localVar d _ => by simp [Stmt.parts, LocalVar.outline_shaped]
  | .assign e _ f _ => by simp [Stmt.parts, Expr.outline_shaped]
  | .expr e _ | .panic e _ | .fail e _ | .giveBack (some e) _ => by
    simp [Stmt.parts, Expr.outline_shaped]
  | .lock b _ | .block b _ | .attempt b _ => by simpa [Stmt.parts, shaped_mk] using b.parts_shaped
  | .ifElse e b none _ | .whileLoop e b _ => by
    simpa [Stmt.parts, shaped_mk, Expr.outline_shaped] using b.parts_shaped
  | .ifElse e b (some s) _ => by
    simpa [Stmt.parts, shaped_mk, Expr.outline_shaped] using And.intro b.parts_shaped s.parts_shaped
  | .foreach t _ e b _ => by
    simpa [Stmt.parts, shaped_mk, TypeDesc.outline_shaped, Expr.outline_shaped]
      using b.parts_shaped
  | .attemptOnFail b t _ h _ => by
    simpa [Stmt.parts, shaped_mk, TypeDesc.outline_shaped]
      using And.intro b.parts_shaped h.parts_shaped
  | .giveBack none _ | .leave _ | .again _ => by simp [Stmt.parts]

theorem Block.parts_shaped : ∀ b : Block, ShapedAll b.parts
  | .mk ss _ => by simpa [Block.parts] using stmtOutlines_shaped ss

theorem stmtOutlines_shaped : ∀ ss : List Stmt, ShapedAll (stmtOutlines ss)
  | [] => by simp [stmtOutlines]
  | s :: ss => by
    simpa [stmtOutlines, shaped_mk] using And.intro s.parts_shaped (stmtOutlines_shaped ss)

end

theorem Param.outline_shaped (p : Param) : p.outline.Shaped := by
  simp [Param.outline, shaped_mk, annotations_shaped, TypeDesc.outline_shaped, optionalExpr_shaped]

theorem Function.outline_shaped (f : Function) : f.outline.Shaped := by
  have hparams : ShapedAll (f.params.map Param.outline) := by
    simp [shapedAll_iff, Param.outline_shaped]
  simp [Function.outline, shaped_mk, annotations_shaped, hparams, optionalType_shaped,
    Block.outline, Block.parts_shaped]

theorem VarDecl.parts_shaped (v : VarDecl) : ShapedAll v.parts := by
  simp [VarDecl.parts, annotations_shaped, TypeDesc.outline_shaped, optionalExpr_shaped]

theorem ValueDecl.parts_shaped (d : ValueDecl) : ShapedAll d.parts := by
  simp [ValueDecl.parts, annotations_shaped, optionalType_shaped, Expr.outline_shaped]

theorem Service.outline_shaped (s : Service) : s.outline.Shaped := by
  have hlisteners : ShapedAll (s.listeners.map Expr.outline) := by
    simp [shapedAll_iff, Expr.outline_shaped]
  have hmembers : ShapedAll (s.members.flatMap ServiceMember.outlines) := by
    rw [shapedAll_iff]
    intro o ho
    obtain ⟨m, -, ho⟩ := List.mem_flatMap.mp ho
    cases m with
    | method f => rw [List.mem_singleton.mp ho]; exact f.outline_shaped
    | field v => exact (shapedAll_iff _).mp v.parts_shaped o ho
  simp [Service.outline, shaped_mk, annotations_shaped, optionalType_shaped, hlisteners, hmembers]

theorem Member.outline_shaped (m : Member) : m.outline.Shaped := by
  cases m <;> simp [Member.outline, shaped_mk, Function.outline_shaped, Service.outline_shaped,
    VarDecl.parts_shaped, ValueDecl.parts_shaped, annotations_shaped, TypeDesc.outline_shaped,
    optionalType_shaped]

/-- Every statement in a module has the parts that belong to it. -/
theorem Module.outline_shaped (m : Module) : m.outline.Shaped := by
  simp [Module.outline, shaped_mk, shapedAll_iff, Member.outline_shaped]


/-! ### Initial values -/

/-- The initial value of a local variable. -/
def Node.init? : Node → Option Expr
  | .localVar d => d.init
  | _ => none

/-- The initial values of the local variables in some outlines, in reading order. -/
def initsOf (os : List Outline) : List Expr := (Outline.nodesOfAll os).filterMap Node.init?

@[simp] theorem initsOf_nil : initsOf [] = [] := rfl

@[simp] theorem initsOf_cons (n : Node) (ps os : List Outline) :
    initsOf (.mk n ps :: os) = n.init?.toList ++ initsOf ps ++ initsOf os := by
  cases h : n.init? <;>
    simp [initsOf, Outline.nodesOfAll, Outline.nodes, h]

@[simp] theorem initsOf_append (os os' : List Outline) :
    initsOf (os ++ os') = initsOf os ++ initsOf os' := by
  induction os with
  | nil => rfl
  | cons o os ih =>
    obtain ⟨n, ps⟩ := o
    simp [ih]

theorem initsOf_flatMap {α : Type} (f : α → List Outline) (as : List α) :
    initsOf (as.flatMap f) = as.flatMap fun a => initsOf (f a) := by
  induction as with
  | nil => rfl
  | cons a as ih => simp [ih]

mutual

theorem Outline.Plain.initsOf_eq : ∀ {o : Outline}, o.Plain → initsOf [o] = []
  | .mk n parts, h => by
    have hn : n.init? = none := by
      cases n with
      | localVar d => exact absurd h.1 (by simp [Node.isPlain])
      | _ => rfl
    simp [hn, PlainAll.initsOf_eq h.2]

theorem Outline.PlainAll.initsOf_eq : ∀ {os : List Outline}, PlainAll os → initsOf os = []
  | [], _ => rfl
  | .mk n parts :: os, h => by
    have hfirst := Plain.initsOf_eq h.1
    have hothers := PlainAll.initsOf_eq h.2
    rw [← List.singleton_append, initsOf_append, hfirst, hothers]
    rfl

end

@[simp] theorem initsOf_expr (e : Expr) : initsOf e.parts = [] := e.parts_plain.initsOf_eq

@[simp] theorem initsOf_type (t : TypeDesc) : initsOf t.parts = [] := t.parts_plain.initsOf_eq

@[simp] theorem initsOf_annotations (as : List Annotation) :
    initsOf (as.map Annotation.outline) = [] := (annotations_plain as).initsOf_eq

@[simp] theorem initsOf_optionalExpr (e : Option Expr) : initsOf (optionalExpr e) = [] :=
  (optionalExpr_plain e).initsOf_eq

@[simp] theorem initsOf_optionalType (t : Option TypeDesc) : initsOf (optionalType t) = [] :=
  (optionalType_plain t).initsOf_eq

theorem LocalVar.initsOf_eq (d : LocalVar) : initsOf [d.outline] = d.init.toList := by
  simp [LocalVar.outline, TypeDesc.outline, Node.init?]

end Durable
