/-
Editing a tree meets the expressions that reading it meets.

A walk over an outline that passes over annotations and types meets the other expressions in
reading order: the expressions at all positions outside of annotations and types, each once
(`Node.exists_enumerates_exprs`).  Editing goes through a tree by recursions of its own, one for each kind of node, and
what they have to agree on is order: every recursion is shown to be a visit of the expressions that
the walk collects, followed by a result that does not depend on what the visits do
(`Module.editM_eq`).  That the two go side by side is checked once for every form of the syntax;
`visited_bind` is what puts the pieces together.
-/
import Mathlib.Data.List.Basic
import Durable.Proofs.Tree.Positions
import Durable.Tree.Edit

namespace Durable

/-! ### Reading -/

/-- Annotations and types are passed over. -/
def Node.isPassedOver : Node → Bool
  | .annotationTag _ | .type _ => true
  | _ => false

/-- What a walk collects that passes over annotations and types: expressions. -/
def Node.enterExprs (_ : Unit) (n : Node) : List Expr × Option Unit :=
  (match n with | .expr e => [e] | _ => [], if n.isPassedOver then none else some ())

namespace Outline

/-- The expressions of an outline that are not part of annotations and types. -/
def exprs (o : Outline) : List Expr := o.walk Node.enterExprs ()

/-- Those of several outlines. -/
def exprsOfAll (os : List Outline) : List Expr := walkAll Node.enterExprs () os

@[simp] theorem exprsOfAll_nil : exprsOfAll [] = [] := rfl

@[simp] theorem exprsOfAll_cons (o : Outline) (os : List Outline) :
    exprsOfAll (o :: os) = o.exprs ++ exprsOfAll os := rfl

@[simp] theorem exprsOfAll_append (os os' : List Outline) :
    exprsOfAll (os ++ os') = exprsOfAll os ++ exprsOfAll os' := by
  induction os with
  | nil => rfl
  | cons o os ih => simp [ih]

theorem exprsOfAll_flatMap {α : Type} (as : List α) (g : α → List Outline) :
    exprsOfAll (as.flatMap g) = as.flatMap fun a => exprsOfAll (g a) := by
  induction as with
  | nil => rfl
  | cons a as ih => simp [ih]

theorem exprsOfAll_map {α : Type} (as : List α) (g : α → Outline) :
    exprsOfAll (as.map g) = as.flatMap fun a => (g a).exprs := by
  induction as with
  | nil => rfl
  | cons a as ih => simp [ih]

end Outline

/-! ### Where the expressions stand -/

/-- An annotation or a type is on the way to a position inside a node. -/
def Node.PassesOver (n : Node) (path : List Nat) : Prop :=
  ∃ k, k.isPassedOver = true ∧ n.Around path k

theorem Node.not_passesOver_nil (n : Node) : ¬ n.PassesOver [] :=
  fun ⟨k, _, haround⟩ => n.not_around_nil k haround

theorem Node.passesOver_cons {n c : Node} {i : Nat} {path : List Nat}
    (hc : n.children[i]? = some c) :
    n.PassesOver (i :: path) ↔ n.isPassedOver = true ∨ c.PassesOver path := by
  simp [PassesOver, around_cons hc, and_or_left, exists_or]

/-- The walk as one that goes on everywhere, and is told whether it is inside of what is passed
over. -/
def Node.noteExprs (passed : Bool) (n : Node) : List Expr × Option Bool :=
  (if passed then [] else (enterExprs () n).1, some (passed || n.isPassedOver))

namespace Outline

mutual

theorem walk_passed : ∀ o : Outline, o.walk Node.noteExprs true = []
  | .mk n parts => by simp [walk, Node.noteExprs, walkAll_passed parts]

theorem walkAll_passed : ∀ os : List Outline, walkAll Node.noteExprs true os = []
  | [] => rfl
  | o :: os => by rw [walkAll, walk_passed o, walkAll_passed os, List.append_nil]

end

mutual

theorem exprs_eq_walk : ∀ o : Outline, o.exprs = o.walk Node.noteExprs false
  | .mk n parts => by
    have hinside := exprsOfAll_eq_walkAll parts
    rw [exprsOfAll] at hinside
    cases h : n.isPassedOver with
    | false => simp [exprs, walk, Node.noteExprs, Node.enterExprs, h, hinside]
    | true => simp [exprs, walk, Node.noteExprs, Node.enterExprs, h, walkAll_passed]

theorem exprsOfAll_eq_walkAll : ∀ os : List Outline,
    exprsOfAll os = walkAll Node.noteExprs false os
  | [] => rfl
  | o :: os => by rw [exprsOfAll_cons, walkAll, exprs_eq_walk o, exprsOfAll_eq_walkAll os]

end

end Outline

theorem Node.passed_circumstances {n k : Node} {path : List Nat} (around : Bool)
    (h : n.at? path = some k) :
    n.circumstances (fun passed n => passed || n.isPassedOver) around path = true ↔
      around = true ∨ n.PassesOver path := by
  induction path generalizing n around with
  | nil => simp [Node.circumstances, n.not_passesOver_nil]
  | cons i path ih =>
    obtain ⟨c, hc, hk⟩ := at?_cons.mp h
    rw [circumstances, hc, passesOver_cons hc, ← or_assoc, ← Bool.or_eq_true]
    exact ih _ hk

/-- **The expressions that the walk collects** are those at the positions that no annotation or type
is on the way to, each position once and in order. -/
theorem Node.exists_enumerates_exprs (n : Node) : ∃ found,
    Enumerates (fun path e => n.at? path = some (.expr e) ∧ ¬ n.PassesOver path) found ∧
      n.outline.exprs = found.map (·.2) := by
  classical
  obtain ⟨found, hfound, hreport⟩ := n.exists_enumerates
    (fun path k => match k with
      | .expr e => if n.PassesOver path then none else some e
      | _ => none)
    fun e => [e]
  refine ⟨found, hfound.congr fun path e => ?_, ?_⟩
  · constructor
    · rintro ⟨k, hk, h⟩
      cases k with
      | expr e' =>
        obtain ⟨hout, rfl⟩ : ¬ n.PassesOver path ∧ e' = e := by simpa using h
        exact ⟨hk, hout⟩
      | _ => simp at h
    · rintro ⟨hk, hout⟩
      exact ⟨.expr e, hk, by simp [hout]⟩
  · have hnote : ∀ (passed : Bool) (k : Node), noteExprs passed k
        = (if passed then [] else (enterExprs () k).1, some (passed || k.isPassedOver)) :=
      fun _ _ => rfl
    have hwalk := Outline.walk_eq_flatMap hnote n.outline n false rfl
    rw [Outline.exprs_eq_walk, hwalk]
    refine Eq.trans ?_ (hreport.trans (List.flatMap_pure_eq_map Prod.snd found))
    refine List.flatMap_congr fun x hx => ?_
    have hpassed := n.passed_circumstances false (mem_positions.mp hx)
    by_cases hin : n.PassesOver x.1
    · rw [if_pos (hpassed.mpr (.inr hin))]
      cases x.2 <;> simp [hin]
    · rw [if_neg fun h => hin ((hpassed.mp h).resolve_left Bool.false_ne_true)]
      cases x.2 <;> simp [hin, enterExprs]

open Outline

@[simp] theorem Expr.exprs_mk (e : Expr) (parts : List Outline) :
    (Outline.mk (.expr e) parts).exprs = e :: exprsOfAll parts := rfl

/-- Of other nodes only the parts count. -/
theorem Outline.exprs_mk {n : Node} (h : Node.enterExprs () n = ([], some ()))
    (parts : List Outline) : (Outline.mk n parts).exprs = exprsOfAll parts := by
  rw [exprs, walk, h]
  rfl

@[simp] theorem Arg.exprs_mk (a : Arg) (parts : List Outline) :
    (Outline.mk (.arg a) parts).exprs = exprsOfAll parts := Outline.exprs_mk rfl parts

@[simp] theorem MappingField.exprs_mk (field : MappingField) (parts : List Outline) :
    (Outline.mk (.field field) parts).exprs = exprsOfAll parts := Outline.exprs_mk rfl parts

@[simp] theorem Stmt.exprs_mk (s : Stmt) (parts : List Outline) :
    (Outline.mk (.stmt s) parts).exprs = exprsOfAll parts := Outline.exprs_mk rfl parts

@[simp] theorem Block.exprs_mk (b : Block) (parts : List Outline) :
    (Outline.mk (.block b) parts).exprs = exprsOfAll parts := Outline.exprs_mk rfl parts

@[simp] theorem TypeDesc.exprs_mk (t : TypeDesc) (parts : List Outline) :
    (Outline.mk (.type t) parts).exprs = [] := rfl

@[simp] theorem Annotation.exprsOfAll_outline (annotations : List Annotation) :
    exprsOfAll (annotations.map Annotation.outline) = [] := by
  rw [exprsOfAll_map]
  exact List.flatMap_eq_nil_iff.mpr fun _ _ => rfl

@[simp] theorem exprsOfAll_optionalType (t : Option TypeDesc) :
    exprsOfAll (optionalType t) = [] := by
  cases t <;> rfl

/-! ### Editing without effects -/

section

variable (f : Expr → Expr)

/-- The expression with everything in it edited by a function. -/
def Expr.edited (e : Expr) : Expr := e.editM (m := Id) (fun _ => pure ()) f

def LocalVar.edited (d : LocalVar) : LocalVar := d.editM (m := Id) (fun _ => pure ()) f

def Stmt.edited (s : Stmt) : Stmt := s.editInside (m := Id) (fun _ => pure ()) f

def Block.edited (b : Block) : Block := b.editInside (m := Id) (fun _ => pure ()) f

def Param.edited (p : Param) : Param := p.editM (m := Id) (fun _ => pure ()) f

def Function.edited (g : Function) : Function := g.editM (m := Id) (fun _ => pure ()) f

def VarDecl.edited (v : VarDecl) : VarDecl := v.editM (m := Id) (fun _ => pure ()) f

def ValueDecl.edited (d : ValueDecl) : ValueDecl := d.editM (m := Id) (fun _ => pure ()) f

def ServiceMember.edited (x : ServiceMember) : ServiceMember :=
  x.editM (m := Id) (fun _ => pure ()) f

def Service.edited (s : Service) : Service := s.editM (m := Id) (fun _ => pure ()) f

def Member.edited (x : Member) : Member := x.editM (m := Id) (fun _ => pure ()) f

def Module.edited (d : Module) : Module := d.editM (m := Id) (fun _ => pure ()) f

end

/-- The operands whose places in a mapping field are given new values. -/
def MappingField.operands : MappingField → List Expr
  | .word _ e | .string _ _ e | .spread e => [e]
  | .computed key e => [key, e]
  | .shorthand _ => []

/-- The operands of an expression in reading order. -/
def Expr.operands : Expr → List Expr
  | .literal _ _ | .name _ | .required _ => []
  | .call _ args _ | .construct _ args _ => args.map Arg.value
  | .methodCall receiver _ args _ | .remoteCall receiver _ args _ => receiver :: args.map Arg.value
  | .mapping fields _ => fields.flatMap MappingField.operands
  | .list items _ => items
  | .field e _ _ | .unary _ e _ | .cast _ e _ | .typeTest e _ _ | .paren e _ => [e]
  | .index e f _ | .binary _ e f _ => [e, f]
  | .conditional e f g _ => [e, f, g]

section

variable (f : Expr → Expr)

theorem editArgs_id (args : List Arg) :
    editArgs (m := Id) (fun _ => pure ()) f args = (args.map Arg.value).map (Expr.edited f) := by
  induction args with
  | nil => rfl
  | cons a args ih => cases a <;> exact congrArg (_ :: ·) ih

theorem editExprs_id (es : List Expr) :
    editExprs (m := Id) (fun _ => pure ()) f es = es.map (Expr.edited f) := by
  induction es with
  | nil => rfl
  | cons e es ih => exact congrArg (_ :: ·) ih

theorem editFields_id (fields : List MappingField) :
    editFields (m := Id) (fun _ => pure ()) f fields =
      (fields.flatMap MappingField.operands).map (Expr.edited f) := by
  induction fields with
  | nil => rfl
  | cons field fields ih =>
    cases field with
    | shorthand r => exact ih
    | computed key e => exact congrArg (_ :: _ :: ·) ih
    | word | string | spread => exact congrArg (_ :: ·) ih

/-- An edited expression is over the operands it had, edited in turn. -/
theorem Expr.edited_eq (e : Expr) :
    e.edited f = (f e).withOperands (e.operands.map (Expr.edited f)) := by
  refine congrArg (f e).withOperands ?_
  cases e with
  | call callee args => exact editArgs_id f args
  | construct type args => exact editArgs_id f args
  | methodCall receiver method args => exact congrArg (_ :: ·) (editArgs_id f args)
  | remoteCall receiver method args => exact congrArg (_ :: ·) (editArgs_id f args)
  | mapping fields => exact editFields_id f fields
  | list items => exact editExprs_id f items
  | literal | name | required | field | unary | cast | typeTest | paren => rfl
  | index | binary | conditional => rfl

theorem editOptional_id (e : Option Expr) :
    editOptional (m := Id) (fun _ => pure ()) f e = e.map (Expr.edited f) := by
  cases e <;> rfl

theorem LocalVar.edited_eq (d : LocalVar) :
    d.edited f = { d with init := d.init.map (Expr.edited f) } :=
  congrArg (fun init => { d with init }) (editOptional_id f d.init)

theorem Param.edited_eq (p : Param) :
    p.edited f = { p with default := p.default.map (Expr.edited f) } :=
  congrArg (fun default => { p with default }) (editOptional_id f p.default)

theorem VarDecl.edited_eq (v : VarDecl) :
    v.edited f = { v with init := v.init.map (Expr.edited f) } :=
  congrArg (fun init => { v with init }) (editOptional_id f v.init)

theorem ValueDecl.edited_eq (d : ValueDecl) :
    d.edited f = { d with value := d.value.edited f } := rfl

theorem editStmts_id (ss : List Stmt) :
    editStmts (m := Id) (fun _ => pure ()) f ss = ss.map (Stmt.edited f) := by
  induction ss with
  | nil => rfl
  | cons s ss ih => exact congrArg (_ :: ·) ih

theorem Block.edited_eq (b : Block) : b.edited f = .mk (b.stmts.map (Stmt.edited f)) b.span := by
  obtain ⟨ss, span⟩ := b
  exact congrArg (Block.mk · span) (editStmts_id f ss)

theorem Function.edited_eq (g : Function) :
    g.edited f = { g with params := g.params.map (Param.edited f), body := g.body.edited f } :=
  congrArg (fun params => { g with params, body := g.body.edited f })
    (List.mapM_pure (m := Id) (l := g.params) (f := Param.edited f))

theorem Service.edited_eq (s : Service) :
    s.edited f = { s with listeners := s.listeners.map (Expr.edited f),
                          members := s.members.map (ServiceMember.edited f) } := by
  have hlisteners : s.listeners.mapM (m := Id) (Expr.edited f) = s.listeners.map (Expr.edited f) :=
    List.mapM_pure
  have hmembers : s.members.mapM (m := Id) (ServiceMember.edited f) =
      s.members.map (ServiceMember.edited f) := List.mapM_pure
  rw [← hlisteners, ← hmembers]
  rfl

theorem Module.edited_eq (d : Module) :
    d.edited f = { d with members := d.members.map (Member.edited f) } :=
  congrArg (fun members => { d with members })
    (List.mapM_pure (m := Id) (l := d.members) (f := Member.edited f))

end

/-! ### Visits -/

section

variable {m : Type → Type} [Monad m] (visit : Expr → m Unit)

/-- A visit of expressions, one after another, that comes to a result. -/
def visited {α : Type} (es : List Expr) (a : α) : m α := do
  es.forM visit
  pure a

variable [LawfulMonad m] {visit} {α β : Type}

/-- A result that is given at once is a visit of nothing. -/
theorem pure_eq_visited (a : α) : (pure a : m α) = visited visit [] a := by
  simp [visited]

/-- A visit of things in order visits what is in them in order. -/
theorem mapM_eq_visited {as : List α} {g : α → m β} {inside : α → List Expr} {h : α → β}
    (hg : ∀ a ∈ as, g a = visited visit (inside a) (h a)) :
    as.mapM g = visited visit (as.flatMap inside) (as.map h) := by
  induction as with
  | nil => simp [visited]
  | cons a as ih =>
    rw [List.mapM_cons, hg a (by simp), ih fun b hb => hg b (by simp [hb])]
    simp [visited]

/-! ### Editing is a visit -/

variable (visit) (f : Expr → Expr)

/-- Visiting the operands of an expression goes before visiting the expression. -/
theorem Expr.editOver_eq {e : Expr}
    (h : e.editOperands (fun _ => pure ()) (fun e => do visit e; pure (f e)) =
      visited visit (exprsOfAll e.parts) (e.operands.map (Expr.edited f))) :
    e.editOver (fun _ => pure ()) (fun e => do visit e; pure (f e))
        (e.editOperands (fun _ => pure ()) fun e => do visit e; pure (f e)) =
      visited visit e.outline.exprs (e.edited f) := by
  rw [Expr.editOver, h, Expr.edited_eq, Expr.outline, Expr.exprs_mk]
  simp [visited]

mutual

theorem Expr.editOperands_eq : ∀ e : Expr,
    e.editOperands (fun _ => pure ()) (fun e => do visit e; pure (f e)) =
      visited visit (exprsOfAll e.parts) (e.operands.map (Expr.edited f))
  | .literal _ _ | .name _ | .required _ => pure_eq_visited _
  | .call _ args _ => editArgs_eq args
  | .construct none args _ => editArgs_eq args
  | .construct (some t) args _ => editArgs_eq args
  | .methodCall receiver _ args _ | .remoteCall receiver _ args _ => by
    rw [Expr.editOperands, Expr.editOver_eq visit f (Expr.editOperands_eq receiver),
      editArgs_eq args]
    simp [visited, Expr.parts, Expr.operands, Expr.outline]
  | .mapping fields _ => editFields_eq fields
  | .list items _ => editExprs_eq items
  | .field e _ _ | .unary _ e _ | .cast _ e _ | .typeTest e _ _ | .paren e _ => by
    rw [Expr.editOperands, Expr.editOver_eq visit f (Expr.editOperands_eq e)]
    simp [visited, Expr.parts, Expr.operands, Expr.outline]
  | .index e g _ | .binary _ e g _ => by
    rw [Expr.editOperands, Expr.editOver_eq visit f (Expr.editOperands_eq e),
      Expr.editOver_eq visit f (Expr.editOperands_eq g)]
    simp [visited, Expr.parts, Expr.operands, Expr.outline]
  | .conditional e g h _ => by
    rw [Expr.editOperands, Expr.editOver_eq visit f (Expr.editOperands_eq e),
      Expr.editOver_eq visit f (Expr.editOperands_eq g),
      Expr.editOver_eq visit f (Expr.editOperands_eq h)]
    simp [visited, Expr.parts, Expr.operands, Expr.outline]

theorem editExprs_eq : ∀ es : List Expr,
    editExprs (fun _ => pure ()) (fun e => do visit e; pure (f e)) es =
      visited visit (exprsOfAll (exprOutlines es)) (es.map (Expr.edited f))
  | [] => pure_eq_visited _
  | e :: es => by
    rw [editExprs, Expr.editOver_eq visit f (Expr.editOperands_eq e), editExprs_eq es]
    simp [visited, exprOutlines, Expr.outline]

theorem editArgs_eq : ∀ args : List Arg,
    editArgs (fun _ => pure ()) (fun e => do visit e; pure (f e)) args =
      visited visit (exprsOfAll (argOutlines args)) ((args.map Arg.value).map (Expr.edited f))
  | [] => pure_eq_visited _
  | .positional e :: args | .named _ e :: args | .rest e :: args => by
    rw [editArgs, Expr.editOver_eq visit f (Expr.editOperands_eq e), editArgs_eq args]
    simp [visited, argOutlines, Arg.value, Expr.outline]

theorem editFields_eq : ∀ fields : List MappingField,
    editFields (fun _ => pure ()) (fun e => do visit e; pure (f e)) fields =
      visited visit (exprsOfAll (fieldOutlines fields))
        ((fields.flatMap MappingField.operands).map (Expr.edited f))
  | [] => pure_eq_visited _
  | .shorthand _ :: fields => editFields_eq fields
  | .computed key e :: fields => by
    rw [editFields, Expr.editOver_eq visit f (Expr.editOperands_eq key),
      Expr.editOver_eq visit f (Expr.editOperands_eq e), editFields_eq fields]
    simp [visited, fieldOutlines, MappingField.operands, Expr.outline]
  | .word _ e :: fields | .string _ _ e :: fields | .spread e :: fields => by
    rw [editFields, Expr.editOver_eq visit f (Expr.editOperands_eq e), editFields_eq fields]
    simp [visited, fieldOutlines, MappingField.operands, Expr.outline]

end

theorem Expr.editM_eq (e : Expr) :
    e.editM (fun _ => pure ()) (fun e => do visit e; pure (f e)) =
      visited visit e.outline.exprs (e.edited f) :=
  Expr.editOver_eq visit f (Expr.editOperands_eq visit f e)

theorem editOptional_eq (e : Option Expr) :
    editOptional (fun _ => pure ()) (fun e => do visit e; pure (f e)) e =
      visited visit (exprsOfAll (optionalExpr e)) (e.map (Expr.edited f)) := by
  cases e with
  | none => exact pure_eq_visited _
  | some e =>
    rw [editOptional, Option.mapM_some, Expr.editM_eq]
    simp [visited, optionalExpr]

theorem LocalVar.editM_eq (d : LocalVar) :
    d.editM (fun _ => pure ()) (fun e => do visit e; pure (f e)) =
      visited visit d.outline.exprs (d.edited f) := by
  have hexprs : d.outline.exprs = exprsOfAll (optionalExpr d.init) := by
    simp [LocalVar.outline, Outline.exprs_mk (n := .localVar d) rfl, TypeDesc.outline]
  rw [LocalVar.editM, pure_bind, editOptional_eq, hexprs, LocalVar.edited_eq]
  simp [visited]

/-- Nobody is told of the statements on the way. -/
theorem Stmt.editOver_pure (s : Stmt) (inside : m Stmt) :
    s.editOver (fun _ => pure ()) inside = inside := by
  rw [Stmt.editOver, pure_bind]

theorem Block.editOver_pure (b : Block) (inside : m Block) :
    b.editOver (fun _ => pure ()) inside = inside := by
  rw [Block.editOver, pure_bind]

mutual

theorem Stmt.editInside_eq : ∀ s : Stmt,
    s.editInside (fun _ => pure ()) (fun e => do visit e; pure (f e)) =
      visited visit (exprsOfAll s.parts) (s.edited f)
  | .localVar d s => by
    rw [Stmt.editInside, LocalVar.editM_eq visit f d]
    show _ = visited visit _ (Stmt.localVar (d.edited f) s)
    simp [visited, Stmt.parts]
  | .assign target op value s => by
    rw [Stmt.editInside, Expr.editM_eq visit f target, Expr.editM_eq visit f value]
    show _ = visited visit _ (Stmt.assign (target.edited f) op (value.edited f) s)
    simp [visited, Stmt.parts]
  | .expr e s => by
    rw [Stmt.editInside, Expr.editM_eq visit f e]
    show _ = visited visit _ (Stmt.expr (e.edited f) s)
    simp [visited, Stmt.parts]
  | .lock body s => by
    rw [Stmt.editInside, Block.editOver_pure, Block.editInside_eq body]
    show _ = visited visit _ (Stmt.lock (body.edited f) s)
    simp [visited, Stmt.parts]
  | .ifElse condition body none s => by
    rw [Stmt.editInside, Expr.editM_eq visit f condition, Block.editOver_pure,
      Block.editInside_eq body]
    show _ = visited visit _ (Stmt.ifElse (condition.edited f) (body.edited f) none s)
    simp [visited, Stmt.parts]
  | .ifElse condition body (some other) s => by
    rw [Stmt.editInside, Expr.editM_eq visit f condition, Block.editOver_pure,
      Block.editInside_eq body,
      Stmt.editOver_pure, Stmt.editInside_eq other]
    show _ = visited visit _
      (Stmt.ifElse (condition.edited f) (body.edited f) (some (other.edited f)) s)
    simp [visited, Stmt.parts]
  | .whileLoop condition body s => by
    rw [Stmt.editInside, Expr.editM_eq visit f condition, Block.editOver_pure,
      Block.editInside_eq body]
    show _ = visited visit _ (Stmt.whileLoop (condition.edited f) (body.edited f) s)
    simp [visited, Stmt.parts]
  | .foreach type name items body s => by
    rw [Stmt.editInside, Expr.editM_eq visit f items, Block.editOver_pure, Block.editInside_eq body]
    show _ = visited visit _ (Stmt.foreach type name (items.edited f) (body.edited f) s)
    simp [visited, Stmt.parts, TypeDesc.outline]
  | .giveBack none s => by
    rw [Stmt.editInside, editOptional_eq visit f]
    show _ = visited visit _ (Stmt.giveBack none s)
    simp [visited, Stmt.parts, optionalExpr]
  | .giveBack (some e) s => by
    rw [Stmt.editInside, editOptional_eq visit f]
    show _ = visited visit _ (Stmt.giveBack (some (e.edited f)) s)
    simp [visited, Stmt.parts, optionalExpr]
  | .attempt body s => by
    rw [Stmt.editInside, Block.editOver_pure, Block.editInside_eq body]
    show _ = visited visit _ (Stmt.attempt (body.edited f) s)
    simp [visited, Stmt.parts]
  | .attemptOnFail body type name handler s => by
    rw [Stmt.editInside, Block.editOver_pure, Block.editInside_eq body, Block.editOver_pure,
      Block.editInside_eq handler]
    show _ = visited visit _ (Stmt.attemptOnFail (body.edited f) type name (handler.edited f) s)
    simp [visited, Stmt.parts, TypeDesc.outline]
  | .block body s => by
    rw [Stmt.editInside, Block.editOver_pure, Block.editInside_eq body]
    show _ = visited visit _ (Stmt.block (body.edited f) s)
    simp [visited, Stmt.parts]
  | .panic e s => by
    rw [Stmt.editInside, Expr.editM_eq visit f e]
    show _ = visited visit _ (Stmt.panic (e.edited f) s)
    simp [visited, Stmt.parts]
  | .fail e s => by
    rw [Stmt.editInside, Expr.editM_eq visit f e]
    show _ = visited visit _ (Stmt.fail (e.edited f) s)
    simp [visited, Stmt.parts]
  | .leave _ | .again _ => pure_eq_visited _

theorem Block.editInside_eq : ∀ b : Block,
    b.editInside (fun _ => pure ()) (fun e => do visit e; pure (f e)) =
      visited visit (exprsOfAll b.parts) (b.edited f)
  | .mk stmts s => by
    rw [Block.editInside, editStmts_eq stmts]
    rw [Block.edited_eq]
    simp [visited, Block.parts, Block.stmts, Block.span]

theorem editStmts_eq : ∀ ss : List Stmt,
    editStmts (fun _ => pure ()) (fun e => do visit e; pure (f e)) ss =
      visited visit (exprsOfAll (stmtOutlines ss)) (ss.map (Stmt.edited f))
  | [] => pure_eq_visited _
  | s :: ss => by
    rw [editStmts, Stmt.editOver_pure, Stmt.editInside_eq s, editStmts_eq ss]
    simp [visited, stmtOutlines]

end

theorem Param.editM_eq (p : Param) :
    p.editM (fun _ => pure ()) (fun e => do visit e; pure (f e)) =
      visited visit p.outline.exprs (p.edited f) := by
  have hexprs : p.outline.exprs = exprsOfAll (optionalExpr p.default) := by
    simp [Param.outline, Outline.exprs_mk (n := .param p) rfl, TypeDesc.outline]
  rw [Param.editM, editOptional_eq, hexprs, Param.edited_eq]
  simp [visited]

theorem Function.editM_eq (g : Function) :
    g.editM (fun _ => pure ()) (fun e => do visit e; pure (f e)) =
      visited visit g.outline.exprs (g.edited f) := by
  have hexprs : g.outline.exprs =
      (g.params.flatMap fun p => p.outline.exprs) ++ exprsOfAll g.body.parts := by
    simp [Function.outline, Outline.exprs_mk (n := .function g) rfl, exprsOfAll_map g.params,
      Block.outline]
  rw [Function.editM, mapM_eq_visited fun p _ => Param.editM_eq visit f p, Block.editOver_pure,
    Block.editInside_eq, hexprs, Function.edited_eq]
  simp [visited]

theorem VarDecl.editM_eq (v : VarDecl) :
    v.editM (fun _ => pure ()) (fun e => do visit e; pure (f e)) =
      visited visit (exprsOfAll v.parts) (v.edited f) := by
  have hexprs : exprsOfAll v.parts = exprsOfAll (optionalExpr v.init) := by
    simp [VarDecl.parts, TypeDesc.outline]
  rw [VarDecl.editM, editOptional_eq, hexprs, VarDecl.edited_eq]
  simp [visited]

theorem ValueDecl.editM_eq (d : ValueDecl) :
    d.editM (fun _ => pure ()) (fun e => do visit e; pure (f e)) =
      visited visit (exprsOfAll d.parts) (d.edited f) := by
  have hexprs : exprsOfAll d.parts = d.value.outline.exprs := by simp [ValueDecl.parts]
  rw [ValueDecl.editM, Expr.editM_eq, hexprs, ValueDecl.edited_eq]
  simp [visited]

theorem ServiceMember.editM_eq (x : ServiceMember) :
    x.editM (fun _ => pure ()) (fun e => do visit e; pure (f e)) =
      visited visit (exprsOfAll x.outlines) (x.edited f) := by
  cases x with
  | method g =>
    rw [ServiceMember.editM, Function.editM_eq]
    show _ = visited visit _ (ServiceMember.method (g.edited f))
    simp [visited, ServiceMember.outlines]
  | field v =>
    rw [ServiceMember.editM, VarDecl.editM_eq]
    show _ = visited visit _ (ServiceMember.field (v.edited f))
    simp [visited, ServiceMember.outlines]

theorem Service.editM_eq (s : Service) :
    s.editM (fun _ => pure ()) (fun e => do visit e; pure (f e)) =
      visited visit s.outline.exprs (s.edited f) := by
  have hexprs : s.outline.exprs = (s.listeners.flatMap fun e => e.outline.exprs) ++
      s.members.flatMap fun x => exprsOfAll x.outlines := by
    simp [Service.outline, Outline.exprs_mk (n := .service s) rfl, exprsOfAll_map s.listeners,
      exprsOfAll_flatMap]
  rw [Service.editM, mapM_eq_visited fun e _ => Expr.editM_eq visit f e,
    mapM_eq_visited fun x _ => ServiceMember.editM_eq visit f x, hexprs, Service.edited_eq]
  simp [visited]

theorem Member.editM_eq (x : Member) :
    x.editM (fun _ => pure ()) (fun e => do visit e; pure (f e)) =
      visited visit x.outline.exprs (x.edited f) := by
  cases x with
  | function g =>
    rw [Member.editM, Function.editM_eq]
    show _ = visited visit _ (Member.function (g.edited f))
    simp [visited, Member.outline, Outline.exprs_mk (n := .member _) rfl]
  | service s =>
    rw [Member.editM, Service.editM_eq]
    show _ = visited visit _ (Member.service (s.edited f))
    simp [visited, Member.outline, Outline.exprs_mk (n := .member _) rfl]
  | moduleVar v =>
    rw [Member.editM, VarDecl.editM_eq]
    show _ = visited visit _ (Member.moduleVar (v.edited f))
    simp [visited, Member.outline, Outline.exprs_mk (n := .member _) rfl]
  | const d =>
    rw [Member.editM, ValueDecl.editM_eq]
    show _ = visited visit _ (Member.const (d.edited f))
    simp [visited, Member.outline, Outline.exprs_mk (n := .member _) rfl]
  | listener d =>
    rw [Member.editM, ValueDecl.editM_eq]
    show _ = visited visit _ (Member.listener (d.edited f))
    simp [visited, Member.outline, Outline.exprs_mk (n := .member _) rfl]
  | type d =>
    rw [Member.editM, pure_bind]
    show _ = visited visit _ (Member.type d)
    simp [visited, Member.outline, Outline.exprs_mk (n := .member _) rfl, TypeDesc.outline]
  | annotationDecl d =>
    rw [Member.editM, pure_bind]
    show _ = visited visit _ (Member.annotationDecl d)
    simp [visited, Member.outline, Outline.exprs_mk (n := .member _) rfl]

/-- **Editing a module is a visit of its expressions in reading order.**  Its result does not depend
on what the visit does. -/
theorem Module.editM_eq (d : Module) :
    d.editM (fun _ => pure ()) (fun e => do visit e; pure (f e)) =
      visited visit d.outline.exprs (d.edited f) := by
  have hexprs : d.outline.exprs = d.members.flatMap fun x => x.outline.exprs := by
    simp [Module.outline, Outline.exprs_mk (n := .module d) rfl, exprsOfAll_map]
  rw [Module.editM, mapM_eq_visited fun x _ => Member.editM_eq visit f x, hexprs, Module.edited_eq]
  simp [visited]

end

end Durable
