/-
Editing a tree in place changes the expressions it meets and nothing else.

An edit keeps the parts of an expression (`Expr.Keeps`): what it changes is what the expression says
for itself, a literal or a name, an operator, a place.  The edited tree is compared with the tree
position by position.  `Node.SameBut` says that two nodes are the same but for what stands in them
at positions of its own; so if it holds at every position, nothing differs anywhere
(`Module.edit_exact`).

The comparison goes down the tree with the children of the nodes (`children_edited`): the children
of an edited node are the edited children.  Names of values are the exception, because an edit may
change the name that an expression is; they are part of what the expression says for itself.
-/
import Mathlib.Data.List.Forall2
import Durable.Proofs.Tree.Reached

namespace Durable

/-! ### What an edit may change -/

/-- Two expressions have the same form and the same parts. -/
inductive Expr.Keeps : Expr → Expr → Prop
  | literal (v v' : Literal) (s s' : Span) : Keeps (.literal v s) (.literal v' s')
  | name (r r' : NameRef) : Keeps (.name r) (.name r')
  | call (c c' : NameRef) (args : List Arg) (s s' : Span) :
    Keeps (.call c args s) (.call c' args s')
  | methodCall (e : Expr) (x x' : Ident) (args : List Arg) (s s' : Span) :
    Keeps (.methodCall e x args s) (.methodCall e x' args s')
  | remoteCall (e : Expr) (x x' : Ident) (args : List Arg) (s s' : Span) :
    Keeps (.remoteCall e x args s) (.remoteCall e x' args s')
  | field (e : Expr) (x x' : Ident) (s s' : Span) : Keeps (.field e x s) (.field e x' s')
  | index (e p : Expr) (s s' : Span) : Keeps (.index e p s) (.index e p s')
  | mapping (fields : List MappingField) (s s' : Span) :
    Keeps (.mapping fields s) (.mapping fields s')
  | list (items : List Expr) (s s' : Span) : Keeps (.list items s) (.list items s')
  | unary (op op' : UnaryOp) (e : Expr) (s s' : Span) : Keeps (.unary op e s) (.unary op' e s')
  | binary (op op' : BinaryOp) (l r : Expr) (s s' : Span) :
    Keeps (.binary op l r s) (.binary op' l r s')
  | typeTest (e : Expr) (t : TypeDesc) (s s' : Span) : Keeps (.typeTest e t s) (.typeTest e t s')
  | conditional (c e g : Expr) (s s' : Span) :
    Keeps (.conditional c e g s) (.conditional c e g s')
  | cast (t : TypeDesc) (e : Expr) (s s' : Span) : Keeps (.cast t e s) (.cast t e s')
  | construct (t : Option TypeDesc) (args : List Arg) (s s' : Span) :
    Keeps (.construct t args s) (.construct t args s')
  | paren (e : Expr) (s s' : Span) : Keeps (.paren e s) (.paren e s')
  | required (s s' : Span) : Keeps (.required s) (.required s')

/-! ### The same but for what stands inside -/

/-- Two expressions are the same but for their operands, arguments and fields. -/
inductive Expr.SameBut : Expr → Expr → Prop
  | literal (v : Literal) (s : Span) : SameBut (.literal v s) (.literal v s)
  | name (r : NameRef) : SameBut (.name r) (.name r)
  | call (c : NameRef) (args args' : List Arg) (s : Span) :
    SameBut (.call c args s) (.call c args' s)
  | methodCall (e e' : Expr) (x : Ident) (args args' : List Arg) (s : Span) :
    SameBut (.methodCall e x args s) (.methodCall e' x args' s)
  | remoteCall (e e' : Expr) (x : Ident) (args args' : List Arg) (s : Span) :
    SameBut (.remoteCall e x args s) (.remoteCall e' x args' s)
  | field (e e' : Expr) (x : Ident) (s : Span) : SameBut (.field e x s) (.field e' x s)
  | index (e e' p p' : Expr) (s : Span) : SameBut (.index e p s) (.index e' p' s)
  | mapping (fields fields' : List MappingField) (s : Span) :
    SameBut (.mapping fields s) (.mapping fields' s)
  | list (items items' : List Expr) (s : Span) : SameBut (.list items s) (.list items' s)
  | unary (op : UnaryOp) (e e' : Expr) (s : Span) : SameBut (.unary op e s) (.unary op e' s)
  | binary (op : BinaryOp) (l l' r r' : Expr) (s : Span) :
    SameBut (.binary op l r s) (.binary op l' r' s)
  | typeTest (e e' : Expr) (t : TypeDesc) (s : Span) :
    SameBut (.typeTest e t s) (.typeTest e' t s)
  | conditional (c c' e e' g g' : Expr) (s : Span) :
    SameBut (.conditional c e g s) (.conditional c' e' g' s)
  | cast (t : TypeDesc) (e e' : Expr) (s : Span) : SameBut (.cast t e s) (.cast t e' s)
  | construct (t : Option TypeDesc) (args args' : List Arg) (s : Span) :
    SameBut (.construct t args s) (.construct t args' s)
  | paren (e e' : Expr) (s : Span) : SameBut (.paren e s) (.paren e' s)
  | required (s : Span) : SameBut (.required s) (.required s)

/-- Two fields of a mapping are the same but for their keys and values. -/
inductive MappingField.SameBut : MappingField → MappingField → Prop
  | word (key : Ident) (e e' : Expr) : SameBut (.word key e) (.word key e')
  | string (key : String) (s : Span) (e e' : Expr) :
    SameBut (.string key s e) (.string key s e')
  | computed (key key' e e' : Expr) : SameBut (.computed key e) (.computed key' e')
  | shorthand (r : NameRef) : SameBut (.shorthand r) (.shorthand r)
  | spread (e e' : Expr) : SameBut (.spread e) (.spread e')

/-- Two statements are the same but for the expressions, blocks and statements in them. -/
inductive Stmt.SameBut : Stmt → Stmt → Prop
  | localVar (d d' : LocalVar) (s : Span) : SameBut (.localVar d s) (.localVar d' s)
  | assign (e e' : Expr) (op : AssignOp) (v v' : Expr) (s : Span) :
    SameBut (.assign e op v s) (.assign e' op v' s)
  | expr (e e' : Expr) (s : Span) : SameBut (.expr e s) (.expr e' s)
  | lock (b b' : Block) (s : Span) : SameBut (.lock b s) (.lock b' s)
  | ifElse (e e' : Expr) (b b' : Block) (o o' : Option Stmt) (s : Span) :
    SameBut (.ifElse e b o s) (.ifElse e' b' o' s)
  | whileLoop (e e' : Expr) (b b' : Block) (s : Span) :
    SameBut (.whileLoop e b s) (.whileLoop e' b' s)
  | foreach (t : TypeDesc) (x : Ident) (e e' : Expr) (b b' : Block) (s : Span) :
    SameBut (.foreach t x e b s) (.foreach t x e' b' s)
  | giveBack (e e' : Option Expr) (s : Span) : SameBut (.giveBack e s) (.giveBack e' s)
  | attempt (b b' : Block) (s : Span) : SameBut (.attempt b s) (.attempt b' s)
  | attemptOnFail (b b' : Block) (t : TypeDesc) (x : Ident) (h h' : Block) (s : Span) :
    SameBut (.attemptOnFail b t x h s) (.attemptOnFail b' t x h' s)
  | block (b b' : Block) (s : Span) : SameBut (.block b s) (.block b' s)
  | panic (e e' : Expr) (s : Span) : SameBut (.panic e s) (.panic e' s)
  | fail (e e' : Expr) (s : Span) : SameBut (.fail e s) (.fail e' s)
  | leave (s : Span) : SameBut (.leave s) (.leave s)
  | again (s : Span) : SameBut (.again s) (.again s)

/-- Two declarations of a variable are the same but for the initial value. -/
def VarDecl.SameBut (v v' : VarDecl) : Prop := v' = { v with init := v'.init }

/-- Two declarations of a constant or a listener are the same but for the value. -/
def ValueDecl.SameBut (d d' : ValueDecl) : Prop := d' = { d with value := d'.value }

/-- Two members of a service are the same but for a method, and for the value of a field. -/
inductive ServiceMember.SameBut : ServiceMember → ServiceMember → Prop
  | method (g g' : Function) : SameBut (.method g) (.method g')
  | field {v v' : VarDecl} (h : v.SameBut v') : SameBut (.field v) (.field v')

/-- Two members of a module are the same but for a function or a service, and for values. -/
inductive Member.SameBut : Member → Member → Prop
  | function (g g' : Function) : SameBut (.function g) (.function g')
  | service (s s' : Service) : SameBut (.service s) (.service s')
  | moduleVar {v v' : VarDecl} (h : v.SameBut v') : SameBut (.moduleVar v) (.moduleVar v')
  | const {d d' : ValueDecl} (h : d.SameBut d') : SameBut (.const d) (.const d')
  | type (t : TypeDef) : SameBut (.type t) (.type t)
  | listener {d d' : ValueDecl} (h : d.SameBut d') : SameBut (.listener d) (.listener d')
  | annotationDecl (a : AnnotationDecl) : SameBut (.annotationDecl a) (.annotationDecl a)

/-- Two nodes are the same but for the expressions, statements, blocks, parameters and members in
them.  A name of a value belongs to the node that it is in. -/
inductive Node.SameBut : Node → Node → Prop
  | module {d d' : Module} (h : d' = { d with members := d'.members }) :
    SameBut (.module d) (.module d')
  | member {x x' : Member} (h : x.SameBut x') : SameBut (.member x) (.member x')
  | function {g g' : Function} (h : g' = { g with params := g'.params, body := g'.body }) :
    SameBut (.function g) (.function g')
  | service {s s' : Service} (h : s' = { s with listeners := s'.listeners, members := s'.members })
    (hmembers : List.Forall₂ ServiceMember.SameBut s.members s'.members) :
    SameBut (.service s) (.service s')
  | annotationTag (a : Annotation) : SameBut (.annotationTag a) (.annotationTag a)
  | param {p p' : Param} (h : p' = { p with default := p'.default }) :
    SameBut (.param p) (.param p')
  | type (t : TypeDesc) : SameBut (.type t) (.type t)
  | block {b b' : Block} (h : b'.span = b.span) : SameBut (.block b) (.block b')
  | stmt {s s' : Stmt} (h : s.SameBut s') : SameBut (.stmt s) (.stmt s')
  | localVar {d d' : LocalVar} (h : d' = { d with init := d'.init }) :
    SameBut (.localVar d) (.localVar d')
  | expr {e e' : Expr} (h : e.SameBut e') : SameBut (.expr e) (.expr e')
  | arg {a a' : Arg} (h : a' = a.withValue a'.value) : SameBut (.arg a) (.arg a')
  | field {x x' : MappingField} (h : x.SameBut x') : SameBut (.field x) (.field x')
  | ref (r r' : NameRef) : SameBut (.ref r) (.ref r')

/-! ### The edited node -/

section

variable (f : Expr → Expr)

def Arg.edited (a : Arg) : Arg := a.withValue (a.value.edited f)

def MappingField.edited : MappingField → MappingField
  | .word key e => .word key (e.edited f)
  | .string key s e => .string key s (e.edited f)
  | .computed key e => .computed (key.edited f) (e.edited f)
  | .shorthand r => .shorthand r
  | .spread e => .spread (e.edited f)

/-- The node with everything in it edited. -/
def Node.edited : Node → Node
  | .module d => .module (d.edited f)
  | .member x => .member (x.edited f)
  | .function g => .function (g.edited f)
  | .service s => .service (s.edited f)
  | .annotationTag a => .annotationTag a
  | .param p => .param (p.edited f)
  | .type t => .type t
  | .block b => .block (b.edited f)
  | .stmt s => .stmt (s.edited f)
  | .localVar d => .localVar (d.edited f)
  | .expr e => .expr (e.edited f)
  | .arg a => .arg (a.edited f)
  | .field x => .field (x.edited f)
  | .ref r => .ref r

/-- What the function makes of a node by itself: it changes expressions only. -/
def Node.changed : Node → Node
  | .expr e => .expr (f e)
  | n => n

variable {f}

theorem Node.edited_of_isPassedOver {n : Node} (h : n.isPassedOver = true) : n.edited f = n := by
  cases n <;> first | rfl | simp [isPassedOver] at h

theorem withArgValues_eq (args : List Arg) :
    withArgValues args ((args.map Arg.value).map (Expr.edited f)) = args.map (Arg.edited f) := by
  induction args with
  | nil => rfl
  | cons a args ih => exact congrArg (_ :: ·) ih

theorem withFieldValues_eq (fields : List MappingField) :
    withFieldValues fields ((fields.flatMap MappingField.operands).map (Expr.edited f)) =
      fields.map (MappingField.edited f) := by
  induction fields with
  | nil => rfl
  | cons x fields ih => cases x <;> exact congrArg (_ :: ·) ih

/-- An edited expression says what the function makes of it. -/
theorem Expr.sameBut_edited {e : Expr} (h : e.Keeps (f e)) : (f e).SameBut (e.edited f) := by
  rw [edited_eq]
  generalize f e = e' at h
  cases h <;> constructor

theorem VarDecl.sameBut_edited (v : VarDecl) : v.SameBut (v.edited f) := rfl

theorem ValueDecl.sameBut_edited (d : ValueDecl) : d.SameBut (d.edited f) := rfl

theorem ServiceMember.sameBut_edited (x : ServiceMember) : x.SameBut (x.edited f) := by
  cases x with
  | method g => exact .method _ _
  | field v => exact .field v.sameBut_edited

theorem Stmt.sameBut_edited (s : Stmt) : s.SameBut (s.edited f) := by
  cases s with
  | ifElse condition body otherwise => cases otherwise <;> constructor
  | _ => constructor

theorem Member.sameBut_edited (x : Member) : x.SameBut (x.edited f) := by
  cases x with
  | function g => exact .function _ _
  | service s => exact .service _ _
  | moduleVar v => exact .moduleVar v.sameBut_edited
  | const d => exact .const d.sameBut_edited
  | type t => exact .type t
  | listener d => exact .listener d.sameBut_edited
  | annotationDecl a => exact .annotationDecl a

/-- **What an edited node says for itself** is what the function makes of the node. -/
theorem Node.sameBut_edited (hf : ∀ e : Expr, e.Keeps (f e)) (n : Node) :
    (n.changed f).SameBut (n.edited f) := by
  cases n with
  | module d => exact .module (by rw [d.edited_eq])
  | member x => exact .member x.sameBut_edited
  | function g => exact .function (by rw [g.edited_eq])
  | service s =>
    refine .service (by rw [s.edited_eq]) ?_
    rw [s.edited_eq]
    exact List.forall₂_map_right_iff.mpr (List.forall₂_same.mpr fun x _ => x.sameBut_edited)
  | annotationTag a => exact .annotationTag a
  | param p => exact .param rfl
  | type t => exact .type t
  | block b => exact .block (by rw [b.edited_eq]; rfl)
  | stmt s => exact .stmt s.sameBut_edited
  | localVar d => exact .localVar rfl
  | expr e => exact .expr (Expr.sameBut_edited (hf e))
  | arg a => exact .arg (by cases a <;> rfl)
  | field x => exact .field (by cases x <;> constructor)
  | ref r => exact .ref r r

/-! ### Position by position -/

/-- What stands at a position of an edited tree, given what stood there: that edited, or any name in
place of a name. -/
inductive Node.Becomes (f : Expr → Expr) : Node → Node → Prop
  | edited (n : Node) : Becomes f n (n.edited f)
  | ref (r r' : NameRef) : Becomes f (.ref r) (.ref r')

theorem Node.Becomes.sameBut (hf : ∀ e : Expr, e.Keeps (f e)) {n n' : Node} (h : n.Becomes f n') :
    (n.changed f).SameBut n' := by
  cases h with
  | edited => exact n.sameBut_edited hf
  | ref r r' => exact .ref r r'

theorem Node.becomes_map (ns : List Node) : List.Forall₂ (Becomes f) ns (ns.map (edited f)) :=
  List.forall₂_map_right_iff.mpr (List.forall₂_same.mpr fun n _ => .edited n)

theorem map_edited_args (args : List Arg) :
    (withArgValues args ((args.map Arg.value).map (Expr.edited f))).map Node.arg =
      (args.map Node.arg).map (Node.edited f) := by
  rw [withArgValues_eq, List.map_map, List.map_map]
  rfl

/-- The parts of an edited expression are its parts edited, but for names. -/
theorem Expr.children_edited {e : Expr} (h : e.Keeps (f e)) :
    List.Forall₂ (Node.Becomes f) e.children (e.edited f).children := by
  have hsame (ns ns' : List Node) (heq : ns' = ns.map (Node.edited f)) :
      List.Forall₂ (Node.Becomes f) ns ns' := heq ▸ Node.becomes_map ns
  rw [edited_eq]
  generalize f e = e' at h
  cases h with
  | name r r' => exact .cons (.ref r r') .nil
  | call c c' args => exact .cons (.ref c c') (hsame _ _ (map_edited_args args))
  | methodCall receiver _ _ args | remoteCall receiver _ _ args =>
    exact hsame _ _ (congrArg (_ :: ·) (map_edited_args args))
  | construct t args =>
    refine hsame _ _ ?_
    show _ ++ (withArgValues args ((args.map Arg.value).map (Expr.edited f))).map Node.arg = _
    rw [map_edited_args, children, List.map_append]
    cases t <;> rfl
  | mapping fields =>
    refine hsame _ _ ?_
    show (withFieldValues fields _).map Node.field = _
    rw [operands, withFieldValues_eq, children, List.map_map, List.map_map]
    rfl
  | list items =>
    exact hsame _ _
      (by simp [operands, withOperands, children, Node.edited, Function.comp_def])
  | _ => exact hsame _ _ rfl

theorem VarDecl.children_edited (v : VarDecl) :
    (v.edited f).children = v.children.map (Node.edited f) := by
  simp [children, edited_eq, Node.edited, Option.toList_map, Function.comp_def]

theorem ValueDecl.children_edited (d : ValueDecl) :
    (d.edited f).children = d.children.map (Node.edited f) := by
  simp [children, edited_eq, Node.edited, Option.toList_map, Function.comp_def]

theorem ServiceMember.children_edited (x : ServiceMember) :
    (x.edited f).children = x.children.map (Node.edited f) := by
  cases x with
  | method g => rfl
  | field v => exact v.children_edited

theorem Stmt.children_edited (s : Stmt) :
    (s.edited f).children = s.children.map (Node.edited f) := by
  cases s with
  | ifElse condition body otherwise => cases otherwise <;> rfl
  | giveBack e => cases e <;> rfl
  | _ => rfl

theorem Member.children_edited (x : Member) :
    (x.edited f).children = x.children.map (Node.edited f) := by
  cases x with
  | function | service => rfl
  | moduleVar v => exact v.children_edited
  | const d | listener d => exact d.children_edited
  | type t =>
    show (Member.type t).children = _
    simp [children, Node.edited, Function.comp_def]
  | annotationDecl a =>
    show (Member.annotationDecl a).children = _
    simp [children, Node.edited, Option.toList_map, Function.comp_def]

/-- **The parts of an edited node are its parts edited**, but for names. -/
theorem Node.children_edited (hf : ∀ e : Expr, e.Keeps (f e)) {n : Node}
    (h : n.isPassedOver = false) :
    List.Forall₂ (Becomes f) n.children (n.edited f).children := by
  have hsame (heq : (n.edited f).children = n.children.map (edited f)) :
      List.Forall₂ (Becomes f) n.children (n.edited f).children := heq ▸ becomes_map n.children
  cases n with
  | annotationTag | type => simp [isPassedOver] at h
  | expr e => exact Expr.children_edited (hf e)
  | member x => exact hsame x.children_edited
  | stmt s => exact hsame s.children_edited
  | module d => exact hsame (by simp [edited, Module.edited_eq, children, Function.comp_def])
  | block b =>
    exact hsame (by simp [edited, Block.edited_eq, children, Block.stmts, Function.comp_def])
  | function g =>
    exact hsame
      (by simp [edited, Function.edited_eq, children, Option.toList_map, Function.comp_def])
  | service s =>
    refine hsame ?_
    have hmembers : (s.members.map (ServiceMember.edited f)).flatMap ServiceMember.children =
        (s.members.flatMap ServiceMember.children).map (edited f) := by
      rw [List.map_flatMap, List.flatMap_map, funext ServiceMember.children_edited]
    simp [edited, Service.edited_eq, children, hmembers, Option.toList_map, Function.comp_def]
  | param p =>
    exact hsame (by simp [edited, Param.edited_eq, children, Option.toList_map, Function.comp_def])
  | localVar d =>
    exact hsame (by simp [edited, LocalVar.edited_eq, children, LocalVar.children,
      Option.toList_map, Function.comp_def])
  | arg a => exact hsame (by cases a <;> rfl)
  | field x => exact hsame (by cases x <;> rfl)
  | ref r => exact .nil

theorem Node.child_edited (hf : ∀ e : Expr, e.Keeps (f e)) {n c : Node} {i : Nat}
    (h : n.isPassedOver = false) (hc : n.children[i]? = some c) :
    ∃ c', (n.edited f).children[i]? = some c' ∧ c.Becomes f c' := by
  have hchildren := children_edited hf h
  obtain ⟨hi, rfl⟩ := List.getElem?_eq_some_iff.mp hc
  have hi' : i < (n.edited f).children.length := hchildren.length_eq ▸ hi
  exact ⟨_, List.getElem?_eq_getElem hi', hchildren.get hi hi'⟩

/-- What stands at the positions of an edited tree: inside of what is passed over what stood there,
and elsewhere what becomes of it. -/
theorem Node.at?_edited (hf : ∀ e : Expr, e.Keeps (f e)) {n k : Node} {path : List Nat}
    (hk : n.at? path = some k) : ∃ k', (n.edited f).at? path = some k' ∧
      (n.PassesOver path → k' = k) ∧ (¬ n.PassesOver path → k.Becomes f k') := by
  induction path generalizing n with
  | nil =>
    obtain rfl := Option.some.inj hk
    exact ⟨_, rfl, fun h => absurd h n.not_passesOver_nil, fun _ => .edited n⟩
  | cons i path ih =>
    obtain ⟨c, hc, hck⟩ := at?_cons.mp hk
    rw [passesOver_cons hc]
    cases h : n.isPassedOver with
    | true =>
      rw [edited_of_isPassedOver h]
      exact ⟨k, hk, fun _ => rfl, fun hout => absurd (.inl rfl) hout⟩
    | false =>
      rw [or_iff_right Bool.false_ne_true]
      obtain ⟨c', hc', hbecomes⟩ := child_edited hf h hc
      cases hbecomes with
      | edited =>
        obtain ⟨k', hk', hkept⟩ := ih hck
        exact ⟨k', at?_cons.mpr ⟨_, hc', hk'⟩, hkept⟩
      | ref r r' =>
        -- A name has no parts, so it stands at the position itself.
        obtain ⟨rfl, rfl⟩ : path = [] ∧ .ref r = k := by
          cases path with
          | nil => exact ⟨rfl, Option.some.inj hck⟩
          | cons j path => simp [at?, children] at hck
        exact ⟨.ref r', at?_cons.mpr ⟨_, hc', rfl⟩,
          fun hin => absurd hin (not_passesOver_nil _), fun _ => .ref r r'⟩

/-- An edited tree has no other positions. -/
theorem Node.at?_edited_eq_none (hf : ∀ e : Expr, e.Keeps (f e)) {n : Node} {path : List Nat}
    (hnone : n.at? path = none) : (n.edited f).at? path = none := by
  induction path generalizing n with
  | nil => simp [at?] at hnone
  | cons i path ih =>
    cases h : n.isPassedOver with
    | true => rw [edited_of_isPassedOver h, hnone]
    | false =>
      rw [at?] at hnone ⊢
      cases hc : n.children[i]? with
      | none =>
        have hlength := (children_edited hf h).length_eq
        rw [List.getElem?_eq_none (hlength ▸ List.getElem?_eq_none_iff.mp hc), Option.bind_none]
      | some c =>
        rw [hc, Option.bind_some] at hnone
        obtain ⟨c', hc', hbecomes⟩ := child_edited hf h hc
        rw [hc', Option.bind_some]
        cases hbecomes with
        | edited => exact ih hnone
        | ref r r' =>
          cases path with
          | nil => simp [at?] at hnone
          | cons j path => simp [at?, children]

/-- **Editing a module in place.**  An edit that keeps the parts of expressions meets the expressions
that a walk meets which passes over annotations and types, in reading order and each once.  At every
position of the module the same stands afterwards: inside annotations and types exactly the same,
and elsewhere the same but for what stands inside, where expressions are what the edit makes of
them. -/
theorem Module.edit_exact (d : Module) {f : Expr → Expr} (hf : ∀ e : Expr, e.Keeps (f e)) :
    ∃ (reached : List (List Nat × Expr)) (d' : Module),
      Enumerates (fun path e => (Node.module d).at? path = some (.expr e) ∧
        ¬ (Node.module d).PassesOver path) reached ∧
      d.outline.walk Node.enterExprs () = reached.map (·.2) ∧
      (∀ (m : Type → Type) [Monad m] [LawfulMonad m] (visit : Expr → m Unit),
        d.editM (fun _ => pure ()) (fun e => do visit e; pure (f e)) =
          do (reached.map (·.2)).forM visit; pure d') ∧
      (∀ path, (Node.module d).at? path = none → (Node.module d').at? path = none) ∧
      ∀ path n, (Node.module d).at? path = some n →
        ∃ n', (Node.module d').at? path = some n' ∧
          ((Node.module d).PassesOver path → n' = n) ∧
          (¬ (Node.module d).PassesOver path → (n.changed f).SameBut n') := by
  obtain ⟨reached, henumerates, hreached⟩ := (Node.module d).exists_enumerates_exprs
  refine ⟨reached, d.edited f, henumerates, hreached, fun m _ _ visit => ?_, fun path hnone => ?_,
    fun path n hn => ?_⟩
  · rw [← hreached]
    exact d.editM_eq visit f
  · exact Node.at?_edited_eq_none hf hnone
  · obtain ⟨n', hn', hkept, hbecomes⟩ := Node.at?_edited hf hn
    exact ⟨n', hn', hkept, fun hout => (hbecomes hout).sameBut hf⟩

end

/-- The edit that puts a mark behind every name. -/
def Expr.marked : Expr → Expr
  | .name r => .name { r with name := { r.name with name := r.name.name ++ "_" } }
  | e => e

theorem Expr.keeps_marked (e : Expr) : e.Keeps e.marked := by
  cases e <;> constructor

/-- A module with a constant that is the sum of two names, and a name in its annotation. -/
def Module.sum (left right : String) : Module :=
  let tag : Annotation := ⟨.synthetic none "tag", some (.name (.synthetic none "a")), .synthetic⟩
  let value := .binary .add (.name (.synthetic none left)) (.name (.synthetic none right)) .synthetic
  ⟨[], [.const ⟨[tag], [], none, ⟨"c", .synthetic⟩, value, .synthetic⟩], .synthetic⟩

theorem Module.edit_exact_sum : ∃ sum a b d',
    (Module.sum "a" "b").outline.walk Node.enterExprs () = [sum, a, b] ∧
    d' = Module.sum "a_" "b_" ∧
    ∀ (m : Type → Type) [Monad m] [LawfulMonad m] (visit : Expr → m Unit),
      (Module.sum "a" "b").editM (fun _ => pure ()) (fun e => do visit e; pure e.marked) =
        (do List.forM [sum, a, b] visit; pure d') := by
  obtain ⟨reached, d', -, hreached, hedit, -⟩ :=
    Module.edit_exact (Module.sum "a" "b") Expr.keeps_marked
  have hwalk : (Module.sum "a" "b").outline.walk Node.enterExprs () = [_, _, _] := rfl
  refine ⟨_, _, _, d', hwalk, ?_, ?_⟩
  · exact (hedit Id fun _ => ()).symm
  · rw [← hwalk, hreached]
    exact hedit

end Durable
