/-
What stands where in a tree.

`Node.children` says of every form of the syntax what it is made of, one level deep and in reading
order; nothing in it is recursive.  A position is the way from a node to something inside it, as the
indexes of the children it leads through, and what stands at a position is found by following it
down.  Positions are in order as lists of numbers are: a node is read before what is inside it, and
what is inside an earlier child before what is inside a later one.  What stands on the way to a
position is around it (`Node.Around`); below annotations, types and expressions there is nothing
else.

An outline unfolds these children and nothing else (`Node.outline_eq`).  So the nodes of an outline
are what stands at the positions of a node, each position once and in order, and what a walk
collects it collects from each of them, under circumstances that depend only on the nodes on the way
there.
-/
import Durable.Proofs.Tree.Nodes

namespace Durable

/-! ### Children -/

/-- What a type is made of: the types in it, and the defaults of record fields behind the types of
those fields. -/
def TypeDesc.children : TypeDesc → List Node
  | .builtin _ _ | .nil _ | .inferred _ | .named _ | .anyFunction _ | .singleton _ _ => []
  | .optional t _ | .array t _ | .map t _ | .paren t _ => [.type t]
  | .union ts _ | .intersection ts _ => ts.map .type
  | .future inner _ => (inner.map .type).toList
  | .stream item completion _ => .type item :: (completion.map .type).toList
  | .function params rest returns _ =>
    params.map .type ++ (rest.map .type).toList ++ (returns.map .type).toList
  | .record _ fields rest _ =>
    fields.flatMap (fun f => .type f.type :: (f.default.map .expr).toList)
      ++ (rest.map .type).toList

/-- What an expression is made of. -/
def Expr.children : Expr → List Node
  | .literal _ _ | .required _ => []
  | .name r => [.ref r]
  | .call callee args _ => .ref callee :: args.map .arg
  | .methodCall receiver _ args _ | .remoteCall receiver _ args _ =>
    .expr receiver :: args.map .arg
  | .field target _ _ => [.expr target]
  | .index target position _ => [.expr target, .expr position]
  | .mapping fields _ => fields.map .field
  | .list items _ => items.map .expr
  | .unary _ operand _ => [.expr operand]
  | .binary _ left right _ => [.expr left, .expr right]
  | .typeTest operand type _ => [.expr operand, .type type]
  | .conditional condition ifTrue ifFalse _ => [.expr condition, .expr ifTrue, .expr ifFalse]
  | .cast type operand _ => [.type type, .expr operand]
  | .construct type args _ => (type.map .type).toList ++ args.map .arg
  | .paren inner _ => [.expr inner]

/-- What a field of a mapping is made of. -/
def MappingField.children : MappingField → List Node
  | .word _ value | .string _ _ value | .spread value => [.expr value]
  | .computed key value => [.expr key, .expr value]
  | .shorthand r => [.ref r]

/-- What the declaration of a local variable is made of. -/
def LocalVar.children (d : LocalVar) : List Node :=
  d.annotations.map .annotationTag ++ .type d.type :: (d.init.map .expr).toList

/-- What a statement is made of. -/
def Stmt.children : Stmt → List Node
  | .localVar d _ => [.localVar d]
  | .assign target _ value _ => [.expr target, .expr value]
  | .expr e _ | .panic e _ | .fail e _ => [.expr e]
  | .giveBack e _ => (e.map .expr).toList
  | .lock body _ | .block body _ | .attempt body _ => [.block body]
  | .ifElse condition body otherwise _ =>
    [.expr condition, .block body] ++ (otherwise.map .stmt).toList
  | .whileLoop condition body _ => [.expr condition, .block body]
  | .foreach type _ items body _ => [.type type, .expr items, .block body]
  | .attemptOnFail body type _ handler _ => [.block body, .type type, .block handler]
  | .leave _ | .again _ => []

/-- What the declaration of a variable of a module, or of a field of a service, is made of. -/
def VarDecl.children (v : VarDecl) : List Node :=
  v.annotations.map .annotationTag ++ .type v.type :: (v.init.map .expr).toList

/-- What the declaration of a constant or a listener is made of. -/
def ValueDecl.children (d : ValueDecl) : List Node :=
  d.annotations.map .annotationTag ++ (d.type.map .type).toList ++ [.expr d.value]

/-- What a member of a service is made of, where a method counts as one thing. -/
def ServiceMember.children : ServiceMember → List Node
  | .method f => [.function f]
  | .field v => v.children

/-- What a member of a module is made of. -/
def Member.children : Member → List Node
  | .function f => [.function f]
  | .service s => [.service s]
  | .moduleVar v => v.children
  | .const d | .listener d => d.children
  | .type d => d.annotations.map .annotationTag ++ [.type d.type]
  | .annotationDecl d => (d.type.map .type).toList

namespace Node

/-- What a node is made of, in reading order. -/
def children : Node → List Node
  | .module m => m.members.map .member
  | .member m => m.children
  | .function f =>
    f.annotations.map .annotationTag ++ f.params.map .param ++ (f.returns.map .type).toList
      ++ [.block f.body]
  | .service s =>
    s.annotations.map .annotationTag ++ (s.type.map .type).toList ++ s.listeners.map .expr
      ++ s.members.flatMap ServiceMember.children
  | .annotationTag a => (a.value.map .expr).toList
  | .param p => p.annotations.map .annotationTag ++ .type p.type :: (p.default.map .expr).toList
  | .type t => t.children
  | .block b => b.stmts.map .stmt
  | .stmt s => s.children
  | .localVar d => d.children
  | .expr e => e.children
  | .arg a => [.expr a.value]
  | .field f => f.children
  | .ref _ => []

/-- What stands at a position inside a node. -/
def at? : Node → List Nat → Option Node
  | n, [] => some n
  | n, i :: path => n.children[i]?.bind (·.at? path)

theorem at?_cons {n k : Node} {i : Nat} {path : List Nat} :
    n.at? (i :: path) = some k ↔ ∃ c, n.children[i]? = some c ∧ c.at? path = some k := by
  rw [at?, Option.bind_eq_some_iff]

/-- A way can be followed in two pieces. -/
theorem at?_append (n : Node) (path path' : List Nat) :
    n.at? (path ++ path') = (n.at? path).bind (·.at? path') := by
  induction path generalizing n with
  | nil => rfl
  | cons i path ih =>
    rw [List.cons_append, at?, at?]
    cases n.children[i]? with
    | none => rfl
    | some c => exact ih c

theorem at?_append_of_eq {n k : Node} {path : List Nat} (h : n.at? path = some k)
    (path' : List Nat) : n.at? (path ++ path') = k.at? path' := by
  rw [at?_append, h, Option.bind_some]

/-- The outline of a node. -/
def outline : Node → Outline
  | .module m => m.outline
  | .member m => m.outline
  | .function f => f.outline
  | .service s => s.outline
  | .annotationTag a => a.outline
  | .param p => p.outline
  | .type t => t.outline
  | .block b => b.outline
  | .stmt s => .mk (.stmt s) s.parts
  | .localVar d => d.outline
  | .expr e => e.outline
  | .arg a => .mk (.arg a) [a.value.outline]
  | .field f =>
    .mk (.field f) <| match f with
      | .word _ e | .string _ _ e | .spread e => [e.outline]
      | .computed key e => [key.outline, e.outline]
      | .shorthand r => [r.outline]
  | .ref r => r.outline

end Node

/-- The place of the body among what a function is made of: the last. -/
def Function.bodyAt (f : Function) : Nat := (Node.function f).children.length - 1

/-- What stands in the body of a function stands there in the function. -/
theorem Node.at?_bodyAt {n : Node} {f : Function} {way : List Nat}
    (h : n.at? way = some (.function f)) (path : List Nat) :
    n.at? (way ++ f.bodyAt :: path) = (Node.block f.body).at? path := by
  have hbody : (Node.function f).children[f.bodyAt]? = some (.block f.body) := by
    rw [Function.bodyAt, ← List.getLast?_eq_getElem?]
    exact List.getLast?_concat
  rw [at?_append_of_eq h, at?, hbody, Option.bind_some]

/-! ### Outlines unfold children -/

theorem typeOutlines_eq (ts : List TypeDesc) :
    typeOutlines ts = (ts.map .type).map Node.outline := by
  induction ts with
  | nil => rfl
  | cons t ts ih => rw [typeOutlines, ih]; rfl

theorem exprOutlines_eq (es : List Expr) : exprOutlines es = (es.map .expr).map Node.outline := by
  induction es with
  | nil => rfl
  | cons e es ih => rw [exprOutlines, ih]; rfl

theorem argOutlines_eq (as : List Arg) : argOutlines as = (as.map .arg).map Node.outline := by
  induction as with
  | nil => rfl
  | cons a as ih => cases a <;> (rw [argOutlines, ih]; rfl)

theorem fieldOutlines_eq (fs : List MappingField) :
    fieldOutlines fs = (fs.map .field).map Node.outline := by
  induction fs with
  | nil => rfl
  | cons f fs ih => cases f <;> (rw [fieldOutlines, ih]; rfl)

theorem stmtOutlines_eq (ss : List Stmt) : stmtOutlines ss = (ss.map .stmt).map Node.outline := by
  induction ss with
  | nil => rfl
  | cons s ss ih => rw [stmtOutlines, ih]; rfl

theorem recordFieldOutlines_eq (fs : List RecordField) : recordFieldOutlines fs =
    (fs.flatMap fun f => .type f.type :: (f.default.map .expr).toList).map Node.outline := by
  induction fs with
  | nil => rfl
  | cons f fs ih =>
    obtain ⟨_, t, _, _, d, _⟩ := f
    cases d <;> (rw [recordFieldOutlines, ih]; rfl)

theorem TypeDesc.outline_eq (t : TypeDesc) :
    t.outline = .mk (.type t) (t.children.map Node.outline) := by
  cases t with
  | builtin | nil | inferred | named | anyFunction | singleton => rfl
  | optional | array | map | paren => rfl
  | union ts | intersection ts => rw [children, ← typeOutlines_eq]; rfl
  | future inner => cases inner <;> rfl
  | stream item completion => cases completion <;> rfl
  | function params rest returns =>
    rw [children, List.map_append, List.map_append, ← typeOutlines_eq]
    cases rest <;> cases returns <;> rfl
  | record closed fields rest =>
    rw [children, List.map_append, ← recordFieldOutlines_eq]
    cases rest <;> rfl

theorem Expr.outline_eq (e : Expr) : e.outline = .mk (.expr e) (e.children.map Node.outline) := by
  cases e with
  | literal | required | name | field | index | unary | binary => rfl
  | typeTest | conditional | cast | paren => rfl
  | call callee args | methodCall receiver method args | remoteCall receiver method args =>
    rw [children, List.map_cons, ← argOutlines_eq]; rfl
  | mapping fields => rw [children, ← fieldOutlines_eq]; rfl
  | list items => rw [children, ← exprOutlines_eq]; rfl
  | construct type args =>
    rw [children, List.map_append, ← argOutlines_eq]
    cases type <;> rfl

theorem Stmt.outline_eq (s : Stmt) :
    Outline.mk (.stmt s) s.parts = .mk (.stmt s) (s.children.map Node.outline) := by
  cases s with
  | ifElse condition body otherwise => cases otherwise <;> rfl
  | giveBack value => cases value <;> rfl
  | _ => rfl

theorem optionalExpr_eq (e : Option Expr) :
    optionalExpr e = (e.map .expr).toList.map Node.outline := by
  cases e <;> rfl

theorem optionalType_eq (t : Option TypeDesc) :
    optionalType t = (t.map .type).toList.map Node.outline := by
  cases t <;> rfl

theorem VarDecl.parts_eq (v : VarDecl) : v.parts = v.children.map Node.outline := by
  simp [VarDecl.parts, VarDecl.children, optionalExpr_eq, Node.outline, Function.comp_def]

theorem ValueDecl.parts_eq (d : ValueDecl) : d.parts = d.children.map Node.outline := by
  simp [ValueDecl.parts, ValueDecl.children, optionalType_eq, Node.outline, Function.comp_def]

theorem ServiceMember.outlines_eq (x : ServiceMember) :
    x.outlines = x.children.map Node.outline := by
  cases x with
  | method f => rfl
  | field v => exact v.parts_eq

theorem Member.outline_eq (x : Member) :
    x.outline = .mk (.member x) (x.children.map Node.outline) := by
  cases x with
  | function | service => rfl
  | moduleVar v => rw [children, ← v.parts_eq]; rfl
  | const d | listener d => rw [children, ← d.parts_eq]; rfl
  | type d => simp [outline, children, Node.outline, Function.comp_def]
  | annotationDecl d => rw [children, ← optionalType_eq]; rfl

/-- **An outline unfolds the children of a node.** -/
theorem Node.outline_eq (n : Node) : n.outline = .mk n (n.children.map outline) := by
  cases n with
  | module m => simp [outline, children, Module.outline, Function.comp_def]
  | member x => exact x.outline_eq
  | function f =>
    simp [outline, children, Function.outline, optionalType_eq, Function.comp_def]
  | service s =>
    have hmembers : s.members.flatMap ServiceMember.outlines =
        (s.members.flatMap ServiceMember.children).map outline := by
      rw [List.map_flatMap, funext ServiceMember.outlines_eq]
    simp [outline, children, Service.outline, optionalType_eq, hmembers, Function.comp_def]
  | annotationTag a => rw [children, ← optionalExpr_eq]; rfl
  | param p => simp [outline, children, Param.outline, optionalExpr_eq, Function.comp_def]
  | type t => exact t.outline_eq
  | block b =>
    obtain ⟨ss, span⟩ := b
    rw [children, Block.stmts, ← stmtOutlines_eq]; rfl
  | stmt s => exact s.outline_eq
  | localVar d =>
    simp [outline, children, LocalVar.outline, LocalVar.children, optionalExpr_eq,
      Function.comp_def]
  | expr e => exact e.outline_eq
  | arg a => rfl
  | field f => cases f <;> rfl
  | ref r => rfl

/-! ### What is around a position -/

/-- A node stands on the way to a position inside a node, and the position is below it. -/
def Node.Around (n : Node) (path : List Nat) (k : Node) : Prop :=
  ∃ above below, path = above ++ below ∧ below ≠ [] ∧ n.at? above = some k

theorem Node.not_around_nil (n k : Node) : ¬ n.Around [] k := by
  rintro ⟨above, below, hpath, hbelow, -⟩
  exact hbelow (List.append_eq_nil_iff.mp hpath.symm).2

theorem Node.around_cons {n c k : Node} {i : Nat} {path : List Nat}
    (hc : n.children[i]? = some c) : n.Around (i :: path) k ↔ n = k ∨ c.Around path k := by
  constructor
  · rintro ⟨above, below, hpath, hbelow, hk⟩
    cases above with
    | nil => exact .inl (Option.some.inj hk)
    | cons j above =>
      obtain ⟨rfl, rfl⟩ := List.cons.inj hpath
      obtain ⟨c', hc', hk⟩ := at?_cons.mp hk
      obtain rfl := Option.some.inj (hc.symm.trans hc')
      exact .inr ⟨above, below, rfl, hbelow, hk⟩
  · rintro (rfl | ⟨above, below, rfl, hbelow, hk⟩)
    · exact ⟨[], i :: path, rfl, List.cons_ne_nil i path, rfl⟩
    · exact ⟨i :: above, below, rfl, hbelow, at?_cons.mpr ⟨c, hc, hk⟩⟩

/-- What is around a position stands at a position of its own. -/
theorem Node.Around.at? {n k : Node} {path : List Nat} (h : n.Around path k) :
    ∃ above, n.at? above = some k := by
  obtain ⟨above, -, -, -, hk⟩ := h
  exact ⟨above, hk⟩

theorem Node.outline_plain {n : Node} (h : n.isPlain = true) : n.outline.Plain := by
  cases n with
  | type t => exact t.outline_plain
  | expr e => exact e.outline_plain
  | annotationTag a => exact a.outline_plain
  | arg a => exact ⟨rfl, a.value.outline_plain, trivial⟩
  | field f =>
    have hfield := fieldOutlines_plain [f]
    rw [fieldOutlines_eq] at hfield
    exact hfield.1
  | ref r => exact ⟨rfl, trivial⟩
  | _ => simp [isPlain] at h

/-- Annotations, types and expressions are made of nothing else. -/
theorem Node.isPlain_of_mem_children {n k : Node} (h : n.isPlain = true) (hk : k ∈ n.children) :
    k.isPlain = true := by
  have hplain := outline_plain h
  rw [n.outline_eq, Outline.plain_mk, Outline.plainAll_iff] at hplain
  have hpart := hplain.2 k.outline (List.mem_map_of_mem hk)
  rw [k.outline_eq] at hpart
  exact hpart.1

theorem Node.isPlain_of_at? {n k : Node} {path : List Nat} (h : n.isPlain = true)
    (hk : n.at? path = some k) : k.isPlain = true := by
  induction path generalizing n with
  | nil => exact Option.some.inj hk ▸ h
  | cons i path ih =>
    obtain ⟨c, hc, hk⟩ := at?_cons.mp hk
    exact ih (isPlain_of_mem_children h (List.mem_of_getElem? hc)) hk

/-- So is the declaration of a local variable. -/
theorem LocalVar.isPlain_of_mem_children {d : LocalVar} {k : Node} (hk : k ∈ d.children) :
    k.isPlain = true := by
  simp only [children, List.mem_append, List.mem_cons, List.mem_map, Option.mem_toList,
    Option.map_eq_some_iff] at hk
  rcases hk with ⟨a, -, rfl⟩ | rfl | ⟨e, -, rfl⟩ <;> rfl

/-! ### All positions in order -/

namespace Outline

mutual

/-- The nodes of an outline with their positions, in reading order. -/
def positions : Outline → List (List Nat × Node)
  | .mk n parts => ([], n) :: positionsFrom 0 parts

/-- The nodes of the parts of a node with their positions in it, where the first part is the `i`-th
one. -/
def positionsFrom (i : Nat) : List Outline → List (List Nat × Node)
  | [] => []
  | o :: os => o.positions.map (fun x => (i :: x.1, x.2)) ++ positionsFrom (i + 1) os

end

mutual

theorem nodes_eq : ∀ o : Outline, o.nodes = o.positions.map (·.2)
  | .mk n parts => by
    rw [nodes, positions, List.map_cons, nodesOfAll_eq parts 0]

theorem nodesOfAll_eq : ∀ (os : List Outline) (i : Nat),
    nodesOfAll os = (positionsFrom i os).map (·.2)
  | [], _ => rfl
  | o :: os, i => by
    rw [nodesOfAll, positionsFrom, List.map_append, List.map_map, nodes_eq o,
      nodesOfAll_eq os (i + 1)]
    rfl

end

theorem mem_positionsFrom {os : List Outline} {i : Nat} {path : List Nat} {n : Node} :
    (path, n) ∈ positionsFrom i os ↔
      ∃ j path' o, path = (i + j) :: path' ∧ os[j]? = some o ∧ (path', n) ∈ o.positions := by
  induction os generalizing i with
  | nil => simp [positionsFrom]
  | cons o os ih =>
    rw [positionsFrom, List.mem_append, ih]
    constructor
    · rintro (h | ⟨j, path', o', rfl, ho, h⟩)
      · obtain ⟨x, hx, heq⟩ := List.mem_map.mp h
        obtain ⟨rfl, rfl⟩ := Prod.mk.inj heq
        exact ⟨0, x.1, o, rfl, rfl, hx⟩
      · exact ⟨j + 1, path', o', by rw [Nat.add_right_comm, Nat.add_assoc], ho, h⟩
    · rintro ⟨j, path', o', rfl, ho, h⟩
      cases j with
      | zero =>
        obtain rfl := Option.some.inj ho
        exact .inl (List.mem_map.mpr ⟨_, h, rfl⟩)
      | succ j => exact .inr ⟨j, path', o', by rw [Nat.add_right_comm, Nat.add_assoc], ho, h⟩

mutual

/-- Positions are listed in strict order: each once. -/
theorem pairwise_positions : ∀ o : Outline, o.positions.Pairwise fun x y => x.1 < y.1
  | .mk n parts => by
    refine List.pairwise_cons.mpr ⟨fun x hx => ?_, pairwise_positionsFrom parts 0⟩
    obtain ⟨j, path', o, hpath, -, -⟩ := mem_positionsFrom.mp hx
    rw [hpath]
    exact List.nil_lt_cons _ _

theorem pairwise_positionsFrom : ∀ (os : List Outline) (i : Nat),
    (positionsFrom i os).Pairwise fun x y => x.1 < y.1
  | [], _ => .nil
  | o :: os, i => by
    refine List.pairwise_append.mpr ⟨?_, pairwise_positionsFrom os (i + 1), fun x hx y hy => ?_⟩
    · rw [List.pairwise_map]
      exact (pairwise_positions o).imp fun h => List.cons_lt_cons_iff.mpr (.inr ⟨rfl, h⟩)
    · obtain ⟨x', -, rfl⟩ := List.mem_map.mp hx
      obtain ⟨j, path', o', hpath, -, -⟩ := mem_positionsFrom.mp hy
      rw [hpath]
      exact List.cons_lt_cons_iff.mpr (.inl (by omega))

end

end Outline

/-- The positions of the outline of a node are those inside the node. -/
theorem Node.mem_positions {n k : Node} {path : List Nat} :
    (path, k) ∈ n.outline.positions ↔ n.at? path = some k := by
  induction path generalizing n with
  | nil =>
    rw [n.outline_eq, Outline.positions, List.mem_cons, at?, Option.some.injEq]
    constructor
    · rintro (h | h)
      · exact (Prod.mk.inj h).2.symm
      · obtain ⟨j, path', o, hpath, -⟩ := Outline.mem_positionsFrom.mp h
        exact absurd hpath (List.cons_ne_nil _ _).symm
    · rintro rfl
      exact .inl rfl
  | cons i path ih =>
    rw [n.outline_eq, Outline.positions, List.mem_cons, at?_cons, Outline.mem_positionsFrom]
    constructor
    · rintro (h | ⟨j, path', o, hpath, ho, h⟩)
      · exact absurd (Prod.mk.inj h).1 (List.cons_ne_nil _ _)
      · obtain ⟨rfl, rfl⟩ := List.cons.inj hpath
        rw [List.getElem?_map] at ho
        obtain ⟨c, hc, rfl⟩ := Option.map_eq_some_iff.mp ho
        exact ⟨c, by rw [Nat.zero_add]; exact hc, ih.mp h⟩
    · rintro ⟨c, hc, h⟩
      refine .inr ⟨i, path, c.outline, by rw [Nat.zero_add], ?_, ih.mpr h⟩
      rw [List.getElem?_map, hc]
      rfl

/-! ### What is collected -/

/-- Some things are all there is of what stands at positions, each position once and in order. -/
structure Enumerates {α : Type} (stands : List Nat → α → Prop) (found : List (List Nat × α)) :
    Prop where
  ordered : found.Pairwise fun x y => x.1 < y.1
  exact : ∀ path a, (path, a) ∈ found ↔ stands path a

theorem Enumerates.congr {α : Type} {stands stands' : List Nat → α → Prop}
    {found : List (List Nat × α)} (h : Enumerates stands found)
    (hiff : ∀ path a, stands path a ↔ stands' path a) : Enumerates stands' found :=
  ⟨h.ordered, fun path a => (h.exact path a).trans (hiff path a)⟩

section

variable {α β γ : Type}

theorem flatMap_elim (find : β → Option α) (report : α → List γ) (xs : List β) :
    xs.flatMap (fun x => (find x).elim [] report) = (xs.filterMap find).flatMap report := by
  induction xs with
  | nil => rfl
  | cons x xs ih =>
    rw [List.flatMap_cons, List.filterMap_cons, ih]
    cases find x <;> rfl

/-- What is reported of the positions inside a node is reported of those at which something is
found, in order. -/
theorem Node.exists_enumerates (n : Node) (find : List Nat → Node → Option α)
    (report : α → List β) : ∃ found,
      Enumerates (fun path a => ∃ k, n.at? path = some k ∧ find path k = some a) found ∧
      n.outline.positions.flatMap (fun x => (find x.1 x.2).elim [] report) =
        found.flatMap fun x => report x.2 := by
  refine ⟨n.outline.positions.filterMap fun x => (find x.1 x.2).map (x.1, ·), ⟨?_, ?_⟩, ?_⟩
  · rw [List.pairwise_filterMap]
    refine n.outline.pairwise_positions.imp fun hlt y hy y' hy' => ?_
    obtain ⟨a, -, rfl⟩ := Option.map_eq_some_iff.mp hy
    obtain ⟨a', -, rfl⟩ := Option.map_eq_some_iff.mp hy'
    exact hlt
  · intro path a
    rw [List.mem_filterMap]
    constructor
    · rintro ⟨⟨path', k⟩, hk, h⟩
      obtain ⟨a', ha, heq⟩ := Option.map_eq_some_iff.mp h
      obtain ⟨rfl, rfl⟩ := Prod.mk.inj heq
      exact ⟨k, mem_positions.mp hk, ha⟩
    · rintro ⟨k, hk, ha⟩
      exact ⟨(path, k), mem_positions.mpr hk, by rw [ha]; rfl⟩
  · rw [← flatMap_elim]
    refine congrArg (n.outline.positions.flatMap ·) (funext fun x => ?_)
    cases find x.1 x.2 <;> rfl

/-- A rule that looks at every node by itself reports of those in which it finds something. -/
theorem Node.exists_enumerates_nodes (n : Node) {rule : Node → List β} {find : Node → Option α}
    {report : α → List β} (hrule : ∀ k, rule k = (find k).elim [] report) : ∃ found,
      Enumerates (fun path a => ∃ k, n.at? path = some k ∧ find k = some a) found ∧
      n.outline.nodes.flatMap rule = found.flatMap fun x => report x.2 := by
  obtain ⟨found, hfound, hreport⟩ := n.exists_enumerates (fun _ => find) report
  refine ⟨found, hfound, ?_⟩
  rw [Outline.nodes_eq, List.flatMap_map, funext hrule]
  exact hreport

/-- The circumstances under which a walk comes to a position inside a node, where `inside` says what
a node makes of the circumstances it is met under for what is in it. -/
def Node.circumstances (inside : γ → Node → γ) (around : γ) : Node → List Nat → γ
  | _, [] => around
  | n, i :: path =>
    match n.children[i]? with
    | some c => circumstances inside (inside around n) c path
    | none => around

namespace Outline

variable {enter : γ → Node → List α × Option γ} {found : γ → Node → List α}
  {inside : γ → Node → γ}

mutual

/-- A walk that passes nothing over collects from every position what is found there under the
circumstances it comes there. -/
theorem walk_eq_flatMap
    (henter : ∀ around n, enter around n = (found around n, some (inside around n))) :
    ∀ (o : Outline) (n : Node) (around : γ), o = n.outline → o.walk enter around =
      o.positions.flatMap fun x => found (n.circumstances inside around x.1) x.2
  | .mk k parts, n, around, h => by
    rw [n.outline_eq] at h
    obtain ⟨rfl, hparts⟩ := Outline.mk.inj h
    have hinside := walkAll_eq_flatMap henter parts k.children 0 (inside around k) hparts
      (fun x => found (k.circumstances inside around x.1) x.2) fun j c hc path k' => by
        rw [Nat.zero_add, Node.circumstances, hc]
    have hwalk : (Outline.mk k parts).walk enter around =
        found around k ++ walkAll enter (inside around k) parts := by rw [walk, henter]
    rw [hwalk, hinside]
    rfl

/-- The same of the parts of a node from the `i`-th one on. -/
theorem walkAll_eq_flatMap
    (henter : ∀ around n, enter around n = (found around n, some (inside around n))) :
    ∀ (os : List Outline) (ns : List Node) (i : Nat) (around : γ), os = ns.map Node.outline →
      ∀ collect : List Nat × Node → List α,
      (∀ j c, ns[j]? = some c → ∀ path k, collect ((i + j) :: path, k) =
        found (c.circumstances inside around path) k) →
      walkAll enter around os = (positionsFrom i os).flatMap collect
  | [], _, _, _, _, _, _ => rfl
  | _ :: _, [], _, _, h, _, _ => absurd h (List.cons_ne_nil _ _)
  | o :: os, c :: ns, i, around, h, collect, hcollect => by
    obtain ⟨ho, hos⟩ := List.cons.inj h
    have hfirst : o.walk enter around =
        (o.positions.map fun x => (i :: x.1, x.2)).flatMap collect := by
      rw [walk_eq_flatMap henter o c around ho, List.flatMap_map]
      refine congrArg (o.positions.flatMap ·) (funext fun x => ?_)
      exact (hcollect 0 c rfl x.1 x.2).symm
    have hothers := walkAll_eq_flatMap henter os ns (i + 1) around hos collect
      fun j c' hc' path k => by
        rw [Nat.add_right_comm, Nat.add_assoc]
        exact hcollect (j + 1) c' hc' path k
    rw [walkAll, positionsFrom, List.flatMap_append, hfirst, hothers]

end

end Outline

end

end Durable
