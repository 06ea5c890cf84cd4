/-
What stands in a tree that is read was read.

A tree is put together from parts that were read, so every type and every expression in it, at
whatever depth, was read by some symbol at a cursor on the way.  What a production says of the parts
it joins, or of the tokens it passes, is therefore true wherever its result stands in a tree.
`Node.Forall` speaks of a node and all that is inside it; the induction over the grammar shows that
all of it was read, and needs to know of each production only what its result is made of.
-/
import Durable.Proofs.Tree.Positions
import Durable.Proofs.Grammar.Inits
import Durable.Proofs.Grammar.Standing

namespace Durable

open Cursor (Reaches)

/-! ### Properties of all nodes -/

/-- A property holds of a node and of all that is inside it. -/
def Node.Forall (P : Node → Prop) (n : Node) : Prop := ∀ path k, n.at? path = some k → P k

theorem Node.forall_iff {P : Node → Prop} {n : Node} :
    n.Forall P ↔ P n ∧ ∀ k ∈ n.children, k.Forall P := by
  constructor
  · intro h
    refine ⟨h [] n rfl, fun k hk path k' hk' => ?_⟩
    obtain ⟨i, hi⟩ := List.getElem?_of_mem hk
    exact h (i :: path) k' (at?_cons.mpr ⟨k, hi, hk'⟩)
  · rintro ⟨hroot, hparts⟩ path k hk
    cases path with
    | nil => exact Option.some.inj hk ▸ hroot
    | cons i path =>
      obtain ⟨c, hc, hk⟩ := at?_cons.mp hk
      exact hparts c (List.mem_of_getElem? hc) path k hk

/-- A node is a type or an expression; the question mark of a configured variable, which a
declaration may have for its value, counts as neither. -/
def Node.isTerm : Node → Bool
  | .expr (.required _) => false
  | .type _ | .expr _ => true
  | _ => false

/-- The type or the expression that a symbol reads, if it reads one. -/
def Sym.node? : (s : Sym) → s.Result → Option Node
  | type, t | intersection, t | suffixed, t | suffixing, t | plainType, t | typeArgument, t =>
    some (.type t)
  | expr, e | binary _, e | joining _, e | unary, e | accessed, e | accessing, e | primary, e
  | mapping, e => some (.expr e)
  | _, _ => none

/-- A node was read behind a cursor, if it is a type or an expression. -/
inductive Node.WasRead (c₀ : Cursor) : Node → Prop
  | term {s : Sym} {c c' : Cursor} {t : s.Result} {n : Node} (reached : c₀.Reaches c)
      (reads : Reads s c t c') (node : s.node? t = some n) : WasRead c₀ n
  | other {n : Node} (h : n.isTerm = false) : WasRead c₀ n

/-- Of all types and expressions in a node it is known that they were read behind a cursor. -/
abbrev Node.AllRead (c₀ : Cursor) (n : Node) : Prop := n.Forall (WasRead c₀)

theorem Node.allRead_of_children {c₀ : Cursor} {n : Node} (h : n.isTerm = false)
    (hparts : ∀ k ∈ n.children, k.AllRead c₀) : n.AllRead c₀ :=
  forall_iff.mpr ⟨.other h, hparts⟩

theorem Reads.allRead_node {c₀ c c' : Cursor} {s : Sym} {t : s.Result} (h : Reads s c t c')
    (hr : c₀.Reaches c) {n : Node} (hn : s.node? t = some n)
    (hparts : ∀ k ∈ n.children, k.AllRead c₀) : n.AllRead c₀ :=
  Node.forall_iff.mpr ⟨.term hr h hn, hparts⟩

/-! ### Types and expressions -/

/-- Of all types and expressions in what a symbol reads it is known that they were read behind a
cursor. -/
def Sym.AllRead (c₀ : Cursor) : (s : Sym) → s.Result → Prop
  | type, t | intersection, t | suffixed, t | suffixing, t | plainType, t | typeArgument, t =>
    (Node.type t).AllRead c₀
  | typeParam, p => (Node.type p.2).AllRead c₀
  | recordItem, .inl f => (Node.type f.type).AllRead c₀ ∧ ∀ e ∈ f.default, (Node.expr e).AllRead c₀
  | recordItem, .inr t => (Node.type t).AllRead c₀
  | expr, e | binary _, e | joining _, e | unary, e | accessed, e | accessing, e | primary, e
  | mapping, e => (Node.expr e).AllRead c₀
  | arg, a => (Node.arg a).AllRead c₀
  | mappingField, f => (Node.field f).AllRead c₀
  | tag, a => (Node.annotationTag a).AllRead c₀
  | param, p => (Node.param p).AllRead c₀
  | localVar, d => (Node.localVar d).AllRead c₀
  | many _ s, as | separated _ s, as | commaList _ s, as => ∀ a ∈ as, s.AllRead c₀ a
  | behind _ s, a | given _ s, a => ∀ b ∈ a, s.AllRead c₀ b

section

variable {c₀ c c' : Cursor}

theorem allRead_ref (r : NameRef) : (Node.ref r).AllRead c₀ :=
  Node.allRead_of_children rfl (by simp [Node.children])

/-- **All types and expressions in what is read were read.** -/
theorem Reads.allRead {s : Sym} {t : s.Result} (h : Reads s c t c') :
    c₀.Reaches c → s.AllRead c₀ t := by
  induction h with
  -- What these read is what their part reads, and its own symbol has said it was read.
  | suffixed _ _ ih | plain _ ih | condition _ _ ih | operand _ ih | binary _ _ ih | bare _ ih
  | accessed _ _ ih | primary _ ih | mapping _ ih => exact ih
  | oneMember _ ih | onePart _ ih => exact fun hr => ih hr _ (List.mem_singleton.mpr rfl)
  | union members ih =>
    exact fun hr => (Reads.union members).allRead_node hr rfl
      (List.forall_mem_map.mpr (ih hr))
  | intersection members ih =>
    exact fun hr => (Reads.intersection members).allRead_node hr rfl
      (List.forall_mem_map.mpr (ih hr))
  | optional inner mark ih =>
    exact fun hr => (Reads.optional inner mark).allRead_node hr rfl
      (List.forall_mem_singleton.mpr (ih hr))
  | array inner opening closing ih =>
    exact fun hr => (Reads.array inner opening closing).allRead_node hr rfl
      (List.forall_mem_singleton.mpr (ih hr))
  | typeArgument _ _ _ ih => exact fun hr => ih hr.step
  | builtin word alone =>
    exact fun hr => (Reads.builtin word alone).allRead_node hr rfl (List.forall_mem_nil _)
  | typeName hat ref =>
    exact fun hr => (Reads.typeName hat ref).allRead_node hr rfl (List.forall_mem_nil _)
  | inferred word =>
    exact fun hr => (Reads.inferred word).allRead_node hr rfl (List.forall_mem_nil _)
  | mapType word inner ih =>
    exact fun hr => (Reads.mapType word inner).allRead_node hr rfl
      (List.forall_mem_singleton.mpr (ih hr.step))
  | future word inner ih =>
    intro hr
    refine (Reads.future word inner).allRead_node hr rfl ?_
    have h : ∀ u ∈ (_ : Option TypeDesc), (Node.type u).AllRead c₀ := ih hr.step
    simpa [Node.children, TypeDesc.children] using h
  | stream word opening item completion closing ih₁ ih₂ =>
    intro hr
    refine (Reads.stream word opening item completion closing).allRead_node hr rfl ?_
    have h₁ := ih₁ hr.step.step
    have h₂ := ih₂ (hr.step.step.trans item.reaches)
    simpa [Node.children, TypeDesc.children] using ⟨h₁, h₂⟩
  | anyFunction word alone =>
    exact fun hr => (Reads.anyFunction word alone).allRead_node hr rfl (List.forall_mem_nil _)
  | functionType word opening list result ih₁ ih₂ =>
    intro hr
    refine (Reads.functionType word opening list result).allRead_node hr rfl ?_
    have h₁ := ih₁ hr.step.step
    have h₂ := ih₂ (hr.step.step.trans list.reaches)
    have hfixed := fun t ht => h₁ _ (mem_of_mem_fixedParams (t := t) ht)
    have hrest := fun t ht => h₁ _ (mem_of_restParam (t := t) ht)
    simpa [Node.children, TypeDesc.children, or_imp, forall_and]
      using ⟨hfixed, hrest, h₂⟩
  | record word opening list ih =>
    intro hr
    refine (Reads.record word opening list).allRead_node hr rfl ?_
    have h := ih hr.step.step
    have hlisted := fun f hf => h _ (mem_of_mem_listedFields (f := f) hf)
    have hunlisted := fun t ht => h _ (mem_of_unlistedFields (t := t) ht)
    intro k hk
    rcases List.mem_append.mp hk with hk | hk
    · obtain ⟨f, hf, hk⟩ := List.mem_flatMap.mp hk
      obtain ⟨htype, hdefault⟩ := hlisted f hf
      rcases List.mem_cons.mp hk with rfl | hk
      · exact htype
      · obtain ⟨e, he, rfl⟩ := Option.map_eq_some_iff.mp (Option.mem_toList.mp hk)
        exact hdefault e he
    · obtain ⟨t, ht, rfl⟩ := Option.map_eq_some_iff.mp (Option.mem_toList.mp hk)
      exact hunlisted t ht
  | singleton word =>
    exact fun hr => (Reads.singleton word).allRead_node hr rfl (List.forall_mem_nil _)
  | nilType opening closing =>
    exact fun hr => (Reads.nilType opening closing).allRead_node hr rfl (List.forall_mem_nil _)
  | parenType opening inner closing ih =>
    exact fun hr => (Reads.parenType opening inner closing).allRead_node hr rfl
      (List.forall_mem_singleton.mpr (ih hr.step))
  | typeParam _ ih => exact ih
  | @recordField c _ _ _ _ _ type _ _ _ _ ih₁ ih₂ =>
    intro hr
    have hat := hr.ite (b := c.atReadonlyMark)
    exact ⟨ih₁ hat, ih₂ ((hat.trans type.reaches).step.pass _)⟩
  | recordRest _ _ _ ih => exact fun hr => ih hr.ite
  | conditional condition question ifTrue colon ifFalse ih₁ ih₂ ih₃ =>
    intro hr
    refine (Reads.conditional condition question ifTrue colon ifFalse).allRead_node hr rfl ?_
    have hr₁ := (hr.trans condition.reaches).step
    have h₁ := ih₁ hr
    have h₂ := ih₂ hr₁
    have h₃ := ih₃ (hr₁.trans ifTrue.reaches).step
    simpa [Node.children, Expr.children] using ⟨h₁, h₂, h₃⟩
  | operator left mark tight right ih₁ ih₂ =>
    intro hr
    refine (Reads.operator left mark tight right).allRead_node hr rfl ?_
    have h₁ := ih₁ hr
    have h₂ := ih₂ (hr.trans left.reaches).step
    simpa [Node.children, Expr.children] using ⟨h₁, h₂⟩
  | typeTest left word tight right ih₁ ih₂ =>
    intro hr
    refine (Reads.typeTest left word tight right).allRead_node hr rfl ?_
    have h₁ := ih₁ hr
    have h₂ := ih₂ (hr.trans left.reaches).step
    simpa [Node.children, Expr.children] using ⟨h₁, h₂⟩
  | unary word inner ih =>
    exact fun hr => (Reads.unary word inner).allRead_node hr rfl
      (List.forall_mem_singleton.mpr (ih hr.step))
  | cast type inner ih₁ ih₂ =>
    intro hr
    refine (Reads.cast type inner).allRead_node hr rfl ?_
    have h₁ := ih₁ hr
    have h₂ := ih₂ (hr.trans type.reaches)
    simpa [Node.children, Expr.children] using ⟨h₁, h₂⟩
  | field target dot name alone ih =>
    exact fun hr => (Reads.field target dot name alone).allRead_node hr rfl
      (List.forall_mem_singleton.mpr (ih hr))
  | methodCall target dot name opening args ih₁ ih₂ =>
    intro hr
    refine (Reads.methodCall target dot name opening args).allRead_node hr rfl ?_
    have h₁ := ih₁ hr
    have h₂ := ih₂ (hr.trans target.reaches).step.step.step
    simpa [Node.children, Expr.children] using ⟨h₁, h₂⟩
  | remoteCall target arrow name opening args ih₁ ih₂ =>
    intro hr
    refine (Reads.remoteCall target arrow name opening args).allRead_node hr rfl ?_
    have h₁ := ih₁ hr
    have h₂ := ih₂ (hr.trans target.reaches).step.step.step
    simpa [Node.children, Expr.children] using ⟨h₁, h₂⟩
  | index target opening position closing ih₁ ih₂ =>
    intro hr
    refine (Reads.index target opening position closing).allRead_node hr rfl ?_
    have h₁ := ih₁ hr
    have h₂ := ih₂ (hr.trans target.reaches).step
    simpa [Node.children, Expr.children] using ⟨h₁, h₂⟩
  | literal word =>
    exact fun hr => (Reads.literal word).allRead_node hr rfl (List.forall_mem_nil _)
  | nilValue opening closing =>
    exact fun hr => (Reads.nilValue opening closing).allRead_node hr rfl (List.forall_mem_nil _)
  | paren opening inner closing ih =>
    exact fun hr => (Reads.paren opening inner closing).allRead_node hr rfl
      (List.forall_mem_singleton.mpr (ih hr.step))
  | list opening items ih =>
    exact fun hr => (Reads.list opening items).allRead_node hr rfl
      (List.forall_mem_map.mpr (ih hr.step))
  | @construct _ _ _ _ as word type args ih₁ ih₂ =>
    intro hr
    refine (Reads.construct word type args).allRead_node hr rfl ?_
    have h₁ := ih₁ hr.step
    have h₂ := ih₂ (hr.step.trans type.reaches)
    have hargs : ∀ a ∈ as.getD [], (Node.arg a).AllRead c₀ := by
      cases as with
      | none => exact List.forall_mem_nil _
      | some as => exact h₂ as rfl
    simpa [Node.children, Expr.children, or_imp, forall_and] using ⟨h₁, hargs⟩
  | errorCall word opening args ih =>
    intro hr
    refine (Reads.errorCall word opening args).allRead_node hr rfl ?_
    have h : ∀ a ∈ (_ : List Arg), (Node.arg a).AllRead c₀ := ih hr.step.step
    simpa [Node.children, Expr.children, allRead_ref] using h
  | name hat ref alone =>
    exact fun hr => (Reads.name hat ref alone).allRead_node hr rfl
      (List.forall_mem_singleton.mpr (allRead_ref _))
  | call hat ref opening args ih =>
    intro hr
    refine (Reads.call hat ref opening args).allRead_node hr rfl ?_
    have h : ∀ a ∈ (_ : List Arg), (Node.arg a).AllRead c₀ := ih (hr.trans ref.reaches).step
    simpa [Node.children, Expr.children, allRead_ref] using h
  | restArg _ _ ih =>
    exact fun hr => Node.allRead_of_children rfl (List.forall_mem_singleton.mpr (ih hr.step))
  | namedArg _ _ _ ih =>
    exact fun hr => Node.allRead_of_children rfl (List.forall_mem_singleton.mpr (ih hr.step.step))
  | positional _ _ ih =>
    exact fun hr => Node.allRead_of_children rfl (List.forall_mem_singleton.mpr (ih hr))
  | spread _ _ ih =>
    exact fun hr => Node.allRead_of_children rfl (List.forall_mem_singleton.mpr (ih hr.step))
  | stringField _ _ _ ih | wordField _ _ _ ih =>
    exact fun hr => Node.allRead_of_children rfl (List.forall_mem_singleton.mpr (ih hr.step.step))
  | computedField _ key _ _ _ ih₁ ih₂ =>
    intro hr
    refine Node.allRead_of_children rfl ?_
    have h₁ := ih₁ hr.step
    have h₂ := ih₂ (hr.step.trans key.reaches).step.step
    simpa [Node.children, MappingField.children] using ⟨h₁, h₂⟩
  | shorthand =>
    exact fun _ => Node.allRead_of_children rfl (List.forall_mem_singleton.mpr (allRead_ref _))
  | fields opening list ih =>
    exact fun hr => (Reads.fields opening list).allRead_node hr rfl
      (List.forall_mem_map.mpr (ih hr.step))
  | tag _ ref _ ih =>
    intro hr
    refine Node.allRead_of_children rfl ?_
    have h : ∀ e ∈ (_ : Option Expr), (Node.expr e).AllRead c₀ := ih (hr.step.trans ref.reaches)
    simpa [Node.children] using h
  | restParam annotations type _ _ ih₁ ih₂ =>
    intro hr
    refine Node.allRead_of_children rfl ?_
    have h₁ := ih₁ hr
    have h₂ := ih₂ (hr.trans annotations.reaches)
    simpa [Node.children, or_imp, forall_and] using ⟨h₁, h₂⟩
  | param annotations type _ _ ih₁ ih₂ ih₃ =>
    intro hr
    refine Node.allRead_of_children rfl ?_
    have hr₁ := hr.trans annotations.reaches
    have h₁ := ih₁ hr
    have h₂ := ih₂ hr₁
    have h₃ := ih₃ (hr₁.trans type.reaches).step
    simpa [Node.children, or_imp, forall_and] using ⟨h₁, h₂, h₃⟩
  | localVar annotations type _ _ _ ih₁ ih₂ ih₃ =>
    intro hr
    refine Node.allRead_of_children rfl ?_
    have hr₁ := (hr.trans annotations.reaches).pass (.keyword .kwFinal)
    have h₁ := ih₁ hr
    have h₂ := ih₂ hr₁
    have h₃ := ih₃ (hr₁.trans type.reaches).step
    simpa [Node.children, LocalVar.children, or_imp, forall_and] using ⟨h₁, h₂, h₃⟩
  | stop | noItems => exact fun _ => List.forall_mem_nil _
  | more step first _ ih₁ ih₂ =>
    intro hr
    have hr₁ := hr.trans (Gap.step_reaches step)
    exact List.forall_mem_cons.mpr ⟨ih₁ hr₁, ih₂ (hr₁.trans first.reaches)⟩
  | separated first _ ih₁ ih₂ | items _ first _ ih₁ ih₂ =>
    exact fun hr => List.forall_mem_cons.mpr ⟨ih₁ hr, ih₂ (hr.trans first.reaches)⟩
  | absent | missing => exact fun _ _ h => absurd h (by simp)
  | present _ _ ih => exact fun hr b hb => Option.some.inj hb ▸ ih hr.step
  | found _ _ ih => exact fun hr b hb => Option.some.inj hb ▸ ih hr

/-! ### Statements -/

/-- Of all types and expressions in what a symbol of statements reads it is known that they were
read behind a cursor. -/
def StmtSym.AllRead (c₀ : Cursor) : (s : StmtSym) → s.Result → Prop
  | stmt, s | ifElse, s => (Node.stmt s).AllRead c₀
  | block, b => (Node.block b).AllRead c₀
  | stmts, ss => ∀ s ∈ ss, (Node.stmt s).AllRead c₀
  | otherwise, s => ∀ s' ∈ s, (Node.stmt s').AllRead c₀

theorem allRead_stmt {s : Stmt} (h : ∀ k ∈ s.children, k.AllRead c₀) : (Node.stmt s).AllRead c₀ :=
  Node.allRead_of_children rfl h

theorem ReadsStmt.allRead {s : StmtSym} {t : s.Result} (h : ReadsStmt s c t c') :
    c₀.Reaches c → s.AllRead c₀ t := by
  induction h with
  | localVar decl => exact fun hr => allRead_stmt (List.forall_mem_singleton.mpr (decl.allRead hr))
  | assign _ target _ value _ =>
    intro hr
    have h₁ := target.allRead hr
    have h₂ := value.allRead (hr.trans target.reaches).step
    exact allRead_stmt (by simpa [Stmt.children] using ⟨h₁, h₂⟩)
  | expr _ value _ =>
    exact fun hr => allRead_stmt (List.forall_mem_singleton.mpr (value.allRead hr))
  | lock _ _ ih | attempt _ _ _ ih =>
    exact fun hr => allRead_stmt (List.forall_mem_singleton.mpr (ih hr.step))
  | ifElse _ ih => exact ih
  | whileLoop _ condition _ ih =>
    intro hr
    have h₁ := condition.allRead hr.step
    have h₂ := ih (hr.step.trans condition.reaches)
    exact allRead_stmt (by simpa [Stmt.children] using ⟨h₁, h₂⟩)
  | foreach _ type _ _ items _ ih =>
    intro hr
    have hr₁ := (hr.step.trans type.reaches).step.step
    have h₁ := type.allRead hr.step
    have h₂ := items.allRead hr₁
    have h₃ := ih (hr₁.trans items.reaches)
    exact allRead_stmt (by simpa [Stmt.children] using ⟨h₁, h₂, h₃⟩)
  | giveBack _ value _ =>
    intro hr
    have h : ∀ e ∈ (_ : Option Expr), (Node.expr e).AllRead c₀ := value.allRead hr.step
    exact allRead_stmt (by simpa [Stmt.children] using h)
  | attemptOnFail _ body _ _ type _ _ ih₁ ih₂ =>
    intro hr
    have hr₁ := (hr.step.trans body.reaches).step.step
    have h₁ := ih₁ hr.step
    have h₂ := type.allRead hr₁
    have h₃ := ih₂ (hr₁.trans type.reaches).step
    exact allRead_stmt (by simpa [Stmt.children] using ⟨h₁, h₂, h₃⟩)
  | blockStmt _ ih => exact fun hr => allRead_stmt (List.forall_mem_singleton.mpr (ih hr))
  | panic _ value _ | fail _ value _ =>
    exact fun hr => allRead_stmt (List.forall_mem_singleton.mpr (value.allRead hr.step))
  | leave | again => exact fun _ => allRead_stmt (List.forall_mem_nil _)
  | block _ _ ih =>
    exact fun hr => Node.allRead_of_children rfl (List.forall_mem_map.mpr (ih hr.step))
  | noStmts => exact fun _ => List.forall_mem_nil _
  | stmts _ _ first _ ih₁ ih₂ =>
    exact fun hr => List.forall_mem_cons.mpr ⟨ih₁ hr, ih₂ (hr.trans first.reaches)⟩
  | condition _ condition body _ ih₁ ih₂ =>
    intro hr
    have hr₁ := hr.step.trans condition.reaches
    have h₁ := condition.allRead hr.step
    have h₂ := ih₁ hr₁
    have h₃ := ih₂ (hr₁.trans body.reaches)
    exact allRead_stmt (by
      simpa [Stmt.children, or_imp, forall_and] using ⟨h₁, h₂, h₃⟩)
  | noElse => exact fun _ _ h => absurd h (by simp)
  | elseIf _ _ ih => exact fun hr s hs => Option.some.inj hs ▸ ih hr.step
  | elseBlock _ _ ih =>
    exact fun hr s hs => Option.some.inj hs ▸
      allRead_stmt (List.forall_mem_singleton.mpr (ih hr.step))

/-! ### Members -/

variable {source : Source} {origin : Nat} {as : List Annotation} {ms : Modifiers}

/-- What holds of all that the items of a repetition are read as holds of the repetition. -/
theorem Repeats.allRead {α : Type} {step : Cursor → Option (Bool × Cursor)}
    {R : Cursor → α → Cursor → Prop} {Q : α → Prop}
    (hstep : ∀ {c b c'}, step c = some (b, c') → c.Reaches c')
    (hreaches : ∀ {c a c'}, R c a c' → c.Reaches c')
    (hQ : ∀ {c a c'}, R c a c' → c₀.Reaches c → Q a) {xs : List α} (h : Repeats step R c xs c')
    (hr : c₀.Reaches c) : ∀ x ∈ xs, Q x := by
  intro x hx
  obtain ⟨d, d', hr', hread⟩ := Repeats.reached hstep hreaches h hx
  exact hQ hread (hr.trans hr')

theorem ReadsReturns.allRead {t : Option TypeDesc} (h : ReadsReturns c t c') (hr : c₀.Reaches c) :
    ∀ u ∈ t, (Node.type u).AllRead c₀ := by
  cases h with
  | absent => exact fun _ h => absurd h (by simp)
  | present _ dropped type =>
    exact fun u hu => Option.some.inj hu ▸ type.allRead (hr.step.trans dropped.reaches)

theorem ReadsTypeBefore.allRead {absent : TokenKind → Bool} {t : Option TypeDesc}
    (h : ReadsTypeBefore absent c t c') (hr : c₀.Reaches c) :
    ∀ u ∈ t, (Node.type u).AllRead c₀ := by
  cases h with
  | missing => exact fun _ h => absurd h (by simp)
  | found _ type => exact fun u hu => Option.some.inj hu ▸ type.allRead hr

theorem ReadsInit.allRead {configurable : Bool} {e : Option Expr}
    (h : ReadsInit configurable c e c') (hr : c₀.Reaches c) :
    ∀ v ∈ e, (Node.expr v).AllRead c₀ := by
  cases h with
  | written value => exact value.allRead hr
  | required =>
    intro v hv
    obtain rfl := Option.some.inj hv
    exact Node.allRead_of_children rfl (List.forall_mem_nil _)

theorem ReadsFunction.allRead {f : Function} (h : ReadsFunction source origin as ms c f c')
    (has : ∀ a ∈ as, (Node.annotationTag a).AllRead c₀) (hr : c₀.Reaches c) :
    (Node.function f).AllRead c₀ := by
  cases h with
  | mk _ _ hpath _ list result hbody =>
    have hr₁ := (hr.step.step.trans hpath.reaches).step
    have hr₂ := hr₁.trans list.reaches
    have hparams := list.allRead hr₁
    have hreturns := result.allRead hr₂
    have hblock := hbody.allRead (hr₂.trans result.reaches)
    refine Node.allRead_of_children rfl ?_
    simpa [Node.children, or_imp, forall_and]
      using ⟨has, hparams, hreturns, hblock⟩

theorem ReadsVarDecl.allRead {configurable : Bool} {v : VarDecl}
    (h : ReadsVarDecl origin as ms configurable c v c')
    (has : ∀ a ∈ as, (Node.annotationTag a).AllRead c₀) (hr : c₀.Reaches c) :
    ∀ k ∈ v.children, k.AllRead c₀ := by
  cases h with
  | mk type _ value _ =>
    have htype := type.allRead hr
    have hinit := value.allRead (hr.trans type.reaches).step
    simpa [VarDecl.children, or_imp, forall_and] using ⟨has, htype, hinit⟩

theorem ReadsValueDecl.allRead {d : ValueDecl} (h : ReadsValueDecl origin as ms c d c')
    (has : ∀ a ∈ as, (Node.annotationTag a).AllRead c₀) (hr : c₀.Reaches c) :
    ∀ k ∈ d.children, k.AllRead c₀ := by
  cases h with
  | mk type _ _ value _ =>
    have htype := type.allRead hr.step
    have hvalue := value.allRead (hr.step.trans type.reaches).step.step
    simpa [ValueDecl.children, or_imp, forall_and] using ⟨has, htype, hvalue⟩

theorem ReadsServiceMember.allRead {d : ServiceMember} (h : ReadsServiceMember source c d c')
    (hr : c₀.Reaches c) : ∀ k ∈ d.children, k.AllRead c₀ := by
  cases h with
  | method annotations modifiers decl =>
    have hr₁ := (hr.trans annotations.reaches).trans modifiers.reaches
    exact List.forall_mem_singleton.mpr (decl.allRead (annotations.allRead hr) hr₁)
  | field annotations modifiers _ decl =>
    have hr₁ := (hr.trans annotations.reaches).trans modifiers.reaches
    exact decl.allRead (annotations.allRead hr) hr₁

theorem ReadsService.allRead {s : Service} (h : ReadsService source origin as ms c s c')
    (has : ∀ a ∈ as, (Node.annotationTag a).AllRead c₀) (hr : c₀.Reaches c) :
    (Node.service s).AllRead c₀ := by
  cases h with
  | mk _ type hpath _ listeners _ list =>
    have hr₁ := ((hr.step.trans type.reaches).trans hpath.reaches).step
    have htype := type.allRead hr.step
    have hlisteners := listeners.allRead hr₁
    have hmembers := Repeats.allRead (Q := fun d => ∀ k ∈ d.children, k.AllRead c₀)
      closingStep_reaches ReadsServiceMember.reaches ReadsServiceMember.allRead list
      (hr₁.trans listeners.reaches).step
    refine Node.allRead_of_children rfl ?_
    simpa [Node.children, or_imp, forall_and]
      using ⟨has, htype, hlisteners, fun k d hd => hmembers d hd k⟩

theorem ReadsDecl.allRead {d : Member} (h : ReadsDecl source origin as ms c d c')
    (has : ∀ a ∈ as, (Node.annotationTag a).AllRead c₀) (hr : c₀.Reaches c) :
    (Node.member d).AllRead c₀ := by
  refine Node.allRead_of_children rfl ?_
  cases h with
  | function decl | service decl => exact List.forall_mem_singleton.mpr (decl.allRead has hr)
  | const _ decl | listener _ decl | moduleVar _ decl => exact decl.allRead has hr
  | type _ decl =>
    cases decl with
    | mk _ type _ =>
      have htype := type.allRead hr.step.step
      simpa [Node.children, Member.children, or_imp, forall_and]
        using ⟨has, htype⟩
  | annotationDecl _ decl =>
    cases decl with
    | mk type _ _ _ =>
      have htype := type.allRead hr.step
      simpa [Node.children, Member.children] using htype

theorem ReadsMember.allRead {d : Member} (h : ReadsMember source c d c') (hr : c₀.Reaches c) :
    (Node.member d).AllRead c₀ := by
  cases h with
  | mk annotations modifiers decl =>
    exact decl.allRead (annotations.allRead hr)
      ((hr.trans annotations.reaches).trans modifiers.reaches)

/-- **All types and expressions in a module were read behind its start.** -/
theorem ReadsModule.allRead {m : Module} (h : ReadsModule source c m c') :
    (Node.module m).AllRead c := by
  cases h with
  | mk imports members =>
    have hr := Repeats.reaches (fun _ _ _ => Gap.step_reaches) (fun _ _ _ => ReadsImport.reaches)
      imports
    have hmembers := Repeats.allRead (Q := fun d => (Node.member d).AllRead c)
      memberStep_reaches ReadsMember.reaches ReadsMember.allRead members hr
    exact Node.allRead_of_children rfl (List.forall_mem_map.mpr hmembers)

/-! ### Inferred types -/

/-- The word `var` comes next, at a place. -/
def AtVar (c : Cursor) (place : Span) : Prop :=
  c.kind = .keyword .kwVar ∧ place = c.advance.since c.start

variable {place : Span}

theorem Reads.atVar_plainType (h : Reads .plainType c (.inferred place) c') : AtVar c place := by
  cases h with
  | inferred word => exact ⟨word, rfl⟩

theorem Reads.atVar_suffixing (h : Reads .suffixing c (.inferred place) c') : AtVar c place := by
  cases h with
  | plain inner => exact inner.atVar_plainType

theorem Reads.atVar_suffixed (h : Reads .suffixed c (.inferred place) c') : AtVar c place := by
  cases h with
  | suffixed chain => exact chain.atVar_suffixing

theorem Reads.atVar_intersection (h : Reads .intersection c (.inferred place) c') :
    AtVar c place := by
  cases h with
  | onePart parts => cases parts with | separated first => exact first.atVar_suffixed

theorem Reads.atVar_type (h : Reads .type c (.inferred place) c') : AtVar c place := by
  cases h with
  | oneMember members => cases members with | separated first => exact first.atVar_intersection

/-- Where the word `var` stands in a tree as a type, it stands in the text. -/
theorem Node.WasRead.exists_atVar (h : (Node.type (.inferred place)).WasRead c₀) :
    ∃ c, c₀.Reaches c ∧ AtVar c place := by
  cases h with
  | other h => simp [Node.isTerm] at h
  | @term s c c' t _ reached reads node =>
    cases s with
    | type => cases node; exact ⟨c, reached, reads.atVar_type⟩
    | intersection => cases node; exact ⟨c, reached, reads.atVar_intersection⟩
    | suffixed => cases node; exact ⟨c, reached, reads.atVar_suffixed⟩
    | suffixing => cases node; exact ⟨c, reached, reads.atVar_suffixing⟩
    | plainType => cases node; exact ⟨c, reached, reads.atVar_plainType⟩
    | typeArgument =>
      cases node
      cases reads with
      | typeArgument _ inner _ => exact ⟨c.advance, reached.step, inner.atVar_type⟩
    | _ => cases node

/-- **The place of an inferred type is that of a word `var`** in the text a module was read from. -/
theorem parseModule_slice_inferred {source : Source} {m : Module} {path : List Nat}
    (h : parseModule source.text = .ok m)
    (hplace : (Node.module m).at? path = some (.type (.inferred place))) :
    source.slice place = "var" := by
  obtain ⟨ts, tail, c', htiling, hread⟩ := reads_of_parseModule h
  obtain ⟨c, hr, hword, rfl⟩ := (hread.allRead path _ hplace).exists_atVar
  have hc := Cursor.StandsIn.reaches (Cursor.standsIn_ofTiles _ htiling) hr
  exact hc.slice_keyword hword

end

end Durable
