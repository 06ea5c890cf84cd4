/-
Where the initial values of local variables stand.

The values that a tree lists in reading order are read in that order, one behind another, each
behind its own assignment sign.  `Meets R c as c'` says that of any things: between two cursors
they are read by `R` one after another.  Spans need no comparing then; what stands earlier in
the list stands earlier in the text.
-/
import Durable.Proofs.Grammar.Places
import Durable.Proofs.Tree.Nodes

namespace Durable

open Cursor (Reaches)

/-- Between two cursors some things are read, one after another. -/
inductive Meets {α : Type} (R : Cursor → α → Cursor → Prop) : Cursor → List α → Cursor → Prop
  | done {c c' : Cursor} (h : c.Reaches c') : Meets R c [] c'
  | item {c c₁ c₂ c' : Cursor} {a : α} {as : List α} (h : c.Reaches c₁) (first : R c₁ a c₂)
      (others : Meets R c₂ as c') : Meets R c (a :: as) c'

namespace Meets

variable {α β : Type} {R : Cursor → α → Cursor → Prop} {c c₁ c₂ : Cursor} {as bs : List α}

theorem refl : Meets R c [] c := .done .refl

theorem skip (hr : c.Reaches c₁) (h : Meets R c₁ as c₂) : Meets R c as c₂ := by
  cases h with
  | done h => exact .done (hr.trans h)
  | item h first others => exact .item (hr.trans h) first others

theorem trans (h : Meets R c as c₁) (h' : Meets R c₁ bs c₂) : Meets R c (as ++ bs) c₂ := by
  induction h with
  | done h => exact h'.skip h
  | item h first _ ih => exact .item h first (ih h')

/-- What the items of a repetition meet, the repetition meets. -/
theorem of_repeats {S : Cursor → β → Cursor → Prop} {step : Cursor → Option (Bool × Cursor)}
    {f : β → List α} (hstep : ∀ c b c', step c = some (b, c') → c.Reaches c')
    (hS : ∀ c b c', S c b c' → Meets R c (f b) c') {bs : List β} (h : Repeats step S c bs c₁) :
    Meets R c (bs.flatMap f) c₁ := by
  induction h with
  | stop h => exact .done (hstep _ _ _ h)
  | more h first _ ih =>
    rw [List.flatMap_cons]
    exact ((hS _ _ _ first).trans ih).skip (hstep _ _ _ h)

theorem of_items {step : Cursor → Option (Bool × Cursor)}
    (hstep : ∀ c b c', step c = some (b, c') → c.Reaches c') (h : Repeats step R c as c₁) :
    Meets R c as c₁ := by
  have hmeets := of_repeats (R := R) (f := fun a => [a]) hstep
    (fun _ _ _ h => .item .refl h (.done .refl)) h
  rwa [List.flatMap_singleton'] at hmeets

theorem reaches (h : Meets R c as c₁) (hR : ∀ c a c', R c a c' → c.Reaches c') :
    c.Reaches c₁ := by
  induction h with
  | done h => exact h
  | item h first _ ih => exact (h.trans (hR _ _ _ first)).trans ih

/-- Every item was read somewhere in between. -/
theorem of_mem (h : Meets R c as c₁) (hR : ∀ c a c', R c a c' → c.Reaches c') {a : α}
    (ha : a ∈ as) : ∃ c₂ c₃, c.Reaches c₂ ∧ R c₂ a c₃ ∧ c₃.Reaches c₁ := by
  induction h with
  | done => simp at ha
  | item h first others ih =>
    rcases List.mem_cons.mp ha with rfl | ha
    · exact ⟨_, _, h, first, others.reaches hR⟩
    · obtain ⟨c₂, c₃, hr, hread, hr'⟩ := ih ha
      exact ⟨c₂, c₃, (h.trans (hR _ _ _ first)).trans hr, hread, hr'⟩

end Meets

/-! ### Initial values -/

/-- A value behind an assignment sign. -/
def ReadsInitValue (c : Cursor) (e : Expr) (c' : Cursor) : Prop :=
  c.kind = .mark .assign ∧ Reads .expr c.advance e c'

section

variable {c c' : Cursor}

theorem ReadsInitValue.reaches {e : Expr} (h : ReadsInitValue c e c') : c.Reaches c' :=
  Reaches.refl.step.trans h.2.reaches

theorem Reads.meets_localVar {d : LocalVar} (h : Reads .localVar c d c') :
    Meets ReadsInitValue c d.init.toList c' := by
  cases h with
  | @localVar _ c₁ c₂ _ _ _ _ _ annotations type name value closing =>
    have hat := ((annotations.reaches.pass _).trans type.reaches).step
    cases value with
    | absent => exact .done hat.step
    | present sign value => exact .item hat ⟨sign, value⟩ (.done Reaches.refl.step)

theorem ReadsStmt.meets {s : StmtSym} {t : s.Result} (h : ReadsStmt s c t c') :
    Meets ReadsInitValue c (initsOf (s.outlines t)) c' := by
  induction h with
  | localVar h => simpa [StmtSym.outlines, Stmt.parts, LocalVar.initsOf_eq] using h.meets_localVar
  | assign _ he _ hf =>
    simpa [StmtSym.outlines, Stmt.parts, Expr.outline, Node.init?]
      using Meets.done (R := ReadsInitValue) (he.reaches.step.trans hf.reaches).step
  | expr _ he =>
    simpa [StmtSym.outlines, Stmt.parts, Expr.outline, Node.init?]
      using Meets.done (R := ReadsInitValue) he.reaches.step
  | lock _ _ ih | attempt _ _ _ ih =>
    simpa [StmtSym.outlines, Stmt.parts, Node.init?] using ih.skip Reaches.refl.step
  | ifElse _ ih => exact ih
  | whileLoop _ he _ ih =>
    simpa [StmtSym.outlines, Stmt.parts, Expr.outline, Node.init?]
      using ih.skip (Reaches.refl.step.trans he.reaches)
  | foreach _ ht _ _ he _ ih =>
    simpa [StmtSym.outlines, Stmt.parts, Expr.outline, TypeDesc.outline, Node.init?]
      using ih.skip ((Reaches.refl.step.trans ht.reaches).step.step.trans he.reaches)
  | @giveBack _ _ e _ he =>
    cases e <;> simpa [StmtSym.outlines, Stmt.parts, Expr.outline, Node.init?]
      using Meets.done (R := ReadsInitValue) (Reaches.refl.step.trans he.reaches).step
  | attemptOnFail _ _ _ _ ht _ _ ih₁ ih₂ =>
    simpa [StmtSym.outlines, Stmt.parts, TypeDesc.outline, Node.init?]
      using (ih₁.skip Reaches.refl.step).trans (ih₂.skip (Reaches.refl.step.step.trans ht.reaches).step)
  | blockStmt _ ih => simpa [StmtSym.outlines, Stmt.parts, Node.init?] using ih
  | panic _ he | fail _ he =>
    simpa [StmtSym.outlines, Stmt.parts, Expr.outline, Node.init?]
      using Meets.done (R := ReadsInitValue) (Reaches.refl.step.trans he.reaches).step
  | leave | again =>
    simpa [StmtSym.outlines, Stmt.parts] using Meets.done (R := ReadsInitValue) Reaches.refl.step.step
  | block _ _ ih => simpa [StmtSym.outlines, Block.parts] using ih.skip Reaches.refl.step
  | noStmts =>
    simpa [StmtSym.outlines, stmtOutlines] using Meets.done (R := ReadsInitValue) Reaches.refl.step
  | stmts _ _ _ _ ih₁ ih₂ =>
    simpa [StmtSym.outlines, stmtOutlines, Node.init?] using ih₁.trans ih₂
  | @condition _ _ _ _ _ _ other _ he _ _ ih₁ ih₂ =>
    cases other <;> simpa [StmtSym.outlines, Stmt.parts, Expr.outline, Node.init?]
      using (ih₁.trans ih₂).skip (Reaches.refl.step.trans he.reaches)
  | noElse => simpa [StmtSym.outlines] using Meets.refl
  | elseIf _ _ ih => simpa [StmtSym.outlines] using ih.skip Reaches.refl.step
  | elseBlock _ _ ih =>
    simpa [StmtSym.outlines, Stmt.parts, Node.init?] using ih.skip Reaches.refl.step

variable {source : Source} {origin : Nat} {as : List Annotation} {ms : Modifiers}

theorem initsOf_params (ps : List Param) : initsOf (ps.map Param.outline) = [] := by
  induction ps with
  | nil => rfl
  | cons p ps ih => simp [Param.outline, TypeDesc.outline, Node.init?, ih]

theorem ReadsReturns.reaches {t : Option TypeDesc} (h : ReadsReturns c t c') : c.Reaches c' := by
  cases h with
  | absent => exact .refl
  | present _ dropped type => exact (Reaches.refl.step.trans dropped.reaches).trans type.reaches

theorem ReadsInit.reaches {configurable : Bool} {e : Option Expr}
    (h : ReadsInit configurable c e c') : c.Reaches c' := by
  cases h with
  | written value => exact value.reaches
  | required => exact Reaches.refl.step.step

theorem ReadsVarDecl.reaches {configurable : Bool} {v : VarDecl}
    (h : ReadsVarDecl origin as ms configurable c v c') : c.Reaches c' := by
  cases h with
  | mk type _ value _ => exact (type.reaches.step.trans value.reaches).step

theorem ReadsFunction.meets {f : Function} (h : ReadsFunction source origin as ms c f c') :
    Meets ReadsInitValue c (initsOf [f.outline]) c' := by
  cases h with
  | mk _ _ hpath _ list result hbody =>
    have hat := (Reaches.refl.step.step.trans hpath.reaches).step.trans list.reaches
    simpa [Function.outline, Block.outline, initsOf_params, Node.init?, StmtSym.outlines]
      using hbody.meets.skip (hat.trans result.reaches)

theorem ReadsVarDecl.meets {configurable : Bool} {v : VarDecl}
    (h : ReadsVarDecl origin as ms configurable c v c') :
    Meets ReadsInitValue c (initsOf v.parts) c' := by
  have hnone : initsOf v.parts = [] := by
    simp [VarDecl.parts, TypeDesc.outline, Node.init?]
  rw [hnone]
  exact .done h.reaches

theorem ReadsServiceMember.meets {d : ServiceMember} (h : ReadsServiceMember source c d c') :
    Meets ReadsInitValue c (initsOf d.outlines) c' := by
  cases h with
  | method annotations modifiers decl =>
    exact decl.meets.skip (annotations.reaches.trans modifiers.reaches)
  | field annotations modifiers _ decl =>
    exact decl.meets.skip (annotations.reaches.trans modifiers.reaches)

theorem initsOf_exprs (es : List Expr) : initsOf (es.map Expr.outline) = [] := by
  induction es with
  | nil => rfl
  | cons e es ih => simp [Expr.outline, Node.init?, ih]

/-- The values in a service stand behind the word that announces it. -/
theorem ReadsService.meets {d : Service} (h : ReadsService source origin as ms c d c') :
    Meets ReadsInitValue c.advance (initsOf [d.outline]) c' := by
  cases h with
  | mk word type hpath on listeners opening list =>
    have hmembers := Meets.of_repeats (S := ReadsServiceMember source)
      (fun _ _ _ => closingStep_reaches) (fun _ _ _ => ReadsServiceMember.meets) list
    have hat := ((type.reaches.trans hpath.reaches).step.trans listeners.reaches).step
    simpa [Service.outline, initsOf_exprs, initsOf_flatMap, Node.init?] using hmembers.skip hat

/-! ### Members -/

theorem ReadsStmt.reaches {s : StmtSym} {t : s.Result} (h : ReadsStmt s c t c') : c.Reaches c' :=
  h.meets.reaches fun _ _ _ => ReadsInitValue.reaches

theorem ReadsFunction.reaches {f : Function} (h : ReadsFunction source origin as ms c f c') :
    c.Reaches c' := h.meets.reaches fun _ _ _ => ReadsInitValue.reaches

theorem ReadsService.reaches {d : Service} (h : ReadsService source origin as ms c d c') :
    c.Reaches c' := Reaches.refl.step.trans (h.meets.reaches fun _ _ _ => ReadsInitValue.reaches)

theorem ReadsServiceMember.reaches {d : ServiceMember} (h : ReadsServiceMember source c d c') :
    c.Reaches c' := h.meets.reaches fun _ _ _ => ReadsInitValue.reaches

theorem ReadsTypeBefore.reaches {absent : TokenKind → Bool} {t : Option TypeDesc}
    (h : ReadsTypeBefore absent c t c') : c.Reaches c' := by
  cases h with
  | missing => exact .refl
  | found _ type => exact type.reaches

theorem ReadsValueDecl.reaches {d : ValueDecl} (h : ReadsValueDecl origin as ms c d c') :
    c.Reaches c' := by
  cases h with
  | mk type _ _ value _ =>
    exact ((Reaches.refl.step.trans type.reaches).step.step.trans value.reaches).step

theorem ReadsDecl.reaches {d : Member} (h : ReadsDecl source origin as ms c d c') :
    c.Reaches c' := by
  cases h with
  | function decl | service decl | const _ decl | listener _ decl | moduleVar _ decl =>
    exact decl.reaches
  | type _ decl =>
    cases decl with
    | mk _ type _ => exact (Reaches.refl.step.step.trans type.reaches).step
  | annotationDecl _ decl =>
    cases decl with
    | mk type _ points _ =>
      exact ((Reaches.refl.step.trans type.reaches).step.trans points.reaches).step

theorem ReadsMember.reaches {d : Member} (h : ReadsMember source c d c') : c.Reaches c' := by
  cases h with
  | mk annotations modifiers decl =>
    exact (annotations.reaches.trans modifiers.reaches).trans decl.reaches

/-- A service behind its annotations. -/
def ReadsPlainService (source : Source) (c : Cursor) (s : Service) (c' : Cursor) : Prop :=
  ∃ as ms c₁, c.Reaches c₁ ∧ ReadsService source c.start as ms c₁ s c'

theorem ReadsPlainService.reaches {s : Service} (h : ReadsPlainService source c s c') :
    c.Reaches c' := by
  obtain ⟨as, ms, c₁, hr, hread⟩ := h
  exact hr.trans hread.reaches

/-- The services among some members. -/
def Member.service? : Member → Option Service
  | service s => some s
  | _ => none

theorem ReadsMember.meets_services {d : Member} (h : ReadsMember source c d c') :
    Meets (ReadsPlainService source) c d.service?.toList c' := by
  have hr := h.reaches
  cases h with
  | mk annotations modifiers decl =>
    cases decl with
    | service decl =>
      exact .item annotations.reaches ⟨_, _, _, modifiers.reaches, decl⟩ (.done .refl)
    | _ => exact .done hr

/-- The members of a module stand behind its imports. -/
theorem ReadsModule.meets {d : Module} (h : ReadsModule source c d c') :
    ∃ c₁, Meets ReadsImport c d.imports c₁ ∧ Meets (ReadsMember source) c₁ d.members c' := by
  cases h with
  | mk imports members =>
    exact ⟨_, .of_items (fun _ _ _ => Gap.step_reaches) imports,
      .of_items (fun _ _ _ => memberStep_reaches) members⟩

end

end Durable
