/-
The places in a tree that is read.

`Encloses c c' xs` says that reading from `c` to `c'` gave nodes with the extents `xs`: each starts
at a token that was reached and stops behind one, and what belongs to it stands where it should.
It composes the way cursors do.  A node is placed around its parts after the fact, from the cursor
at which its production started; because the parts start at tokens and not in the blanks before
them, it contains them.
-/
import Durable.Proofs.Tree.Extent
import Durable.Proofs.Grammar.Termination

namespace Durable

open Extent
open Cursor (Reaches)

/-! ### Extents between cursors -/

namespace Cursor

variable {c c' c₀ c₁ c₂ : Cursor} {cs : List Char}

theorem Reaches.advance (h : c.Reaches c') : c.advance.Reaches c'.advance := by
  induction h with
  | refl => exact .refl
  | step _ ih => exact .step ih

/-- A span starts at a token behind a cursor and stops behind a token before another one. -/
def Bounds (c c' : Cursor) (s : Span) : Prop :=
  ∃ d e, c.Reaches d ∧ d.kind ≠ .endOfFile ∧ d.advance.Reaches e ∧ e.Reaches c' ∧
    s = ⟨d.start, e.passed⟩

namespace Bounds

variable {s : Span}

theorem mono (h : c₁.Bounds c₂ s) (hr : c.Reaches c₁) (hr' : c₂.Reaches c') : c.Bounds c' s := by
  obtain ⟨d, e, hd, hkind, he, he', hs⟩ := h
  exact ⟨d, e, hr.trans hd, hkind, he, he'.trans hr', hs⟩

/-- At the first of two cursors stands a token, and the second is reached behind it. -/
theorem reaches (h : c.Bounds c' s) (hc : c.StandsIn cs) :
    c.kind ≠ .endOfFile ∧ c.advance.Reaches c' := by
  obtain ⟨d, e, hd, hkind, he, he', -⟩ := h
  exact ⟨(hc.start_le hd hkind).1, hd.advance.trans (he.trans he')⟩

/-- The span lies between the start of the next token and the last token passed. -/
theorem contained (h : c.Bounds c' s) (hc : c.StandsIn cs) :
    c.start ≤ s.start ∧ s.stop ≤ c'.passed := by
  obtain ⟨d, e, hd, hkind, he, he', rfl⟩ := h
  exact ⟨(hc.start_le hd hkind).2,
    (hc.reaches (hd.trans (Reaches.refl.step.trans he))).passed_le he'⟩

/-- What was read from a token on. -/
theorem since (hc : c.StandsIn cs) (hkind : c.kind ≠ .endOfFile) (hr : c.advance.Reaches c') :
    c.Bounds c' (c'.since c.start) ∧ c'.since c.start = ⟨c.start, c'.passed⟩ := by
  obtain ⟨-, -, hlt⟩ := hc.tiled.span hkind
  have hle := hc.advance.passed_le hr
  have heq : c'.since c.start = ⟨c.start, c'.passed⟩ := by
    unfold Cursor.since
    rw [Nat.max_eq_left (by omega)]
  exact ⟨⟨c, c', .refl, hkind, hr, .refl, heq⟩, heq⟩

theorem token (hc : c.StandsIn cs) (hkind : c.kind ≠ .endOfFile) : c.Bounds c.advance c.span :=
  ⟨c, c.advance, .refl, hkind, .refl, .refl, (hc.tiled.span hkind).2.1⟩

end Bounds

/-- Reading from a cursor to another gave nodes with these extents. -/
structure Encloses (c c' : Cursor) (xs : List Extent) : Prop where
  reaches : c.Reaches c'
  placed : ∀ {cs}, c.StandsIn cs → ∀ x ∈ allOf xs, c.Bounds c' x.span ∧ x.Nests

namespace Encloses

variable {xs ys tags parts : List Extent}

theorem of_reaches (h : c.Reaches c') : c.Encloses c' [] := ⟨h, by simp⟩

theorem refl : c.Encloses c [] := of_reaches .refl

theorem trans (h : c.Encloses c₁ xs) (h' : c₁.Encloses c₂ ys) : c.Encloses c₂ (xs ++ ys) := by
  refine ⟨h.reaches.trans h'.reaches, fun hc x hx => ?_⟩
  rw [allOf_append, List.mem_append] at hx
  rcases hx with hx | hx
  · obtain ⟨hb, hn⟩ := h.placed hc x hx
    exact ⟨hb.mono .refl h'.reaches, hn⟩
  · obtain ⟨hb, hn⟩ := h'.placed (hc.reaches h.reaches) x hx
    exact ⟨hb.mono h.reaches .refl, hn⟩

theorem skip (h : c.Encloses c₁ xs) (hr : c₁.Reaches c₂) : c.Encloses c₂ xs := by
  simpa using h.trans (of_reaches hr)

theorem step (h : c.Encloses c₁ xs) : c.Encloses c₁.advance xs := h.skip Reaches.refl.step

theorem pass (h : c.Encloses c₁ xs) (k : TokenKind) : c.Encloses (c₁.pass k) xs :=
  h.skip (Reaches.refl.pass k)

theorem passName (h : c.Encloses c₁ xs) : c.Encloses c₁.passName xs :=
  h.skip Reaches.refl.passName

theorem ite (h : c.Encloses c₁ xs) {b : Bool} :
    c.Encloses (if b then c₁.advance else c₁) xs :=
  h.skip Reaches.refl.ite

theorem subset (h : c.Encloses c₁ xs) (hsub : ys ⊆ xs) : c.Encloses c₁ ys :=
  ⟨h.reaches, fun hc x hx => h.placed hc x (allOf_subset hsub hx)⟩

/-- A node without parts of its own at a token. -/
theorem token (hc : c.kind ≠ .endOfFile) : c.Encloses c.advance [leaf c.span] := by
  refine ⟨Reaches.refl.step, fun h x hx => ?_⟩
  obtain rfl : x = leaf c.span := by simpa [leaf, node] using hx
  exact ⟨.token h hc, by simp [leaf, node, parts], by simp [leaf, node, tags]⟩

/-- A node that was read from a token on, behind annotations. -/
theorem declared (ht : c₀.Encloses c tags) (hp : c.Encloses c' parts)
    (hnode : ∀ {cs}, c.StandsIn cs → c.kind ≠ .endOfFile ∧ c.advance.Reaches c') :
    c₀.Encloses c' [.mk (c'.since c.start) tags parts] := by
  refine ⟨ht.reaches.trans hp.reaches, fun h₀ x hx => ?_⟩
  have hc := h₀.reaches ht.reaches
  obtain ⟨hkind, hr⟩ := hnode hc
  obtain ⟨hbounds, hspan⟩ := Bounds.since hc hkind hr
  simp only [allOf_cons, allOf_nil, List.append_nil, List.mem_cons, List.mem_append] at hx
  rcases hx with rfl | hx | hx
  · refine ⟨hbounds.mono ht.reaches .refl, fun y hy => ?_, fun y hy => ?_⟩
    · obtain ⟨hstart, hstop⟩ := (hp.placed hc y hy).1.contained hc
      rw [Extent.span, hspan]
      exact ⟨hstart, hstop⟩
    · have hstop := ((ht.placed h₀ y hy).1.contained h₀).2
      have hpassed := (hc.tiled.span hkind).1
      rw [Extent.span, hspan]
      exact Nat.le_trans hstop hpassed
  · obtain ⟨hb, hn⟩ := ht.placed h₀ x hx
    exact ⟨hb.mono .refl hp.reaches, hn⟩
  · obtain ⟨hb, hn⟩ := hp.placed hc x hx
    exact ⟨hb.mono ht.reaches .refl, hn⟩

/-- A node that was read from a token on. -/
theorem atToken (hc : c.kind ≠ .endOfFile) (h : c.advance.Encloses c' parts) :
    c.Encloses c' [node (c'.since c.start) parts] :=
  declared refl (by simpa using (of_reaches Reaches.refl.step).trans h) fun _ => ⟨hc, h.reaches⟩

/-- A declaration that has parts, behind its annotations. -/
theorem declaration (hne : parts ≠ []) (ht : c₀.Encloses c tags) (h : c.Encloses c' parts) :
    c₀.Encloses c' [.mk (c'.since c.start) tags parts] := by
  refine ht.declared h fun hc => ?_
  obtain ⟨x, more, rfl⟩ := List.exists_cons_of_ne_nil hne
  exact (h.placed hc x (by cases x; simp)).1.reaches hc

/-- A node that has parts. -/
theorem around {x : Extent} (h : c.Encloses c' (x :: parts)) :
    c.Encloses c' [node (c'.since c.start) (x :: parts)] :=
  refl.declaration (List.cons_ne_nil _ _) h

/-- A name behind something else. -/
theorem name {n : String} (h : c.Encloses c₁ xs) (hn : c₁.kind.word? = some n) :
    c.Encloses c₁.advance (xs ++ [(Ident.mk n c₁.span).extent]) :=
  h.trans (token (TokenKind.ne_endOfFile_of_word? hn))

theorem ident {n : String} (h : c.Encloses c₁ xs) (hn : c₁.kind = .ident n) :
    c.Encloses c₁.advance (xs ++ [(Ident.mk n c₁.span).extent]) :=
  h.name (by rw [hn]; rfl)

end Encloses

end Cursor

open Cursor (Encloses Bounds)

/-! ### Types and expressions -/

/-- A reference that is just a name. -/
theorem Cursor.Encloses.simple {c : Cursor} {n : String} (hn : c.kind.word? = some n) :
    c.Encloses c.advance [(NameRef.simple ⟨n, c.span⟩).extent] := by
  have hc := TokenKind.ne_endOfFile_of_word? hn
  refine ⟨Reaches.refl.step, fun h => ?_⟩
  have hspan : c.advance.since c.start = c.span := by
    rw [(Bounds.since h hc .refl).2, (h.tiled.span hc).2.1]
  have hnode := (around (token hc)).placed h
  rwa [hspan] at hnode

theorem ReadsName.encloses {c c' : Cursor} {r : NameRef} (h : ReadsName c r c') :
    c.Encloses c' [r.extent] := by
  cases h with
  | qualified hat hvia hname =>
    exact ((Encloses.refl.name hvia).step.ident hname).around
  | simple hat hname => exact .simple (by rw [hname]; rfl)

/-- The extents of what a symbol reads. -/
@[simp] def Sym.extents : (s : Sym) → s.Result → List Extent
  | type, t | intersection, t | suffixed, t | suffixing, t | plainType, t | typeArgument, t =>
    [t.extent]
  | typeParam, p => [p.2.extent]
  | recordItem, .inl f => [f.extent]
  | recordItem, .inr t => [t.extent]
  | expr, e | binary _, e | joining _, e | unary, e | accessed, e | accessing, e | primary, e
  | mapping, e => [e.extent]
  | arg, a => a.extents
  | mappingField, f => f.extents
  | tag, a => [a.extent]
  | param, p => [p.extent]
  | localVar, d => d.extents
  | many _ s, as | separated _ s, as | commaList _ s, as => as.flatMap s.extents
  | behind _ s, o | given _ s, o => o.toList.flatMap s.extents

/-- The parameters of a function type are among those that were read. -/
theorem paramExtents_subset (params : List (Bool × TypeDesc)) :
    typeExtents (fixedParams params) ++ typeExtent? (restParam params)
      ⊆ params.flatMap fun p => [p.2.extent] := by
  intro x hx
  simp only [typeExtents_eq, typeExtent?, List.mem_append, List.mem_map] at hx
  have hmem : ∃ p ∈ params, x = p.2.extent := by
    rcases hx with ⟨t, ht, rfl⟩ | ⟨t, ht, rfl⟩
    · obtain ⟨⟨isRest, u⟩, hp, hu⟩ := List.mem_filterMap.mp ht
      cases isRest <;> simp at hu
      exact ⟨_, hp, by rw [hu]⟩
    · have ht := (toList_getLast?_sublist _).subset ht
      obtain ⟨⟨isRest, u⟩, hp, hu⟩ := List.mem_filterMap.mp ht
      cases isRest <;> simp at hu
      exact ⟨_, hp, by rw [hu]⟩
  simpa [eq_comm] using hmem

/-- The fields of a record type are among the items that were read. -/
theorem itemExtents_subset (items : List (RecordField ⊕ TypeDesc)) :
    recordFieldExtents (listedFields items) ++ typeExtent? (unlistedFields items)
      ⊆ items.flatMap Sym.recordItem.extents := by
  intro x hx
  simp only [recordFieldExtents_eq, typeExtent?, List.mem_append, List.mem_map] at hx
  rw [List.mem_flatMap]
  rcases hx with ⟨f, hf, rfl⟩ | ⟨t, ht, rfl⟩
  · obtain ⟨item, hitem, hf⟩ := List.mem_filterMap.mp hf
    cases item <;> simp at hf
    exact ⟨_, hitem, by simp [hf]⟩
  · have ht := (toList_getLast?_sublist _).subset ht
    obtain ⟨item, hitem, ht⟩ := List.mem_filterMap.mp ht
    cases item <;> simp at ht
    exact ⟨_, hitem, by simp [ht]⟩

/-- What reading a symbol gives is placed soundly between the two cursors. -/
theorem Reads.encloses {s : Sym} {c c' : Cursor} {t : s.Result} (h : Reads s c t c') :
    c.Encloses c' (s.extents t) := by
  -- A node that has parts starts where the first of them does or before, so that its parts say a
  -- token stands there; where all parts may be missing, the production's first word says it.
  induction h with
  | oneMember _ ih | onePart _ ih => simpa using ih
  | union _ ih | intersection _ ih =>
    exact .around (by simpa [typeExtents_eq, List.map_eq_flatMap] using ih)
  | suffixed _ _ ih | plain _ ih | condition _ _ ih | operand _ ih | binary _ _ ih | bare _ ih
  | accessed _ _ ih | primary _ ih | mapping _ ih | positional _ _ ih =>
    exact ih
  | found _ _ ih => simpa using ih
  | optional _ _ ih => exact ih.step.around
  | array _ _ _ ih => exact ih.step.step.around
  | typeArgument _ _ _ ih => exact (Encloses.refl.step.trans ih).step
  | parenType _ _ _ ih | paren _ _ _ ih => exact (Encloses.refl.step.trans ih).step.around
  | builtin word | inferred word | anyFunction word =>
    exact .atToken (by simp [word]) .refl
  | singleton word | literal word =>
    exact .atToken (TokenKind.ne_endOfFile_of_literal? word) .refl
  | nilType opening | nilValue opening => exact .atToken (by simp [opening]) Encloses.refl.step
  | noItems => exact Encloses.refl.step
  | shorthand hkey => exact .simple hkey
  | typeName _ href | name _ href => exact href.encloses
  | mapType _ _ ih | unary _ _ ih => exact (Encloses.refl.step.trans ih).around
  | @future _ _ t word _ ih =>
    cases t <;> exact .atToken (by simp [word]) ih
  | @stream _ _ _ _ u word _ _ _ _ ih₁ ih₂ =>
    have hparts := (ih₁.trans ih₂).step
    cases u <;> exact ((Encloses.refl.step.step).trans hparts).around
  | @functionType c _ _ params returns word _ _ _ ih₁ ih₂ =>
    have hc : c.kind ≠ .endOfFile := by simp [word]
    have hparams := ih₁.subset (paramExtents_subset params)
    have hall := Encloses.refl.step.trans (hparams.trans ih₂)
    generalize Durable.restParam params = rest at hall ⊢
    cases rest <;> cases returns <;> exact .atToken hc (by simpa [typeExtent?] using hall)
  | @record c _ _ items word _ _ ih =>
    have hc : c.kind ≠ .endOfFile := by simp [word]
    have hall := Encloses.refl.step.trans (ih.subset (itemExtents_subset items))
    generalize unlistedFields items = rest at hall ⊢
    cases rest <;> exact .atToken hc (by simpa [typeExtent?] using hall)
  | typeParam _ ih => exact (ih.pass _).passName
  | @recordField _ _ _ _ _ default _ _ name _ _ ih₁ ih₂ =>
    have hall := (((Encloses.refl.ite.trans ih₁).name name).pass _ |>.trans ih₂).step
    cases default <;> exact hall.around
  | recordRest _ _ _ ih => exact (Encloses.refl.ite.trans ih).step.step
  | conditional _ _ _ _ _ ih₁ ih₂ ih₃ =>
    exact ((ih₁.step.trans ih₂).step.trans ih₃).around
  | operator _ _ _ _ ih₁ ih₂ | typeTest _ _ _ _ ih₁ ih₂ => exact (ih₁.step.trans ih₂).around
  | cast _ _ ih₁ ih₂ => exact (ih₁.trans ih₂).around
  | field _ _ name _ ih =>
    exact (ih.step.name name).around
  | methodCall _ _ name _ _ ih₁ ih₂ | remoteCall _ _ name _ _ ih₁ ih₂ =>
    have hall := (ih₁.step.name name).step.trans ih₂
    exact .around (by simpa [argExtents_eq] using hall)
  | index _ _ _ _ ih₁ ih₂ => exact (ih₁.step.trans ih₂).step.around
  | list opening _ ih =>
    exact .atToken (by simp [opening]) (by simpa [exprExtents_eq, List.map_eq_flatMap] using ih)
  | @construct c _ _ t as word _ _ ih₁ ih₂ =>
    have hc : c.kind ≠ .endOfFile := by simp [word]
    have hall := ih₁.trans ih₂
    cases t <;> cases as <;> exact .atToken hc (by simpa [argExtents_eq] using hall)
  | @errorCall c _ _ word _ _ ih =>
    have hname : c.kind.word? = some Keyword.kwError.text := by rw [word]; rfl
    have hall := (Encloses.simple hname).step.trans ih
    exact .around (by simpa [argExtents_eq] using hall)
  | call _ href _ _ ih =>
    have hall := href.encloses.step.trans ih
    exact .around (by simpa [argExtents_eq] using hall)
  | restArg _ _ ih | spread _ _ ih => exact Encloses.refl.step.trans ih
  | namedArg name _ _ ih => exact (Encloses.refl.ident name).step.trans ih
  | stringField hkey _ _ ih => exact (Encloses.token (by simp [hkey])).step.trans ih
  | wordField hkey _ _ ih => exact (Encloses.refl.name hkey).step.trans ih
  | computedField _ _ _ _ _ ih₁ ih₂ =>
    exact (Encloses.refl.step.trans ih₁).step.step.trans ih₂
  | fields opening _ ih =>
    exact .atToken (by simp [opening]) (by simpa [fieldExtents_eq] using ih)
  | tag _ href _ ih =>
    have hall := (Encloses.refl.step.trans href.encloses).trans ih
    exact .around (by simpa [exprExtent?, List.map_eq_flatMap] using hall)
  | restParam _ _ _ name ih₁ ih₂ =>
    have hall := (ih₁.trans ih₂).step.ident name
    exact .declaration (by simp) .refl (by simpa [exprExtent?, List.map_eq_flatMap] using hall)
  | param _ _ name _ ih₁ ih₂ ih₃ =>
    have hall := ((ih₁.trans ih₂).ident name).trans ih₃
    exact .declaration (by simp) .refl (by simpa [exprExtent?, List.map_eq_flatMap] using hall)
  | localVar _ _ name _ _ ih₁ ih₂ ih₃ =>
    have hall := ((((ih₁.pass _).trans ih₂).ident name).trans ih₃).step
    simpa [LocalVar.extents, exprExtent?, List.map_eq_flatMap] using hall
  | stop hstep => exact .of_reaches (Gap.step_reaches hstep)
  | more hstep _ _ ih₁ ih₂ =>
    exact ((Encloses.of_reaches (Gap.step_reaches hstep)).trans ih₁).trans ih₂
  | separated _ _ ih₁ ih₂ | items _ _ _ ih₁ ih₂ => exact ih₁.trans ih₂
  | absent | missing => exact .refl
  | present _ _ ih => simpa using Encloses.refl.step.trans ih

/-! ### Statements -/

/-- The extents of what a symbol of statements reads. -/
def StmtSym.extents : (s : StmtSym) → s.Result → List Extent
  | stmt, s | ifElse, s => [s.extent]
  | block, b => [b.extent]
  | stmts, ss => stmtExtents ss
  | otherwise, s => s.toList.map Stmt.extent

theorem ReadsStmt.encloses {s : StmtSym} {c c' : Cursor} {t : s.Result}
    (h : ReadsStmt s c t c') : c.Encloses c' (s.extents t) := by
  induction h with
  | localVar decl => exact .declaration (by simp [LocalVar.extents]) .refl decl.encloses
  | assign _ target _ value =>
    exact (target.encloses.step.trans value.encloses).step.around
  | expr _ value => exact value.encloses.step.around
  | ifElse _ ih => exact ih
  | lock _ _ ih | attempt _ _ _ ih => exact (Encloses.refl.step.trans ih).around
  | whileLoop _ condition _ ih =>
    exact ((Encloses.refl.step.trans condition.encloses).trans ih).around
  | foreach _ type name _ items _ ih =>
    have hname := (Encloses.refl.step.trans type.encloses).ident name
    exact ((hname.step.trans items.encloses).trans ih).around
  | @giveBack c _ e word value =>
    have hc : c.kind ≠ .endOfFile := by simp [word]
    have hvalue := value.encloses.step
    exact .atToken hc (by simpa [exprExtent?, List.map_eq_flatMap] using hvalue)
  | attemptOnFail _ _ _ _ type name _ ih₁ ih₂ =>
    have htype := (Encloses.refl.step.trans ih₁).step.step.trans type.encloses
    exact ((htype.ident name).trans ih₂).around
  | blockStmt _ ih => exact ih.around
  | panic _ value | fail _ value => exact (Encloses.refl.step.trans value.encloses).step.around
  | leave word | again word => exact .atToken (by simp [word]) Encloses.refl.step
  | block opening _ ih => exact .atToken (by simp [opening]) ih
  | noStmts => exact Encloses.refl.step
  | stmts _ _ _ _ ih₁ ih₂ => exact ih₁.trans ih₂
  | @condition _ _ _ _ _ _ other _ condition _ _ ih₁ ih₂ =>
    have hall := ((Encloses.refl.step.trans condition.encloses).trans ih₁).trans ih₂
    cases other <;> exact hall.around
  | noElse => exact .refl
  | elseIf _ _ ih => exact Encloses.refl.step.trans ih
  | elseBlock _ _ ih => exact Encloses.refl.step.trans ih.around

/-! ### Members -/

section

variable {c c' : Cursor}

/-- What the items of a repetition enclose, the repetition encloses. -/
theorem Repeats.encloses {α : Type} {step : Cursor → Option (Bool × Cursor)}
    {R : Cursor → α → Cursor → Prop} {f : α → Extent} {as : List α} (h : Repeats step R c as c')
    (hstep : ∀ {c b c'}, step c = some (b, c') → c.Reaches c')
    (hR : ∀ {c a c'}, R c a c' → c.Encloses c' [f a]) : c.Encloses c' (as.map f) := by
  induction h with
  | stop h => exact .of_reaches (hstep h)
  | more h first _ ih => exact ((Encloses.of_reaches (hstep h)).trans (hR first)).trans ih

/-- The items of a repetition stand one behind the other. -/
theorem Repeats.follow {α : Type} {step : Cursor → Option (Bool × Cursor)}
    {R : Cursor → α → Cursor → Prop} {f : α → Extent} {as : List α} {cs : List Char}
    (h : Repeats step R c as c') (hstep : ∀ {c b c'}, step c = some (b, c') → c.Reaches c')
    (hR : ∀ {c a c'}, R c a c' → c.Encloses c' [f a]) (hc : c.StandsIn cs) :
    as.Pairwise fun a b => (f a).span.stop ≤ (f b).span.start := by
  induction h with
  | stop => exact .nil
  | @more c c₁ c₂ c' a as h first others ih =>
    have hc₁ := hc.reaches (hstep h)
    have hc₂ := hc₁.reaches (hR first).reaches
    refine .cons (fun b hb => ?_) (ih hc₂)
    have hfirst := ((hR first).placed hc₁ (f a) (mem_allOf (List.mem_singleton_self _))).1
    have hother :=
      ((others.encloses hstep hR).placed hc₂ (f b) (mem_allOf (List.mem_map_of_mem hb))).1
    have hbetween := (hc₂.tiled.span (hother.reaches hc₂).1).1
    exact (hfirst.contained hc₁).2.trans (hbetween.trans (hother.contained hc₂).1)

theorem ReadsWord.encloses {x : Ident} (h : ReadsWord c x c') : c.Encloses c' [x.extent] := by
  obtain ⟨hn, hspan, rfl⟩ := h
  obtain ⟨n, s⟩ := x
  subst hspan
  exact Encloses.refl.name hn

theorem ReadsOrg.encloses {org : Option Ident} (h : ReadsOrg c org c') :
    c.Encloses c' (org.toList.map Ident.extent) := by
  cases h with
  | absent => exact .refl
  | present word => exact (Encloses.refl.name word).step

theorem ReadsRename.encloses {r : Option Ident} (h : ReadsRename c r c') :
    c.Encloses c' (r.toList.map Ident.extent) := by
  cases h with
  | absent => exact .refl
  | present _ name => exact Encloses.refl.step.ident name

theorem ReadsImport.encloses {i : Import} (h : ReadsImport c i c') :
    c.Encloses c' [i.extent] := by
  cases h with
  | mk _ horg head hfurther hrename _ =>
    have hparts := hfurther.encloses Gap.step_reaches ReadsWord.encloses
    have hpath := ((Encloses.refl.step.trans horg.encloses).name head).trans hparts
    exact .declaration (by simp) .refl (by simpa using (hpath.trans hrename.encloses).step)

theorem ReadsModifiers.encloses {ms : Modifiers} (h : ReadsModifiers c ms c') :
    c.Encloses c' ms.extents := by
  refine Repeats.encloses h (fun hstep => ?_) (fun hq => ?_)
  · simp only [modifierStep, Option.some.injEq, Prod.mk.injEq] at hstep
    rw [← hstep.2]
    exact .refl
  · obtain ⟨hword, hspan, rfl⟩ := hq
    rw [← hspan]
    exact .token (by simp [hword])

theorem Reads.encloses_annotations {as : List Annotation} (h : Reads .annotations c as c') :
    c.Encloses c' (as.map Annotation.extent) := by
  simpa [List.map_eq_flatMap] using h.encloses

theorem ReadsReturns.encloses {t : Option TypeDesc} (h : ReadsReturns c t c') :
    c.Encloses c' (typeExtent? t) := by
  cases h with
  | absent => exact .refl
  | present _ dropped type =>
    exact (Encloses.of_reaches (Reaches.refl.step.trans dropped.reaches)).trans type.encloses

theorem ReadsTypeBefore.encloses {absent : TokenKind → Bool} {t : Option TypeDesc}
    (h : ReadsTypeBefore absent c t c') : c.Encloses c' (typeExtent? t) := by
  cases h with
  | missing => exact .refl
  | found _ type => exact type.encloses

theorem ReadsInit.encloses {configurable : Bool} {e : Option Expr}
    (h : ReadsInit configurable c e c') : c.Encloses c' (exprExtent? e) := by
  cases h with
  | written value => simpa [exprExtent?, List.map_eq_flatMap] using value.encloses
  | required _ question =>
    exact (Encloses.refl.step).trans (.token (by simp [question]))

variable {c₀ c₁ : Cursor} {source : Source} {as : List Annotation} {ms : Modifiers}

/-- The annotations and the modifiers before a declaration. -/
structure Cursor.Heads (c₀ c₁ c : Cursor) (as : List Annotation) (ms : Modifiers) : Prop where
  annotations : c₀.Encloses c₁ (as.map Annotation.extent)
  modifiers : c₁.Encloses c ms.extents

theorem ReadsFunction.encloses {f : Function} (h : ReadsFunction source c₁.start as ms c f c')
    (h₀ : c₀.Heads c₁ c as ms) : c₀.Encloses c' [f.extent] := by
  cases h with
  | mk _ name hpath _ list result hbody =>
    have hname := (h₀.modifiers.step.name name).skip hpath.reaches
    have hparams := (hname.step.trans list.encloses).trans result.encloses
    exact .declaration (by simp) h₀.annotations
      (by simpa [List.map_eq_flatMap, StmtSym.extents] using hparams.trans hbody.encloses)

theorem ReadsVarDecl.encloses {configurable : Bool} {v : VarDecl}
    (h : ReadsVarDecl c₁.start as ms configurable c v c') (h₀ : c₀.Heads c₁ c as ms) :
    c₀.Encloses c' [v.extent] := by
  cases h with
  | mk type name value _ =>
    have hname := (h₀.modifiers.trans type.encloses).ident name
    exact .declaration (by simp) h₀.annotations
      (by simpa using (hname.trans value.encloses).step)

theorem ReadsValueDecl.encloses {d : ValueDecl} (h : ReadsValueDecl c₁.start as ms c d c')
    (h₀ : c₀.Heads c₁ c as ms) : c₀.Encloses c' [d.extent] := by
  cases h with
  | mk type name _ value _ =>
    have hname := (h₀.modifiers.step.trans type.encloses).ident name
    exact .declaration (by simp) h₀.annotations
      (by simpa using (hname.step.trans value.encloses).step)

theorem ReadsTypeDef.encloses {d : TypeDef} (h : ReadsTypeDef c₁.start as ms c d c')
    (h₀ : c₀.Heads c₁ c as ms) : c₀.Encloses c' [d.extent] := by
  cases h with
  | mk name type _ =>
    have hname := h₀.modifiers.step.ident name
    exact .declaration (by simp) h₀.annotations
      (by simpa using (hname.trans type.encloses).step)

/-- The annotations before the declaration of an annotation are not kept. -/
theorem ReadsAnnotationDecl.encloses {d : AnnotationDecl}
    (h : ReadsAnnotationDecl c₁.start ms c d c') (h₀ : c₀.Heads c₁ c as ms) :
    c₀.Encloses c' [d.extent] := by
  cases h with
  | mk type name hpoints _ =>
    have hname := (h₀.modifiers.step.trans type.encloses).ident name
    exact .declaration (by simp) (.of_reaches h₀.annotations.reaches)
      (by simpa using (hname.skip hpoints.reaches).step)

theorem ReadsServiceMember.encloses {d : ServiceMember} (h : ReadsServiceMember source c d c') :
    c.Encloses c' [d.extent] := by
  cases h with
  | method annotations modifiers decl =>
    exact decl.encloses ⟨annotations.encloses_annotations, modifiers.encloses⟩
  | field annotations modifiers _ decl =>
    exact decl.encloses ⟨annotations.encloses_annotations, modifiers.encloses⟩

theorem ReadsService.encloses {d : Service} (h : ReadsService source c₁.start as ms c d c')
    (h₀ : c₀.Heads c₁ c as ms) : c₀.Encloses c' [d.extent] := by
  cases h with
  | mk word type hpath _ listeners _ list =>
    have hword := h₀.modifiers.trans (.token (by simp [word]))
    have htype := (hword.trans type.encloses).skip hpath.reaches
    have hmembers := list.encloses closingStep_reaches ReadsServiceMember.encloses
    have hall := (htype.step.trans listeners.encloses).step.trans hmembers
    exact .declaration (by simp) h₀.annotations
      (by simpa [typeExtent?, List.map_eq_flatMap] using hall)

/-- The members of a service stand one behind the other, behind the word that announces it. -/
theorem ReadsService.members_follow {s : Service} {cs : List Char}
    (h : ReadsService source c₁.start as ms c s c') (hc : c.StandsIn cs) :
    (s.members.Pairwise fun a b => a.extent.span.stop ≤ b.extent.span.start) ∧
      ∀ a ∈ s.members, s.keywordSpan.stop ≤ a.extent.span.start := by
  cases h with
  | mk word type hpath _ listeners _ list =>
    have hr := ((type.reaches.trans hpath.reaches).step.trans listeners.reaches).step
    have hat := hc.advance.reaches hr
    refine ⟨list.follow closingStep_reaches ReadsServiceMember.encloses hat, fun a ha => ?_⟩
    have hword := (Bounds.token hc (by simp [word])).contained hc
    have hmember := ((list.encloses closingStep_reaches ReadsServiceMember.encloses).placed hat
      a.extent (mem_allOf (List.mem_map_of_mem ha))).1
    have hbetween := (hat.tiled.span (hmember.reaches hat).1).1
    exact hword.2.trans <| (hc.advance.passed_le hr).trans <|
      hbetween.trans (hmember.contained hat).1

theorem ReadsMember.encloses {d : Member} (h : ReadsMember source c d c') :
    c.Encloses c' [d.extent] := by
  cases h with
  | mk annotations modifiers decl =>
    have heads : Cursor.Heads _ _ _ _ _ :=
      ⟨annotations.encloses_annotations, modifiers.encloses⟩
    cases decl with
    | function decl => exact decl.encloses heads
    | service decl => exact decl.encloses heads
    | const _ decl | listener _ decl => exact decl.encloses heads
    | type _ decl => exact decl.encloses heads
    | annotationDecl _ decl => exact decl.encloses heads
    | moduleVar _ decl => exact decl.encloses heads

theorem ReadsModule.encloses {d : Module} (h : ReadsModule source c d c') :
    c.Encloses c' d.extents := by
  cases h with
  | mk imports members =>
    exact (imports.encloses Gap.step_reaches ReadsImport.encloses).trans
      (members.encloses memberStep_reaches ReadsMember.encloses)

end

/-! ### Whole texts -/

namespace Cursor

variable {c c' d e : Cursor} {cs : List Char}

/-- A token that is reached is among those that were left. -/
theorem Reaches.token_mem (h : c.Reaches d) (hkind : d.kind ≠ .endOfFile) :
    d.tokenAt 0 ∈ c.rest := by
  obtain ⟨ts, hrest, -⟩ := h.passes
  rw [hrest]
  rcases d.tokenAt_mem 0 with hmem | hend
  · exact List.mem_append_right ts hmem
  · exact absurd (congrArg Token.kind hend) hkind

/-- What was passed behind a token ends with a token. -/
theorem StandsIn.passed_eq (h : c.StandsIn cs) (hd : c.Reaches d) (hkind : d.kind ≠ .endOfFile)
    (he : d.advance.Reaches e) :
    ∃ t ∈ c.rest, t.kind ≠ .endOfFile ∧ e.passed = t.span.stop := by
  induction he with
  | refl =>
    have hspan := ((h.reaches hd).tiled.span hkind).2.1
    exact ⟨_, hd.token_mem hkind, hkind, (congrArg Span.stop hspan).symm⟩
  | @step e he ih =>
    have hr : c.Reaches e := hd.trans (Reaches.refl.step.trans he)
    by_cases hend : e.kind = .endOfFile
    · rw [(h.reaches hr).advance_eq hend]
      exact ih
    · have hspan := ((h.reaches hr).tiled.span hend).2.1
      exact ⟨_, hr.token_mem hend, hend, (congrArg Span.stop hspan).symm⟩

/-- An extent that was read from a cursor on is sound in the text. -/
theorem Encloses.sound {xs : List Extent} {tokens : List Token} (h : c.Encloses c' xs)
    (hc : c.StandsIn cs) (htokens : c.rest ⊆ tokens) {x : Extent} (hx : x ∈ allOf xs) :
    x.Sound tokens (Text.byteLength cs) := by
  obtain ⟨⟨d, e, hd, hkind, he, -, hspan⟩, hnests⟩ := h.placed hc x hx
  have hat := hc.reaches hd
  have hpassed := hat.advance.passed_le he
  obtain ⟨front, rest, hcs, hfront⟩ := (hat.advance.reaches he).cut_passed
  obtain ⟨t, ht, htkind, hstop⟩ := hc.passed_eq hd hkind he
  obtain ⟨-, -, hlt⟩ := hat.tiled.span hkind
  refine ⟨⟨_, htokens (hd.token_mem hkind), hkind, ?_⟩, ⟨t, htokens ht, htkind, ?_⟩, ?_, ?_,
    hnests⟩
  · rw [hspan]
    rfl
  · rw [hspan, hstop]
  · rw [hspan]
    exact Nat.lt_of_lt_of_le hlt hpassed
  · rw [hspan, hcs, Text.byteLength_append, hfront]
    exact Nat.le_add_right _ _

end Cursor

/-- **The places in a tree are sound.**  In a module every node below it starts at the start of a
token and stops at the end of one, is not empty, lies in the text, contains what belongs to it and
stands behind its annotations; the module has the place of the whole text; and no two references
to values overlap.  The place of a fault is in order, in bounds, and splits no character. -/
theorem parseModule_places (text : String) :
    (∀ m, parseModule text = .ok m → ∃ tokens, tokenize text = .ok tokens ∧
      (∀ x ∈ allOf m.extents, x.Sound tokens (Text.byteLength text.toList)) ∧
      m.span = ⟨0, Text.byteLength text.toList⟩ ∧ (placesOf [m.outline]).Pairwise Span.Apart) ∧
    (∀ e, parseModule text = .error e → e.span.start ≤ e.span.stop ∧
      e.span.stop ≤ Text.byteLength text.toList ∧ e.span.Cuts text.toList) := by
  constructor
  · intro m hm
    obtain ⟨ts, tail, c', htiling, hread⟩ := reads_of_parseModule hm
    have hc := Cursor.standsIn_ofTiles (Text.byteLength text.toList) htiling
    refine ⟨_, tokenize_eq_ok_iff.mpr ⟨ts, tail, htiling, rfl⟩, fun x hx => ?_, ?_, ?_⟩
    · exact hread.encloses.sound hc (List.subset_append_left _ _) hx
    · cases hread with
      | mk => rfl
    · exact (hread.covers hc.tiled).2.2.apart
  · intro e he
    have hcuts := (parseModule_eq_error he).2
    exact ⟨hcuts.bounds.1, hcuts.bounds.2, hcuts⟩

/-- A constant with an annotation, and with two references in its value. -/
def annotatedConst : String := "@a:B const int x = y + z;"

/-- The annotation stands in front of the constant, and the references apart from each other; a word
behind which the text ends is a fault. -/
theorem annotatedConst_places :
    (∃ m tokens, parseModule annotatedConst = .ok m ∧
      ((allOf m.extents).map (·.span)).take 2 = [⟨5, 25⟩, ⟨0, 4⟩] ∧
      placesOf [m.outline] = [⟨19, 20⟩, ⟨23, 24⟩] ∧ tokenize annotatedConst = .ok tokens ∧
      (∀ x ∈ allOf m.extents, x.Sound tokens (Text.byteLength annotatedConst.toList)) ∧
      (placesOf [m.outline]).Pairwise Span.Apart) ∧
    ∃ e, parseModule "type" = .error e ∧ e.span.Cuts "type".toList := by
  have hread : ((parseModule annotatedConst).toOption.any fun m =>
      ((allOf m.extents).map (·.span)).take 2 == [⟨5, 25⟩, ⟨0, 4⟩] &&
        placesOf [m.outline] == [⟨19, 20⟩, ⟨23, 24⟩]) = true := by decide +kernel
  have hfault : (parseModule "type").toOption.isNone = true := by decide +kernel
  constructor
  · cases hm : parseModule annotatedConst with
    | error e => simp [hm, Except.toOption] at hread
    | ok m =>
      obtain ⟨hfirst, hplaces⟩ :
          ((allOf m.extents).map (·.span)).take 2 = [⟨5, 25⟩, ⟨0, 4⟩] ∧
            placesOf [m.outline] = [⟨19, 20⟩, ⟨23, 24⟩] := by
        simpa [hm, Except.toOption] using hread
      obtain ⟨tokens, htokens, hsound, -, hapart⟩ := (parseModule_places annotatedConst).1 m hm
      exact ⟨m, tokens, rfl, hfirst, hplaces, htokens, hsound, hapart⟩
  · cases he : parseModule "type" with
    | error e => exact ⟨e, rfl, ((parseModule_places "type").2 e he).2.2⟩
    | ok m => simp [he, Except.toOption] at hfault

end Durable
