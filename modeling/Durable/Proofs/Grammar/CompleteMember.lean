/-
The parser reads all members and modules that the grammar allows.

Members do not recurse into each other, so their grammar needs no depth of its own: that of types
and expressions and that of statements are as deep as the text has tokens, and one token deeper.
With `Grammar/Members` this makes reading a module and being one by the grammar the same.
-/
import Durable.Proofs.Grammar.Members
import Durable.Proofs.Grammar.CompleteStmt
import Durable.Proofs.Grammar.Inits

namespace Durable

open Durable.Parser
open Cursor (length_advance_lt)

/-- Where fewer than `n` tokens are left, the parsers that members are made of read all that the
relations allow. -/
structure MemberGrammar.Complete (m : MemberGrammar) (n : Nat) : Prop where
  sound : m.exprs.Sound
  exprs : m.exprs.Complete n
  stmts : m.stmts.Complete n

namespace MemberGrammar

variable {m : MemberGrammar} {n : Nat} {c c' : Cursor}

/-! ### Imports and modifiers -/

theorem word_length_lt {x : Ident} (h : ReadsWord c x c') : c'.rest.length < c.rest.length := by
  obtain ⟨hword, -, rfl⟩ := h
  exact length_advance_lt (TokenKind.ne_endOfFile_of_word? hword)

theorem furtherParts_complete {parts : List Ident}
    (h : Repeats (Gap.between .dot).step ReadsWord c parts c') :
    furtherParts c = .ok (parts, c') :=
  many_of_repeats (Gap.between_steps .dot) (fun hstep => (Gap.step_reaches hstep).length_le)
    word_length_lt h fun _ hword => memberName_eq_ok.mpr hword

theorem importDecl_complete {i : Import} (h : ReadsImport c i c') : importDecl c = .ok (i, c') := by
  cases h with
  | @mk c₁ c₂ c₃ org rename x parts word horg head further hrename closing =>
    have hrename' : ∃ b c₄, accept (.keyword .kwAs) c₂ = .ok (b, c₄) ∧
        (if b = true then some <$> ident else pure none) c₄ = .ok (rename, c₃) := by
      cases hrename with
      | absent other =>
        exact ⟨false, _, accept_eq_ok.mpr (.inr ⟨other, rfl, rfl⟩), by simp [pure_eq_ok]⟩
      | @present y as name =>
        refine ⟨true, _, accept_eq_ok.mpr (.inl ⟨as, rfl, rfl⟩), ?_⟩
        simp only [if_true, map_eq_ok, ident_eq_ok]
        exact ⟨⟨y, c₂.advance.span⟩, ⟨name, rfl, trivial⟩, rfl⟩
    obtain ⟨b, c₄, has, hname⟩ := hrename'
    have hpath := furtherParts_complete further
    simp only [importDecl, ite_bind_eq, bind_eq_ok, start_eq_ok, expect_eq_ok, memberName_eq_ok,
      since_eq_ok, pure_eq_ok]
    refine ⟨_, _, ⟨rfl, rfl⟩, _, _, ⟨word, rfl, rfl⟩, ?_⟩
    cases horg with
    | absent alone =>
      refine ⟨⟨x, c.advance.span⟩, _, ⟨head, rfl, rfl⟩, false, _,
        accept_eq_ok.mpr (.inr ⟨alone, rfl, rfl⟩), (none, ⟨x, c.advance.span⟩), _, ?_, parts, _,
        hpath, b, c₄, has, _, _, hname, _, _, ⟨closing, rfl, rfl⟩, _, _, ⟨rfl, rfl⟩, rfl, rfl⟩
      simp [pure_eq_ok]
    | @present o word' slash =>
      refine ⟨⟨o, c.advance.span⟩, _, ⟨word', rfl, rfl⟩, true, _,
        accept_eq_ok.mpr (.inl ⟨slash, rfl, rfl⟩), (some ⟨o, c.advance.span⟩,
        ⟨x, c.advance.advance.advance.span⟩), _, ?_, parts, _,
        hpath, b, c₄, has, _, _, hname, _, _, ⟨closing, rfl, rfl⟩, _, _, ⟨rfl, rfl⟩, rfl, rfl⟩
      simp only [if_true, map_eq_ok, memberName_eq_ok]
      exact ⟨⟨x, c.advance.advance.advance.span⟩, ⟨head, rfl, trivial⟩, rfl⟩

theorem modifier?_keyword (q : Modifier) : modifier? (.keyword q.keyword) = some q := by
  cases q <;> rfl

theorem modifierStep_length {b : Bool} (h : modifierStep c = some (b, c')) :
    c'.rest.length ≤ c.rest.length := by
  simp only [modifierStep, Option.some.injEq, Prod.mk.injEq] at h
  exact h.2 ▸ Nat.le_refl _

theorem modifiers_complete {ms : Modifiers} (h : ReadsModifiers c ms c') :
    modifiers c = .ok (ms, c') := by
  refine many_of_repeats (R := ReadsModifier) ?_ modifierStep_length ?_ h ?_
  · intro c b c'
    simp only [bind_eq_ok, peek_eq_ok, pure_eq_ok, modifierStep, Option.some.injEq, Prod.mk.injEq]
    constructor
    · rintro ⟨_, _, ⟨rfl, rfl⟩, rfl, rfl⟩
      exact ⟨rfl, rfl⟩
    · rintro ⟨rfl, rfl⟩
      exact ⟨_, _, ⟨rfl, rfl⟩, rfl, rfl⟩
  · rintro c q c' ⟨hword, -, rfl⟩
    exact length_advance_lt (by simp [hword])
  · rintro c ⟨q, s⟩ c' - ⟨hword, hspan, rfl⟩
    simp only [bind_eq_ok, peek_eq_ok]
    refine ⟨_, _, ⟨hword, rfl⟩, ?_⟩
    simp only [modifier?_keyword, bind_eq_ok, advance_eq_ok, pure_eq_ok]
    exact ⟨_, _, ⟨rfl, rfl⟩, by rw [← Cursor.span, hspan], rfl⟩

/-! ### Functions -/

/-- A path is passed token by token. -/
theorem passesPath_grows {depth : Nat} (h : PassesPath depth c c') :
    ∀ {depth₀ : Nat} {c₀ : Cursor}, Grows passPathToken depth₀ c₀ depth c →
      Grows passPathToken depth₀ c₀ 0 c' ∧ c'.kind = .mark .openParen := by
  induction h with
  | stop opening => exact fun hgrows => ⟨hgrows, opening⟩
  | @pass depth c c' inside open' _ ih =>
    intro depth₀ c₀ hgrows
    refine ih (.step hgrows ?_ (length_advance_lt open'))
    simp only [passPathToken, bind_eq_ok, peek_eq_ok]
    refine ⟨_, _, ⟨rfl, rfl⟩, ?_⟩
    have hgo : (depth == 0 && c.kind == .mark .openParen) = false := by
      simpa using inside
    rw [hgo, if_neg (by simp)]
    cases hk : c.kind with
    | endOfFile => exact absurd hk open'
    | mark m =>
      cases m <;>
        (simp only [bind_eq_ok, advance_eq_ok, pure_eq_ok]
         exact ⟨_, _, ⟨rfl, rfl⟩, _, _, ⟨rfl, rfl⟩, rfl, rfl⟩)
    | _ =>
      simp only [bind_eq_ok, advance_eq_ok, pure_eq_ok]
      exact ⟨_, _, ⟨rfl, rfl⟩, _, _, ⟨rfl, rfl⟩, rfl, rfl⟩

theorem resourcePath_complete {path : Option String} (h : ReadsResourcePath m.source true c path c') :
    m.resourcePath c = .ok (path, c') := by
  have hpasses : PassesPath 0 c c' := by cases h <;> assumption
  obtain ⟨hgrows, hopen⟩ := passesPath_grows hpasses .refl
  have hloop : extend passPathToken 0 c = .ok (0, c') := by
    refine extend_of_grows hgrows ?_
    simp only [passPathToken, bind_eq_ok, peek_eq_ok]
    refine ⟨_, _, ⟨hopen, rfl⟩, ?_⟩
    simp [pure_eq_ok]
  simp only [resourcePath, bind_eq_ok, start_eq_ok, get_eq_ok]
  refine ⟨_, _, ⟨rfl, rfl⟩, _, _, hloop, _, _, ⟨rfl, rfl⟩, ?_⟩
  cases h with
  | empty _ short =>
    rw [if_pos short]
    rfl
  | path _ long =>
    rw [if_neg (by omega)]
    rfl

theorem function_complete (hm : m.Complete n) (hn : c.rest.length < n) {origin : Nat}
    {as : List Annotation} {ms : Modifiers} {f : Function}
    (h : ReadsFunction m.source origin as ms c f c') :
    m.function origin as ms c = .ok (f, c') := by
  cases h with
  | @mk c₁ c₂ c₃ _ x path params returns body word name hpath opening list result hbody =>
    have := length_advance_lt (c := c) (by simp [word])
    have := c.advance.length_advance_le
    have hpath' : (if ms.has .resource then m.resourcePath else pure none : Parser (Option String))
        c.advance.advance = .ok (path, c₁) ∧
          c₁.rest.length ≤ c.advance.advance.rest.length := by
      cases hres : ms.has .resource with
      | true =>
        rw [hres] at hpath
        rw [if_pos rfl]
        refine ⟨resourcePath_complete hpath, ?_⟩
        cases hpath with
        | empty passes | path passes => exact passes.reaches.length_le
      | false =>
        rw [hres] at hpath
        cases hpath with
        | plain => exact ⟨by simp [pure_eq_ok], Nat.le_refl _⟩
    have := c₁.length_advance_le
    have := list.length.1
    simp only [function, ite_bind_eq, bind_eq_ok, expect_eq_ok, memberName_eq_ok, accept_eq_ok]
    refine ⟨_, _, ⟨word, rfl, rfl⟩, ⟨x, c.advance.span⟩, _, ⟨name, rfl, rfl⟩, path, c₁, hpath'.1, _,
      _, ⟨opening, rfl, rfl⟩, params, c₂, commaList_complete (s := .param) trivial
        (Grammar.param_complete hm.exprs) (by omega) list, ?_⟩
    cases result with
    | absent other =>
      refine ⟨false, _, .inr ⟨other, rfl, rfl⟩, ?_⟩
      simp only [Bool.false_eq_true, if_false, bind_eq_ok, since_eq_ok, pure_eq_ok]
      exact ⟨_, _, ⟨rfl, rfl⟩, _, _, hm.stmts.block (by omega) hbody, _, _, ⟨rfl, rfl⟩, rfl, rfl⟩
    | present word' dropped type =>
      have := c₂.length_advance_le
      have := dropped.length.1
      have := type.length.1
      refine ⟨true, _, .inl ⟨word', rfl, rfl⟩, ?_⟩
      simp only [if_true, bind_eq_ok, map_eq_ok, since_eq_ok, pure_eq_ok]
      exact ⟨_, _, Grammar.annotations_complete hm.exprs (by omega) dropped, _, _,
        ⟨_, hm.exprs.type (by omega) type, rfl⟩, _, _, hm.stmts.block (by omega) hbody, _, _,
        ⟨rfl, rfl⟩, rfl, rfl⟩

/-! ### Variables, constants and types -/

theorem varDecl_complete (hm : m.Complete n) (hn : c.rest.length < n) {configurable : Bool}
    {init : Parser Expr}
    (hinit : ∀ {c e c'}, c.rest.length < n → ReadsInit configurable c (some e) c' →
      init c.advance = .ok (e, c'))
    {origin : Nat} {as : List Annotation} {ms : Modifiers} {v : VarDecl}
    (h : ReadsVarDecl origin as ms configurable c v c') :
    m.varDecl init origin as ms c = .ok (v, c') := by
  cases h with
  | @mk c₁ c₂ _ x e type name value closing =>
    have := type.length.1
    have := c₁.length_advance_le
    simp only [varDecl, ite_bind_eq, bind_eq_ok, ident_eq_ok, accept_eq_ok, expect_eq_ok,
      since_eq_ok, pure_eq_ok]
    have hvalue : ∃ b c₃, ((c₁.advance.kind = .mark .assign ∧ b = true ∧ c₁.advance.advance = c₃) ∨
        (c₁.advance.kind ≠ .mark .assign ∧ b = false ∧ c₁.advance = c₃)) ∧
        (if b = true then some <$> init else pure none) c₃ = .ok (e, c₂) := by
      cases e with
      | none =>
        cases value with
        | written value =>
          cases value with
          | absent other => exact ⟨false, _, .inr ⟨other, rfl, rfl⟩, by simp [pure_eq_ok]⟩
      | some e =>
        have hsign : c₁.advance.kind = .mark .assign := by
          cases value with
          | written value =>
            cases value
            assumption
          | required sign => exact sign
        refine ⟨true, _, .inl ⟨hsign, rfl, rfl⟩, ?_⟩
        simp only [if_true, map_eq_ok]
        exact ⟨_, hinit (by omega) value, rfl⟩
    obtain ⟨b, c₃, hb, hvalue⟩ := hvalue
    exact ⟨_, _, hm.exprs.type hn type, ⟨x, c₁.span⟩, _, ⟨name, rfl, rfl⟩, b, c₃, hb, _, _, hvalue,
      _, _, ⟨closing, rfl, rfl⟩, _, _, ⟨rfl, rfl⟩, rfl, rfl⟩

theorem init_complete (hm : m.Complete n) (hn : c.rest.length < n) {e : Expr}
    (h : ReadsInit false c (some e) c') : m.exprs.expr c.advance = .ok (e, c') := by
  cases h with
  | written value =>
    cases value with
    | present sign value =>
      have := c.length_advance_le
      exact hm.exprs.expr (by omega) value

theorem configurableInit_complete (hm : m.Complete n) (hn : c.rest.length < n) {e : Expr}
    (h : ReadsInit true c (some e) c') : m.configurableInit c.advance = .ok (e, c') := by
  simp only [configurableInit, bind_eq_ok, at?_eq_ok, peekAt_eq_ok]
  refine ⟨_, _, ⟨rfl, rfl⟩, _, _, ⟨rfl, rfl⟩, ?_⟩
  cases h with
  | written value =>
    cases value with
    | present sign value =>
      have := c.length_advance_le
      have hne : c.advance.kind ≠ .mark .question := by
        intro hk
        have := value.starts
        rw [hk] at this
        exact absurd this (by unfold Sym.Starts; decide)
      rw [if_neg (by simp [hne])]
      exact hm.exprs.expr (by omega) value
  | required sign question closing =>
    rw [if_pos (by simp [question, Cursor.kindAt_succ, show c.advance.advance.kindAt 0 = _ from closing])]
    simp only [bind_eq_ok, advance_eq_ok, pure_eq_ok]
    exact ⟨_, _, ⟨rfl, rfl⟩, rfl, rfl⟩

theorem readsTypeBefore_complete {absent : TokenKind → Bool} {p : Parser TypeDesc}
    (hp : Finds n .type p) (hn : c.rest.length < n) {t : Option TypeDesc}
    (h : ReadsTypeBefore absent c t c') :
    (if absent (c.kindAt 1) = true then pure none else some <$> p) c = .ok (t, c') ∧
      c'.rest.length ≤ c.rest.length := by
  cases h with
  | missing sign =>
    rw [if_pos sign]
    exact ⟨rfl, Nat.le_refl _⟩
  | found other type =>
    rw [if_neg (by simp [other]), map_eq_ok]
    exact ⟨⟨_, hp hn type, rfl⟩, type.length.1⟩

theorem valueDecl_complete (hm : m.Complete n) (hn : c.rest.length < n) {origin : Nat}
    {as : List Annotation} {ms : Modifiers} {d : ValueDecl}
    (h : ReadsValueDecl origin as ms c d c') : m.valueDecl origin as ms c = .ok (d, c') := by
  cases h with
  | @mk c₁ _ t x e type name sign value closing =>
    have := c.length_advance_le
    obtain ⟨htype, hle⟩ := readsTypeBefore_complete hm.exprs.type (by omega) type
    have := c₁.length_advance_le
    have := c₁.advance.length_advance_le
    simp only [valueDecl, ite_bind_eq, bind_eq_ok, advance_eq_ok, peekAt_eq_ok, ident_eq_ok,
      expect_eq_ok, since_eq_ok, pure_eq_ok]
    exact ⟨_, _, ⟨rfl, rfl⟩, _, _, ⟨rfl, rfl⟩, t, c₁, htype, ⟨x, c₁.span⟩, _, ⟨name, rfl, rfl⟩, _, _,
      ⟨sign, rfl, rfl⟩, e, _, hm.exprs.expr (by omega) value, _, _, ⟨closing, rfl, rfl⟩, _, _,
      ⟨rfl, rfl⟩, rfl, rfl⟩

theorem typeDef_complete (hm : m.Complete n) (hn : c.rest.length < n) {origin : Nat}
    {as : List Annotation} {ms : Modifiers} {d : TypeDef}
    (h : ReadsTypeDef origin as ms c d c') : m.typeDef origin as ms c = .ok (d, c') := by
  cases h with
  | @mk c₁ t x name type closing =>
    have := c.length_advance_le
    have := c.advance.length_advance_le
    simp only [typeDef, bind_eq_ok, advance_eq_ok, ident_eq_ok, expect_eq_ok, since_eq_ok,
      pure_eq_ok]
    exact ⟨_, _, ⟨rfl, rfl⟩, ⟨x, c.advance.span⟩, _, ⟨name, rfl, rfl⟩, t, _,
      hm.exprs.type (by omega) type, _, _, ⟨closing, rfl, rfl⟩, _, _, ⟨rfl, rfl⟩, rfl, rfl⟩

theorem attachPoint_complete {p : String} (h : ReadsPoint c p c') :
    attachPoint c = .ok (p, c') := by
  cases h with
  | mk list =>
    simp only [attachPoint, bind_eq_ok, pure_eq_ok]
    refine ⟨_, _, many_of_repeats (R := ReadsWord) ?_ ?_ word_length_lt list
      fun _ hword => memberName_eq_ok.mpr hword, rfl, rfl⟩
    · intro c b c'
      simp only [attachPoint.pointEnds, bind_eq_ok, peek_eq_ok, pure_eq_ok, pointStep,
        Option.some.injEq, Prod.mk.injEq]
      constructor
      · rintro ⟨_, _, ⟨rfl, rfl⟩, rfl, rfl⟩
        exact ⟨rfl, rfl⟩
      · rintro ⟨rfl, rfl⟩
        exact ⟨_, _, ⟨rfl, rfl⟩, rfl, rfl⟩
    · intro c c' hstep
      simp only [pointStep, Option.some.injEq, Prod.mk.injEq] at hstep
      exact hstep.2 ▸ Nat.le_refl _

theorem attachPoints_complete {ps : List String} (h : ReadsPoints c ps c') :
    ∃ b c₁, ((c.kind = .keyword .kwOn ∧ b = true ∧ c.advance = c₁) ∨
        (c.kind ≠ .keyword .kwOn ∧ b = false ∧ c = c₁)) ∧
      (if b = true then separatedBy .comma attachPoint else pure [] : Parser (List String)) c₁
        = .ok (ps, c') := by
  cases h with
  | absent other => exact ⟨false, _, .inr ⟨other, rfl, rfl⟩, by simp [pure_eq_ok]⟩
  | present word first others =>
    refine ⟨true, _, .inl ⟨word, rfl, rfl⟩, ?_⟩
    simp only [if_true, separatedBy, bind_eq_ok, pure_eq_ok]
    refine ⟨_, _, attachPoint_complete first, _, _, ?_, rfl, rfl⟩
    -- A point may have no words, but then the comma before it is a token that is read.
    refine many_of_rounds (R := ReadsPoint) (Gap.between_steps .comma)
      (fun hstep => (Gap.step_reaches hstep).length_le) (fun hstep hpoint => ?_) others
      fun _ h => attachPoint_complete h
    obtain ⟨hcomma, rfl⟩ := between_more hstep
    exact Nat.lt_of_le_of_lt hpoint.reaches.length_le (length_advance_lt (by simp [hcomma]))

theorem annotationDecl_complete (hm : m.Complete n) (hn : c.rest.length < n) {origin : Nat}
    {ms : Modifiers} {d : AnnotationDecl} (h : ReadsAnnotationDecl origin ms c d c') :
    m.annotationDecl origin ms c = .ok (d, c') := by
  cases h with
  | @mk c₁ c₂ t x points type name hpoints closing =>
    have := c.length_advance_le
    obtain ⟨htype, -⟩ := readsTypeBefore_complete hm.exprs.type (by omega) type
    obtain ⟨b, c₃, hon, hlist⟩ := attachPoints_complete hpoints
    simp only [annotationDecl, ite_bind_eq, bind_eq_ok, advance_eq_ok, peekAt_eq_ok, ident_eq_ok,
      accept_eq_ok, expect_eq_ok, since_eq_ok, pure_eq_ok]
    exact ⟨_, _, ⟨rfl, rfl⟩, _, _, ⟨rfl, rfl⟩, t, c₁, htype, ⟨x, c₁.span⟩, _, ⟨name, rfl, rfl⟩, b, c₃,
      hon, points, _, hlist, _, _, ⟨closing, rfl, rfl⟩, _, _, ⟨rfl, rfl⟩, rfl, rfl⟩

/-! ### Services -/

/-- A service's path is passed token by token. -/
theorem passesBase_grows (h : PassesBase c c') : ∀ {c₀ : Cursor},
    Grows passBaseToken () c₀ () c →
      Grows passBaseToken () c₀ () c' ∧ c'.kind = .keyword .kwOn := by
  induction h with
  | stop word => exact fun hgrows => ⟨hgrows, word⟩
  | @pass c c' other open' _ ih =>
    intro c₀ hgrows
    refine ih (.step hgrows ?_ (length_advance_lt open'))
    simp only [passBaseToken, bind_eq_ok, at?_eq_ok]
    refine ⟨_, _, ⟨rfl, rfl⟩, ?_⟩
    rw [if_neg (by simpa using other)]
    simp only [bind_eq_ok, at?_eq_ok]
    refine ⟨_, _, ⟨rfl, rfl⟩, ?_⟩
    rw [if_neg (by simpa using open')]
    simp only [bind_eq_ok, advance_eq_ok, pure_eq_ok]
    exact ⟨_, _, ⟨rfl, rfl⟩, trivial, rfl⟩

theorem basePath_complete {path : Option String} (h : ReadsBasePath m.source c path c') :
    m.basePath c = .ok (path, c') := by
  simp only [basePath, bind_eq_ok, peek_eq_ok]
  cases h with
  | slash opening passes =>
    obtain ⟨hgrows, hon⟩ := passesBase_grows passes .refl
    refine ⟨_, _, ⟨opening, rfl⟩, ?_⟩
    simp only [bind_eq_ok, start_eq_ok, get_eq_ok, pure_eq_ok]
    refine ⟨_, _, ⟨rfl, rfl⟩, (), _, extend_of_grows hgrows ?_, _, _, ⟨rfl, rfl⟩, rfl, rfl⟩
    simp only [passBaseToken, bind_eq_ok, at?_eq_ok]
    refine ⟨_, _, ⟨rfl, rfl⟩, ?_⟩
    simp [hon, pure_eq_ok]
  | string word =>
    refine ⟨_, _, ⟨word, rfl⟩, ?_⟩
    simp only [bind_eq_ok, advance_eq_ok, pure_eq_ok]
    exact ⟨_, _, ⟨rfl, rfl⟩, rfl, rfl⟩
  | absent slash string =>
    refine ⟨_, _, ⟨rfl, rfl⟩, ?_⟩
    generalize c.kind = k at slash string ⊢
    cases k with
    | mark m => cases m <;> first | exact absurd rfl slash | rfl
    | string v => exact absurd rfl (string v)
    | _ => rfl

/-- What is read from a word on reads a token. -/
theorem length_of_word {k : Keyword} (word : c.kind = .keyword k) (h : c.advance.Reaches c') :
    c'.rest.length < c.rest.length :=
  Nat.lt_of_le_of_lt h.length_le (length_advance_lt (by simp [word]))

theorem function_kind {source : Source} {origin : Nat} {as : List Annotation} {ms : Modifiers}
    {f : Function} (h : ReadsFunction source origin as ms c f c') :
    c.kind = .keyword .kwFunction := by
  cases h
  assumption

theorem function_length {source : Source} {origin : Nat} {as : List Annotation} {ms : Modifiers}
    {f : Function} (h : ReadsFunction source origin as ms c f c') :
    c'.rest.length < c.rest.length := by
  cases h with
  | @mk c₁ _ _ _ _ _ _ _ _ word _ hpath _ list result body =>
    have := length_advance_lt (c := c) (by simp [word])
    have := c.advance.length_advance_le
    have := hpath.reaches.length_le
    have := c₁.length_advance_le
    have := list.length.1
    have := result.reaches.length_le
    have := body.length.1
    omega

theorem varDecl_length {configurable : Bool} {origin : Nat} {as : List Annotation} {ms : Modifiers}
    {v : VarDecl} (h : ReadsVarDecl origin as ms configurable c v c') :
    c'.rest.length < c.rest.length := by
  cases h with
  | @mk c₁ c₂ _ _ _ type _ value _ =>
    have := type.length_lt trivial
    have := c₁.length_advance_le
    have := value.reaches.length_le
    have := c₂.length_advance_le
    omega

theorem serviceMember_length {source : Source} {d : ServiceMember}
    (h : ReadsServiceMember source c d c') : c'.rest.length < c.rest.length := by
  cases h with
  | method annotations modifiers decl =>
    have := annotations.length.1
    have := modifiers.reaches.length_le
    have := function_length decl
    omega
  | field annotations modifiers _ decl =>
    have := annotations.length.1
    have := modifiers.reaches.length_le
    have := varDecl_length decl
    omega

theorem serviceMember_complete (hm : m.Complete n) (hn : c.rest.length < n) {d : ServiceMember}
    (h : ReadsServiceMember m.source c d c') : m.serviceMember c = .ok (d, c') := by
  simp only [serviceMember, bind_eq_ok, start_eq_ok, at?_eq_ok]
  cases h with
  | method annotations modifiers decl =>
    have := annotations.length.1
    have := modifiers.reaches.length_le
    refine ⟨_, _, Grammar.annotations_complete hm.exprs (by omega) annotations, _, _, ⟨rfl, rfl⟩, _, _,
      modifiers_complete modifiers, _, _, ⟨rfl, rfl⟩, ?_⟩
    rw [if_pos (by simp [function_kind decl])]
    simp only [bind_eq_ok, pure_eq_ok]
    exact ⟨_, _, function_complete hm (by omega) decl, rfl, rfl⟩
  | field annotations modifiers other decl =>
    have := annotations.length.1
    have := modifiers.reaches.length_le
    refine ⟨_, _, Grammar.annotations_complete hm.exprs (by omega) annotations, _, _, ⟨rfl, rfl⟩, _, _,
      modifiers_complete modifiers, _, _, ⟨rfl, rfl⟩, ?_⟩
    rw [if_neg (by simpa using other)]
    simp only [bind_eq_ok, pure_eq_ok]
    exact ⟨_, _, varDecl_complete hm (by omega)
      (fun hn h => init_complete hm hn h) decl, rfl, rfl⟩

theorem serviceType_complete (hm : m.Complete n) (hn : c.rest.length < n) {t : Option TypeDesc}
    (h : Reads (.given startsServiceType .type) c t c') :
    (match c.kind with
      | .ident _ => some <$> m.exprs.type
      | .mark .openParen => some <$> m.exprs.type
      | _ => pure none : Parser (Option TypeDesc)) c = .ok (t, c') := by
  cases h with
  | missing test =>
    generalize c.kind = k at test ⊢
    cases k with
    | ident => simp [startsServiceType, TokenKind.isIdent] at test
    | mark mk => cases mk <;> first | rfl | exact absurd test (by decide)
    | _ => rfl
  | found test type =>
    have hfound : (some <$> m.exprs.type) c = .ok (some _, c') :=
      map_eq_ok.mpr ⟨_, hm.exprs.type hn type, rfl⟩
    generalize c.kind = k at test ⊢
    cases k with
    | ident => exact hfound
    | mark mk => cases mk <;> first | exact hfound | exact absurd test (by decide)
    | _ => simp [startsServiceType, TokenKind.isIdent] at test

theorem service_complete (hm : m.Complete n) (hn : c.rest.length < n) {origin : Nat}
    {as : List Annotation} {ms : Modifiers} {d : Service}
    (h : ReadsService m.source origin as ms c d c') :
    m.service origin as ms c = .ok (d, c') := by
  cases h with
  | @mk c₁ c₂ c₃ _ t path ls members word type hpath on listeners opening list =>
    have := c.length_advance_le
    have := type.length.1
    have := hpath.reaches.length_le
    have := c₂.length_advance_le
    have := listeners.length.1
    have := c₃.length_advance_le
    -- What follows the word is the same with a type and without.
    have rest : (do
        let basePath ← m.basePath
        let _ ← expect (.keyword .kwOn)
        let listeners ← separatedBy .comma m.exprs.expr
        let _ ← expect (.mark .openBrace)
        let members ← many StmtGrammar.closingBrace m.serviceMember
        return ({ annotations := as, modifiers := ms, type := t, basePath, listeners, members,
                  keywordSpan := c.span, span := ← since origin } : Service)) c₁
          = .ok (⟨as, ms, t, path, ls, members, c.span, c'.since origin⟩, c') := by
      simp only [bind_eq_ok, expect_eq_ok, since_eq_ok, pure_eq_ok]
      refine ⟨_, _, basePath_complete hpath, _, _, ⟨on, rfl, rfl⟩, _, _,
        separatedBy_complete (s := .expr) .comma trivial hm.exprs.expr (by omega) listeners, _, _,
        ⟨opening, rfl, rfl⟩, _, _, ?_, _, _, ⟨rfl, rfl⟩, rfl, rfl⟩
      exact many_of_repeats StmtGrammar.closingBrace_steps StmtGrammar.closingStep_length
        serviceMember_length list fun hle h => serviceMember_complete hm (by omega) h
    have htype := serviceType_complete hm (by omega) type
    simp only [service, bind_eq_ok, expect_eq_ok, peek_eq_ok]
    refine ⟨_, _, ⟨word, rfl, rfl⟩, _, _, ⟨rfl, rfl⟩, ?_⟩
    generalize c.advance.kind = k at htype ⊢
    cases k with
    | mark mk => cases mk <;> exact bind_eq_ok.mpr ⟨_, _, htype, rest⟩
    | _ => exact bind_eq_ok.mpr ⟨_, _, htype, rest⟩

/-! ### Modules -/

theorem import_length {i : Import} (h : ReadsImport c i c') : c'.rest.length < c.rest.length := by
  cases h with
  | mk word org _ further rename _ =>
    refine length_of_word word ((org.reaches.step.trans (further.reaches
      (fun _ _ _ => Gap.step_reaches) fun _ _ _ => ReadsWord.reaches)).trans rename.reaches).step

theorem decl_length {source : Source} {origin : Nat} {as : List Annotation} {ms : Modifiers}
    {d : Member} (h : ReadsDecl source origin as ms c d c') : c'.rest.length < c.rest.length := by
  cases h with
  | function decl => exact function_length decl
  | moduleVar _ decl => exact varDecl_length decl
  | service decl =>
    have hword : c.kind = .keyword .kwService := by cases decl; assumption
    exact length_of_word hword (decl.meets.reaches fun _ _ _ => ReadsInitValue.reaches)
  | const word decl | listener word decl =>
    cases decl with
    | mk type _ _ value _ => exact length_of_word word ((type.reaches.step.step.trans value.reaches).step)
  | type word decl =>
    cases decl with
    | mk _ type _ => exact length_of_word word ((Cursor.Reaches.refl.step.trans type.reaches).step)
  | annotationDecl word decl =>
    cases decl with
    | mk type _ points _ =>
      exact length_of_word word ((type.reaches.step.trans points.reaches).step)

theorem member_length {source : Source} {d : Member} (h : ReadsMember source c d c') :
    c'.rest.length < c.rest.length := by
  cases h with
  | @mk c₁ c₂ _ _ _ _ annotations modifiers decl =>
    have := annotations.length.1
    have := modifiers.reaches.length_le
    have := decl_length decl
    omega

theorem member_complete (hm : m.Complete n) (hn : c.rest.length < n) {d : Member}
    (h : ReadsMember m.source c d c') : m.member c = .ok (d, c') := by
  cases h with
  | @mk c₁ c₂ _ _ _ _ annotations modifiers decl =>
    have := annotations.length.1
    have := modifiers.reaches.length_le
    have hn₂ : c₂.rest.length < n := by omega
    simp only [member, bind_eq_ok, start_eq_ok, peek_eq_ok]
    refine ⟨_, _, Grammar.annotations_complete hm.exprs (by omega) annotations, _, _, ⟨rfl, rfl⟩, _, _,
      modifiers_complete modifiers, _, _, ⟨rfl, rfl⟩, ?_⟩
    cases decl with
    | function decl =>
      rw [function_kind decl]
      simp only [bind_eq_ok, pure_eq_ok]
      exact ⟨_, _, function_complete hm hn₂ decl, rfl, rfl⟩
    | service decl =>
      have hword : c₂.kind = .keyword .kwService := by cases decl; assumption
      rw [hword]
      simp only [bind_eq_ok, pure_eq_ok]
      exact ⟨_, _, service_complete hm hn₂ decl, rfl, rfl⟩
    | const word decl =>
      rw [word]
      simp only [bind_eq_ok, pure_eq_ok]
      exact ⟨_, _, valueDecl_complete hm hn₂ decl, rfl, rfl⟩
    | type word decl =>
      rw [word]
      simp only [bind_eq_ok, pure_eq_ok]
      exact ⟨_, _, typeDef_complete hm hn₂ decl, rfl, rfl⟩
    | listener word decl =>
      rw [word]
      simp only [bind_eq_ok, pure_eq_ok]
      exact ⟨_, _, valueDecl_complete hm hn₂ decl, rfl, rfl⟩
    | annotationDecl word decl =>
      rw [word]
      simp only [bind_eq_ok, pure_eq_ok]
      exact ⟨_, _, annotationDecl_complete hm hn₂ decl, rfl, rfl⟩
    | moduleVar other decl =>
      have hvar := varDecl_complete hm hn₂ (fun hn h => configurableInit_complete hm hn h) decl
      generalize c₂.kind = k at other ⊢
      cases k with
      | keyword w =>
        cases w <;> first
          | exact bind_eq_ok.mpr ⟨_, _, hvar, rfl⟩
          | exact absurd other (by decide)
      | _ => exact bind_eq_ok.mpr ⟨_, _, hvar, rfl⟩

theorem module_complete (hm : m.Complete n) (hn : c.rest.length < n) {d : Module}
    (h : ReadsModule m.source c d c') : m.module c = .ok (d, c') := by
  cases h with
  | @mk c₁ _ is ds imports members =>
    have himports : c₁.rest.length ≤ c.rest.length :=
      (imports.reaches (fun _ _ _ => Gap.step_reaches) fun _ _ _ => ReadsImport.reaches).length_le
    simp only [module, bind_eq_ok, pure_eq_ok]
    refine ⟨is, c₁, ?_, ds, c', ?_, rfl, rfl⟩
    · exact many_of_repeats (R := ReadsImport) (Gap.startedBy_steps _)
        (fun hstep => (Gap.step_reaches hstep).length_le) import_length imports
        fun _ h => importDecl_complete h
    · refine many_of_repeats (R := ReadsMember m.source) ?_
        (fun hstep => (memberStep_reaches hstep).length_le) member_length members
        fun hle h => member_complete hm (by omega) h
      intro c b c'
      simp [at?_eq_ok, memberStep]

end MemberGrammar

/-! ### Whole texts -/

/-- A text that is an expression by the grammar, up to its end, is read as one. -/
theorem parseExpr_of_reads {text : String} {c c' : Cursor} {e : Expr}
    (hc : Cursor.ofText text = .ok c) (h : Reads .expr c e c') (hend : c'.kind = .endOfFile) :
    parseExpr text = .ok e :=
  whole_eq_ok.mpr ⟨c, c', hc, (grammar_complete _).expr (Nat.lt_succ_self _) h, hend⟩

/-- So is one that is a type. -/
theorem parseType_of_reads {text : String} {c c' : Cursor} {t : TypeDesc}
    (hc : Cursor.ofText text = .ok c) (h : Reads .type c t c') (hend : c'.kind = .endOfFile) :
    parseType text = .ok t :=
  whole_eq_ok.mpr ⟨c, c', hc, (grammar_complete _).type (Nat.lt_succ_self _) h, hend⟩

/-- **A text that is a module by the grammar is read as one.** -/
theorem parseModule_of_reads {text : String} {ts : List Tile} {tail : List Char} {m : Module}
    {c' : Cursor} (htiling : Tiling text.toList ts tail)
    (h : ReadsModule ⟨"", text⟩ (Cursor.ofTiles ts (Text.byteLength text.toList)) m c') :
    parseModule text = .ok m := by
  have hc := Cursor.ofText_eq_ok.mpr ⟨ts, tail, htiling, rfl⟩
  generalize Cursor.ofTiles ts (Text.byteLength text.toList) = c at h hc
  have hsound := grammar_sound (c.rest.length + 1)
  have hgrammar := grammar_complete (c.rest.length + 1)
  have hread := MemberGrammar.module_complete
    (m := ⟨⟨"", text⟩, c.grammar, stmtGrammar c.grammar (c.rest.length + 1)⟩)
    ⟨hsound, hgrammar, stmtGrammar_complete hsound hgrammar _ (Nat.le_refl _)⟩ (Nat.lt_succ_self _) h
  simp only [parseModule, hc, bind, Except.bind]
  rw [hread]
  rfl

end Durable
