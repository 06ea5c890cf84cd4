/-
No text is both a declaration and an expression.

A statement that no word announces is tried as a declaration first.  The trial cannot take an
expression for a declaration: a type and an expression that start at one token go the same way
for a while, but where the type stops a name follows, and no expression stops in front of one.
Only in parentheses can both stop at one place, which is why the lemma speaks about that too.
-/
import Durable.Proofs.Grammar.Starts

namespace Durable

variable {c c₀ c₁ c₂ : Cursor} {t : TypeDesc} {e : Expr}

theorem Reads.mapping_kind (h : Reads .mapping c e c₁) : c.kind = .mark .openBrace := h.starts

/-! ### How types and expressions go on -/

/-- From behind a type without operators to where the type stops.  Behind a bar or an ampersand it
may stop anywhere. -/
inductive TypeGoesOn : Cursor → Cursor → Prop
  | done {c : Cursor} : TypeGoesOn c c
  | question {c c' : Cursor} (mark : c.kind = .mark .question)
      (more : TypeGoesOn c.advance c') : TypeGoesOn c c'
  | brackets {c c' : Cursor} (opening : c.kind = .mark .openBracket)
      (closing : c.kindAt 1 = .mark .closeBracket) (more : TypeGoesOn c.advance.advance c') :
      TypeGoesOn c c'
  | joined {c c' : Cursor} (mark : c.kind = .mark .pipe ∨ c.kind = .mark .amp) : TypeGoesOn c c'

theorem TypeGoesOn.trans (h : TypeGoesOn c c₁) (h' : TypeGoesOn c₁ c₂) : TypeGoesOn c c₂ := by
  induction h with
  | done => exact h'
  | question mark _ ih => exact .question mark (ih h')
  | brackets opening closing _ ih => exact .brackets opening closing (ih h')
  | joined mark => exact .joined mark

/-- From behind an expression without operators to where the expression stops; only the first step
is told. -/
inductive ExprGoesOn : Cursor → Cursor → Prop
  | done {c : Cursor} : ExprGoesOn c c
  | access {c c' : Cursor} (mark : c.kind = .mark .dot ∨ c.kind = .mark .rightArrow) :
      ExprGoesOn c c'
  | index {c c₁ c' : Cursor} {e : Expr} (opening : c.kind = .mark .openBracket)
      (position : Reads .expr c.advance e c₁) : ExprGoesOn c c'
  | operator {c c' : Cursor} {op : BinaryOp} (mark : c.kind = .mark op.mark) : ExprGoesOn c c'
  | typeTest {c c' : Cursor} (word : c.kind = .keyword .kwIs) : ExprGoesOn c c'
  | question {c c₁ c' : Cursor} {e : Expr} (mark : c.kind = .mark .question)
      (ifTrue : Reads .expr c.advance e c₁) (colon : c₁.kind = .mark .colon) : ExprGoesOn c c'

theorem ExprGoesOn.trans (h : ExprGoesOn c c₁) (h' : ExprGoesOn c₁ c₂) : ExprGoesOn c c₂ := by
  cases h with
  | done => exact h'
  | access mark => exact .access mark
  | index opening position => exact .index opening position
  | operator mark => exact .operator mark
  | typeTest word => exact .typeTest word
  | question mark ifTrue colon => exact .question mark ifTrue colon

theorem Reads.suffixing_goesOn : ∀ {c c' : Cursor} {t : TypeDesc}, Reads .suffixing c t c' →
    ∃ t₀ c₀, Reads .plainType c t₀ c₀ ∧ TypeGoesOn c₀ c'
  | _, _, _, .plain inner => ⟨_, _, inner, .done⟩
  | _, _, _, .optional inner mark => by
    obtain ⟨t₀, c₀, hplain, hgoes⟩ := suffixing_goesOn inner
    exact ⟨t₀, c₀, hplain, hgoes.trans (.question mark .done)⟩
  | _, _, _, .array inner opening closing => by
    obtain ⟨t₀, c₀, hplain, hgoes⟩ := suffixing_goesOn inner
    exact ⟨t₀, c₀, hplain, hgoes.trans (.brackets opening closing .done)⟩

/-- Behind the first of several types stands the mark that joins them. -/
theorem Reads.separated_goesOn {m : Mark} {s : Sym} {as : List s.Result}
    (hm : m = .pipe ∨ m = .amp) (h : Reads (.separated m s) c as c₁) :
    ∃ a c₀, Reads s c a c₀ ∧ TypeGoesOn c₀ c₁ := by
  cases h with
  | separated first others =>
    refine ⟨_, _, first, ?_⟩
    cases others with
    | stop step =>
      simp only [Gap.step] at step
      split at step
      · simp at step
      · simp only [Option.some.injEq, Prod.mk.injEq, true_and] at step
        rw [step]
        exact .done
    | more step =>
      refine .joined ?_
      simp only [Gap.step] at step
      split at step
      · next hmark =>
        rw [hmark]
        exact hm.imp (congrArg _) (congrArg _)
      · simp at step

theorem Reads.type_goesOn (h : Reads .type c t c₁) :
    ∃ t₀ c₀, Reads .plainType c t₀ c₀ ∧ TypeGoesOn c₀ c₁ := by
  have suffixed : ∀ {t : TypeDesc} {c₂ : Cursor}, Reads .intersection c t c₂ →
      ∃ t₀ c₀, Reads .plainType c t₀ c₀ ∧ TypeGoesOn c₀ c₂ := by
    intro t c₂ h
    obtain ⟨_, _, hfirst, hgoes⟩ : ∃ a c₀, Reads .suffixed c a c₀ ∧ TypeGoesOn c₀ c₂ := by
      cases h with
      | onePart members | intersection members => exact separated_goesOn (.inr rfl) members
    cases hfirst with
    | suffixed chain =>
      obtain ⟨t₀, c₀, hplain, hgoes'⟩ := chain.suffixing_goesOn
      exact ⟨t₀, c₀, hplain, hgoes'.trans hgoes⟩
  obtain ⟨_, _, hfirst, hgoes⟩ : ∃ a c₀, Reads .intersection c a c₀ ∧ TypeGoesOn c₀ c₁ := by
    cases h with
    | oneMember members | union members => exact separated_goesOn (.inl rfl) members
  obtain ⟨t₀, c₀, hplain, hgoes'⟩ := suffixed hfirst
  exact ⟨t₀, c₀, hplain, hgoes'.trans hgoes⟩

theorem Reads.accessing_goesOn : ∀ {c c' : Cursor} {e : Expr}, Reads .accessing c e c' →
    ∃ e₀ c₀, Reads .primary c e₀ c₀ ∧ ExprGoesOn c₀ c'
  | _, _, _, .primary inner => ⟨_, _, inner, .done⟩
  | _, _, _, .field target dot _ _ => by
    obtain ⟨e₀, c₀, hprimary, hgoes⟩ := accessing_goesOn target
    exact ⟨e₀, c₀, hprimary, hgoes.trans (.access (.inl dot))⟩
  | _, _, _, .methodCall target dot _ _ _ => by
    obtain ⟨e₀, c₀, hprimary, hgoes⟩ := accessing_goesOn target
    exact ⟨e₀, c₀, hprimary, hgoes.trans (.access (.inl dot))⟩
  | _, _, _, .remoteCall target arrow _ _ _ => by
    obtain ⟨e₀, c₀, hprimary, hgoes⟩ := accessing_goesOn target
    exact ⟨e₀, c₀, hprimary, hgoes.trans (.access (.inr arrow))⟩
  | _, _, _, .index target opening position _ => by
    obtain ⟨e₀, c₀, hprimary, hgoes⟩ := accessing_goesOn target
    exact ⟨e₀, c₀, hprimary, hgoes.trans (.index opening position)⟩

/-- An operand that starts with neither an operator nor a cast. -/
theorem Reads.unary_goesOn (hop : Grammar.unaryOp? c.kind = none) (hless : c.kind ≠ .mark .less)
    (h : Reads .unary c e c₁) : ∃ e₀ c₀, Reads .primary c e₀ c₀ ∧ ExprGoesOn c₀ c₁ := by
  cases h with
  | unary word => simp [hop] at word
  | cast type => exact absurd type.starts hless
  | bare inner =>
    cases inner with
    | accessed chain => exact chain.accessing_goesOn

theorem Reads.joining_goesOn {floor : Nat} : ∀ {c c' : Cursor} {e : Expr},
    Grammar.unaryOp? c.kind = none → c.kind ≠ .mark .less → Reads (.joining floor) c e c' →
    ∃ e₀ c₀, Reads .primary c e₀ c₀ ∧ ExprGoesOn c₀ c'
  | _, _, _, hop, hless, .operand only => only.unary_goesOn hop hless
  | _, _, _, hop, hless, .operator left mark _ _ => by
    obtain ⟨e₀, c₀, hprimary, hgoes⟩ := joining_goesOn hop hless left
    exact ⟨e₀, c₀, hprimary, hgoes.trans (.operator mark)⟩
  | _, _, _, hop, hless, .typeTest left word _ _ => by
    obtain ⟨e₀, c₀, hprimary, hgoes⟩ := joining_goesOn hop hless left
    exact ⟨e₀, c₀, hprimary, hgoes.trans (.typeTest word)⟩

theorem Reads.expr_goesOn (hop : Grammar.unaryOp? c.kind = none) (hless : c.kind ≠ .mark .less)
    (h : Reads .expr c e c₁) : ∃ e₀ c₀, Reads .primary c e₀ c₀ ∧ ExprGoesOn c₀ c₁ := by
  cases h with
  | condition only =>
    cases only with
    | binary chain => exact chain.joining_goesOn hop hless
  | conditional condition question ifTrue colon =>
    cases condition with
    | binary chain =>
      obtain ⟨e₀, c₀, hprimary, hgoes⟩ := chain.joining_goesOn hop hless
      exact ⟨e₀, c₀, hprimary, hgoes.trans (.question question ifTrue colon)⟩

/-! ### Where both stop -/

theorem TokenKind.literal?_builtin (b : BuiltinType) :
    (TokenKind.keyword b.keyword).literal? = none := by
  cases b <;> rfl

theorem BuiltinType.keyword_ne_new (b : BuiltinType) : b.keyword ≠ .kwNew := by
  cases b <;> decide

/-- No name starts with a literal. -/
theorem Cursor.atName_of_literal? {v : Literal} (h : c.kind.literal? = some v) :
    c.atName = false := by
  unfold TokenKind.literal? at h
  unfold atName
  split at h <;> simp_all <;> intro hword <;> exact absurd hword (by decide)

/-- A token in front of which an expression may stop, in a statement, in parentheses or in a
condition. -/
def endsExpr : TokenKind → Bool
  | .mark .closeParen | .mark .semicolon | .mark .colon | .mark .assign | .mark .plusAssign
  | .mark .minusAssign | .mark .starAssign | .mark .slashAssign => true
  | _ => false

/-- What stands behind the type of a declaration, or behind a type in parentheses. -/
def Cursor.EndsDeclared (c : Cursor) : Prop :=
  c.kind = .mark .closeParen ∨
    ∃ n, c.kind = .ident n ∧ (c.advance.kind = .mark .assign ∨ c.advance.kind = .mark .semicolon)

/-- A name stops an expression where a sign or a semicolon follows it. -/
theorem Reads.expr_of_name {n : String} (h : Reads .expr c e c₁) (hname : c.kind = .ident n)
    (hnext : c.advance.kind = .mark .assign ∨ c.advance.kind = .mark .semicolon) :
    c₁ = c.advance := by
  obtain ⟨e₀, c₀, hprimary, hgoes⟩ := h.expr_goesOn (by simp [hname, Grammar.unaryOp?])
    (by simp [hname])
  have hsimple : c.atQualified = false := by
    rcases hnext with hnext | hnext <;>
      simp [Cursor.atQualified, Cursor.kindAt_succ, show c.advance.kindAt 0 = _ from hnext]
  have hplace : c₀ = c.advance := by
    cases hprimary with
    | name _ ref =>
      cases ref with
      | simple => rfl
      | qualified hat => simp [hsimple] at hat
    | call _ ref opening =>
      cases ref with
      | simple => rcases hnext with hnext | hnext <;> simp [hnext] at opening
      | qualified hat => simp [hsimple] at hat
    | literal word => simp [hname, TokenKind.literal?] at word
    | mapping inner =>
      simp [inner.mapping_kind] at hname
    | nilValue word | paren word | list word | construct word | errorCall word =>
      simp [hname] at word
  subst hplace
  cases hgoes with
  | done => rfl
  | access mark => rcases hnext with hnext | hnext <;> simp [hnext] at mark
  | index opening => rcases hnext with hnext | hnext <;> simp [hnext] at opening
  | typeTest word => rcases hnext with hnext | hnext <;> simp [hnext] at word
  | question mark => rcases hnext with hnext | hnext <;> simp [hnext] at mark
  | @operator _ op mark =>
    rcases hnext with hnext | hnext <;> cases op <;> simp [hnext, BinaryOp.mark] at mark

/-- What is behind a type stops an expression too, if it is in parentheses; behind the type of a
declaration no expression stops. -/
theorem ExprGoesOn.eq_of_endsDeclared (h : ExprGoesOn c c₁) (hend : c.EndsDeclared)
    (hends : endsExpr c₁.kind = true) : c₁ = c ∧ c.kind = .mark .closeParen := by
  cases h with
  | done =>
    refine ⟨rfl, ?_⟩
    rcases hend with hclose | ⟨n, hname, -⟩
    · exact hclose
    · simp [hname, endsExpr] at hends
  | @operator _ op mark =>
    rcases hend with hclose | ⟨n, hname, -⟩
    · cases op <;> simp [hclose, BinaryOp.mark] at mark
    · simp [hname] at mark
  | index mark | typeTest mark | question mark =>
    rcases hend with hclose | ⟨n, hname, -⟩ <;> simp_all
  | access mark =>
    rcases hend with hclose | ⟨n, hname, -⟩ <;> simp_all

/-- Where a type goes on, and an expression goes on from the same place, the two stop in front of
one parenthesis if each stops where it may. -/
theorem TypeGoesOn.meets (h : TypeGoesOn c c₁) (hend : c₁.EndsDeclared) :
    (∀ {c₂}, ExprGoesOn c c₂ → endsExpr c₂.kind = true → c₂ = c₁ ∧ c₁.kind = .mark .closeParen) ∧
      ∀ {e : Expr} {c₂}, Reads .expr c e c₂ → c₂.kind ≠ .mark .colon := by
  have starts : ∀ {c c₂ : Cursor} {e : Expr}, Reads .expr c e c₂ → c.kind.startsExpr = true :=
    fun h => h.starts
  induction h with
  | @done c =>
    refine ⟨fun h hends => h.eq_of_endsDeclared hend hends, fun {e c₂} h hcolon => ?_⟩
    rcases hend with hclose | ⟨n, hname, hnext⟩
    · exact absurd (starts h) (by simp [hclose, TokenKind.startsExpr, TokenKind.startsPrimary, Grammar.unaryOp?])
    · rw [h.expr_of_name hname hnext] at hcolon
      rcases hnext with hnext | hnext <;> simp [hnext] at hcolon
  | @question c c₁ mark more ih =>
    refine ⟨fun h hends => ?_, fun {e c₂} h => ?_⟩
    · cases h with
      | done => simp [mark, endsExpr] at hends
      | question _ ifTrue colon => exact absurd colon ((ih hend).2 ifTrue)
      | index mark' | typeTest mark' => simp [mark] at mark'
      | access mark' => simp [mark] at mark'
      | @operator _ op mark' => cases op <;> simp [mark, BinaryOp.mark] at mark'
    · exact absurd (starts h) (by simp [mark, TokenKind.startsExpr, TokenKind.startsPrimary, Grammar.unaryOp?])
  | @joined c c₁ mark => 
    refine ⟨fun h hends => ?_, fun {e c₂} h => ?_⟩
    · cases h with
      | done => rcases mark with mark | mark <;> simp [mark, endsExpr] at hends
      | question mark' | index mark' | typeTest mark' => rcases mark with mark | mark <;> simp [mark] at mark'
      | access mark' => rcases mark with mark | mark <;> simp [mark] at mark'
      | @operator _ op mark' => rcases mark with mark | mark <;> cases op <;> simp [mark, BinaryOp.mark] at mark'
    · rcases mark with mark | mark <;>
        exact absurd (starts h) (by simp [mark, TokenKind.startsExpr, TokenKind.startsPrimary, Grammar.unaryOp?])
  | @brackets c c₁ opening closing more ih =>
    have hclose : c.advance.kind = .mark .closeBracket := by rwa [Cursor.kindAt_succ] at closing
    have hnot : c.advance.kind.startsExpr = false := by
      rw [hclose]
      rfl
    refine ⟨fun h hends => ?_, fun {e c₂} h hcolon => ?_⟩
    · cases h with
      | done => simp [opening, endsExpr] at hends
      | index _ position => simp [starts position] at hnot
      | question mark' | typeTest mark' => simp [opening] at mark'
      | access mark' => simp [opening] at mark'
      | @operator _ op mark' => cases op <;> simp [opening, BinaryOp.mark] at mark'
    · -- An expression that starts with empty brackets is an empty list.
      obtain ⟨e₀, c₀, hprimary, hgoes⟩ := h.expr_goesOn (by simp [opening, Grammar.unaryOp?])
        (by simp [opening])
      have hplace : c₀ = c.advance.advance := by
        cases hprimary with
        | list _ items =>
          cases items with
          | noItems => rfl
          | items _ first => simp [starts first] at hnot
        | literal word => simp [opening, TokenKind.literal?] at word
        | name hat | call hat => simp [Cursor.atName, opening] at hat
        | mapping inner =>
          simp [inner.mapping_kind] at opening
        | nilValue word | paren word | construct word | errorCall word => simp [opening] at word
      subst hplace
      obtain ⟨rfl, hparen⟩ := (ih hend).1 hgoes (by rw [hcolon]; rfl)
      simp [hparen] at hcolon

theorem ReadsName.unique {r r' : NameRef} (h : ReadsName c r c₁) (h' : ReadsName c r' c₂) :
    c₁ = c₂ := by
  cases h with
  | qualified hat =>
    cases h' with
    | qualified => rfl
    | simple hat' => simp [hat] at hat'
  | simple hat =>
    cases h' with
    | qualified hat' => simp [hat] at hat'
    | simple => rfl

/-- **Where a type and an expression that start together both stop as they may, they stop in front
of one parenthesis.** -/
theorem Reads.type_meets_expr (ht : Reads .type c t c₁) (he : Reads .expr c e c₂)
    (hend : c₁.EndsDeclared) (hends : endsExpr c₂.kind = true) :
    c₂ = c₁ ∧ c₁.kind = .mark .closeParen := by
  induction hn : c.rest.length using Nat.strongRecOn generalizing c c₁ c₂ t e with
  | ind n ih =>
    subst hn
    obtain ⟨hop, hless⟩ := TokenKind.unaryOp?_of_startsType ht.starts
    obtain ⟨t₀, c₀, hplain, hgoes⟩ := ht.type_goesOn
    obtain ⟨e₀, p₀, hprimary, hgoes'⟩ := he.expr_goesOn hop hless
    suffices p₀ = c₀ by
      subst this
      exact (hgoes.meets hend).1 hgoes' hends
    have hprimary' := hprimary.starts
    -- A parenthesis behind the first part stops the type at once.
    have hparen : c₀.kind ≠ .mark .openParen := by
      intro hk
      cases hgoes with
      | done => rcases hend with hclose | ⟨n, hname, -⟩ <;> simp_all
      | question mark | brackets mark | joined mark => simp [hk] at mark
    cases hplain with
    | inferred word | mapType word | future word | stream word | anyFunction word
    | functionType word | record word =>
      rw [word] at hprimary'
      exact absurd hprimary' (by unfold Sym.Starts; decide)
    | builtin word alone =>
      cases hprimary with
      | errorCall _ opening => exact absurd opening hparen
      | name hat | call hat => simp [Cursor.atName, word, alone] at hat
      | literal word' => simp [word, TokenKind.literal?_builtin] at word'
      | construct word' => simp [word, BuiltinType.keyword_ne_new] at word'
      | mapping inner => simp [inner.mapping_kind] at word
      | nilValue word' | paren word' | list word' => simp [word] at word'
    | typeName hat ref =>
      cases hprimary with
      | name _ ref' => exact (ref.unique ref').symm
      | call _ ref' opening => exact absurd opening (ref.unique ref' ▸ hparen)
      | errorCall word opening =>
        simp [Cursor.atName, word, Cursor.atQualified, Cursor.kindAt_succ,
          show c.advance.kindAt 0 = _ from opening] at hat
      | literal word => simp [Cursor.atName_of_literal? word] at hat
      | construct word =>
        simp [Cursor.atName, word] at hat
        exact absurd hat.1 (by decide)
      | mapping inner => simp [Cursor.atName, inner.mapping_kind] at hat
      | nilValue word | paren word | list word => simp [Cursor.atName, word] at hat
    | singleton word =>
      cases hprimary with
      | literal => rfl
      | errorCall word' | construct word' | nilValue word' | paren word' | list word' =>
        simp [word', TokenKind.literal?] at word
      | name hat | call hat => simp [Cursor.atName_of_literal? word] at hat
      | mapping inner =>
        simp [inner.mapping_kind, TokenKind.literal?] at word
    | nilType opening closing =>
      cases hprimary with
      | nilValue => rfl
      | paren _ inner =>
        have := inner.starts
        simp [Sym.Starts, closing] at this
        exact absurd this (by decide)
      | literal word => simp [opening, TokenKind.literal?] at word
      | errorCall word | construct word | list word => simp [opening] at word
      | name hat | call hat => simp [Cursor.atName, opening] at hat
      | mapping inner => simp [inner.mapping_kind] at opening
    | parenType opening inner closing =>
      cases hprimary with
      | paren _ inner' closing' =>
        have hlt := Cursor.length_advance_lt (c := c) (by simp [opening])
        rw [(ih _ hlt inner inner' (.inl closing) (by rw [closing']; rfl) rfl).1]
      | nilValue _ closing' =>
        have := inner.starts
        simp [Sym.Starts, closing'] at this
        exact absurd this (by decide)
      | literal word => simp [opening, TokenKind.literal?] at word
      | errorCall word | construct word | list word => simp [opening] at word
      | name hat | call hat => simp [Cursor.atName, opening] at hat
      | mapping inner => simp [inner.mapping_kind] at opening

/-- **An expression in front of which no declaration stops is no declaration.** -/
theorem Reads.not_localVar {d : LocalVar} (he : Reads .expr c e c₁)
    (hends : endsExpr c₁.kind = true) : ¬ Reads .localVar c d c₂ := by
  intro h
  have hstarts : c.kind.startsExpr = true := he.starts
  cases h with
  | @localVar _ c₃ c₄ c₅ _ _ n _ annotations type name value closing =>
    obtain hat | ⟨-, rfl⟩ := annotations.annotations_cases
    · rw [hat] at hstarts
      exact absurd hstarts (by decide)
    · have hplain : c₃.pass (.keyword .kwFinal) = c₃ := by
        unfold Cursor.pass
        rw [if_neg]
        intro hfinal
        rw [hfinal] at hstarts
        exact absurd hstarts (by decide)
      rw [hplain] at type
      have hend : c₄.EndsDeclared := by
        refine .inr ⟨n, name, ?_⟩
        cases value with
        | absent => exact .inr closing
        | present sign => exact .inl sign
      have := (type.type_meets_expr he hend hends).2
      simp [name] at this

end Durable
