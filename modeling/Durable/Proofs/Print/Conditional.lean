/-
Conditionals put together from printed expressions.

The printer writes a conditional as its three parts with a question mark and a colon between them,
and puts no parentheses around a part.  The text is read as the conditional of the three if no part
takes a mark that is not its own.  The colon is taken by nothing: behind a blank it makes no prefix
of a name.  The question mark is also a suffix of types, and a type takes all that stand behind it.
So the condition alone matters, and only whether its last token belongs to a type: no expression
ends with a type but through a type test, since the arguments of a constructed object are always
printed.  `Reads.ne_question` says that where an expression ends so, no question mark comes next.
-/
import Durable.Proofs.Grammar.Precedence
import Durable.Proofs.Print.Module

namespace Durable

open Text

variable {c c' : Cursor}

/-! ### Types take question marks -/

theorem Reads.many_endsType {m : Mark} {s : Sym}
    (hs : ∀ {c c' : Cursor} {a : s.Result}, Reads s c a c' → c'.EndsType) :
    ∀ {c c' : Cursor} {as : List s.Result}, Reads (.many (.between m) s) c as c' → c.EndsType →
      c'.EndsType
  | _, _, _, .stop step, hc => (between_stop step).2 ▸ hc
  | _, _, _, .more _ first others, _ => many_endsType hs others (hs first)

theorem Reads.separated_endsType {m : Mark} {s : Sym} {as : List s.Result}
    (h : Reads (.separated m s) c as c')
    (hs : ∀ {c c' : Cursor} {a : s.Result}, Reads s c a c' → c'.EndsType) : c'.EndsType := by
  cases h with
  | separated first others => exact others.many_endsType hs (hs first)

/-- Whatever a type ends with, no suffix of a type comes next. -/
theorem Reads.type_endsType {t : TypeDesc} (h : Reads .type c t c') : c'.EndsType := by
  have suffixed : ∀ {c c' : Cursor} {t}, Reads .suffixed c t c' → c'.EndsType := by
    intro c c' t h
    cases h with
    | suffixed _ stop => exact stop
  have part : ∀ {c c' : Cursor} {t}, Reads .intersection c t c' → c'.EndsType := by
    intro c c' t h
    cases h with
    | onePart members | intersection members => exact members.separated_endsType suffixed
  cases h with
  | oneMember members | union members => exact members.separated_endsType part

/-- An expression that ends in a type stops where the type does, so not at a question mark. -/
theorem Reads.ne_question {s : Sym} {t : s.Result} {e : Expr} (h : Reads s c t c') :
    s.node? t = some (.expr e) → e.endsInType = true → c'.kind ≠ .mark .question := by
  induction h generalizing e with
  | condition _ alone => exact fun _ _ => alone
  -- These read the same expression as their part does.
  | operand _ ih | binary _ _ ih | bare _ ih | accessed _ _ ih | primary _ ih | mapping _ ih =>
    exact ih
  -- These end with their last part.
  | conditional _ _ _ _ _ _ _ ih | operator _ _ _ _ _ ih | unary _ _ ih | cast _ _ _ ih =>
    rintro ⟨⟩ hends
    exact ih rfl hends
  | typeTest _ _ _ right =>
    rintro ⟨⟩ -
    exact right.type_endsType.1
  | field | methodCall | remoteCall | index | literal | nilValue | paren | list | fields | construct
  | errorCall | call | name =>
    rintro ⟨⟩ hends
    simp [Expr.endsInType] at hends
  | _ => exact nofun

theorem Expr.endsInType_erase : ∀ e : Expr, e.erase.endsInType = e.endsInType
  | .binary _ _ right _ => endsInType_erase right
  | .unary _ operand _ | .cast _ operand _ => endsInType_erase operand
  | .conditional _ _ ifFalse _ => endsInType_erase ifFalse
  | .literal _ _ | .name _ | .call _ _ _ | .methodCall _ _ _ _ | .remoteCall _ _ _ _ | .field _ _ _
  | .index _ _ _ | .mapping _ _ | .list _ _ | .typeTest _ _ _ | .construct _ _ _ | .paren _ _
  | .required _ => rfl

/-! ### Conditions -/

/-- A condition is no conditional. -/
theorem Reads.not_conditional {floor : Nat} {e f g : Expr} {sp : Span} :
    ¬ Reads (.binary floor) c (.conditional e f g sp) c'
  | .binary (.operand only) _ => by simpa [Expr.isOperand] using only.isOperand_unary

/-- An expression from a text is a condition, if it is no conditional. -/
theorem Reads.condition_reprints {e : Expr} (h : Reads .expr c e c') (src : List Char)
    (hp : c.Plain)
    (hne : ∀ f g k sp, e ≠ .conditional f g k sp) (hends : e.endsInType = false) :
    Reprints src (.binary 0) c e (·.kind = .mark .question) := by
  cases h with
  | condition only =>
    have hback : (Sym.binary 0).Back src c e c' := only.back hp
    exact hback.mono fun _ hd => .inr ⟨hends, hd⟩
  | conditional => exact absurd rfl (hne _ _ _ _)

/-- **Conditionals compose.** The texts of three expressions with a question mark and a colon
between them are read as the conditional of the three, if and only if the first one, which must not
be a conditional itself, does not end in the type of a type test. -/
theorem parseExpr_conditional {textᵢ textₜ textₑ : String} {i t e : Expr}
    (hi : parseExpr textᵢ = .ok i) (ht : parseExpr textₜ = .ok t) (he : parseExpr textₑ = .ok e)
    (hquotesᵢ : quotesName textᵢ = false) (hquotesₜ : quotesName textₜ = false)
    (hquotesₑ : quotesName textₑ = false) (hne : ∀ f g k sp, i ≠ .conditional f g k sp) :
    (∃ x, parseExpr (i.print ++ " ? " ++ t.print ++ " : " ++ e.print) = .ok x ∧
      x.erase = .conditional i.erase t.erase e.erase .synthetic) ↔ i.endsInType = false := by
  constructor
  · rintro ⟨x, hx, herase⟩
    obtain ⟨c, c', -, hread, -⟩ := reads_of_parseExpr hx
    cases hread with
    | condition only =>
      cases x <;> simp only [Expr.erase, reduceCtorEq] at herase
      exact absurd only Reads.not_conditional
    | conditional condition question =>
      simp only [Expr.erase, Expr.conditional.injEq] at herase
      rw [← Expr.endsInType_erase, ← herase.1, Expr.endsInType_erase]
      exact Bool.eq_false_iff.mpr fun hends => condition.ne_question rfl hends question
  · intro hends
    generalize htext : i.print ++ " ? " ++ t.print ++ " : " ++ e.print = text
    obtain ⟨cᵢ, _, hcᵢ, hread, -⟩ := reads_of_parseExpr hi
    have hcond := hread.condition_reprints text.toList (Cursor.plain_ofText hcᵢ hquotesᵢ)
      hne hends
    obtain ⟨cₜ, hthen⟩ := reprints_of_parseExpr text.toList ht hquotesₜ
    obtain ⟨cₑ, helse⟩ := reprints_of_parseExpr text.toList he hquotesₑ
    have hwhole : Reprints text.toList .expr cᵢ (.conditional i t e .synthetic)
        Cursor.StopsPhrase :=
      .conditional hcond (hthen.mono fun _ hd => .inr (by rw [hd]; rfl)) helse
    have hruns : Runs text.toList text.toList _ [] :=
      (hwhole.runs .nil fun d hd => .inl (hd.kind_of_blanks (by simp))).congr
        (by simp [← htext, Sym.text, Expr.print])
    obtain ⟨d, d', hd, ⟨-, x, hx, herase⟩, hend⟩ := hruns.exists_ofText
    exact ⟨x, parseExpr_of_reads hd hx hend, herase⟩

/-- The two other parts may be anything; here they are a conditional and a type test. -/
theorem parseExpr_conditional_of_parts : ∃ i t e x, parseExpr "!f(a)" = .ok i ∧
    parseExpr "b?1:2" = .ok t ∧ parseExpr "x is int" = .ok e ∧
    parseExpr (i.print ++ " ? " ++ t.print ++ " : " ++ e.print) = .ok x ∧
    x.erase = .conditional i.erase t.erase e.erase .synthetic := by
  have hreads : ((parseExpr "!f(a)").toOption.any fun i => (parseExpr "b?1:2").toOption.any fun _ =>
      (parseExpr "x is int").toOption.any fun _ => i.isOperand && !i.endsInType) = true := by
    decide +kernel
  simp only [Option.any_eq_true, Bool.and_eq_true, Bool.not_eq_true', toOption_eq_some] at hreads
  obtain ⟨i, hi, t, ht, e, he, hoperand, hends⟩ := hreads
  have hne : ∀ f g k sp, i ≠ .conditional f g k sp := by
    rintro f g k sp rfl
    simp [Expr.isOperand] at hoperand
  obtain ⟨x, hx, herase⟩ := (parseExpr_conditional hi ht he (by decide +kernel)
    (by decide +kernel) (by decide +kernel) hne).mpr hends
  exact ⟨i, t, e, x, hi, ht, he, hx, herase⟩

/-- The type of a type test takes the question mark. -/
theorem not_all_conditions_compose : ¬ ∀ textᵢ textₜ textₑ i t e,
    parseExpr textᵢ = .ok i → parseExpr textₜ = .ok t → parseExpr textₑ = .ok e →
    quotesName textᵢ = false → quotesName textₜ = false → quotesName textₑ = false →
    (∀ f g k sp, i ≠ .conditional f g k sp) →
    ∃ x, parseExpr (i.print ++ " ? " ++ t.print ++ " : " ++ e.print) = .ok x ∧
      x.erase = .conditional i.erase t.erase e.erase .synthetic := by
  intro h
  have hfails : ((parseExpr "x is int").toOption.any fun i => (parseExpr "1").toOption.any fun t =>
      (parseExpr "2").toOption.any fun e => i.fitsRight 0 &&
        (parseExpr (i.print ++ " ? " ++ t.print ++ " : " ++ e.print)).toOption.isNone) = true := by
    decide +kernel
  simp only [Option.any_eq_true, Bool.and_eq_true, toOption_eq_some] at hfails
  obtain ⟨i, hi, t, ht, e, he, htest, hnone⟩ := hfails
  have hne : ∀ f g k sp, i ≠ .conditional f g k sp := by
    rintro f g k sp rfl
    simp [Expr.fitsRight] at htest
  obtain ⟨x, hx, -⟩ := h _ _ _ i t e hi ht he (by decide +kernel) (by decide +kernel)
    (by decide +kernel) hne
  simp [hx, Except.toOption] at hnone

end Durable
