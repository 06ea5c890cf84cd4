/-
The parser reads all that the grammar allows.

The other half of `Grammar/Sound`: where the relation reads a tree, so does the parser, if its
grammar is deeper than there are tokens left.  Every production passes a token before it goes
one level down, so the depth that is left never falls below the tokens that are left.  The
chains behind an operand were read one by one; `extend_of_grows` puts them together again.
-/
import Durable.Proofs.Grammar.Sound
import Durable.Proofs.Grammar.Starts

namespace Durable

open Durable.Parser
open Cursor (length_advance_lt)

/-- Where fewer than `n` tokens are left, a parser reads all that a symbol of the grammar reads. -/
def Finds (n : Nat) (s : Sym) (p : Parser s.Result) : Prop :=
  ∀ ⦃c : Cursor⦄ ⦃t : s.Result⦄ ⦃c' : Cursor⦄, c.rest.length < n → Reads s c t c' →
    p c = .ok (t, c')

/-! ### Lists -/

section

variable {n : Nat} {s : Sym} {item : Parser s.Result}

theorem many_complete (gap : Gap) {done : Parser Bool} (hdone : Steps done gap.step)
    (hs : s.Consumes) (hitem : Finds n s item) : Finds n (.many gap s) (many done item) := by
  intro c as c' hn h
  refine many_of_repeats hdone (fun hstep => (Gap.step_reaches hstep).length_le)
    (fun hr => Reads.length_lt hr hs) (repeats_of_reads h) fun hle hr => hitem ?_ hr
  omega

theorem separatedBy_complete (m : Mark) (hs : s.Consumes) (hitem : Finds n s item) :
    Finds n (.separated m s) (separatedBy m item) := by
  intro c as c' hn h
  cases h with
  | separated first others =>
    have := first.length.1
    simp only [separatedBy, bind_eq_ok, pure_eq_ok]
    exact ⟨_, _, hitem hn first, _, _,
      many_complete (.between m) (Gap.between_steps m) hs hitem (by omega) others, rfl, rfl⟩

theorem commaList_complete {close : Mark} (hs : s.Consumes) (hitem : Finds n s item) :
    Finds n (.commaList close s) (commaList close item) := by
  intro c as c' hn h
  simp only [commaList, bind_eq_ok, accept_eq_ok]
  cases h with
  | noItems closing => exact ⟨true, _, .inl ⟨closing, rfl, rfl⟩, by simp [pure_eq_ok]⟩
  | items open' first others =>
    have := first.length.1
    refine ⟨false, _, .inr ⟨open', rfl, rfl⟩, ?_⟩
    simp only [Bool.false_eq_true, if_false, bind_eq_ok, pure_eq_ok]
    exact ⟨_, _, hitem hn first, _, _,
      many_complete (.commas close) (Gap.commas_steps close) hs hitem (by omega) others, rfl, rfl⟩

/-- What may follow a token is read behind the test for it. -/
theorem behind_complete {k : TokenKind} (hk : k ≠ .endOfFile) (hitem : Finds n s item) {c c' : Cursor}
    {t : Option s.Result} (hn : c.rest.length ≤ n) (h : Reads (.behind k s) c t c') :
    ∃ b c₁, ((c.kind = k ∧ b = true ∧ c.advance = c₁) ∨ (c.kind ≠ k ∧ b = false ∧ c = c₁)) ∧
      (if b = true then some <$> item else pure none) c₁ = .ok (t, c') := by
  cases h with
  | absent other => exact ⟨false, _, .inr ⟨other, rfl, rfl⟩, by simp [pure_eq_ok]⟩
  | present word value =>
    have := length_advance_lt (word ▸ hk : c.kind ≠ .endOfFile)
    refine ⟨true, _, .inl ⟨word, rfl, rfl⟩, ?_⟩
    simp only [if_true, map_eq_ok]
    exact ⟨_, hitem (by omega) value, rfl⟩

theorem given_complete {test : TokenKind → Bool} (hitem : Finds n s item) {c c' : Cursor}
    {t : Option s.Result} (hn : c.rest.length < n) (h : Reads (.given test s) c t c') :
    (if test c.kind = true then some <$> item else pure none) c = .ok (t, c') := by
  cases h with
  | missing hfails => simp [hfails, pure_eq_ok]
  | found hpasses value =>
    simp only [hpasses, if_true, map_eq_ok]
    exact ⟨_, hitem hn value, rfl⟩

end

/-! ### Types -/

/-- Where fewer than `n` tokens are left, the parsers of a grammar read all that the relation
allows. -/
structure Grammar.Complete (g : Grammar) (n : Nat) : Prop where
  type : Finds n .type g.type
  expr : Finds n .expr g.expr
  binary (floor : Nat) : Finds n (.binary floor) (g.binary floor)
  unary : Finds n .unary g.unary

namespace Grammar

variable {g : Grammar} {n : Nat}

theorem typeArgument_complete (hg : g.Complete n) : Finds (n + 1) .typeArgument g.typeArgument := by
  intro c t c' hn h
  cases h with
  | typeArgument opening inner closing =>
    have := length_advance_lt (c := c) (by simp [opening])
    simp only [typeArgument, bind_eq_ok, expect_eq_ok, pure_eq_ok]
    exact ⟨_, _, ⟨opening, rfl, rfl⟩, _, _, hg.type (by omega) inner, _, _, ⟨closing, rfl, rfl⟩,
      rfl, rfl⟩

theorem typeParam_complete (hg : g.Complete n) : Finds n .typeParam g.typeParam := by
  intro c t c' hn h
  cases h with
  | @typeParam _ c₁ t type =>
    have haccept : accept (.mark .ellipsis) c₁
        = .ok (c₁.kind == .mark .ellipsis, c₁.pass (.mark .ellipsis)) := by
      rw [accept_eq_ok]
      by_cases hk : c₁.kind = .mark .ellipsis <;> simp [hk, Cursor.pass]
    simp only [typeParam, bind_eq_ok, peek_eq_ok]
    refine ⟨_, _, hg.type hn type, _, _, haccept, _, _, ⟨rfl, rfl⟩, ?_⟩
    generalize c₁.pass (.mark .ellipsis) = c₂
    unfold Cursor.passName
    cases hk : c₂.kind with
    | ident n =>
      simp only [bind_eq_ok, advance_eq_ok, pure_eq_ok]
      exact ⟨_, _, ⟨rfl, by simp [TokenKind.isIdent]⟩, trivial, rfl⟩
    | _ => simp [TokenKind.isIdent, pure_eq_ok]

theorem recordItem_complete (hg : g.Complete n) : Finds n .recordItem g.recordItem := by
  intro c t c' hn h
  simp only [recordItem, ite_bind_eq, bind_eq_ok, start_eq_ok, atReadonlyMark_eq_ok]
  refine ⟨_, _, ⟨rfl, rfl⟩, _, _, ⟨rfl, rfl⟩, ?_⟩
  rw [skip_eq_ok]
  have hn' : (if c.atReadonlyMark = true then c.advance else c).rest.length < n := by
    split
    · have := c.length_advance_le
      omega
    · exact hn
  simp only [bind_eq_ok, accept_eq_ok]
  cases h with
  | recordRest type unlisted closing =>
    refine ⟨_, _, hg.type hn' type, true, _, .inl ⟨unlisted, rfl, rfl⟩, ?_⟩
    simp only [if_true, bind_eq_ok, expect_eq_ok, pure_eq_ok]
    exact ⟨_, _, ⟨closing, rfl, rfl⟩, trivial, rfl⟩
  | @recordField _ c₁ _ _ name _ type listed hname value closing =>
    have hpast := type.length.1
    have hadvance := c₁.length_advance_le
    have hpass : (c₁.advance.pass (.mark .question)).rest.length ≤ c₁.advance.rest.length := by
      unfold Cursor.pass
      split
      · exact Cursor.length_advance_le _
      · exact Nat.le_refl _
    refine ⟨_, _, hg.type hn' type, false, _, .inr ⟨listed, rfl, rfl⟩, ?_⟩
    simp only [Bool.false_eq_true, if_false, bind_eq_ok, memberName_eq_ok, accept_eq_ok,
      expect_eq_ok, since_eq_ok, pure_eq_ok]
    obtain ⟨b, c₃, hb, hvalue⟩ := behind_complete (by simp) hg.expr (by omega) value
    refine ⟨⟨name, c₁.span⟩, _, ⟨hname, rfl, rfl⟩, c₁.advance.kind == .mark .question,
      c₁.advance.pass (.mark .question), ?_, b, c₃, hb, _, _, hvalue, _, _, ⟨closing, rfl, rfl⟩,
      _, _, ⟨rfl, rfl⟩, rfl, rfl⟩
    by_cases hk : c₁.advance.kind = .mark .question <;> simp [hk, Cursor.pass]

theorem ofKeyword?_keyword (b : BuiltinType) : BuiltinType.ofKeyword? b.keyword = some b := by
  cases b <;> rfl

/-- A type that a reserved word starts is read by the word. -/
theorem keywordType_complete (hg : g.Complete n) {c c' : Cursor} {k : Keyword} {t : TypeDesc}
    (hn : c.rest.length < n + 1) (hk : c.kind = .keyword k) (h : Reads .plainType c t c') :
    g.keywordType k c = .ok (t, c') := by
  have hlt := length_advance_lt (c := c) (by simp [hk])
  have hle := c.advance.length_advance_le
  unfold keywordType
  simp only [bind_eq_ok, start_eq_ok]
  refine ⟨_, _, ⟨rfl, rfl⟩, ?_⟩
  cases h with
  | @builtin _ b word alone =>
    obtain rfl := TokenKind.keyword.inj (hk.symm.trans word)
    simp only [ofKeyword?_keyword, bind_eq_ok, get_eq_ok]
    refine ⟨_, _, ⟨rfl, rfl⟩, ?_⟩
    simp only [alone, Bool.false_eq_true, if_false, bind_eq_ok, advance_eq_ok, since_eq_ok,
      pure_eq_ok]
    exact ⟨_, _, ⟨rfl, rfl⟩, _, _, ⟨rfl, rfl⟩, rfl, rfl⟩
  | typeName hat ref =>
    simp only [Cursor.atName, hk, Bool.and_eq_true] at hat
    obtain ⟨b, hb⟩ := Option.isSome_iff_exists.mp hat.1
    simp only [hb, bind_eq_ok, get_eq_ok]
    refine ⟨_, _, ⟨rfl, rfl⟩, ?_⟩
    simp only [hat.2, if_true, bind_eq_ok, nameRef_eq_ok, pure_eq_ok]
    exact ⟨_, _, ref, rfl, rfl⟩
  | inferred word =>
    obtain rfl := TokenKind.keyword.inj (hk.symm.trans word)
    simp only [show BuiltinType.ofKeyword? .kwVar = none from rfl, bind_eq_ok, advance_eq_ok,
      since_eq_ok, pure_eq_ok]
    exact ⟨_, _, ⟨rfl, rfl⟩, _, _, ⟨rfl, rfl⟩, rfl, rfl⟩
  | mapType word inner =>
    obtain rfl := TokenKind.keyword.inj (hk.symm.trans word)
    simp only [show BuiltinType.ofKeyword? .kwMap = none from rfl, bind_eq_ok, advance_eq_ok,
      since_eq_ok, pure_eq_ok]
    exact ⟨_, _, ⟨rfl, rfl⟩, _, _, typeArgument_complete hg (by omega) inner, _, _, ⟨rfl, rfl⟩,
      rfl, rfl⟩
  | future word inner =>
    obtain rfl := TokenKind.keyword.inj (hk.symm.trans word)
    simp only [show BuiltinType.ofKeyword? .kwFuture = none from rfl, bind_eq_ok, advance_eq_ok,
      at?_eq_ok]
    refine ⟨_, _, ⟨rfl, rfl⟩, _, _, ⟨rfl, rfl⟩, ?_⟩
    cases inner with
    | missing hless =>
      simp only [hless, Bool.false_eq_true, if_false, bind_eq_ok, since_eq_ok, pure_eq_ok]
      exact ⟨_, _, ⟨rfl, rfl⟩, rfl, rfl⟩
    | found hless inner =>
      simp only [hless, if_true, bind_eq_ok, since_eq_ok, pure_eq_ok]
      exact ⟨_, _, typeArgument_complete hg (by omega) inner, _, _, ⟨rfl, rfl⟩, rfl, rfl⟩
  | stream word opening item completion closing =>
    obtain rfl := TokenKind.keyword.inj (hk.symm.trans word)
    have := item.length.1
    simp only [show BuiltinType.ofKeyword? .kwStream = none from rfl, ite_bind_eq, bind_eq_ok,
      advance_eq_ok, expect_eq_ok, accept_eq_ok, since_eq_ok, pure_eq_ok]
    obtain ⟨b, c₃, hb, hcompletion⟩ := behind_complete (by simp) hg.type (by omega) completion
    exact ⟨_, _, ⟨rfl, rfl⟩, _, _, ⟨opening, rfl, rfl⟩, _, _, hg.type (by omega) item, b, c₃, hb,
      _, _, hcompletion, _, _, ⟨closing, rfl, rfl⟩, _, _, ⟨rfl, rfl⟩, rfl, rfl⟩
  | anyFunction word alone =>
    obtain rfl := TokenKind.keyword.inj (hk.symm.trans word)
    simp only [show BuiltinType.ofKeyword? .kwFunction = none from rfl, bind_eq_ok, advance_eq_ok,
      functionType, accept_eq_ok]
    refine ⟨_, _, ⟨rfl, rfl⟩, false, _, .inr ⟨alone, rfl, rfl⟩, ?_⟩
    simp only [Bool.false_eq_true, if_false, bind_eq_ok, since_eq_ok, pure_eq_ok]
    exact ⟨_, _, ⟨rfl, rfl⟩, rfl, rfl⟩
  | functionType word opening list result =>
    obtain rfl := TokenKind.keyword.inj (hk.symm.trans word)
    have := list.length.1
    simp only [show BuiltinType.ofKeyword? .kwFunction = none from rfl, bind_eq_ok, advance_eq_ok,
      functionType, accept_eq_ok]
    refine ⟨_, _, ⟨rfl, rfl⟩, true, _, .inl ⟨opening, rfl, rfl⟩, ?_⟩
    simp only [if_true, ite_bind_eq, bind_eq_ok, accept_eq_ok, since_eq_ok, pure_eq_ok]
    obtain ⟨b, c₃, hb, hresult⟩ := behind_complete (by simp) hg.type (by omega) result
    exact ⟨_, _, commaList_complete (s := .typeParam) trivial (typeParam_complete hg) (by omega) list, b, c₃, hb, _, _, hresult, _, _,
      ⟨rfl, rfl⟩, rfl, rfl⟩
  | @record _ _ closed _ word opening list =>
    obtain rfl := TokenKind.keyword.inj (hk.symm.trans word)
    have hitems := many_complete (.upTo (recordClose closed)) (Gap.upTo_steps _) (s := .recordItem)
      trivial (recordItem_complete hg) (by omega) list
    simp only [show BuiltinType.ofKeyword? .kwRecord = none from rfl, bind_eq_ok, advance_eq_ok,
      recordType, accept_eq_ok]
    cases closed with
    | true =>
      refine ⟨_, _, ⟨rfl, rfl⟩, true, _, .inl ⟨opening, rfl, rfl⟩, ?_⟩
      simp only [Bool.not_true, Bool.false_eq_true, if_false, if_true, bind_eq_ok, since_eq_ok,
        pure_eq_ok]
      exact ⟨_, _, hitems, _, _, ⟨rfl, rfl⟩, rfl, rfl⟩
    | false =>
      refine ⟨_, _, ⟨rfl, rfl⟩, false, _, .inr ⟨by simp [opening, recordOpen], rfl, rfl⟩, ?_⟩
      simp only [Bool.not_false, Bool.false_eq_true, if_false, if_true, bind_eq_ok, expect_eq_ok,
        since_eq_ok, pure_eq_ok]
      exact ⟨_, _, ⟨opening, rfl, rfl⟩, _, _, hitems, _, _, ⟨rfl, rfl⟩, rfl, rfl⟩
  | @singleton _ v word =>
    have hv : k = .kwTrue ∧ v = .bool true ∨ k = .kwFalse ∧ v = .bool false := by
      rw [hk] at word
      unfold TokenKind.literal? at word
      split at word <;> simp_all
    obtain ⟨rfl, rfl⟩ | ⟨rfl, rfl⟩ := hv
    · simp only [show BuiltinType.ofKeyword? .kwTrue = none from rfl, bind_eq_ok, advance_eq_ok,
        since_eq_ok, pure_eq_ok]
      exact ⟨_, _, ⟨rfl, rfl⟩, _, _, ⟨rfl, rfl⟩, rfl, rfl⟩
    · simp only [show BuiltinType.ofKeyword? .kwFalse = none from rfl, bind_eq_ok, advance_eq_ok,
        since_eq_ok, pure_eq_ok]
      exact ⟨_, _, ⟨rfl, rfl⟩, _, _, ⟨rfl, rfl⟩, rfl, rfl⟩
  | nilType opening => simp [hk] at opening
  | parenType opening => simp [hk] at opening

theorem primaryType_complete (hg : g.Complete n) : Finds (n + 1) .plainType g.primaryType := by
  intro c t c' hn h
  have hstarts := h.starts
  unfold primaryType
  simp only [bind_eq_ok, start_eq_ok, peek_eq_ok]
  refine ⟨_, _, ⟨rfl, rfl⟩, _, _, ⟨rfl, rfl⟩, ?_⟩
  cases hk : c.kind with
  | keyword k => exact keywordType_complete hg hn hk h
  | ident m =>
    cases h with
    | typeName hat ref =>
      simp only [bind_eq_ok, nameRef_eq_ok, pure_eq_ok]
      exact ⟨_, _, ref, rfl, rfl⟩
    | singleton word => simp [hk, TokenKind.literal?] at word
    | builtin word | inferred word | mapType word | future word | stream word | anyFunction word
    | functionType word | record word | nilType word | parenType word => simp [hk] at word
  | string v | int v | float v =>
    cases h with
    | singleton word =>
      rw [hk] at word
      obtain rfl := Option.some.inj word
      simp only [bind_eq_ok, advance_eq_ok, since_eq_ok, pure_eq_ok]
      exact ⟨_, _, ⟨rfl, rfl⟩, _, _, ⟨rfl, rfl⟩, rfl, rfl⟩
    | typeName hat => simp [Cursor.atName, hk] at hat
    | builtin word | inferred word | mapType word | future word | stream word | anyFunction word
    | functionType word | record word | nilType word | parenType word => simp [hk] at word
  | endOfFile => simp [Sym.Starts, hk, TokenKind.startsType] at hstarts
  | mark m =>
    have hlt := length_advance_lt (c := c) (by simp [hk])
    cases h with
    | nilType opening closing =>
      obtain rfl := TokenKind.mark.inj (hk.symm.trans opening)
      simp only [bind_eq_ok, advance_eq_ok, accept_eq_ok]
      refine ⟨_, _, ⟨rfl, rfl⟩, true, _, .inl ⟨closing, rfl, rfl⟩, ?_⟩
      simp only [if_true, bind_eq_ok, since_eq_ok, pure_eq_ok]
      exact ⟨_, _, ⟨rfl, rfl⟩, rfl, rfl⟩
    | parenType opening inner closing =>
      obtain rfl := TokenKind.mark.inj (hk.symm.trans opening)
      have hne : c.advance.kind ≠ .mark .closeParen := by
        intro hclose
        have := inner.starts
        simp [Sym.Starts, hclose, TokenKind.startsType] at this
      simp only [bind_eq_ok, advance_eq_ok, accept_eq_ok]
      refine ⟨_, _, ⟨rfl, rfl⟩, false, _, .inr ⟨hne, rfl, rfl⟩, ?_⟩
      simp only [Bool.false_eq_true, if_false, bind_eq_ok, expect_eq_ok, since_eq_ok, pure_eq_ok]
      exact ⟨_, _, hg.type (by omega) inner, _, _, ⟨closing, rfl, rfl⟩, _, _, ⟨rfl, rfl⟩, rfl, rfl⟩
    | typeName hat => simp [Cursor.atName, hk] at hat
    | singleton word => simp [hk, TokenKind.literal?] at word
    | builtin word | inferred word | mapType word | future word | stream word | anyFunction word
    | functionType word | record word => simp [hk] at word

/-- A type with marks behind it grows from the type without them. -/
theorem suffixing_grows : ∀ {c c' : Cursor} {t : TypeDesc}, Reads .suffixing c t c' →
    ∃ t₀ c₀, Reads .plainType c t₀ c₀ ∧ Grows (postfixType.grow c.start) t₀ c₀ t c'
  | _, _, _, .plain inner => ⟨_, _, inner, .refl⟩
  | c, _, _, .optional inner mark => by
    obtain ⟨t₀, c₀, hplain, hgrows⟩ := suffixing_grows inner
    refine ⟨t₀, c₀, hplain, .step hgrows ?_ (length_advance_lt (by simp [mark]))⟩
    simp only [postfixType.grow, bind_eq_ok, accept_eq_ok]
    refine ⟨true, _, .inl ⟨mark, rfl, rfl⟩, ?_⟩
    simp only [if_true, bind_eq_ok, since_eq_ok, pure_eq_ok]
    exact ⟨_, _, ⟨rfl, rfl⟩, rfl, rfl⟩
  | c, _, _, @Reads.array _ c₁ _ inner opening closing => by
    obtain ⟨t₀, c₀, hplain, hgrows⟩ := suffixing_grows inner
    have := length_advance_lt (c := c₁) (by simp [opening])
    have := c₁.advance.length_advance_le
    refine ⟨t₀, c₀, hplain, .step hgrows ?_ (by omega)⟩
    simp only [postfixType.grow, bind_eq_ok, accept_eq_ok]
    refine ⟨false, _, .inr ⟨by simp [opening], rfl, rfl⟩, ?_⟩
    simp only [Bool.false_eq_true, if_false, bind_eq_ok, at?_eq_ok, peekAt_eq_ok]
    refine ⟨_, _, ⟨rfl, rfl⟩, _, _, ⟨rfl, rfl⟩, ?_⟩
    simp only [opening, closing, beq_self_eq_true, Bool.and_self, if_true, bind_eq_ok,
      advance_eq_ok, since_eq_ok, pure_eq_ok]
    exact ⟨_, _, ⟨rfl, rfl⟩, _, _, ⟨rfl, rfl⟩, _, _, ⟨rfl, rfl⟩, rfl, rfl⟩

theorem postfixType_complete (hg : g.Complete n) : Finds (n + 1) .suffixed g.postfixType := by
  intro c t c' hn h
  cases h with
  | suffixed chain stop =>
    obtain ⟨t₀, c₀, hplain, hgrows⟩ := suffixing_grows chain
    simp only [postfixType, bind_eq_ok, start_eq_ok]
    refine ⟨_, _, ⟨rfl, rfl⟩, _, _, primaryType_complete hg hn hplain, extend_of_grows hgrows ?_⟩
    simp only [postfixType.grow, bind_eq_ok, accept_eq_ok]
    refine ⟨false, _, .inr ⟨stop.1, rfl, rfl⟩, ?_⟩
    simp only [Bool.false_eq_true, if_false, bind_eq_ok, at?_eq_ok, peekAt_eq_ok]
    refine ⟨_, _, ⟨rfl, rfl⟩, _, _, ⟨rfl, rfl⟩, ?_⟩
    rw [if_neg (by simpa using stop.2)]
    rfl

theorem intersectionType_complete (hg : g.Complete n) :
    Finds (n + 1) .intersection g.intersectionType := by
  intro c t c' hn h
  simp only [intersectionType, bind_eq_ok, start_eq_ok]
  refine ⟨_, _, ⟨rfl, rfl⟩, ?_⟩
  cases h with
  | onePart members =>
    exact ⟨_, _, separatedBy_complete (s := .suffixed) .amp trivial (postfixType_complete hg) hn members, rfl⟩
  | intersection members =>
    refine ⟨_, _, separatedBy_complete (s := .suffixed) .amp trivial (postfixType_complete hg) hn members, ?_⟩
    simp only [bind_eq_ok, since_eq_ok, pure_eq_ok]
    exact ⟨_, _, ⟨rfl, rfl⟩, rfl, rfl⟩

theorem unionType_complete (hg : g.Complete n) : Finds (n + 1) .type g.unionType := by
  intro c t c' hn h
  simp only [unionType, bind_eq_ok, start_eq_ok]
  refine ⟨_, _, ⟨rfl, rfl⟩, ?_⟩
  cases h with
  | oneMember members =>
    exact ⟨_, _, separatedBy_complete (s := .intersection) .pipe trivial
      (intersectionType_complete hg) hn members, rfl⟩
  | union members =>
    refine ⟨_, _, separatedBy_complete (s := .intersection) .pipe trivial
      (intersectionType_complete hg) hn members, ?_⟩
    simp only [bind_eq_ok, since_eq_ok, pure_eq_ok]
    exact ⟨_, _, ⟨rfl, rfl⟩, rfl, rfl⟩

/-! ### Expressions -/

theorem mappingField_complete (hg : g.Complete n) : Finds (n + 1) .mappingField g.mappingField := by
  intro c t c' hn h
  have hword : ∀ {x : String}, c.kind.word? = some x →
      mappingField.word g c = .ok (t, c') → g.mappingField c = .ok (t, c') := by
    intro x hx h
    simp only [mappingField, bind_eq_ok, accept_eq_ok]
    refine ⟨false, _, .inr ⟨fun hk => by simp [hk, TokenKind.word?] at hx, rfl, rfl⟩, ?_⟩
    simp only [Bool.false_eq_true, if_false, bind_eq_ok, peek_eq_ok]
    refine ⟨_, _, ⟨rfl, rfl⟩, ?_⟩
    cases hk : c.kind with
    | ident m => exact h
    | keyword k => exact h
    | _ => simp [hk, TokenKind.word?] at hx
  have hlt : c.advance.rest.length < c.rest.length ∨ c.kind = .endOfFile := by
    by_cases hk : c.kind = .endOfFile
    · exact .inr hk
    · exact .inl (length_advance_lt hk)
  have hle := c.advance.length_advance_le
  cases h with
  | spread dots value =>
    simp only [dots, reduceCtorEq, or_false] at hlt
    simp only [mappingField, bind_eq_ok, accept_eq_ok]
    refine ⟨true, _, .inl ⟨dots, rfl, rfl⟩, ?_⟩
    simp only [if_true, bind_eq_ok, pure_eq_ok]
    exact ⟨_, _, hg.expr (by omega) value, rfl, rfl⟩
  | @stringField _ _ key _ hkey colon value =>
    simp only [hkey, reduceCtorEq, or_false] at hlt
    simp only [mappingField, bind_eq_ok, accept_eq_ok]
    refine ⟨false, _, .inr ⟨by simp [hkey], rfl, rfl⟩, ?_⟩
    simp only [Bool.false_eq_true, if_false, bind_eq_ok, peek_eq_ok]
    refine ⟨.string key, _, ⟨hkey, rfl⟩, ?_⟩
    simp only [bind_eq_ok, advance_eq_ok, expect_eq_ok, pure_eq_ok]
    exact ⟨_, _, ⟨rfl, rfl⟩, _, _, ⟨colon, rfl, rfl⟩, _, _, hg.expr (by omega) value, rfl, rfl⟩
  | @computedField _ c₁ _ key _ opening hkey closing colon value =>
    simp only [opening, reduceCtorEq, or_false] at hlt
    have := hkey.length.1
    have := c₁.length_advance_le
    have := c₁.advance.length_advance_le
    simp only [mappingField, bind_eq_ok, accept_eq_ok]
    refine ⟨false, _, .inr ⟨by simp [opening], rfl, rfl⟩, ?_⟩
    simp only [Bool.false_eq_true, if_false, bind_eq_ok, peek_eq_ok]
    refine ⟨.mark .openBracket, _, ⟨opening, rfl⟩, ?_⟩
    simp only [bind_eq_ok, advance_eq_ok, expect_eq_ok, pure_eq_ok]
    exact ⟨_, _, ⟨rfl, rfl⟩, _, _, hg.expr (by omega) hkey, _, _, ⟨closing, rfl, rfl⟩, _, _,
      ⟨colon, rfl, rfl⟩, _, _, hg.expr (by omega) value, rfl, rfl⟩
  | @wordField _ _ m _ hkey colon value =>
    simp only [TokenKind.ne_endOfFile_of_word? hkey, or_false] at hlt
    refine hword hkey ?_
    simp only [mappingField.word, bind_eq_ok, memberName_eq_ok, accept_eq_ok]
    refine ⟨⟨m, c.span⟩, _, ⟨hkey, rfl, rfl⟩, true, _, .inl ⟨colon, rfl, rfl⟩, ?_⟩
    simp only [if_true, bind_eq_ok, pure_eq_ok]
    exact ⟨_, _, hg.expr (by omega) value, rfl, rfl⟩
  | @shorthand _ m hkey alone =>
    refine hword hkey ?_
    simp only [mappingField.word, bind_eq_ok, memberName_eq_ok, accept_eq_ok]
    refine ⟨⟨m, c.span⟩, _, ⟨hkey, rfl, rfl⟩, false, _, .inr ⟨alone, rfl, rfl⟩, ?_⟩
    simp only [Bool.false_eq_true, if_false, pure_eq_ok]
    trivial

theorem mapping_complete (hg : g.Complete n) : Finds (n + 1) .mapping g.mapping := by
  intro c t c' hn h
  cases h with
  | fields opening list =>
    have := length_advance_lt (c := c) (by simp [opening])
    simp only [mapping, bind_eq_ok, start_eq_ok, expect_eq_ok, since_eq_ok, pure_eq_ok]
    exact ⟨_, _, ⟨rfl, rfl⟩, _, _, ⟨opening, rfl, rfl⟩, _, _,
      commaList_complete (s := .mappingField) trivial (mappingField_complete hg) (by omega) list,
      _, _, ⟨rfl, rfl⟩, rfl, rfl⟩

theorem arg_complete (hg : g.Complete n) : Finds n .arg g.arg := by
  intro c t c' hn h
  simp only [arg, bind_eq_ok, accept_eq_ok]
  cases h with
  | restArg dots value =>
    have := length_advance_lt (c := c) (by simp [dots])
    refine ⟨true, _, .inl ⟨dots, rfl, rfl⟩, ?_⟩
    simp only [if_true, bind_eq_ok, pure_eq_ok]
    exact ⟨_, _, hg.expr (by omega) value, rfl, rfl⟩
  | @namedArg _ _ m _ name sign value =>
    have := length_advance_lt (c := c) (by simp [name])
    have := c.advance.length_advance_le
    refine ⟨false, _, .inr ⟨by simp [name], rfl, rfl⟩, ?_⟩
    simp only [Bool.false_eq_true, if_false, bind_eq_ok, peek_eq_ok, peekAt_eq_ok]
    refine ⟨.ident m, _, ⟨name, rfl⟩, .mark .assign, _,
      ⟨by rw [Cursor.kindAt_succ]; exact sign, rfl⟩, ?_⟩
    simp only [bind_eq_ok, ident_eq_ok, advance_eq_ok, pure_eq_ok]
    exact ⟨⟨m, c.span⟩, _, ⟨name, rfl, rfl⟩, _, _, ⟨rfl, rfl⟩, _, _, hg.expr (by omega) value,
      rfl, rfl⟩
  | @positional _ _ e unnamed value =>
    have hne : c.kind ≠ .mark .ellipsis := by
      intro hk
      have := value.starts
      simp [Sym.Starts, hk, TokenKind.startsExpr, TokenKind.startsPrimary, unaryOp?] at this
    refine ⟨false, _, .inr ⟨hne, rfl, rfl⟩, ?_⟩
    simp only [Bool.false_eq_true, if_false, bind_eq_ok, peek_eq_ok, peekAt_eq_ok]
    refine ⟨_, _, ⟨rfl, rfl⟩, _, _, ⟨rfl, rfl⟩, ?_⟩
    have hvalue : (do return Arg.positional (← g.expr) : Parser Arg) c
        = .ok (.positional e, c') := by
      simp only [bind_eq_ok, pure_eq_ok]
      exact ⟨_, _, hg.expr hn value, rfl, rfl⟩
    cases hk : c.kind with
    | ident m =>
      cases hk' : c.kindAt 1 with
      | mark m' =>
        cases m' with
        | assign =>
          rw [Cursor.kindAt_succ] at hk'
          exact absurd ⟨by rw [hk]; rfl, hk'⟩ unnamed
        | _ => exact hvalue
      | _ => exact hvalue
    | _ => exact hvalue

theorem args_complete (hg : g.Complete n) : Finds n .args g.args :=
  commaList_complete (s := .arg) trivial (arg_complete hg)

theorem nameOrCall_of_name {c c' : Cursor} {r : NameRef} (ref : ReadsName c r c')
    (alone : c'.kind ≠ .mark .openParen) : g.nameOrCall c = .ok (.name r, c') := by
  simp only [nameOrCall, bind_eq_ok, start_eq_ok, nameRef_eq_ok, accept_eq_ok]
  refine ⟨_, _, ⟨rfl, rfl⟩, _, _, ref, false, _, .inr ⟨alone, rfl, rfl⟩, ?_⟩
  simp only [Bool.false_eq_true, if_false, pure_eq_ok]
  trivial

theorem nameOrCall_of_call (hg : g.Complete n) {c c₁ c' : Cursor} {r : NameRef} {as : List Arg}
    (hn : c.rest.length < n + 1) (ref : ReadsName c r c₁) (opening : c₁.kind = .mark .openParen)
    (args : Reads .args c₁.advance as c') :
    g.nameOrCall c = .ok (.call r as (c'.since c.start), c') := by
  have := ref.length_lt
  have := c₁.length_advance_le
  simp only [nameOrCall, bind_eq_ok, start_eq_ok, nameRef_eq_ok, accept_eq_ok]
  refine ⟨_, _, ⟨rfl, rfl⟩, _, _, ref, true, _, .inl ⟨opening, rfl, rfl⟩, ?_⟩
  simp only [if_true, bind_eq_ok, since_eq_ok, pure_eq_ok]
  exact ⟨_, _, args_complete hg (by omega) args, _, _, ⟨rfl, rfl⟩, rfl, rfl⟩

/-- Where a name starts, a name or a call is read. -/
theorem primary_of_nameOrCall {c c' : Cursor} {e : Expr} (hat : c.atName = true)
    (h : g.nameOrCall c = .ok (e, c')) : g.primary c = .ok (e, c') := by
  simp only [primary, bind_eq_ok, start_eq_ok, peek_eq_ok]
  refine ⟨_, _, ⟨rfl, rfl⟩, _, _, ⟨rfl, rfl⟩, ?_⟩
  unfold Cursor.atName at hat
  cases hk : c.kind with
  | ident m => exact h
  | keyword k =>
    simp only [hk, Bool.and_eq_true] at hat
    obtain ⟨b, hb⟩ := Option.isSome_iff_exists.mp hat.1
    obtain rfl := ofKeyword?_eq_some hb
    have hcolon : c.kindAt 1 = .mark .colon := by
      have := hat.2
      simp only [Cursor.atQualified, Bool.and_eq_true, beq_iff_eq] at this
      exact this.1.1.1
    have hother : g.keywordExpr b.keyword c = .ok (e, c') ↔ (do
        let c ← get
        if b.keyword == .kwError && c.kindAt 1 == .mark .openParen then g.errorCall
        else if (BuiltinType.ofKeyword? b.keyword).isSome && c.atQualified then g.nameOrCall
        else unexpected "expression" : Parser Expr) c = .ok (e, c') := by
      cases b <;> exact Iff.rfl
    rw [hother]
    simp only [bind_eq_ok, get_eq_ok]
    refine ⟨_, _, ⟨rfl, rfl⟩, ?_⟩
    rw [if_neg (by simp [hcolon]), if_pos (by simp [hb, hat.2])]
    exact h
  | _ => simp [hk] at hat

theorem literal_complete {c : Cursor} {v : Literal} (word : c.kind.literal? = some v) :
    g.primary c = .ok (.literal v (c.advance.since c.start), c.advance) := by
  have hliteral : literal v c = .ok (.literal v (c.advance.since c.start), c.advance) := by
    simp only [literal, bind_eq_ok, start_eq_ok, advance_eq_ok, since_eq_ok, pure_eq_ok]
    exact ⟨_, _, ⟨rfl, rfl⟩, _, _, ⟨rfl, rfl⟩, _, _, ⟨rfl, rfl⟩, rfl, rfl⟩
  simp only [primary, bind_eq_ok, start_eq_ok, peek_eq_ok]
  refine ⟨_, _, ⟨rfl, rfl⟩, _, _, ⟨rfl, rfl⟩, ?_⟩
  cases hk : c.kind with
  | int text | float text | string text =>
    rw [hk] at word
    obtain rfl := Option.some.inj word
    exact hliteral
  | keyword k =>
    rw [hk] at word
    cases k with
    | kwTrue | kwFalse =>
      obtain rfl := Option.some.inj word
      exact hliteral
    | _ => simp [TokenKind.literal?] at word
  | _ => simp [hk, TokenKind.literal?] at word

theorem construct_complete (hg : g.Complete n) {c c₁ c' : Cursor} {t : Option TypeDesc}
    {as : Option (List Arg)} (hn : c.rest.length < n + 1) (word : c.kind = .keyword .kwNew)
    (type : Reads (.given TokenKind.isIdent .suffixed) c.advance t c₁)
    (args : Reads (.behind (.mark .openParen) .args) c₁ as c') :
    g.construct c = .ok (.construct t (as.getD []) (c'.since c.start), c') := by
  have hlt := length_advance_lt (c := c) (by simp [word])
  -- What follows the word is the same with a type and without.
  have rest : (do
      let args ← if ← accept (.mark .openParen) then g.args else pure []
      return Expr.construct t args (← since c.start) : Parser Expr) c₁
        = .ok (.construct t (as.getD []) (c'.since c.start), c') := by
    have := type.length.1
    simp only [bind_eq_ok, accept_eq_ok]
    cases args with
    | absent other =>
      refine ⟨false, _, .inr ⟨other, rfl, rfl⟩, ?_⟩
      simp only [Bool.false_eq_true, if_false, bind_eq_ok, since_eq_ok, pure_eq_ok]
      exact ⟨_, _, ⟨rfl, rfl⟩, _, _, ⟨rfl, rfl⟩, rfl, rfl⟩
    | present opening args =>
      have := length_advance_lt (c := c₁) (by simp [opening])
      refine ⟨true, _, .inl ⟨opening, rfl, rfl⟩, ?_⟩
      simp only [if_true, bind_eq_ok, since_eq_ok, pure_eq_ok]
      exact ⟨_, _, args_complete hg (by omega) args, _, _, ⟨rfl, rfl⟩, rfl, rfl⟩
  simp only [construct, bind_eq_ok, start_eq_ok, advance_eq_ok, peek_eq_ok]
  refine ⟨_, _, ⟨rfl, rfl⟩, _, _, ⟨rfl, rfl⟩, _, _, ⟨rfl, rfl⟩, ?_⟩
  cases type with
  | missing hident =>
    cases hk : c.advance.kind with
    | ident m => simp [hk, TokenKind.isIdent] at hident
    | _ => exact bind_eq_ok.mpr ⟨none, _, pure_eq_ok.mpr ⟨rfl, rfl⟩, rest⟩
  | found hident type =>
    cases hk : c.advance.kind with
    | ident m =>
      exact bind_eq_ok.mpr ⟨some _, _, map_eq_ok.mpr
        ⟨_, postfixType_complete hg (by omega) type, rfl⟩, rest⟩
    | _ => simp [hk, TokenKind.isIdent] at hident

theorem primary_complete (hg : g.Complete n) : Finds (n + 1) .primary g.primary := by
  intro c t c' hn h
  have hle := c.advance.length_advance_le
  cases h with
  | literal word => exact literal_complete word
  | name hat ref alone => exact primary_of_nameOrCall hat (nameOrCall_of_name ref alone)
  | call hat ref opening args =>
    exact primary_of_nameOrCall hat (nameOrCall_of_call hg hn ref opening args)
  | nilValue opening closing =>
    simp only [primary, bind_eq_ok, start_eq_ok, peek_eq_ok]
    refine ⟨_, _, ⟨rfl, rfl⟩, .mark .openParen, _, ⟨opening, rfl⟩, ?_⟩
    simp only [bind_eq_ok, advance_eq_ok, accept_eq_ok]
    refine ⟨_, _, ⟨rfl, rfl⟩, true, _, .inl ⟨closing, rfl, rfl⟩, ?_⟩
    simp only [if_true, bind_eq_ok, since_eq_ok, pure_eq_ok]
    exact ⟨_, _, ⟨rfl, rfl⟩, rfl, rfl⟩
  | paren opening inner closing =>
    have := length_advance_lt (c := c) (by simp [opening])
    have hne : c.advance.kind ≠ .mark .closeParen := by
      intro hclose
      have := inner.starts
      simp [Sym.Starts, hclose, TokenKind.startsExpr, TokenKind.startsPrimary, unaryOp?] at this
    simp only [primary, bind_eq_ok, start_eq_ok, peek_eq_ok]
    refine ⟨_, _, ⟨rfl, rfl⟩, .mark .openParen, _, ⟨opening, rfl⟩, ?_⟩
    simp only [bind_eq_ok, advance_eq_ok, accept_eq_ok]
    refine ⟨_, _, ⟨rfl, rfl⟩, false, _, .inr ⟨hne, rfl, rfl⟩, ?_⟩
    simp only [Bool.false_eq_true, if_false, bind_eq_ok, expect_eq_ok, since_eq_ok, pure_eq_ok]
    exact ⟨_, _, hg.expr (by omega) inner, _, _, ⟨closing, rfl, rfl⟩, _, _, ⟨rfl, rfl⟩, rfl, rfl⟩
  | mapping inner =>
    have hword : c.kind = .mark .openBrace := inner.starts
    simp only [primary, bind_eq_ok, start_eq_ok, peek_eq_ok]
    exact ⟨_, _, ⟨rfl, rfl⟩, .mark .openBrace, _, ⟨hword, rfl⟩, mapping_complete hg hn inner⟩
  | list opening items =>
    have := length_advance_lt (c := c) (by simp [opening])
    simp only [primary, bind_eq_ok, start_eq_ok, peek_eq_ok]
    refine ⟨_, _, ⟨rfl, rfl⟩, .mark .openBracket, _, ⟨opening, rfl⟩, ?_⟩
    simp only [bind_eq_ok, advance_eq_ok, since_eq_ok, pure_eq_ok]
    exact ⟨_, _, ⟨rfl, rfl⟩, _, _,
      commaList_complete (s := .expr) trivial hg.expr (by omega) items, _, _, ⟨rfl, rfl⟩, rfl, rfl⟩
  | construct word type args =>
    simp only [primary, bind_eq_ok, start_eq_ok, peek_eq_ok]
    exact ⟨_, _, ⟨rfl, rfl⟩, .keyword .kwNew, _, ⟨word, rfl⟩, construct_complete hg hn word type args⟩
  | errorCall word opening args =>
    have := length_advance_lt (c := c) (by simp [word])
    have := c.advance.length_advance_le
    simp only [primary, bind_eq_ok, start_eq_ok, peek_eq_ok]
    refine ⟨_, _, ⟨rfl, rfl⟩, .keyword .kwError, _, ⟨word, rfl⟩, ?_⟩
    simp only [keywordExpr, bind_eq_ok, get_eq_ok]
    refine ⟨_, _, ⟨rfl, rfl⟩, ?_⟩
    rw [if_pos (by rw [Cursor.kindAt_succ, show c.advance.kindAt 0 = _ from opening]; rfl)]
    simp only [errorCall, bind_eq_ok, start_eq_ok, memberName_eq_ok, advance_eq_ok, since_eq_ok,
      pure_eq_ok]
    exact ⟨_, _, ⟨rfl, rfl⟩, ⟨Keyword.kwError.text, c.span⟩, _, ⟨by rw [word]; rfl, rfl, rfl⟩, _, _,
      ⟨rfl, rfl⟩, _, _, args_complete hg (by omega) args, _, _, ⟨rfl, rfl⟩, rfl, rfl⟩

/-- An expression with accesses behind it grows from the one without them. -/
theorem accessing_grows (hg : g.Complete n) : ∀ {c c' : Cursor} {e : Expr},
    c.rest.length < n + 1 → Reads .accessing c e c' →
    ∃ e₀ c₀, Reads .primary c e₀ c₀ ∧ Grows (accessed.grow g c.start) e₀ c₀ e c'
  | _, _, _, _, .primary inner => ⟨_, _, inner, .refl⟩
  | c, _, _, hn, @Reads.field _ c₁ _ m target dot name alone => by
    obtain ⟨e₀, c₀, hprimary, hgrows⟩ := accessing_grows hg hn target
    have := length_advance_lt (c := c₁) (by simp [dot])
    have := c₁.advance.length_advance_le
    refine ⟨e₀, c₀, hprimary, .step hgrows ?_ (by omega)⟩
    simp only [accessed.grow, bind_eq_ok, peek_eq_ok]
    refine ⟨.mark .dot, _, ⟨dot, rfl⟩, ?_⟩
    simp only [bind_eq_ok, advance_eq_ok, memberName_eq_ok, accept_eq_ok]
    refine ⟨_, _, ⟨rfl, rfl⟩, ⟨m, c₁.advance.span⟩, _, ⟨name, rfl, rfl⟩, false, _,
      .inr ⟨alone, rfl, rfl⟩, ?_⟩
    simp only [Bool.false_eq_true, if_false, bind_eq_ok, since_eq_ok, pure_eq_ok]
    exact ⟨_, _, ⟨rfl, rfl⟩, rfl, rfl⟩
  | c, _, _, hn, @Reads.methodCall _ c₁ _ _ m _ target dot name opening args => by
    obtain ⟨e₀, c₀, hprimary, hgrows⟩ := accessing_grows hg hn target
    have := target.length.1
    have := length_advance_lt (c := c₁) (by simp [dot])
    have := c₁.advance.length_advance_le
    have := c₁.advance.advance.length_advance_le
    have := args.length.1
    refine ⟨e₀, c₀, hprimary, .step hgrows ?_ (by omega)⟩
    simp only [accessed.grow, bind_eq_ok, peek_eq_ok]
    refine ⟨.mark .dot, _, ⟨dot, rfl⟩, ?_⟩
    simp only [bind_eq_ok, advance_eq_ok, memberName_eq_ok, accept_eq_ok]
    refine ⟨_, _, ⟨rfl, rfl⟩, ⟨m, c₁.advance.span⟩, _, ⟨name, rfl, rfl⟩, true, _,
      .inl ⟨opening, rfl, rfl⟩, ?_⟩
    simp only [if_true, bind_eq_ok, since_eq_ok, pure_eq_ok]
    exact ⟨_, _, args_complete hg (by omega) args, _, _, ⟨rfl, rfl⟩, rfl, rfl⟩
  | c, _, _, hn, @Reads.remoteCall _ c₁ _ _ m _ target arrow name opening args => by
    obtain ⟨e₀, c₀, hprimary, hgrows⟩ := accessing_grows hg hn target
    have := target.length.1
    have := length_advance_lt (c := c₁) (by simp [arrow])
    have := c₁.advance.length_advance_le
    have := c₁.advance.advance.length_advance_le
    have := args.length.1
    refine ⟨e₀, c₀, hprimary, .step hgrows ?_ (by omega)⟩
    simp only [accessed.grow, bind_eq_ok, peek_eq_ok]
    refine ⟨.mark .rightArrow, _, ⟨arrow, rfl⟩, ?_⟩
    simp only [bind_eq_ok, advance_eq_ok, memberName_eq_ok, expect_eq_ok, since_eq_ok, pure_eq_ok]
    exact ⟨_, _, ⟨rfl, rfl⟩, ⟨m, c₁.advance.span⟩, _, ⟨name, rfl, rfl⟩, _, _, ⟨opening, rfl, rfl⟩,
      _, _, args_complete hg (by omega) args, _, _, ⟨rfl, rfl⟩, rfl, rfl⟩
  | c, _, _, hn, @Reads.index _ c₁ c₂ _ _ target opening position closing => by
    obtain ⟨e₀, c₀, hprimary, hgrows⟩ := accessing_grows hg hn target
    have := target.length.1
    have := length_advance_lt (c := c₁) (by simp [opening])
    have := position.length.1
    have := c₂.length_advance_le
    refine ⟨e₀, c₀, hprimary, .step hgrows ?_ (by omega)⟩
    simp only [accessed.grow, bind_eq_ok, peek_eq_ok]
    refine ⟨.mark .openBracket, _, ⟨opening, rfl⟩, ?_⟩
    simp only [bind_eq_ok, advance_eq_ok, expect_eq_ok, since_eq_ok, pure_eq_ok]
    exact ⟨_, _, ⟨rfl, rfl⟩, _, _, hg.expr (by omega) position, _, _, ⟨closing, rfl, rfl⟩, _, _,
      ⟨rfl, rfl⟩, rfl, rfl⟩

theorem accessed_complete (hg : g.Complete n) : Finds (n + 1) .accessed g.accessed := by
  intro c t c' hn h
  cases h with
  | accessed chain stop =>
    obtain ⟨e₀, c₀, hprimary, hgrows⟩ := accessing_grows hg hn chain
    simp only [accessed, bind_eq_ok, start_eq_ok]
    refine ⟨_, _, ⟨rfl, rfl⟩, _, _, primary_complete hg hn hprimary, extend_of_grows hgrows ?_⟩
    simp only [accessed.grow, bind_eq_ok, peek_eq_ok]
    refine ⟨_, _, ⟨rfl, rfl⟩, ?_⟩
    obtain ⟨hdot, harrow, hopen⟩ := stop
    cases hk : c'.kind with
    | mark m =>
      cases m with
      | dot => exact absurd hk hdot
      | rightArrow => exact absurd hk harrow
      | openBracket => exact absurd hk hopen
      | _ => rfl
    | _ => rfl

theorem unaryExpr_complete (hg : g.Complete n) : Finds (n + 1) .unary g.unaryExpr := by
  intro c t c' hn h
  simp only [unaryExpr, bind_eq_ok, start_eq_ok, peek_eq_ok]
  refine ⟨_, _, ⟨rfl, rfl⟩, _, _, ⟨rfl, rfl⟩, ?_⟩
  cases h with
  | unary word inner =>
    have := length_advance_lt (c := c) (fun hk => by simp [hk, unaryOp?] at word)
    simp only [word, bind_eq_ok, advance_eq_ok, since_eq_ok, pure_eq_ok]
    exact ⟨_, _, ⟨rfl, rfl⟩, _, _, hg.unary (by omega) inner, _, _, ⟨rfl, rfl⟩, rfl, rfl⟩
  | cast type inner =>
    have hless : c.kind = .mark .less := type.starts
    have := type.length_lt trivial
    simp only [hless, unaryOp?, beq_self_eq_true, if_true, bind_eq_ok, since_eq_ok, pure_eq_ok]
    exact ⟨_, _, typeArgument_complete hg hn type, _, _, hg.unary (by omega) inner, _, _, ⟨rfl, rfl⟩,
      rfl, rfl⟩
  | bare inner =>
    obtain ⟨hop, hless⟩ := TokenKind.unaryOp?_of_startsPrimary inner.starts
    simp only [hop]
    rw [if_neg (by simpa using hless)]
    exact accessed_complete hg hn inner

theorem binaryOp?_mark (op : BinaryOp) : binaryOp? (.mark op.mark) = some op := by
  cases op <;> rfl

/-- Operands with operators between them grow from the first operand. -/
theorem joining_grows (hg : g.Complete n) {floor : Nat} : ∀ {c c' : Cursor} {e : Expr},
    c.rest.length < n + 1 → Reads (.joining floor) c e c' →
    ∃ e₀ c₀, Reads .unary c e₀ c₀ ∧ Grows (binaryExpr.grow g floor c.start) e₀ c₀ e c'
  | _, _, _, _, .operand only => ⟨_, _, only, .refl⟩
  | c, _, _, hn, @Reads.operator _ _ c₁ _ _ _ op left mark tight right => by
    obtain ⟨e₀, c₀, hunary, hgrows⟩ := joining_grows hg hn left
    have := left.length.1
    have := length_advance_lt (c := c₁) (by simp [mark])
    have := right.length.1
    refine ⟨e₀, c₀, hunary, .step hgrows ?_ (by omega)⟩
    simp only [binaryExpr.grow, bind_eq_ok, peek_eq_ok]
    refine ⟨_, _, ⟨mark, rfl⟩, ?_⟩
    rw [if_neg (by simp)]
    simp only [binaryOp?_mark]
    rw [if_neg (by omega)]
    simp only [bind_eq_ok, advance_eq_ok, since_eq_ok, pure_eq_ok]
    exact ⟨_, _, ⟨rfl, rfl⟩, _, _, hg.binary _ (by omega) right, _, _, ⟨rfl, rfl⟩, rfl, rfl⟩
  | c, _, _, hn, @Reads.typeTest _ _ c₁ _ _ _ left word tight right => by
    obtain ⟨e₀, c₀, hunary, hgrows⟩ := joining_grows hg hn left
    have := left.length.1
    have := length_advance_lt (c := c₁) (by simp [word])
    have := right.length.1
    refine ⟨e₀, c₀, hunary, .step hgrows ?_ (by omega)⟩
    simp only [binaryExpr.grow, bind_eq_ok, peek_eq_ok]
    refine ⟨_, _, ⟨word, rfl⟩, ?_⟩
    rw [if_pos (by simpa using tight)]
    simp only [bind_eq_ok, advance_eq_ok, since_eq_ok, pure_eq_ok]
    exact ⟨_, _, ⟨rfl, rfl⟩, _, _, hg.type (by omega) right, _, _, ⟨rfl, rfl⟩, rfl, rfl⟩

theorem binaryExpr_complete (hg : g.Complete n) (floor : Nat) :
    Finds (n + 1) (.binary floor) (g.binaryExpr floor) := by
  intro c t c' hn h
  cases h with
  | binary chain stop =>
    obtain ⟨e₀, c₀, hunary, hgrows⟩ := joining_grows hg hn chain
    simp only [binaryExpr, bind_eq_ok, start_eq_ok]
    refine ⟨_, _, ⟨rfl, rfl⟩, _, _, unaryExpr_complete hg hn hunary, extend_of_grows hgrows ?_⟩
    simp only [binaryExpr.grow, bind_eq_ok, peek_eq_ok]
    refine ⟨_, _, ⟨rfl, rfl⟩, ?_⟩
    rw [if_neg (by simpa using stop.1)]
    cases hop : binaryOp? c'.kind with
    | none => rfl
    | some op =>
      simp only
      rw [if_pos (stop.2 op hop)]
      rfl

theorem conditional_complete (hg : g.Complete n) : Finds (n + 1) .expr g.conditional := by
  intro c t c' hn h
  simp only [conditional, bind_eq_ok, start_eq_ok, accept_eq_ok]
  refine ⟨_, _, ⟨rfl, rfl⟩, ?_⟩
  cases h with
  | condition only alone =>
    refine ⟨_, _, binaryExpr_complete hg 0 hn only, false, _, .inr ⟨alone, rfl, rfl⟩, ?_⟩
    simp only [Bool.false_eq_true, if_false, pure_eq_ok]
    trivial
  | @conditional _ c₁ c₂ _ _ _ _ condition question ifTrue colon ifFalse =>
    have := condition.length.1
    have := length_advance_lt (c := c₁) (by simp [question])
    have := ifTrue.length.1
    have := c₂.length_advance_le
    refine ⟨_, _, binaryExpr_complete hg 0 hn condition, true, _, .inl ⟨question, rfl, rfl⟩, ?_⟩
    simp only [if_true, bind_eq_ok, expect_eq_ok, since_eq_ok, pure_eq_ok]
    exact ⟨_, _, hg.expr (by omega) ifTrue, _, _, ⟨colon, rfl, rfl⟩, _, _, hg.expr (by omega) ifFalse,
      _, _, ⟨rfl, rfl⟩, rfl, rfl⟩

/-- A grammar one level deeper reads one token more. -/
theorem next_complete (hg : g.Complete n) : g.next.Complete (n + 1) where
  type := unionType_complete hg
  expr := conditional_complete hg
  binary := binaryExpr_complete hg
  unary := unaryExpr_complete hg

end Grammar

/-- **A grammar reads all that the relation allows where fewer tokens are left than it is deep.** -/
theorem grammar_complete (depth : Nat) : (grammar depth).Complete depth := by
  induction depth with
  | zero => refine ⟨?_, ?_, fun _ => ?_, ?_⟩ <;> exact fun _ _ _ h => absurd h (Nat.not_lt_zero _)
  | succ depth ih => exact Grammar.next_complete ih

/-! ### Parts of declarations -/

namespace Grammar

variable {g : Grammar} {n : Nat}

theorem annotationTag_complete (hg : g.Complete n) : Finds (n + 1) .tag g.annotationTag := by
  intro c t c' hn h
  cases h with
  | tag sign ref hvalue =>
    have := length_advance_lt (c := c) (by simp [sign])
    have := ref.length_lt
    simp only [annotationTag, ite_bind_eq, bind_eq_ok, start_eq_ok, advance_eq_ok, nameRef_eq_ok,
      at?_eq_ok, since_eq_ok, pure_eq_ok]
    exact ⟨_, _, ⟨rfl, rfl⟩, _, _, ⟨rfl, rfl⟩, _, _, ref, _, _, ⟨rfl, rfl⟩, _, _,
      given_complete (mapping_complete hg) (by omega) hvalue, _, _, ⟨rfl, rfl⟩, rfl, rfl⟩

theorem annotations_complete (hg : g.Complete n) : Finds (n + 1) .annotations g.annotations :=
  many_complete (s := .tag) (.startedBy (.mark .atSign)) (Gap.startedBy_steps _) trivial
    (annotationTag_complete hg)

theorem param_complete {m : MemberGrammar} (hg : m.exprs.Complete n) : Finds n .param m.param := by
  intro c t c' hn h
  simp only [MemberGrammar.param, bind_eq_ok, start_eq_ok, accept_eq_ok]
  refine ⟨_, _, ⟨rfl, rfl⟩, ?_⟩
  cases h with
  | @restParam _ c₁ c₂ _ _ x annotations type dots name =>
    have := annotations.length.1
    refine ⟨_, _, annotations_complete hg (by omega) annotations, _, _, hg.type (by omega) type,
      true, _, .inl ⟨dots, rfl, rfl⟩, ?_⟩
    simp only [if_true, bind_eq_ok, ident_eq_ok, since_eq_ok, pure_eq_ok]
    exact ⟨⟨x, c₂.advance.span⟩, _, ⟨name, rfl, rfl⟩, _, _, ⟨rfl, rfl⟩, rfl, rfl⟩
  | @param _ c₁ c₂ c₃ _ _ x _ annotations type name value =>
    have := annotations.length.1
    have := type.length.1
    have := c₂.length_advance_le
    refine ⟨_, _, annotations_complete hg (by omega) annotations, _, _, hg.type (by omega) type,
      false, _, .inr ⟨by simp [name], rfl, rfl⟩, ?_⟩
    simp only [Bool.false_eq_true, if_false, bind_eq_ok, ident_eq_ok, accept_eq_ok]
    refine ⟨⟨x, c₂.span⟩, _, ⟨name, rfl, rfl⟩, ?_⟩
    cases value with
    | absent other =>
      refine ⟨false, _, .inr ⟨other, rfl, rfl⟩, ?_⟩
      simp only [Bool.false_eq_true, if_false, bind_eq_ok, since_eq_ok, pure_eq_ok]
      exact ⟨_, _, ⟨rfl, rfl⟩, rfl, rfl⟩
    | present sign value =>
      have := c₂.advance.length_advance_le
      refine ⟨true, _, .inl ⟨sign, rfl, rfl⟩, ?_⟩
      simp only [if_true, bind_eq_ok, since_eq_ok, pure_eq_ok]
      exact ⟨_, _, hg.expr (by omega) value, _, _, ⟨rfl, rfl⟩, rfl, rfl⟩

theorem localVar_complete (hg : g.Complete n) : Finds n .localVar (StmtGrammar.localVar g) := by
  intro c t c' hn h
  simp only [StmtGrammar.localVar, bind_eq_ok, ident_eq_ok, peek_eq_ok]
  cases h with
  | @localVar _ c₁ c₂ c₃ _ _ x _ annotations type name value closing =>
    have := annotations.length.1
    have hpass : (c₁.pass (.keyword .kwFinal)).rest.length ≤ c₁.rest.length := by
      unfold Cursor.pass
      split
      · exact c₁.length_advance_le
      · exact Nat.le_refl _
    have := type.length.1
    have := c₂.length_advance_le
    have haccept : accept (.keyword .kwFinal) c₁
        = .ok (c₁.kind == .keyword .kwFinal, c₁.pass (.keyword .kwFinal)) := by
      rw [accept_eq_ok]
      by_cases hk : c₁.kind = .keyword .kwFinal <;> simp [hk, Cursor.pass]
    refine ⟨_, _, annotations_complete hg (by omega) annotations, _, _, haccept, _, _,
      hg.type (by omega) type, ⟨x, c₂.span⟩, _, ⟨name, rfl, rfl⟩, _, _, ⟨rfl, rfl⟩, ?_⟩
    obtain ⟨b, c₄, hb, hinit⟩ := behind_complete (by simp) hg.expr (by omega) value
    -- What is behind the name is a sign or, where there is none, the semicolon.
    have hnext : (c₂.advance.kind == .mark .assign || c₂.advance.kind == .mark .semicolon) = true := by
      cases value with
      | absent => simp [closing]
      | present sign => simp [sign]
    rw [if_neg (by simp [hnext])]
    simp only [ite_bind_eq, bind_eq_ok, accept_eq_ok, expect_eq_ok, pure_eq_ok]
    exact ⟨b, _, hb, _, _, hinit, _, _, ⟨closing, rfl, rfl⟩, rfl, rfl⟩

end Grammar

end Durable
