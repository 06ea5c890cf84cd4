/-
The parser reads only what the grammar allows.

One lemma for every production: if the parsers it recurses into read by the relation `Reads`,
so does the production.  The grammar of every depth is then sound by induction on the depth,
since going one level deeper only ties the productions to sound parsers.
-/
import Durable.Proofs.Grammar.Reads

namespace Durable

open Durable.Parser

/-- A parser reads only what a symbol of the grammar reads. -/
def Implements (s : Sym) (p : Parser s.Result) : Prop :=
  ∀ ⦃c : Cursor⦄ ⦃t : s.Result⦄ ⦃c' : Cursor⦄, p c = .ok (t, c') → Reads s c t c'

/-! ### Lists -/

namespace Gap

theorem between_steps (m : Mark) :
    Steps (do return !(← accept (.mark m))) (between m).step := by
  intro c b c'
  simp only [bind_eq_ok, accept_eq_ok, pure_eq_ok, step]
  by_cases h : c.kind = .mark m <;> simp [h, and_assoc, and_comm]

theorem commas_steps (close : Mark) : Steps (commaList.ended close) (commas close).step := by
  intro c b c'
  simp only [commaList.ended, bind_eq_ok, accept_eq_ok, step]
  by_cases hcomma : c.kind = .mark .comma
  · simp [hcomma, pure_eq_ok]
  · by_cases hclose : c.kind = .mark close
    · have hne : close ≠ .comma := fun h => hcomma (h ▸ hclose)
      simp [hclose, hne, map_eq_ok, expect_eq_ok, and_comm, eq_comm (a := true)]
    · simp [hcomma, hclose, map_eq_ok, expect_eq_ok]

theorem upTo_steps (close : Mark) : Steps (accept (.mark close)) (upTo close).step := by
  intro c b c'
  simp only [accept_eq_ok, step]
  by_cases h : c.kind = .mark close <;> simp [h, eq_comm]

theorem startedBy_steps (k : TokenKind) :
    Steps (do return !(← at? k)) (startedBy k).step := by
  intro c b c'
  simp only [bind_eq_ok, at?_eq_ok, pure_eq_ok, step]
  by_cases h : c.kind = k
  · simp [h]
  · cases b <;> simp [h]

end Gap

/-- A list read item by item is a list of the grammar. -/
theorem reads_many {gap : Gap} {s : Sym} {c c' : Cursor} {as : List s.Result}
    (h : Repeats gap.step (Reads s) c as c') : Reads (.many gap s) c as c' := by
  induction h with
  | stop h => exact .stop h
  | more h first _ ih => exact .more h first ih

theorem many_sound (gap : Gap) {s : Sym} {done : Parser Bool} {item : Parser s.Result}
    (hdone : Steps done gap.step) (hitem : Implements s item) :
    Implements (.many gap s) (many done item) :=
  fun _ _ _ h => reads_many (repeats_of_many (R := Reads s) hdone (fun hr => hitem hr) h)

theorem separatedBy_sound (m : Mark) {s : Sym} {item : Parser s.Result}
    (hitem : Implements s item) : Implements (.separated m s) (separatedBy m item) := by
  intro c t c' h
  simp only [separatedBy, bind_eq_ok, pure_eq_ok] at h
  obtain ⟨a, c₁, hfirst, as, _, hothers, rfl, rfl⟩ := h
  exact .separated (hitem hfirst) (many_sound (.between m) (Gap.between_steps m) hitem hothers)

theorem commaList_sound {close : Mark} {s : Sym} {item : Parser s.Result}
    (hitem : Implements s item) : Implements (.commaList close s) (commaList close item) := by
  intro c t c' h
  simp only [commaList, bind_eq_ok, accept_eq_ok] at h
  obtain ⟨b, c₁, ⟨hclose, rfl, rfl⟩ | ⟨hclose, rfl, rfl⟩, h⟩ := h
  · simp only [if_true, pure_eq_ok] at h
    obtain ⟨rfl, rfl⟩ := h
    exact .noItems hclose
  · simp only [Bool.false_eq_true, if_false, bind_eq_ok, pure_eq_ok] at h
    obtain ⟨a, c₁, hfirst, as, _, hothers, rfl, rfl⟩ := h
    exact .items hclose (hitem hfirst)
      (many_sound (.commas close) (Gap.commas_steps close) hitem hothers)

/-- What is read behind a token that was accepted, if it was. -/
theorem behind_sound {k : TokenKind} {s : Sym} {p : Parser s.Result} (hp : Implements s p)
    {c c₁ c' : Cursor} {b : Bool} {t : Option s.Result}
    (hb : (c.kind = k ∧ b = true ∧ c.advance = c₁) ∨ (c.kind ≠ k ∧ b = false ∧ c = c₁))
    (h : (if b = true then some <$> p else pure none) c₁ = .ok (t, c')) :
    Reads (.behind k s) c t c' := by
  obtain ⟨hk, rfl, rfl⟩ | ⟨hk, rfl, rfl⟩ := hb
  · simp only [if_true, map_eq_ok] at h
    obtain ⟨a, h, rfl⟩ := h
    exact .present hk (hp h)
  · simp only [Bool.false_eq_true, if_false, pure_eq_ok] at h
    obtain ⟨rfl, rfl⟩ := h
    exact .absent hk

/-- What is read if the next token passes a test. -/
theorem given_sound {test : TokenKind → Bool} {s : Sym} {p : Parser s.Result}
    (hp : Implements s p) {c c' : Cursor} {t : Option s.Result}
    (h : (if test c.kind = true then some <$> p else pure none) c = .ok (t, c')) :
    Reads (.given test s) c t c' := by
  split at h
  · next htest =>
    simp only [map_eq_ok] at h
    obtain ⟨a, h, rfl⟩ := h
    exact .found htest (hp h)
  · next htest =>
    simp only [pure_eq_ok] at h
    obtain ⟨rfl, rfl⟩ := h
    exact .missing (by simpa using htest)

theorem repeats_of_reads {gap : Gap} {s : Sym} : ∀ {c c' : Cursor} {as : List s.Result},
    Reads (.many gap s) c as c' → Repeats gap.step (Reads s) c as c'
  | _, _, _, .stop h => .stop h
  | _, _, _, .more h first others => .more h first (repeats_of_reads others)

/-! ### Productions -/

/-- The parsers of a grammar read only what the relation allows. -/
structure Grammar.Sound (g : Grammar) : Prop where
  type : Implements .type g.type
  expr : Implements .expr g.expr
  binary (floor : Nat) : Implements (.binary floor) (g.binary floor)
  unary : Implements .unary g.unary

namespace Grammar

variable {g : Grammar}

theorem typeArgument_sound (hg : g.Sound) : Implements .typeArgument g.typeArgument := by
  intro c t c' h
  simp only [typeArgument, bind_eq_ok, expect_eq_ok, pure_eq_ok] at h
  obtain ⟨_, _, ⟨hopen, -, rfl⟩, t, c₁, ht, _, _, ⟨hclose, -, rfl⟩, rfl, rfl⟩ := h
  exact .typeArgument hopen (hg.type ht) hclose

theorem typeParam_sound (hg : g.Sound) : Implements .typeParam g.typeParam := by
  intro c t c' h
  simp only [typeParam, bind_eq_ok, accept_eq_ok, peek_eq_ok] at h
  obtain ⟨t, c₁, ht, b, c₂, hb, k, _, ⟨rfl, rfl⟩, h⟩ := h
  have hpass : c₂ = c₁.pass (.mark .ellipsis) ∧ b = (c₁.kind == .mark .ellipsis) := by
    obtain ⟨hk, rfl, rfl⟩ | ⟨hk, rfl, rfl⟩ := hb <;> simp [Cursor.pass, hk]
  obtain ⟨rfl, rfl⟩ := hpass
  have hread := Reads.typeParam (hg.type ht)
  generalize c₁.pass (.mark .ellipsis) = c₂ at h hread
  unfold Cursor.passName at hread
  cases hk : c₂.kind with
  | ident n =>
    simp only [hk, bind_eq_ok, advance_eq_ok, pure_eq_ok] at h
    obtain ⟨_, _, ⟨-, rfl⟩, rfl, rfl⟩ := h
    simpa [hk, TokenKind.isIdent] using hread
  | _ =>
    simp only [hk, pure_eq_ok] at h
    obtain ⟨rfl, rfl⟩ := h
    simpa [hk, TokenKind.isIdent] using hread

theorem functionType_sound (hg : g.Sound) {c c₁ c' : Cursor} {t : TypeDesc}
    (hword : c.kind = .keyword .kwFunction) (hc : c.advance = c₁)
    (h : g.functionType c.start c₁ = .ok (t, c')) : Reads .plainType c t c' := by
  subst hc
  simp only [functionType, ite_bind_eq, bind_eq_ok, accept_eq_ok] at h
  obtain ⟨b, c₁, ⟨hopen, rfl, rfl⟩ | ⟨hopen, rfl, rfl⟩, h⟩ := h
  · simp only [if_true, bind_eq_ok, accept_eq_ok, since_eq_ok, pure_eq_ok] at h
    obtain ⟨params, c₁, hparams, b, c₂, hb, returns, c₃, hreturns, _, _, ⟨rfl, rfl⟩, rfl, rfl⟩ := h
    exact .functionType hword hopen (commaList_sound (typeParam_sound hg) hparams)
      (behind_sound hg.type hb hreturns)
  · simp only [Bool.false_eq_true, if_false, bind_eq_ok, since_eq_ok, pure_eq_ok] at h
    obtain ⟨_, _, ⟨rfl, rfl⟩, rfl, rfl⟩ := h
    exact .anyFunction hword hopen

theorem atReadonlyMark_eq_ok {c c' : Cursor} {b : Bool} :
    atReadonlyMark c = .ok (b, c') ↔ c.atReadonlyMark = b ∧ c = c' := by
  unfold atReadonlyMark Cursor.atReadonlyMark
  simp only [bind_eq_ok, at?_eq_ok]
  by_cases hk : (c.kind == .keyword .kwReadonly) = true
  · constructor
    · rintro ⟨_, _, ⟨rfl, rfl⟩, h⟩
      simp only [hk, Bool.not_true, Bool.false_eq_true, if_false, bind_eq_ok, peekAt_eq_ok,
        pure_eq_ok] at h
      obtain ⟨_, _, ⟨rfl, rfl⟩, _, _, ⟨rfl, rfl⟩, rfl, rfl⟩ := h
      exact ⟨(congrArg (· && _ && _) hk).trans (congrArg (· && _) (Bool.true_and _)), rfl⟩
    · rintro ⟨rfl, rfl⟩
      refine ⟨_, _, ⟨rfl, rfl⟩, ?_⟩
      simp only [hk, Bool.not_true, Bool.false_eq_true, if_false, bind_eq_ok, peekAt_eq_ok,
        pure_eq_ok, Bool.true_and]
      exact ⟨_, _, ⟨rfl, rfl⟩, _, _, ⟨rfl, rfl⟩, rfl, rfl⟩
  · rw [Bool.not_eq_true] at hk
    constructor
    · rintro ⟨_, _, ⟨rfl, rfl⟩, h⟩
      simp only [hk, Bool.not_false, if_true, pure_eq_ok] at h
      exact ⟨by rw [hk, Bool.false_and, Bool.false_and]; exact h.1, h.2⟩
    · rintro ⟨rfl, rfl⟩
      refine ⟨_, _, ⟨rfl, rfl⟩, ?_⟩
      simp only [hk, Bool.not_false, if_true, pure_eq_ok, Bool.false_and, and_self]

theorem recordItem_sound (hg : g.Sound) : Implements .recordItem g.recordItem := by
  intro c t c' h
  simp only [recordItem, ite_bind_eq, bind_eq_ok, start_eq_ok, atReadonlyMark_eq_ok] at h
  obtain ⟨_, _, ⟨rfl, rfl⟩, _, _, ⟨rfl, rfl⟩, h⟩ := h
  rw [skip_eq_ok] at h
  simp only [bind_eq_ok, accept_eq_ok] at h
  obtain ⟨type, c₁, htype, _, _, ⟨hdots, rfl, rfl⟩ | ⟨hdots, rfl, rfl⟩, h⟩ := h
  · simp only [if_true, bind_eq_ok, expect_eq_ok, pure_eq_ok] at h
    obtain ⟨_, _, ⟨hclose, -, rfl⟩, rfl, rfl⟩ := h
    exact .recordRest (hg.type htype) hdots hclose
  · simp only [Bool.false_eq_true, if_false, bind_eq_ok, memberName_eq_ok, accept_eq_ok,
      expect_eq_ok, since_eq_ok, pure_eq_ok] at h
    obtain ⟨⟨n, s⟩, _, ⟨hname, hs, rfl⟩, b, c₂, hb, b', c₃, hb', default, c₄, hdefault, _, _,
      ⟨hclose, -, rfl⟩, _, _, ⟨rfl, rfl⟩, rfl, rfl⟩ := h
    subst hs
    have hpass : c₂ = c₁.advance.pass (.mark .question)
        ∧ b = (c₁.advance.kind == .mark .question) := by
      obtain ⟨hk, rfl, rfl⟩ | ⟨hk, rfl, rfl⟩ := hb <;> simp [Cursor.pass, hk]
    obtain ⟨rfl, rfl⟩ := hpass
    exact .recordField (hg.type htype) hdots hname (behind_sound hg.expr hb' hdefault) hclose

theorem recordType_sound (hg : g.Sound) {c c₁ c' : Cursor} {t : TypeDesc}
    (hword : c.kind = .keyword .kwRecord) (hc : c.advance = c₁)
    (h : g.recordType c.start c₁ = .ok (t, c')) : Reads .plainType c t c' := by
  subst hc
  simp only [recordType, bind_eq_ok, accept_eq_ok] at h
  obtain ⟨b, c₁, ⟨hopen, rfl, rfl⟩ | ⟨hopen, rfl, rfl⟩, h⟩ := h
  · simp only [Bool.not_true, Bool.false_eq_true, if_false, if_true, bind_eq_ok, since_eq_ok,
      pure_eq_ok] at h
    obtain ⟨items, c₁, hitems, _, _, ⟨rfl, rfl⟩, rfl, rfl⟩ := h
    exact @Reads.record _ _ true _ hword hopen
      (many_sound (.upTo _) (Gap.upTo_steps _) (recordItem_sound hg) hitems)
  · simp only [Bool.not_false, Bool.false_eq_true, if_false, if_true, bind_eq_ok, expect_eq_ok,
      since_eq_ok, pure_eq_ok] at h
    obtain ⟨_, _, ⟨hopen', -, rfl⟩, items, c₁, hitems, _, _, ⟨rfl, rfl⟩, rfl, rfl⟩ := h
    exact @Reads.record _ _ false _ hword hopen'
      (many_sound (.upTo _) (Gap.upTo_steps _) (recordItem_sound hg) hitems)

theorem ofKeyword?_eq_some {k : Keyword} {b : BuiltinType}
    (h : BuiltinType.ofKeyword? k = some b) : k = b.keyword := by
  rw [BuiltinType.ofKeyword?] at h
  have hb := List.find?_some h
  exact (beq_iff_eq.mp hb).symm

theorem keywordType_sound (hg : g.Sound) {c c' : Cursor} {k : Keyword} {t : TypeDesc}
    (hk : c.kind = .keyword k) (h : g.keywordType k c = .ok (t, c')) :
    Reads .plainType c t c' := by
  unfold keywordType at h
  simp only [bind_eq_ok, start_eq_ok] at h
  obtain ⟨_, _, ⟨rfl, rfl⟩, h⟩ := h
  cases hb : BuiltinType.ofKeyword? k with
  | some b =>
    simp only [hb, bind_eq_ok, get_eq_ok] at h
    obtain ⟨_, _, ⟨rfl, rfl⟩, h⟩ := h
    split at h
    · next hat =>
      simp only [bind_eq_ok, nameRef_eq_ok, pure_eq_ok] at h
      obtain ⟨r, _, href, rfl, rfl⟩ := h
      exact .typeName (by simp [Cursor.atName, hk, hb, hat]) href
    · next hat =>
      simp only [bind_eq_ok, advance_eq_ok, since_eq_ok, pure_eq_ok] at h
      obtain ⟨_, _, ⟨-, rfl⟩, _, _, ⟨rfl, rfl⟩, rfl, rfl⟩ := h
      exact .builtin (by rw [hk, ofKeyword?_eq_some hb]) (by simpa using hat)
  | none =>
    simp only [hb] at h
    cases k with
    | kwVar =>
      simp only [bind_eq_ok, advance_eq_ok, since_eq_ok, pure_eq_ok] at h
      obtain ⟨_, _, ⟨-, rfl⟩, _, _, ⟨rfl, rfl⟩, rfl, rfl⟩ := h
      exact .inferred hk
    | kwMap =>
      simp only [bind_eq_ok, advance_eq_ok, since_eq_ok, pure_eq_ok] at h
      obtain ⟨_, _, ⟨-, rfl⟩, _, _, ht, _, _, ⟨rfl, rfl⟩, rfl, rfl⟩ := h
      exact .mapType hk (typeArgument_sound hg ht)
    | kwFuture =>
      simp only [bind_eq_ok, advance_eq_ok, at?_eq_ok] at h
      obtain ⟨_, _, ⟨-, rfl⟩, _, _, ⟨rfl, rfl⟩, h⟩ := h
      split at h
      · next hless =>
        simp only [bind_eq_ok, since_eq_ok, pure_eq_ok] at h
        obtain ⟨t, _, ht, _, _, ⟨rfl, rfl⟩, rfl, rfl⟩ := h
        exact .future hk (.found hless (typeArgument_sound hg ht))
      · next hless =>
        simp only [bind_eq_ok, since_eq_ok, pure_eq_ok] at h
        obtain ⟨_, _, ⟨rfl, rfl⟩, rfl, rfl⟩ := h
        exact .future hk (.missing (by simpa using hless))
    | kwStream =>
      simp only [ite_bind_eq, bind_eq_ok, advance_eq_ok, expect_eq_ok, accept_eq_ok, since_eq_ok,
        pure_eq_ok] at h
      obtain ⟨_, _, ⟨-, rfl⟩, _, _, ⟨hopen, -, rfl⟩, item, _, hitem, b, _, hb, done, _, hdone,
        _, _, ⟨hclose, -, rfl⟩, _, _, ⟨rfl, rfl⟩, rfl, rfl⟩ := h
      exact .stream hk hopen (hg.type hitem) (behind_sound hg.type hb hdone) hclose
    | kwFunction =>
      simp only [bind_eq_ok, advance_eq_ok] at h
      obtain ⟨_, _, ⟨-, hc⟩, h⟩ := h
      exact functionType_sound hg hk hc h
    | kwRecord =>
      simp only [bind_eq_ok, advance_eq_ok] at h
      obtain ⟨_, _, ⟨-, hc⟩, h⟩ := h
      exact recordType_sound hg hk hc h
    | kwTrue =>
      simp only [bind_eq_ok, advance_eq_ok, since_eq_ok, pure_eq_ok] at h
      obtain ⟨_, _, ⟨-, rfl⟩, _, _, ⟨rfl, rfl⟩, rfl, rfl⟩ := h
      exact .singleton (by rw [hk]; rfl)
    | kwFalse =>
      simp only [bind_eq_ok, advance_eq_ok, since_eq_ok, pure_eq_ok] at h
      obtain ⟨_, _, ⟨-, rfl⟩, _, _, ⟨rfl, rfl⟩, rfl, rfl⟩ := h
      exact .singleton (by rw [hk]; rfl)
    | _ => exact absurd h unexpected_ne_ok

/-- A type of one token that is a literal. -/
theorem singleton_sound {c c' : Cursor} {v : Literal} {t : TypeDesc}
    (hv : c.kind.literal? = some v)
    (h : (do let _ ← advance; return TypeDesc.singleton v (← since c.start) : Parser TypeDesc) c
      = .ok (t, c')) : Reads .plainType c t c' := by
  simp only [bind_eq_ok, advance_eq_ok, since_eq_ok, pure_eq_ok] at h
  obtain ⟨_, _, ⟨-, rfl⟩, _, _, ⟨rfl, rfl⟩, rfl, rfl⟩ := h
  exact .singleton hv

theorem primaryType_sound (hg : g.Sound) : Implements .plainType g.primaryType := by
  intro c t c' h
  unfold primaryType at h
  simp only [bind_eq_ok, start_eq_ok, peek_eq_ok] at h
  obtain ⟨_, _, ⟨rfl, rfl⟩, k, _, ⟨hk, rfl⟩, h⟩ := h
  split at h
  · next k => exact keywordType_sound hg hk h
  · next n =>
    simp only [bind_eq_ok, nameRef_eq_ok, pure_eq_ok] at h
    obtain ⟨r, _, href, rfl, rfl⟩ := h
    exact .typeName (by simp [Cursor.atName, hk]) href
  · simp only [bind_eq_ok, advance_eq_ok, accept_eq_ok] at h
    obtain ⟨_, _, ⟨-, rfl⟩, _, _, ⟨hclose, rfl, rfl⟩ | ⟨hclose, rfl, rfl⟩, h⟩ := h
    · simp only [if_true, bind_eq_ok, since_eq_ok, pure_eq_ok] at h
      obtain ⟨_, _, ⟨rfl, rfl⟩, rfl, rfl⟩ := h
      exact .nilType hk hclose
    · simp only [Bool.false_eq_true, if_false, bind_eq_ok, expect_eq_ok, since_eq_ok,
        pure_eq_ok] at h
      obtain ⟨inner, _, hinner, _, _, ⟨hclose, -, rfl⟩, _, _, ⟨rfl, rfl⟩, rfl, rfl⟩ := h
      exact .parenType hk (hg.type hinner) hclose
  · exact singleton_sound (by rw [hk]; rfl) h
  · exact singleton_sound (by rw [hk]; rfl) h
  · exact singleton_sound (by rw [hk]; rfl) h
  · exact absurd h unexpected_ne_ok

theorem postfixType_sound (hg : g.Sound) : Implements .suffixed g.postfixType := by
  intro c t c' h
  simp only [postfixType, bind_eq_ok, start_eq_ok] at h
  obtain ⟨_, _, ⟨rfl, rfl⟩, inner, c₁, hinner, h⟩ := h
  obtain ⟨c₂, hchain, hstop⟩ := extend_induction (P := Reads .suffixing c) h
    (.plain (primaryType_sound hg hinner)) fun {a c₁ b c₂} hchain hgrow => by
      simp only [postfixType.grow, bind_eq_ok, accept_eq_ok] at hgrow
      obtain ⟨_, _, ⟨hmark, rfl, rfl⟩ | ⟨hmark, rfl, rfl⟩, hgrow⟩ := hgrow
      · simp only [if_true, bind_eq_ok, since_eq_ok, pure_eq_ok, Option.some.injEq] at hgrow
        obtain ⟨_, _, ⟨rfl, rfl⟩, rfl, rfl⟩ := hgrow
        exact .optional hchain hmark
      · simp only [Bool.false_eq_true, if_false, bind_eq_ok, at?_eq_ok, peekAt_eq_ok] at hgrow
        obtain ⟨_, _, ⟨rfl, rfl⟩, _, _, ⟨rfl, rfl⟩, hgrow⟩ := hgrow
        split at hgrow
        · next hat =>
          simp only [Bool.and_eq_true, beq_iff_eq] at hat
          simp only [bind_eq_ok, advance_eq_ok, since_eq_ok, pure_eq_ok, Option.some.injEq]
            at hgrow
          obtain ⟨_, _, ⟨-, rfl⟩, _, _, ⟨-, rfl⟩, _, _, ⟨rfl, rfl⟩, rfl, rfl⟩ := hgrow
          exact .array hchain hat.1 hat.2
        · simp [pure_eq_ok] at hgrow
  simp only [postfixType.grow, bind_eq_ok, accept_eq_ok] at hstop
  obtain ⟨_, _, ⟨hmark, rfl, rfl⟩ | ⟨hmark, rfl, rfl⟩, hstop⟩ := hstop
  · simp [map_eq_ok] at hstop
  · simp only [Bool.false_eq_true, if_false, bind_eq_ok, at?_eq_ok, peekAt_eq_ok] at hstop
    obtain ⟨_, _, ⟨rfl, rfl⟩, _, _, ⟨rfl, rfl⟩, hstop⟩ := hstop
    split at hstop
    · simp [bind_eq_ok, map_eq_ok] at hstop
    · next hat =>
      simp only [pure_eq_ok] at hstop
      obtain ⟨-, rfl⟩ := hstop
      exact .suffixed hchain ⟨hmark, by simpa using hat⟩

theorem intersectionType_sound (hg : g.Sound) : Implements .intersection g.intersectionType := by
  intro c t c' h
  simp only [intersectionType, bind_eq_ok, start_eq_ok] at h
  obtain ⟨_, _, ⟨rfl, rfl⟩, members, c₁, hmembers, h⟩ := h
  have hread := separatedBy_sound .amp (postfixType_sound hg) hmembers
  split at h
  · simp only [pure_eq_ok] at h
    obtain ⟨rfl, rfl⟩ := h
    exact .onePart hread
  · next hmany =>
    simp only [bind_eq_ok, since_eq_ok, pure_eq_ok] at h
    obtain ⟨_, _, ⟨rfl, rfl⟩, rfl, rfl⟩ := h
    cases hread with
    | @separated _ _ _ _ _ t ts first others =>
      cases ts with
      | nil => exact absurd rfl (hmany t)
      | cons u ts => exact .intersection (.separated first others)

theorem unionType_sound (hg : g.Sound) : Implements .type g.unionType := by
  intro c t c' h
  simp only [unionType, bind_eq_ok, start_eq_ok] at h
  obtain ⟨_, _, ⟨rfl, rfl⟩, members, c₁, hmembers, h⟩ := h
  have hread := separatedBy_sound .pipe (intersectionType_sound hg) hmembers
  split at h
  · simp only [pure_eq_ok] at h
    obtain ⟨rfl, rfl⟩ := h
    exact .oneMember hread
  · next hmany =>
    simp only [bind_eq_ok, since_eq_ok, pure_eq_ok] at h
    obtain ⟨_, _, ⟨rfl, rfl⟩, rfl, rfl⟩ := h
    cases hread with
    | @separated _ _ _ _ _ t ts first others =>
      cases ts with
      | nil => exact absurd rfl (hmany t)
      | cons u ts => exact .union (.separated first others)

theorem mappingField_word_sound (hg : g.Sound) : Implements .mappingField (mappingField.word g) := by
  intro c t c' h
  simp only [mappingField.word, bind_eq_ok, memberName_eq_ok, accept_eq_ok] at h
  obtain ⟨⟨n, s⟩, _, ⟨hname, hs, rfl⟩, _, _, ⟨hcolon, rfl, rfl⟩ | ⟨hcolon, rfl, rfl⟩, h⟩ := h
  · simp only [if_true, bind_eq_ok, pure_eq_ok] at h
    obtain ⟨e, _, he, rfl, rfl⟩ := h
    subst hs
    exact .wordField hname hcolon (hg.expr he)
  · simp only [Bool.false_eq_true, if_false, pure_eq_ok] at h
    obtain ⟨rfl, rfl⟩ := h
    subst hs
    exact .shorthand hname hcolon

theorem mappingField_sound (hg : g.Sound) : Implements .mappingField g.mappingField := by
  intro c t c' h
  simp only [mappingField, bind_eq_ok, accept_eq_ok] at h
  obtain ⟨_, _, ⟨hdots, rfl, rfl⟩ | ⟨hdots, rfl, rfl⟩, h⟩ := h
  · simp only [if_true, bind_eq_ok, pure_eq_ok] at h
    obtain ⟨e, _, he, rfl, rfl⟩ := h
    exact .spread hdots (hg.expr he)
  simp only [Bool.false_eq_true, if_false, bind_eq_ok, peek_eq_ok] at h
  obtain ⟨k, _, ⟨hk, rfl⟩, h⟩ := h
  split at h
  · simp only [bind_eq_ok, advance_eq_ok, expect_eq_ok, pure_eq_ok] at h
    obtain ⟨_, _, ⟨rfl, rfl⟩, _, _, ⟨hcolon, -, rfl⟩, e, _, he, rfl, rfl⟩ := h
    exact .stringField hk hcolon (hg.expr he)
  · simp only [bind_eq_ok, advance_eq_ok, expect_eq_ok, pure_eq_ok] at h
    obtain ⟨_, _, ⟨-, rfl⟩, key, _, hkey, _, _, ⟨hclose, -, rfl⟩, _, _, ⟨hcolon, -, rfl⟩, e, _, he,
      rfl, rfl⟩ := h
    exact .computedField hk (hg.expr hkey) hclose hcolon (hg.expr he)
  · exact mappingField_word_sound hg h
  · exact mappingField_word_sound hg h
  · exact absurd h unexpected_ne_ok

theorem mapping_sound (hg : g.Sound) : Implements .mapping g.mapping := by
  intro c t c' h
  simp only [mapping, bind_eq_ok, start_eq_ok, expect_eq_ok, since_eq_ok, pure_eq_ok] at h
  obtain ⟨_, _, ⟨rfl, rfl⟩, _, _, ⟨hopen, -, rfl⟩, fields, _, hfields, _, _, ⟨rfl, rfl⟩, rfl,
    rfl⟩ := h
  exact .fields hopen (commaList_sound (mappingField_sound hg) hfields)

theorem arg_sound (hg : g.Sound) : Implements .arg g.arg := by
  intro c t c' h
  simp only [arg, bind_eq_ok, accept_eq_ok] at h
  obtain ⟨_, _, ⟨hdots, rfl, rfl⟩ | ⟨hdots, rfl, rfl⟩, h⟩ := h
  · simp only [if_true, bind_eq_ok, pure_eq_ok] at h
    obtain ⟨e, _, he, rfl, rfl⟩ := h
    exact .restArg hdots (hg.expr he)
  simp only [Bool.false_eq_true, if_false, bind_eq_ok, peek_eq_ok, peekAt_eq_ok] at h
  obtain ⟨k, _, ⟨hk, rfl⟩, k', _, ⟨hk', rfl⟩, h⟩ := h
  split at h
  · simp only [bind_eq_ok, ident_eq_ok, advance_eq_ok, pure_eq_ok] at h
    obtain ⟨⟨n, s⟩, _, ⟨hname, hs, rfl⟩, _, _, ⟨-, rfl⟩, e, _, he, rfl, rfl⟩ := h
    subst hs
    exact .namedArg hname (by rw [← hk', Cursor.kindAt_succ]; rfl) (hg.expr he)
  · next hunnamed =>
    simp only [bind_eq_ok, pure_eq_ok] at h
    obtain ⟨e, _, he, rfl, rfl⟩ := h
    refine .positional (fun ⟨hident, hsign⟩ => ?_) (hg.expr he)
    rw [Cursor.kindAt_succ] at hk'
    cases hkind : c.kind with
    | ident n => exact hunnamed n (hk.symm.trans hkind) (hk'.symm.trans hsign)
    | _ => simp [hkind, TokenKind.isIdent] at hident

theorem args_sound (hg : g.Sound) : Implements .args g.args :=
  commaList_sound (arg_sound hg)

theorem nameOrCall_sound (hg : g.Sound) {c c' : Cursor} {e : Expr} (hat : c.atName = true)
    (h : g.nameOrCall c = .ok (e, c')) : Reads .primary c e c' := by
  simp only [nameOrCall, bind_eq_ok, start_eq_ok, nameRef_eq_ok, accept_eq_ok] at h
  obtain ⟨_, _, ⟨rfl, rfl⟩, r, _, href, _, _, ⟨hopen, rfl, rfl⟩ | ⟨hopen, rfl, rfl⟩, h⟩ := h
  · simp only [if_true, bind_eq_ok, since_eq_ok, pure_eq_ok] at h
    obtain ⟨as, _, has, _, _, ⟨rfl, rfl⟩, rfl, rfl⟩ := h
    exact .call hat href hopen (args_sound hg has)
  · simp only [Bool.false_eq_true, if_false, pure_eq_ok] at h
    obtain ⟨rfl, rfl⟩ := h
    exact .name hat href hopen

theorem literal_sound {c c' : Cursor} {v : Literal} {e : Expr}
    (hv : c.kind.literal? = some v) (h : literal v c = .ok (e, c')) :
    Reads .primary c e c' := by
  simp only [literal, bind_eq_ok, start_eq_ok, advance_eq_ok, since_eq_ok, pure_eq_ok] at h
  obtain ⟨_, _, ⟨rfl, rfl⟩, _, _, ⟨-, rfl⟩, _, _, ⟨rfl, rfl⟩, rfl, rfl⟩ := h
  exact .literal hv

theorem errorCall_sound (hg : g.Sound) {c c' : Cursor} {e : Expr}
    (hword : c.kind = .keyword .kwError) (hopen : c.kindAt 1 = .mark .openParen)
    (h : g.errorCall c = .ok (e, c')) : Reads .primary c e c' := by
  simp only [errorCall, bind_eq_ok, start_eq_ok, memberName_eq_ok, advance_eq_ok, since_eq_ok,
    pure_eq_ok] at h
  obtain ⟨_, _, ⟨rfl, rfl⟩, ⟨n, s⟩, _, ⟨hn, hs, rfl⟩, _, _, ⟨-, rfl⟩, as, _, has, _, _,
    ⟨rfl, rfl⟩, rfl, rfl⟩ := h
  simp only [hword, TokenKind.word?, Option.some.injEq] at hn
  subst hn hs
  exact .errorCall hword (by rw [← hopen, Cursor.kindAt_succ]; rfl) (args_sound hg has)

theorem construct_sound (hg : g.Sound) {c c' : Cursor} {e : Expr}
    (hword : c.kind = .keyword .kwNew) (h : g.construct c = .ok (e, c')) :
    Reads .primary c e c' := by
  simp only [construct, bind_eq_ok, start_eq_ok, advance_eq_ok, peek_eq_ok] at h
  obtain ⟨_, _, ⟨rfl, rfl⟩, _, _, ⟨-, rfl⟩, k, _, ⟨hk, rfl⟩, h⟩ := h
  -- What follows the word is the same with a type and without.
  have rest : ∀ {t : Option TypeDesc} {c₁ : Cursor},
      Reads (.given TokenKind.isIdent .suffixed) c.advance t c₁ →
      (do
        let args ← if ← accept (.mark .openParen) then g.args else pure []
        return Expr.construct t args (← since c.start)) c₁ = .ok (e, c') →
      Reads .primary c e c' := by
    intro t c₁ ht h
    simp only [bind_eq_ok, accept_eq_ok] at h
    obtain ⟨_, _, ⟨hopen, rfl, rfl⟩ | ⟨hopen, rfl, rfl⟩, h⟩ := h
    · simp only [if_true, bind_eq_ok, since_eq_ok, pure_eq_ok] at h
      obtain ⟨as, _, has, _, _, ⟨rfl, rfl⟩, rfl, rfl⟩ := h
      exact .construct hword ht (.present hopen (args_sound hg has))
    · simp only [Bool.false_eq_true, if_false, bind_eq_ok, since_eq_ok, pure_eq_ok] at h
      obtain ⟨_, _, ⟨rfl, rfl⟩, _, _, ⟨rfl, rfl⟩, rfl, rfl⟩ := h
      exact .construct hword ht (.absent hopen)
  split at h
  · obtain ⟨t, _, ht, h⟩ := bind_eq_ok.mp h
    obtain ⟨t, ht', rfl⟩ := map_eq_ok.mp ht
    exact rest (.found (by simp [hk, TokenKind.isIdent]) (postfixType_sound hg ht')) h
  · next hident =>
    obtain ⟨t, _, ht, h⟩ := bind_eq_ok.mp h
    obtain ⟨rfl, rfl⟩ := pure_eq_ok.mp ht
    refine rest (.missing ?_) h
    cases hkind : c.advance.kind with
    | ident n => exact absurd (hk.symm.trans hkind) (hident n)
    | _ => rfl

theorem keywordExpr_sound (hg : g.Sound) {c c' : Cursor} {k : Keyword} {e : Expr}
    (hk : c.kind = .keyword k) (h : g.keywordExpr k c = .ok (e, c')) : Reads .primary c e c' := by
  unfold keywordExpr at h
  split at h
  · exact literal_sound (by rw [hk]; rfl) h
  · exact literal_sound (by rw [hk]; rfl) h
  · exact construct_sound hg hk h
  · simp only [bind_eq_ok, get_eq_ok] at h
    obtain ⟨_, _, ⟨rfl, rfl⟩, h⟩ := h
    split at h
    · next herror =>
      simp only [Bool.and_eq_true, beq_iff_eq] at herror
      exact errorCall_sound hg (by rw [hk, herror.1]) herror.2 h
    · split at h
      · next hat => exact nameOrCall_sound hg (by simpa [Cursor.atName, hk] using hat) h
      · exact absurd h unexpected_ne_ok

theorem primary_sound (hg : g.Sound) : Implements .primary g.primary := by
  intro c t c' h
  simp only [primary, bind_eq_ok, start_eq_ok, peek_eq_ok] at h
  obtain ⟨_, _, ⟨rfl, rfl⟩, k, _, ⟨hk, rfl⟩, h⟩ := h
  split at h
  · exact literal_sound (by rw [hk]; rfl) h
  · exact literal_sound (by rw [hk]; rfl) h
  · exact literal_sound (by rw [hk]; rfl) h
  · simp only [bind_eq_ok, advance_eq_ok, accept_eq_ok] at h
    obtain ⟨_, _, ⟨-, rfl⟩, _, _, ⟨hclose, rfl, rfl⟩ | ⟨hclose, rfl, rfl⟩, h⟩ := h
    · simp only [if_true, bind_eq_ok, since_eq_ok, pure_eq_ok] at h
      obtain ⟨_, _, ⟨rfl, rfl⟩, rfl, rfl⟩ := h
      exact .nilValue hk hclose
    · simp only [Bool.false_eq_true, if_false, bind_eq_ok, expect_eq_ok, since_eq_ok,
        pure_eq_ok] at h
      obtain ⟨inner, _, hinner, _, _, ⟨hclose, -, rfl⟩, _, _, ⟨rfl, rfl⟩, rfl, rfl⟩ := h
      exact .paren hk (hg.expr hinner) hclose
  · exact .mapping (mapping_sound hg h)
  · simp only [bind_eq_ok, advance_eq_ok, since_eq_ok, pure_eq_ok] at h
    obtain ⟨_, _, ⟨-, rfl⟩, items, _, hitems, _, _, ⟨rfl, rfl⟩, rfl, rfl⟩ := h
    exact .list hk (commaList_sound hg.expr hitems)
  · exact keywordExpr_sound hg hk h
  · exact nameOrCall_sound hg (by simp [Cursor.atName, hk]) h
  · exact absurd h unexpected_ne_ok

theorem accessed_sound (hg : g.Sound) : Implements .accessed g.accessed := by
  intro c t c' h
  simp only [accessed, bind_eq_ok, start_eq_ok] at h
  obtain ⟨_, _, ⟨rfl, rfl⟩, inner, c₁, hinner, h⟩ := h
  obtain ⟨c₂, hchain, hstop⟩ := extend_induction (P := Reads .accessing c) h
    (.primary (primary_sound hg hinner)) fun {a c₁ b c₂} hchain hgrow => by
      simp only [accessed.grow, bind_eq_ok, peek_eq_ok] at hgrow
      obtain ⟨k, _, ⟨hk, rfl⟩, hgrow⟩ := hgrow
      split at hgrow
      · simp only [bind_eq_ok, advance_eq_ok, memberName_eq_ok, accept_eq_ok] at hgrow
        obtain ⟨_, _, ⟨-, rfl⟩, ⟨n, s⟩, _, ⟨hn, hs, rfl⟩, _, _,
          ⟨hopen, rfl, rfl⟩ | ⟨hopen, rfl, rfl⟩, hgrow⟩ := hgrow
        · simp only [if_true, bind_eq_ok, since_eq_ok, pure_eq_ok, Option.some.injEq] at hgrow
          obtain ⟨as, _, has, _, _, ⟨rfl, rfl⟩, rfl, rfl⟩ := hgrow
          subst hs
          exact .methodCall hchain hk hn hopen (args_sound hg has)
        · simp only [Bool.false_eq_true, if_false, bind_eq_ok, since_eq_ok, pure_eq_ok,
            Option.some.injEq] at hgrow
          obtain ⟨_, _, ⟨rfl, rfl⟩, rfl, rfl⟩ := hgrow
          subst hs
          exact .field hchain hk hn hopen
      · simp only [bind_eq_ok, advance_eq_ok, memberName_eq_ok, expect_eq_ok, since_eq_ok,
          pure_eq_ok, Option.some.injEq] at hgrow
        obtain ⟨_, _, ⟨-, rfl⟩, ⟨n, s⟩, _, ⟨hn, hs, rfl⟩, _, _, ⟨hopen, -, rfl⟩, as, _, has, _, _,
          ⟨rfl, rfl⟩, rfl, rfl⟩ := hgrow
        subst hs
        exact .remoteCall hchain hk hn hopen (args_sound hg has)
      · simp only [bind_eq_ok, advance_eq_ok, expect_eq_ok, since_eq_ok, pure_eq_ok,
          Option.some.injEq] at hgrow
        obtain ⟨_, _, ⟨-, rfl⟩, p, _, hp, _, _, ⟨hclose, -, rfl⟩, _, _, ⟨rfl, rfl⟩, rfl,
          rfl⟩ := hgrow
        exact .index hchain hk (hg.expr hp) hclose
      · simp [pure_eq_ok] at hgrow
  simp only [accessed.grow, bind_eq_ok, peek_eq_ok] at hstop
  obtain ⟨k, _, ⟨hk, rfl⟩, hstop⟩ := hstop
  split at hstop
  · simp only [bind_eq_ok, accept_eq_ok] at hstop
    obtain ⟨_, _, -, _, _, -, b, _, -, hstop⟩ := hstop
    cases b <;> simp [bind_eq_ok, map_eq_ok] at hstop
  · simp [bind_eq_ok, map_eq_ok] at hstop
  · simp [bind_eq_ok, map_eq_ok] at hstop
  · next hdot harrow hopen =>
    simp only [pure_eq_ok] at hstop
    obtain ⟨-, rfl⟩ := hstop
    subst hk
    exact .accessed hchain ⟨hdot, harrow, hopen⟩

theorem unaryExpr_sound (hg : g.Sound) : Implements .unary g.unaryExpr := by
  intro c t c' h
  simp only [unaryExpr, bind_eq_ok, start_eq_ok, peek_eq_ok] at h
  obtain ⟨_, _, ⟨rfl, rfl⟩, k, _, ⟨rfl, rfl⟩, h⟩ := h
  cases hop : unaryOp? c.kind with
  | some op =>
    simp only [hop, bind_eq_ok, advance_eq_ok, since_eq_ok, pure_eq_ok] at h
    obtain ⟨_, _, ⟨-, rfl⟩, e, _, he, _, _, ⟨rfl, rfl⟩, rfl, rfl⟩ := h
    exact .unary hop (hg.unary he)
  | none =>
    simp only [hop] at h
    split at h
    · simp only [bind_eq_ok, since_eq_ok, pure_eq_ok] at h
      obtain ⟨t, _, ht, e, _, he, _, _, ⟨rfl, rfl⟩, rfl, rfl⟩ := h
      exact .cast (typeArgument_sound hg ht) (hg.unary he)
    · exact .bare (accessed_sound hg h)

theorem binaryOp?_eq_some {k : TokenKind} {op : BinaryOp} (h : binaryOp? k = some op) :
    k = .mark op.mark := by
  unfold binaryOp? at h
  split at h
  · rw [BinaryOp.ofMark?] at h
    have hop := List.find?_some h
    rw [beq_iff_eq.mp hop]
  · simp at h

theorem binaryExpr_sound (hg : g.Sound) (floor : Nat) :
    Implements (.binary floor) (g.binaryExpr floor) := by
  intro c t c' h
  simp only [binaryExpr, bind_eq_ok, start_eq_ok] at h
  obtain ⟨_, _, ⟨rfl, rfl⟩, left, c₁, hleft, h⟩ := h
  obtain ⟨c₂, hchain, hstop⟩ := extend_induction (P := Reads (.joining floor) c) h
    (.operand (unaryExpr_sound hg hleft)) fun {a c₁ b c₂} hchain hgrow => by
      simp only [binaryExpr.grow, bind_eq_ok, peek_eq_ok] at hgrow
      obtain ⟨k, _, ⟨rfl, rfl⟩, hgrow⟩ := hgrow
      split at hgrow
      · next his =>
        simp only [Bool.and_eq_true, beq_iff_eq, decide_eq_true_eq] at his
        simp only [bind_eq_ok, advance_eq_ok, since_eq_ok, pure_eq_ok, Option.some.injEq] at hgrow
        obtain ⟨_, _, ⟨-, rfl⟩, t, _, ht, _, _, ⟨rfl, rfl⟩, rfl, rfl⟩ := hgrow
        exact .typeTest hchain his.1 his.2 (hg.type ht)
      · cases hop : binaryOp? c₁.kind with
        | none => simp [hop, pure_eq_ok] at hgrow
        | some op =>
          simp only [hop] at hgrow
          split at hgrow
          · simp [pure_eq_ok] at hgrow
          · next htight =>
            simp only [bind_eq_ok, advance_eq_ok, since_eq_ok, pure_eq_ok, Option.some.injEq]
              at hgrow
            obtain ⟨_, _, ⟨-, rfl⟩, f, _, hf, _, _, ⟨rfl, rfl⟩, rfl, rfl⟩ := hgrow
            exact .operator hchain (binaryOp?_eq_some hop) (by omega) (hg.binary _ hf)
  simp only [binaryExpr.grow, bind_eq_ok, peek_eq_ok] at hstop
  obtain ⟨k, _, ⟨rfl, rfl⟩, hstop⟩ := hstop
  split at hstop
  · simp [bind_eq_ok, map_eq_ok] at hstop
  · next his =>
    have hend : ¬ (c₂.kind = .keyword .kwIs ∧ floor ≤ typeTestPrecedence) := by simpa using his
    cases hop : binaryOp? c₂.kind with
    | some op =>
      simp only [hop] at hstop
      split at hstop
      · next htight =>
        simp only [pure_eq_ok] at hstop
        obtain ⟨-, rfl⟩ := hstop
        refine .binary hchain ⟨hend, fun op' hop' => ?_⟩
        rw [hop] at hop'
        simp only [Option.some.injEq] at hop'
        subst hop'
        exact htight
      · simp [bind_eq_ok, map_eq_ok] at hstop
    | none =>
      simp only [hop, pure_eq_ok] at hstop
      obtain ⟨-, rfl⟩ := hstop
      exact .binary hchain ⟨hend, fun op' hop' => by simp [hop] at hop'⟩

theorem conditional_sound (hg : g.Sound) : Implements .expr g.conditional := by
  intro c t c' h
  simp only [conditional, bind_eq_ok, start_eq_ok, accept_eq_ok] at h
  obtain ⟨_, _, ⟨rfl, rfl⟩, e, c₁, he, _, _, ⟨hmark, rfl, rfl⟩ | ⟨hmark, rfl, rfl⟩, h⟩ := h
  · simp only [if_true, bind_eq_ok, expect_eq_ok, since_eq_ok, pure_eq_ok] at h
    obtain ⟨f, _, hf, _, _, ⟨hcolon, -, rfl⟩, g', _, hg', _, _, ⟨rfl, rfl⟩, rfl, rfl⟩ := h
    exact .conditional (binaryExpr_sound hg 0 he) hmark (hg.expr hf) hcolon (hg.expr hg')
  · simp only [Bool.false_eq_true, if_false, pure_eq_ok] at h
    obtain ⟨rfl, rfl⟩ := h
    exact .condition (binaryExpr_sound hg 0 he) hmark

theorem annotationTag_sound (hg : g.Sound) {c c' : Cursor} {a : Annotation}
    (hat : c.kind = .mark .atSign) (h : g.annotationTag c = .ok (a, c')) :
    Reads .tag c a c' := by
  simp only [annotationTag, ite_bind_eq, bind_eq_ok, start_eq_ok, advance_eq_ok, nameRef_eq_ok,
    at?_eq_ok, since_eq_ok, pure_eq_ok] at h
  obtain ⟨_, _, ⟨rfl, rfl⟩, _, _, ⟨-, rfl⟩, r, _, href, _, _, ⟨rfl, rfl⟩, value, _, hvalue, _, _,
    ⟨rfl, rfl⟩, rfl, rfl⟩ := h
  exact .tag hat href (given_sound (mapping_sound hg) hvalue)

theorem annotations_sound (hg : g.Sound) : Implements .annotations g.annotations := by
  intro c as c' h
  -- An annotation is only read behind the test that finds its sign.
  have hmany := repeats_of_many (R := fun c a c' => c.kind = .mark .atSign → Reads .tag c a c')
    (Gap.startedBy_steps (.mark .atSign)) (fun h hat => annotationTag_sound hg hat h) h
  clear h
  induction hmany with
  | stop h => exact .stop h
  | more h first _ ih =>
    refine .more h (first ?_) ih
    simp only [Gap.step] at h
    split at h
    · next hat =>
      simp only [Option.some.injEq, Prod.mk.injEq, true_and] at h
      rwa [← h]
    · simp at h

theorem localVar_sound (hg : g.Sound) : Implements .localVar (StmtGrammar.localVar g) := by
  intro c t c' h
  simp only [StmtGrammar.localVar, bind_eq_ok, accept_eq_ok, ident_eq_ok, peek_eq_ok] at h
  obtain ⟨as, c₁, has, b, c₂, hb, t, c₃, ht, ⟨n, s⟩, _, ⟨hname, hs, rfl⟩, k, _, ⟨rfl, rfl⟩, h⟩ := h
  subst hs
  have hpass : c₂ = c₁.pass (.keyword .kwFinal) ∧ b = (c₁.kind == .keyword .kwFinal) := by
    obtain ⟨hk, rfl, rfl⟩ | ⟨hk, rfl, rfl⟩ := hb <;> simp [Cursor.pass, hk]
  obtain ⟨rfl, rfl⟩ := hpass
  split at h
  · obtain ⟨_, _, h, -⟩ := bind_eq_ok.mp h
    exact absurd h unexpected_ne_ok
  · simp only [ite_bind_eq, bind_eq_ok, accept_eq_ok, expect_eq_ok, pure_eq_ok] at h
    obtain ⟨b, _, hb, init, _, hinit, _, _, ⟨hclose, -, rfl⟩, rfl, rfl⟩ := h
    exact .localVar (annotations_sound hg has) (hg.type ht) hname
      (behind_sound hg.expr hb hinit) hclose

theorem param_sound {m : MemberGrammar} (hg : m.exprs.Sound) :
    Implements .param m.param := by
  intro c t c' h
  simp only [MemberGrammar.param, bind_eq_ok, start_eq_ok, accept_eq_ok] at h
  obtain ⟨_, _, ⟨rfl, rfl⟩, as, _, has, t, _, ht, _, _, ⟨hdots, rfl, rfl⟩ | ⟨hdots, rfl, rfl⟩,
    h⟩ := h
  · simp only [if_true, bind_eq_ok, ident_eq_ok, since_eq_ok, pure_eq_ok] at h
    obtain ⟨⟨n, s⟩, _, ⟨hname, hs, rfl⟩, _, _, ⟨rfl, rfl⟩, rfl, rfl⟩ := h
    subst hs
    exact .restParam (annotations_sound hg has) (hg.type ht) hdots hname
  · simp only [Bool.false_eq_true, if_false, bind_eq_ok, ident_eq_ok, accept_eq_ok] at h
    obtain ⟨⟨n, s⟩, _, ⟨hname, hs, rfl⟩, _, _, ⟨hsign, rfl, rfl⟩ | ⟨hsign, rfl, rfl⟩, h⟩ := h
    · simp only [if_true, bind_eq_ok, since_eq_ok, pure_eq_ok] at h
      obtain ⟨e, _, he, _, _, ⟨rfl, rfl⟩, rfl, rfl⟩ := h
      subst hs
      exact .param (annotations_sound hg has) (hg.type ht) hname (.present hsign (hg.expr he))
    · simp only [Bool.false_eq_true, if_false, bind_eq_ok, since_eq_ok, pure_eq_ok] at h
      obtain ⟨_, _, ⟨rfl, rfl⟩, rfl, rfl⟩ := h
      subst hs
      exact .param (annotations_sound hg has) (hg.type ht) hname (.absent hsign)

/-- Going one level deeper keeps a grammar sound. -/
theorem next_sound (hg : g.Sound) : g.next.Sound where
  type := unionType_sound hg
  expr := conditional_sound hg
  binary := binaryExpr_sound hg
  unary := unaryExpr_sound hg

end Grammar

/-- **The parser reads only what the grammar allows, at every depth.** -/
theorem grammar_sound (depth : Nat) : (grammar depth).Sound := by
  induction depth with
  | zero =>
    refine ⟨?_, ?_, fun _ => ?_, ?_⟩ <;> exact fun _ _ _ h => absurd h noProgress_ne_ok
  | succ depth ih => exact Grammar.next_sound ih

end Durable
