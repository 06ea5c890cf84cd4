/-
Runs of the parser's combinators.

A parser is a function, so what it does is one equation: `p c = .ok (a, c')`.  For every
combinator there is a lemma that says when that equation holds, in terms of the token the
cursor stands before and of the equations of the parts.  Rewriting with them turns the run of
a whole production into a list of facts about its tokens, which is the form in which
productions are compared with the grammar.

Repetition gets a relation of its own.  `Repeats step R` reads items by `R`, where `step` says
at each cursor whether another item follows and where it starts; it does not know about fuel.
-/
import Mathlib.Logic.Basic
import Durable.Tree.Parser.Member

namespace Durable

namespace Cursor

/-- The place of the next token. -/
def span (c : Cursor) : Span := (c.tokenAt 0).span

@[simp] theorem finish_advance (c : Cursor) : c.advance.finish = c.finish := by
  unfold advance
  split <;> rfl

/-- A cursor before a token of the text, not before its end, has tokens left. -/
theorem rest_ne_nil {c : Cursor} (h : c.kind ≠ .endOfFile) : c.rest ≠ [] := by
  intro hrest
  simp [kind, kindAt, tokenAt, hrest] at h

/-- Looking one token further is looking from behind the next token. -/
theorem tokenAt_succ (c : Cursor) (n : Nat) : c.tokenAt (n + 1) = c.advance.tokenAt n := by
  unfold tokenAt advance
  cases h : c.rest with
  | nil => simp [h]
  | cons t ts => simp

theorem kindAt_succ (c : Cursor) (n : Nat) : c.kindAt (n + 1) = c.advance.kindAt n := by
  rw [kindAt, tokenAt_succ, kindAt]

theorem length_advance {c : Cursor} (h : c.kind ≠ .endOfFile) :
    c.advance.rest.length + 1 = c.rest.length := by
  have hne := rest_ne_nil h
  unfold advance
  cases hrest : c.rest with
  | nil => exact absurd hrest hne
  | cons t ts => rfl

theorem length_advance_le (c : Cursor) : c.advance.rest.length ≤ c.rest.length := by
  unfold advance
  split
  · exact Nat.le_refl _
  · next t ts h => simp [h]

end Cursor

namespace Parser

variable {α β : Type} {c c' : Cursor}

/-! ### Sequences -/

/-- A sequence runs as its second part behind its first. -/
theorem bind_of_ok {p : Parser α} {f : α → Parser β} {a : α} {c₁ : Cursor}
    (h : p c = .ok (a, c₁)) : (p >>= f) c = f a c₁ := by
  show StateT.bind p f c = _
  unfold StateT.bind
  rw [h]
  rfl

theorem bind_eq_ok {p : Parser α} {f : α → Parser β} {r : β × Cursor} :
    (p >>= f) c = .ok r ↔ ∃ a c₁, p c = .ok (a, c₁) ∧ f a c₁ = .ok r := by
  cases h : p c with
  | error e =>
    show StateT.bind p f c = .ok r ↔ _
    simp [StateT.bind, h, bind, Except.bind]
  | ok out =>
    obtain ⟨a, c₁⟩ := out
    rw [bind_of_ok h]
    constructor
    · exact fun hf => ⟨a, c₁, rfl, hf⟩
    · rintro ⟨_, _, heq, hf⟩
      simp only [Except.ok.injEq, Prod.mk.injEq] at heq
      obtain ⟨rfl, rfl⟩ := heq
      exact hf

theorem pure_eq_ok {a b : α} : (pure a : Parser α) c = .ok (b, c') ↔ a = b ∧ c = c' := by
  show Except.ok (a, c) = .ok (b, c') ↔ _
  simp

theorem map_eq_ok {p : Parser α} {f : α → β} {b : β} :
    (f <$> p) c = .ok (b, c') ↔ ∃ a, p c = .ok (a, c') ∧ f a = b := by
  show StateT.map f p c = .ok (b, c') ↔ _
  unfold StateT.map
  cases h : p c with
  | error e => simp [bind, Except.bind]
  | ok out =>
    obtain ⟨a, c₁⟩ := out
    simp only [bind, Except.bind, pure, Except.pure, Except.ok.injEq, Prod.mk.injEq]
    constructor
    · rintro ⟨rfl, rfl⟩
      exact ⟨a, ⟨rfl, rfl⟩, rfl⟩
    · rintro ⟨_, ⟨rfl, rfl⟩, rfl⟩
      exact ⟨rfl, rfl⟩

/-- What follows a choice follows each of its alternatives. -/
theorem ite_bind_eq {b : Prop} [Decidable b] {p q : Parser α} {f : α → Parser β} :
    (if b then p >>= f else q >>= f) = (if b then p else q) >>= f := by
  split <;> rfl

theorem get_eq_ok {c₁ : Cursor} :
    (get : Parser Cursor) c = .ok (c₁, c') ↔ c = c₁ ∧ c = c' := by
  show Except.ok (c, c) = .ok (c₁, c') ↔ _
  simp

/-! ### Single tokens -/

theorem peek_eq_ok {k : TokenKind} : peek c = .ok (k, c') ↔ c.kind = k ∧ c = c' := by
  simp [peek]

theorem peekAt_eq_ok {n : Nat} {k : TokenKind} :
    peekAt n c = .ok (k, c') ↔ c.kindAt n = k ∧ c = c' := by
  simp [peekAt]

theorem start_eq_ok {n : Nat} : start c = .ok (n, c') ↔ c.start = n ∧ c = c' := by
  simp [start]

theorem since_eq_ok {n : Nat} {s : Span} :
    since n c = .ok (s, c') ↔ c.since n = s ∧ c = c' := by
  simp [since]

theorem advance_eq_ok {t : Token} :
    advance c = .ok (t, c') ↔ c.tokenAt 0 = t ∧ c.advance = c' := by
  simp [advance]

theorem at?_eq_ok {k : TokenKind} {b : Bool} :
    at? k c = .ok (b, c') ↔ (c.kind == k) = b ∧ c = c' := by
  simp [at?]

theorem accept_eq_ok {k : TokenKind} {b : Bool} :
    accept k c = .ok (b, c') ↔
      (c.kind = k ∧ b = true ∧ c.advance = c') ∨ (c.kind ≠ k ∧ b = false ∧ c = c') := by
  unfold accept
  by_cases h : c.kind = k
  · simp [h, eq_comm (a := true)]
  · simp [h, eq_comm (a := false)]

theorem unexpected_ne_ok {name : String} {r : α × Cursor} :
    (unexpected name : Parser α) c ≠ .ok r := by
  simp [unexpected]

theorem noProgress_ne_ok {r : α × Cursor} : (noProgress : Parser α) c ≠ .ok r := by
  simp [noProgress]

theorem expectNamed_eq_ok {k : TokenKind} {name : String} {s : Span} :
    expectNamed k name c = .ok (s, c') ↔ c.kind = k ∧ c.span = s ∧ c.advance = c' := by
  unfold expectNamed
  by_cases h : c.kind = k
  · simp [h, Cursor.span]
  · simp [h, unexpected]

theorem expect_eq_ok {k : TokenKind} {s : Span} :
    expect k c = .ok (s, c') ↔ c.kind = k ∧ c.span = s ∧ c.advance = c' :=
  expectNamed_eq_ok

theorem skip_eq_ok {b : Bool} {q : Parser α} {r : α × Cursor} :
    (if b = true then advance >>= fun _ => q else q) c = .ok r
      ↔ q (if b = true then c.advance else c) = .ok r := by
  cases b
  · simp
  · simp only [if_true, bind_eq_ok, advance_eq_ok]
    exact ⟨fun ⟨_, _, ⟨_, rfl⟩, h⟩ => h, fun h => ⟨_, _, ⟨rfl, rfl⟩, h⟩⟩

end Parser

/-- The word that a token is, reserved or not. -/
def TokenKind.word? : TokenKind → Option String
  | ident n => some n
  | keyword k => some k.text
  | _ => none

namespace Parser

variable {α β : Type} {c c' : Cursor}

theorem ident_eq_ok {x : Ident} :
    ident c = .ok (x, c') ↔ c.kind = .ident x.name ∧ c.span = x.span ∧ c.advance = c' := by
  unfold ident
  rw [bind_eq_ok]
  simp only [peek_eq_ok]
  constructor
  · rintro ⟨k, c₁, ⟨hk, rfl⟩, h⟩
    cases k with
    | ident name =>
      simp only [bind_eq_ok, advance_eq_ok, pure_eq_ok] at h
      obtain ⟨t, c₁, ⟨rfl, rfl⟩, rfl, rfl⟩ := h
      exact ⟨hk, rfl, rfl⟩
    | _ => exact absurd h unexpected_ne_ok
  · rintro ⟨hk, hs, rfl⟩
    refine ⟨_, _, ⟨rfl, rfl⟩, ?_⟩
    rw [hk]
    simp only [bind_eq_ok, advance_eq_ok, pure_eq_ok]
    exact ⟨_, _, ⟨rfl, rfl⟩, by rw [← Cursor.span, hs], rfl⟩

theorem memberName_eq_ok {x : Ident} :
    memberName c = .ok (x, c') ↔
      c.kind.word? = some x.name ∧ c.span = x.span ∧ c.advance = c' := by
  unfold memberName
  rw [bind_eq_ok]
  simp only [peek_eq_ok]
  constructor
  · rintro ⟨k, c₁, ⟨hk, rfl⟩, h⟩
    cases k with
    | ident name =>
      simp only [bind_eq_ok, advance_eq_ok, pure_eq_ok] at h
      obtain ⟨t, c₁, ⟨rfl, rfl⟩, rfl, rfl⟩ := h
      exact ⟨by rw [hk]; rfl, rfl, rfl⟩
    | keyword k =>
      simp only [bind_eq_ok, advance_eq_ok, pure_eq_ok] at h
      obtain ⟨t, c₁, ⟨rfl, rfl⟩, rfl, rfl⟩ := h
      exact ⟨by rw [hk]; rfl, rfl, rfl⟩
    | _ => exact absurd h unexpected_ne_ok
  · rintro ⟨hk, hs, rfl⟩
    refine ⟨_, _, ⟨rfl, rfl⟩, ?_⟩
    cases hkind : c.kind <;> simp only [hkind, TokenKind.word?, reduceCtorEq] at hk
    · simp only [bind_eq_ok, advance_eq_ok, pure_eq_ok]
      simp only [Option.some.injEq] at hk
      exact ⟨_, _, ⟨rfl, rfl⟩, by rw [← Cursor.span, hs, hk], rfl⟩
    · simp only [bind_eq_ok, advance_eq_ok, pure_eq_ok]
      simp only [Option.some.injEq] at hk
      exact ⟨_, _, ⟨rfl, rfl⟩, by rw [← Cursor.span, hs, hk], rfl⟩

end Parser

/-- A reference is read: a name, or a word, a colon and a name that touch. -/
inductive ReadsName : Cursor → NameRef → Cursor → Prop
  | qualified {c : Cursor} {p n : String} (hat : c.atQualified = true)
      (hvia : c.kind.word? = some p) (hname : c.advance.advance.kind = .ident n) :
      ReadsName c
        ⟨some ⟨p, c.span⟩, ⟨n, c.advance.advance.span⟩,
          c.advance.advance.advance.since c.start⟩
        c.advance.advance.advance
  | simple {c : Cursor} {n : String} (hat : c.atQualified = false)
      (hname : c.kind = .ident n) : ReadsName c (.simple ⟨n, c.span⟩) c.advance

namespace Parser

variable {α β : Type} {c c' : Cursor}

theorem nameRef_eq_ok {r : NameRef} : nameRef c = .ok (r, c') ↔ ReadsName c r c' := by
  unfold nameRef
  simp only [bind_eq_ok, get_eq_ok]
  constructor
  · rintro ⟨c₁, c₂, ⟨rfl, rfl⟩, h⟩
    split at h
    · next hat =>
      simp only [bind_eq_ok, memberName_eq_ok, advance_eq_ok, ident_eq_ok, since_eq_ok,
        pure_eq_ok] at h
      obtain ⟨via, _, ⟨hvia, hviaSpan, rfl⟩, _, _, ⟨-, rfl⟩, name, _, ⟨hname, hspan, rfl⟩, _, _,
        ⟨rfl, rfl⟩, rfl, rfl⟩ := h
      obtain ⟨p, s⟩ := via
      obtain ⟨n, s'⟩ := name
      simp only at hvia hviaSpan hname hspan
      subst hviaSpan hspan
      exact .qualified hat hvia hname
    · next hat =>
      simp only [bind_eq_ok, ident_eq_ok, pure_eq_ok] at h
      obtain ⟨name, _, ⟨hname, hspan, rfl⟩, rfl, rfl⟩ := h
      obtain ⟨n, s⟩ := name
      simp only at hname hspan
      subst hspan
      exact .simple (by simpa using hat) hname
  · intro h
    refine ⟨_, _, ⟨rfl, rfl⟩, ?_⟩
    cases h with
    | qualified hat hvia hname =>
      rw [if_pos hat]
      simp only [bind_eq_ok, memberName_eq_ok, advance_eq_ok, ident_eq_ok, since_eq_ok,
        pure_eq_ok]
      exact ⟨⟨_, _⟩, _, ⟨hvia, rfl, rfl⟩, _, _, ⟨rfl, rfl⟩, ⟨_, _⟩, _, ⟨hname, rfl, rfl⟩, _, _,
        ⟨rfl, rfl⟩, rfl, rfl⟩
    | simple hat hname =>
      rw [if_neg (by simp [hat])]
      simp only [bind_eq_ok, ident_eq_ok, pure_eq_ok]
      exact ⟨⟨_, _⟩, _, ⟨hname, rfl, rfl⟩, rfl, rfl⟩

/-! ### Repetition -/

end Parser

/-- Items are read one after another.  At each cursor `step` says where the next item starts, or
where the repetition ends. -/
inductive Repeats {α : Type} (step : Cursor → Option (Bool × Cursor))
    (R : Cursor → α → Cursor → Prop) : Cursor → List α → Cursor → Prop
  | stop {c c' : Cursor} (h : step c = some (true, c')) : Repeats step R c [] c'
  | more {c c₁ c₂ c' : Cursor} {a : α} {as : List α} (h : step c = some (false, c₁))
      (first : R c₁ a c₂) (others : Repeats step R c₂ as c') : Repeats step R c (a :: as) c'

namespace Parser

variable {α β : Type} {c c' : Cursor}

/-- A parser that decides whether a repetition ends takes the steps of a function. -/
def Steps (done : Parser Bool) (step : Cursor → Option (Bool × Cursor)) : Prop :=
  ∀ c b c', done c = .ok (b, c') ↔ step c = some (b, c')

theorem repeats_of_many {done : Parser Bool} {step : Cursor → Option (Bool × Cursor)}
    {item : Parser α} {R : Cursor → α → Cursor → Prop} (hdone : Steps done step)
    (hitem : ∀ {c a c'}, item c = .ok (a, c') → R c a c') {as : List α}
    (h : many done item c = .ok (as, c')) : Repeats step R c as c' := by
  unfold many at h
  generalize c.rest.length + 1 = fuel at h
  induction fuel generalizing c as with
  | zero => exact absurd h noProgress_ne_ok
  | succ fuel ih =>
    simp only [manyUpTo, bind_eq_ok] at h
    obtain ⟨b, c₁, hstep, h⟩ := h
    rw [hdone] at hstep
    cases b with
    | true =>
      simp only [if_true, pure_eq_ok] at h
      obtain ⟨rfl, rfl⟩ := h
      exact .stop hstep
    | false =>
      simp only [Bool.false_eq_true, if_false, bind_eq_ok, pure_eq_ok] at h
      obtain ⟨a, c₂, hfirst, others, _, hothers, rfl, rfl⟩ := h
      exact .more hstep (hitem hfirst) (ih hothers)

/-- A repetition in whose every round a token is read goes through, whatever bound above the number
of tokens left it is given. -/
theorem many_of_rounds {done : Parser Bool} {step : Cursor → Option (Bool × Cursor)}
    {item : Parser α} {R : Cursor → α → Cursor → Prop} (hdone : Steps done step)
    (hle : ∀ {c c'}, step c = some (false, c') → c'.rest.length ≤ c.rest.length)
    (hlt : ∀ {c c₁ a c'}, step c = some (false, c₁) → R c₁ a c' → c'.rest.length < c.rest.length)
    {as : List α} (h : Repeats step R c as c')
    (hitem : ∀ {c₁ a c₂}, c₁.rest.length ≤ c.rest.length → R c₁ a c₂ →
      item c₁ = .ok (a, c₂)) :
    many done item c = .ok (as, c') := by
  unfold many
  suffices ∀ fuel, c.rest.length < fuel → manyUpTo done item fuel c = .ok (as, c') from
    this _ (Nat.lt_succ_self _)
  induction h with
  | stop hstep =>
    intro fuel hfuel
    obtain ⟨fuel, rfl⟩ := Nat.exists_eq_succ_of_ne_zero (Nat.ne_of_gt (Nat.zero_lt_of_lt hfuel))
    simp only [manyUpTo, bind_eq_ok]
    exact ⟨true, _, (hdone _ _ _).mpr hstep, by simp [pure_eq_ok]⟩
  | more hstep hfirst _ ih =>
    intro fuel hfuel
    obtain ⟨fuel, rfl⟩ := Nat.exists_eq_succ_of_ne_zero (Nat.ne_of_gt (Nat.zero_lt_of_lt hfuel))
    have h₁ := hle hstep
    have h₂ := hlt hstep hfirst
    simp only [manyUpTo, bind_eq_ok]
    refine ⟨false, _, (hdone _ _ _).mpr hstep, ?_⟩
    simp only [Bool.false_eq_true, if_false, bind_eq_ok, pure_eq_ok]
    refine ⟨_, _, hitem h₁ hfirst, _, _, ih (fun hc => hitem (by omega)) fuel (by omega), rfl, rfl⟩

/-- So does a repetition whose every item reads a token. -/
theorem many_of_repeats {done : Parser Bool} {step : Cursor → Option (Bool × Cursor)}
    {item : Parser α} {R : Cursor → α → Cursor → Prop} (hdone : Steps done step)
    (hle : ∀ {c c'}, step c = some (false, c') → c'.rest.length ≤ c.rest.length)
    (hlt : ∀ {c a c'}, R c a c' → c'.rest.length < c.rest.length) {as : List α}
    (h : Repeats step R c as c')
    (hitem : ∀ {c₁ a c₂}, c₁.rest.length ≤ c.rest.length → R c₁ a c₂ →
      item c₁ = .ok (a, c₂)) :
    many done item c = .ok (as, c') :=
  many_of_rounds hdone hle (fun hstep hfirst => Nat.lt_of_lt_of_le (hlt hfirst) (hle hstep)) h hitem

/-- What a value is extended to is reached by single growths, behind which no other follows. -/
theorem extend_induction {grow : α → Parser (Option α)} {P : α → Cursor → Prop} {a b : α}
    (h : extend grow a c = .ok (b, c')) (start : P a c)
    (step : ∀ {a c b c'}, P a c → grow a c = .ok (some b, c') → P b c') :
    ∃ c₁, P b c₁ ∧ grow b c₁ = .ok (none, c') := by
  unfold extend at h
  generalize c.rest.length + 1 = fuel at h
  induction fuel generalizing a c with
  | zero => exact absurd h noProgress_ne_ok
  | succ fuel ih =>
    simp only [extendUpTo, bind_eq_ok] at h
    obtain ⟨grown, c₁, hgrow, h⟩ := h
    cases grown with
    | none =>
      simp only [pure_eq_ok] at h
      obtain ⟨rfl, rfl⟩ := h
      exact ⟨c, start, hgrow⟩
    | some a' =>
      have hstart := step start hgrow
      exact ih hstart h

/-- A value grows by single steps, each of which reads a token. -/
inductive Grows (grow : α → Parser (Option α)) (a : α) (c : Cursor) : α → Cursor → Prop
  | refl : Grows grow a c a c
  | step {b d : α} {c₁ c₂ : Cursor} (more : Grows grow a c b c₁)
      (h : grow b c₁ = .ok (some d, c₂)) (hlt : c₂.rest.length < c₁.rest.length) :
      Grows grow a c d c₂

/-- Growing takes one of the bound a step, and there are no more steps than tokens read. -/
theorem Grows.extendUpTo_eq {grow : α → Parser (Option α)} {a b : α} {c₁ : Cursor}
    (h : Grows grow a c b c₁) :
    ∃ k, k + c₁.rest.length ≤ c.rest.length ∧
      ∀ fuel, extendUpTo grow (fuel + k) a c = extendUpTo grow fuel b c₁ := by
  induction h with
  | refl => exact ⟨0, by omega, fun _ => rfl⟩
  | @step b d c₁ c₂ _ hgrow hlt ih =>
    obtain ⟨k, hk, heq⟩ := ih
    refine ⟨k + 1, by omega, fun fuel => ?_⟩
    rw [show fuel + (k + 1) = (fuel + 1) + k by omega, heq]
    rw [extendUpTo, bind_of_ok hgrow]

theorem extend_of_grows {grow : α → Parser (Option α)} {a b : α} {c₁ : Cursor}
    (h : Grows grow a c b c₁) (hstop : grow b c₁ = .ok (none, c₁)) :
    extend grow a c = .ok (b, c₁) := by
  obtain ⟨k, hk, heq⟩ := h.extendUpTo_eq
  unfold extend
  rw [show c.rest.length + 1 = (c.rest.length - k + 1) + k by omega, heq]
  rw [extendUpTo, bind_of_ok hstop]
  rfl

end Parser

end Durable
