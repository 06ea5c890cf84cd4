/-
Reading comes to an end.

`Ends p c Q` says what a parser comes to at a cursor: it stops at a later cursor with a value, of
which `Q` holds, or it reports a token that it got to as one that cannot stand there.  It never
reports that a bound was met.  The rules follow the combinators, and what they carry along is how
many tokens are left: a loop comes to an end because every round leaves fewer of them, and a
grammar that is deeper than their number comes to an end because every production reads a token
before it recurses.
-/
import Durable.Proofs.Grammar.Progress

namespace Durable

/-- A fault that reading from a cursor may report: a token that it got to, the mark of the end
included, is none of those that can stand there. -/
def Cursor.Faults (c : Cursor) (e : SyntaxError) : Prop :=
  ∃ d expected, c.Reaches d ∧ e = .unexpected expected d.kind.describe d.span

theorem Cursor.Faults.behind {c c₁ : Cursor} {e : SyntaxError} (h : c₁.Faults e)
    (hr : c.Reaches c₁) : c.Faults e := by
  obtain ⟨d, expected, hd, rfl⟩ := h
  exact ⟨d, expected, hr.trans hd, rfl⟩

namespace Parser

variable {α β : Type}

/-- What a parser comes to at a cursor. -/
inductive Ends (p : Parser α) (c : Cursor) (Q : α → Cursor → Prop) : Prop
  | reads {a : α} {c' : Cursor} (h : p c = .ok (a, c')) (reaches : c.Reaches c') (hq : Q a c')
  | faults {e : SyntaxError} (h : p c = .error e) (he : c.Faults e)

/-- Wherever fewer than `n` tokens are left, a parser that reads something reads a token. -/
def Consumes (n : Nat) (p : Parser α) : Prop :=
  ∀ c, c.rest.length < n → Ends p c fun _ c' => c'.rest.length < c.rest.length

namespace Ends

variable {p : Parser α} {f : α → Parser β} {c : Cursor} {Q : α → Cursor → Prop}
  {R : β → Cursor → Prop}

theorem imp {Q' : α → Cursor → Prop} (h : Ends p c Q)
    (hq : ∀ a c', c'.rest.length ≤ c.rest.length → Q a c' → Q' a c') : Ends p c Q' := by
  cases h with
  | reads h hr hQ => exact .reads h hr (hq _ _ hr.length_le hQ)
  | faults h he => exact .faults h he

/-! ### Sequences -/

theorem bind (h : Ends p c fun a c₁ => Ends (f a) c₁ R) : Ends (p >>= f) c R := by
  cases h with
  | reads h hr hmore =>
    cases hmore with
    | reads hf hr' hR => exact .reads ((bind_of_ok h).trans hf) (hr.trans hr') hR
    | faults hf he => exact .faults ((bind_of_ok h).trans hf) (he.behind hr)
  | faults h he =>
    refine .faults ?_ he
    show StateT.bind p f c = _
    simp [StateT.bind, h, Bind.bind, Except.bind]

theorem map {f : α → β} (h : Ends p c fun a c' => R (f a) c') : Ends (f <$> p) c R := by
  cases h with
  | reads h hr hR => exact .reads (map_eq_ok.mpr ⟨_, h, rfl⟩) hr hR
  | faults h he =>
    refine .faults ?_ he
    show StateT.map f p c = _
    simp [StateT.map, h, Bind.bind, Except.bind]

theorem pure {a : α} (h : Q a c) : Ends (Pure.pure a) c Q := .reads rfl .refl h

theorem get {Q : Cursor → Cursor → Prop} (h : Q c c) : Ends (MonadState.get : Parser Cursor) c Q :=
  .reads rfl .refl h

/-! ### Single tokens -/

theorem peek {Q : TokenKind → Cursor → Prop} (h : Q c.kind c) : Ends Parser.peek c Q :=
  .reads rfl .refl h

theorem peekAt {n : Nat} {Q : TokenKind → Cursor → Prop} (h : Q (c.kindAt n) c) :
    Ends (Parser.peekAt n) c Q :=
  .reads rfl .refl h

theorem start {Q : Nat → Cursor → Prop} (h : Q c.start c) : Ends Parser.start c Q :=
  .reads rfl .refl h

theorem since {n : Nat} {Q : Span → Cursor → Prop} (h : Q (c.since n) c) :
    Ends (Parser.since n) c Q :=
  .reads rfl .refl h

theorem at? {k : TokenKind} {Q : Bool → Cursor → Prop} (h : Q (c.kind == k) c) :
    Ends (Parser.at? k) c Q :=
  .reads rfl .refl h

theorem advance {Q : Token → Cursor → Prop}
    (h : ∀ t c₁, c₁.rest.length ≤ c.rest.length →
      (c.kind ≠ .endOfFile → c₁.rest.length < c.rest.length) → Q t c₁) :
    Ends Parser.advance c Q :=
  .reads rfl Cursor.Reaches.refl.step
    (h _ _ c.length_advance_le Cursor.length_advance_lt)

theorem accept {k : TokenKind} {Q : Bool → Cursor → Prop} (hk : k ≠ .endOfFile)
    (h : ∀ b c₁, c₁.rest.length ≤ c.rest.length →
      (b = true → c₁.rest.length < c.rest.length) → Q b c₁) :
    Ends (Parser.accept k) c Q := by
  by_cases hat : c.kind = k
  · refine .reads (accept_eq_ok.mpr (.inl ⟨hat, rfl, rfl⟩)) Cursor.Reaches.refl.step ?_
    exact h _ _ c.length_advance_le fun _ => Cursor.length_advance_lt (hat ▸ hk)
  · refine .reads (accept_eq_ok.mpr (.inr ⟨hat, rfl, rfl⟩)) .refl ?_
    exact h _ _ (Nat.le_refl _) fun hfalse => absurd hfalse (by simp)

theorem unexpected {expected : String} : Ends (Parser.unexpected expected) c Q :=
  .faults rfl ⟨c, expected, .refl, rfl⟩

theorem expectNamed {k : TokenKind} {name : String} {Q : Span → Cursor → Prop}
    (h : ∀ s c₁, c₁.rest.length ≤ c.rest.length →
      (k ≠ .endOfFile → c₁.rest.length < c.rest.length) → Q s c₁) :
    Ends (Parser.expectNamed k name) c Q := by
  by_cases hat : c.kind = k
  · refine .reads (expectNamed_eq_ok.mpr ⟨hat, rfl, rfl⟩) Cursor.Reaches.refl.step ?_
    exact h _ _ c.length_advance_le fun hk => Cursor.length_advance_lt (hat ▸ hk)
  · exact .faults (if_neg (by simpa using hat)) ⟨c, name, .refl, rfl⟩

theorem expect {k : TokenKind} {Q : Span → Cursor → Prop} (hk : k ≠ .endOfFile)
    (h : ∀ s c₁, c₁.rest.length < c.rest.length → Q s c₁) : Ends (Parser.expect k) c Q :=
  expectNamed fun s c₁ _ hlt => h s c₁ (hlt hk)

theorem ident {Q : Ident → Cursor → Prop}
    (h : ∀ x c₁, c₁.rest.length < c.rest.length → Q x c₁) : Ends Parser.ident c Q := by
  refine bind (peek ?_)
  split
  · next hkind =>
    refine bind (advance fun t c₁ _ hlt => pure (h _ _ (hlt ?_)))
    simp [hkind]
  · exact unexpected

theorem memberName {Q : Ident → Cursor → Prop}
    (h : ∀ x c₁, c₁.rest.length < c.rest.length → Q x c₁) : Ends Parser.memberName c Q := by
  refine bind (peek ?_)
  split
  · next hkind =>
    refine bind (advance fun t c₁ _ hlt => pure (h _ _ (hlt ?_)))
    simp [hkind]
  · next hkind =>
    refine bind (advance fun t c₁ _ hlt => pure (h _ _ (hlt ?_)))
    simp [hkind]
  · exact unexpected

theorem nameRef {Q : NameRef → Cursor → Prop}
    (h : ∀ r c₁, c₁.rest.length < c.rest.length → Q r c₁) : Ends Parser.nameRef c Q := by
  refine bind (get ?_)
  split
  · refine bind (memberName fun via c₁ h₁ => ?_)
    refine bind (advance fun _ c₂ h₂ _ => ?_)
    refine bind (ident fun name c₃ h₃ => bind (since (pure (h _ _ ?_))))
    omega
  · exact bind (ident fun name c₁ h₁ => pure (h _ _ h₁))

/-- A token that is passed or not makes no difference to what follows. -/
theorem skip {b : Bool} {q : Parser β} (h : ∀ c₁, c₁.rest.length ≤ c.rest.length → Ends q c₁ R) :
    Ends (if b = true then Parser.advance >>= fun _ => q else q) c R := by
  split
  · exact bind (advance fun _ c₁ h₁ _ => h c₁ h₁)
  · exact h c (Nat.le_refl _)

/-- A try that fails leaves the cursor where it was. -/
theorem attempt? {Q : Option α → Cursor → Prop} {P : α → Cursor → Prop} (h : Ends p c P)
    (hsome : ∀ a c₁, P a c₁ → Q (some a) c₁) (hnone : Q none c) :
    Ends (Parser.attempt? p) c Q := by
  cases h with
  | reads h hr hP => exact .reads (by rw [Parser.attempt?, h]) hr (hsome _ _ hP)
  | faults h he => exact .reads (by rw [Parser.attempt?, h]) .refl hnone

end Ends

/-! ### Parsers that read a token -/

theorem Consumes.bind {p : Parser α} {f : α → Parser β} {n : Nat} {c : Cursor}
    {R : β → Cursor → Prop} (h : Consumes n p) (hc : c.rest.length < n)
    (hmore : ∀ a c₁, c₁.rest.length < c.rest.length → Ends (f a) c₁ R) : Ends (p >>= f) c R :=
  .bind ((h c hc).imp fun a c₁ _ => hmore a c₁)

theorem Consumes.mono {p : Parser α} {n m : Nat} (h : Consumes n p) (hm : m ≤ n) :
    Consumes m p :=
  fun c hc => h c (by omega)

theorem Consumes.some {p : Parser α} {n : Nat} (h : Consumes n p) : Consumes n (some <$> p) :=
  fun c hc => .map (h c hc)

/-! ### Loops -/

/-- One round of a loop over items: nothing where the loop is done, else an item. -/
def round (done : Parser Bool) (item : Parser α) : Parser (Option α) := do
  if ← done then pure none
  else return some (← item)

/-- Wherever fewer than `n` tokens are left, a round of a loop ends it or reads a token. -/
def Rounds (n : Nat) (round : Parser (Option α)) : Prop :=
  ∀ c, c.rest.length < n →
    Ends round c fun o c' => o.isSome = true → c'.rest.length < c.rest.length

theorem Rounds.mono {round : Parser (Option α)} {n k : Nat} (h : Rounds n round) (hk : k ≤ n) :
    Rounds k round :=
  fun c hc => h c (by omega)

theorem manyUpTo_succ (done : Parser Bool) (item : Parser α) (fuel : Nat) :
    manyUpTo done item (fuel + 1) = (do
      match ← round done item with
      | none => pure []
      | some a => return a :: (← manyUpTo done item fuel)) := by
  rw [manyUpTo, round, bind_assoc]
  congr
  funext b
  cases b <;> simp

namespace Ends

variable {c : Cursor} {n : Nat}

/-- A loop whose every round ends it or reads a token comes to an end, whatever bound above the
number of tokens left it is given. -/
theorem manyUpTo {done : Parser Bool} {item : Parser α} (h : Rounds n (round done item))
    (hc : c.rest.length < n) {fuel : Nat} (hfuel : c.rest.length < fuel) :
    Ends (Parser.manyUpTo done item fuel) c fun _ _ => True := by
  induction fuel generalizing c with
  | zero => omega
  | succ fuel ih =>
    rw [manyUpTo_succ]
    refine .bind ((h c hc).imp fun o c₁ hle hlt => ?_)
    cases o with
    | none => exact .pure trivial
    | some a =>
      have hless := hlt rfl
      exact .bind ((ih (c := c₁) (by omega) (by omega)).imp fun _ _ _ _ => .pure trivial)

theorem many {done : Parser Bool} {item : Parser α} (h : Rounds n (round done item))
    (hc : c.rest.length < n) : Ends (Parser.many done item) c fun _ _ => True := by
  cases manyUpTo h hc (Nat.lt_succ_self c.rest.length) with
  | reads h hr hq => exact .reads h hr hq
  | faults h he => exact .faults h he

/-- So does a value that every growth reads a token for. -/
theorem extendUpTo {grow : α → Parser (Option α)} (h : ∀ a, Rounds n (grow a))
    (hc : c.rest.length < n) {fuel : Nat} (hfuel : c.rest.length < fuel) (a : α) :
    Ends (Parser.extendUpTo grow fuel a) c fun _ _ => True := by
  induction fuel generalizing c a with
  | zero => omega
  | succ fuel ih =>
    rw [Parser.extendUpTo]
    refine .bind ((h a c hc).imp fun o c₁ hle hlt => ?_)
    cases o with
    | none => exact .pure trivial
    | some b =>
      have hless := hlt rfl
      exact ih (by omega) (by omega) b

theorem extend {grow : α → Parser (Option α)} (h : ∀ a, Rounds n (grow a))
    (hc : c.rest.length < n) (a : α) : Ends (Parser.extend grow a) c fun _ _ => True := by
  cases extendUpTo h hc (Nat.lt_succ_self c.rest.length) a with
  | reads h hr hq => exact .reads h hr hq
  | faults h he => exact .faults h he

end Ends

/-! ### Lists -/

variable {item : Parser α} {n : Nat}

/-- A round reads a token if its item does. -/
theorem Consumes.rounds (h : Consumes n item) {done : Parser Bool}
    (hdone : ∀ c, Ends done c fun _ _ => True) : Rounds n (round done item) := by
  intro c hc
  refine .bind ((hdone c).imp fun b c₁ hle _ => ?_)
  split
  · exact .pure (by simp)
  · exact .bind ((h c₁ (by omega)).imp fun a c₂ _ hlt => .pure fun _ => by omega)

/-- The end of a list with commas. -/
theorem commaList_ended (close : Mark) (c : Cursor) :
    Ends (commaList.ended close) c fun _ _ => True := by
  refine .bind (.accept nofun fun b c₁ _ _ => ?_)
  split
  · exact .pure trivial
  · exact .bind (.expect nofun fun _ _ _ => .pure trivial)

theorem Consumes.commaRounds (h : Consumes n item) (close : Mark) :
    Rounds n (round (commaList.ended close) item) :=
  h.rounds (commaList_ended close)

theorem Consumes.commaList (h : Consumes n item) (close : Mark) :
    Consumes n (Parser.commaList close item) := by
  intro c hc
  refine .bind (.accept nofun fun b c₁ hle hlt => ?_)
  split
  · next hb => exact .pure (hlt hb)
  · refine h.bind (by omega) fun a c₂ h₂ => ?_
    refine .bind ((Ends.many (h.commaRounds close) (by omega)).imp fun as c₃ h₃ _ => ?_)
    exact .pure (by omega)

/-- The mark between two items. -/
theorem ends_between (m : Mark) (c : Cursor) :
    Ends (return !(← accept (.mark m))) c fun _ _ => True :=
  .bind (.accept nofun fun _ _ _ _ => .pure trivial)

theorem Consumes.separatedBy (h : Consumes n item) (m : Mark) :
    Consumes n (Parser.separatedBy m item) := by
  intro c hc
  refine h.bind hc fun a c₁ h₁ => ?_
  refine .bind ((Ends.many (h.rounds (ends_between m)) (by omega)).imp fun as c₂ h₂ _ => ?_)
  exact .pure (by omega)

end Parser

end Durable
