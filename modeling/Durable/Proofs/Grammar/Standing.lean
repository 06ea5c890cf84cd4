/-
Cursors stand in a text.

A cursor knows the tokens that are left, with their offsets.  `StandsIn` says what these are
about: the text splits at the cursor, and the tokens are the tiles of its second part.  Passing
a token keeps that, so it holds of every cursor that reading gets to, and facts about the
spelling of tokens become facts about what is read.
-/
import Durable.Proofs.Token.Spelling
import Durable.Proofs.Grammar.Places

namespace Durable

open Text

/-! ### Texts of one line -/

namespace Text

/-- A text has no newline. -/
def OneLine (s : String) : Prop := '\n' ∉ s.toList

instance (s : String) : Decidable (OneLine s) := inferInstanceAs (Decidable (¬ _))

@[simp] theorem oneLine_append (a b : String) : OneLine (a ++ b) ↔ OneLine a ∧ OneLine b := by
  simp [OneLine]

theorem oneLine_intercalate {sep : String} (h : OneLine sep) (xs : List String) :
    OneLine (sep.intercalate xs) ↔ ∀ x ∈ xs, OneLine x := by
  induction xs with
  | nil => simp [OneLine]
  | cons x xs ih =>
    cases xs with
    | nil => simp
    | cons y ys =>
      rw [String.intercalate_cons_cons, oneLine_append, oneLine_append, ih]
      simp [h]

end Text

/-- The name or number that a token carries has no newline. -/
def TokenKind.OneLine : TokenKind → Prop
  | ident n | int n | float n => Text.OneLine n
  | _ => True

theorem Spells.oneLine {k : TokenKind} {text : List Char} (h : Spells k text) : k.OneLine := by
  have hline := h.ne_newline
  cases h with
  | @word c cs _ _ =>
    rcases Lexer.classifyWord_cases (c :: cs) with ⟨k, hk, -⟩ | hk
    · rw [hk]
      trivial
    · rw [hk]
      simpa [TokenKind.OneLine, Text.OneLine] using hline
  | quotedName => simpa [TokenKind.OneLine, Text.OneLine] using hline
  | @number _ isFloat _ => cases isFloat <;>
    simpa [Lexer.numberKind, TokenKind.OneLine, Text.OneLine] using hline
  | string | mark => trivial

/-! ### Tokens left -/

namespace Cursor

/-- A text splits at a cursor, and the tokens left are the tiles of the second part. -/
def StandsIn (c : Cursor) (cs : List Char) : Prop :=
  ∃ front ts tail, cs = front ++ (Tile.render ts ++ tail) ∧ Tiling (Tile.render ts ++ tail) ts tail
    ∧ c.passed = byteLength front ∧ c.rest = Tile.tokens c.passed ts

variable {c c' : Cursor} {cs : List Char}

theorem standsIn_ofTiles {text : String} {ts : List Tile} {tail : List Char} (finish : Nat)
    (h : Tiling text.toList ts tail) : (ofTiles ts finish).StandsIn text.toList :=
  ⟨[], ts, tail, by rw [h.render_append]; rfl, by rw [h.render_append]; exact h, rfl, rfl⟩

namespace StandsIn

theorem tiled (h : c.StandsIn cs) : c.Tiled := by
  obtain ⟨_, ts, _, -, htiling, -, hrest⟩ := h
  exact ⟨ts, htiling.text_ne_nil, hrest⟩

/-- The next token is the next tile of the text. -/
theorem token (h : c.StandsIn cs) (hc : c.kind ≠ .endOfFile) :
    ∃ front, ∃ t : Tile, ∃ rest, cs = front ++ t.blank ++ t.text ++ rest ∧ c.passed = byteLength front ∧
      t.Starts (t.blank ++ t.text ++ rest) rest ∧ c.kind = t.kind ∧
      c.span = ⟨byteLength (front ++ t.blank), byteLength (front ++ t.blank) + byteLength t.text⟩ ∧
      c.advance.passed = byteLength (front ++ t.blank ++ t.text) := by
  obtain ⟨front, ts, tail, hcs, htiling, hpassed, hrest⟩ := h
  cases htiling with
  | finish => exact absurd hrest (rest_ne_nil hc)
  | @tile _ rest _ t ts hs more =>
    have hmore := more.render_append
    rw [Tile.render_cons, List.append_assoc, hmore] at hs hcs
    refine ⟨front, t, rest, by rw [hcs]; simp, hpassed, hs, ?_, ?_, ?_⟩
    · simp [kind, kindAt, tokenAt, hrest, Tile.tokens]
    · simp [span, tokenAt, hrest, Tile.tokens, hpassed]
    · simp [Cursor.advance, hrest, Tile.tokens, hpassed, Nat.add_assoc]

theorem advance (h : c.StandsIn cs) : c.advance.StandsIn cs := by
  obtain ⟨front, ts, tail, hcs, htiling, hpassed, hrest⟩ := h
  cases htiling with
  | finish hskip =>
    refine ⟨front, [], tail, hcs, .finish hskip, ?_, ?_⟩
    · simp [Cursor.advance, hrest, Tile.tokens, hpassed]
    · simp [Cursor.advance, hrest, Tile.tokens]
  | @tile _ rest _ t ts hs more =>
    have hmore := more.render_append
    refine ⟨front ++ t.blank ++ t.text, ts, tail, by rw [hcs]; simp, by rw [hmore]; exact more,
      ?_, ?_⟩
    · simp [Cursor.advance, hrest, Tile.tokens, hpassed, Nat.add_assoc]
    · simp [Cursor.advance, hrest, Tile.tokens]

theorem reaches (h : c.StandsIn cs) (hr : c.Reaches c') : c'.StandsIn cs :=
  hr.keeps (P := fun c => c.StandsIn cs) (fun _ hc => StandsIn.advance hc) h

theorem passed_le (h : c.StandsIn cs) (hr : c.Reaches c') : c.passed ≤ c'.passed :=
  (Covers.of_reaches hr h.tiled).2.1

/-- A text can be cut where a token ends. -/
theorem cut_passed (h : c.StandsIn cs) : ∃ a b, cs = a ++ b ∧ byteLength a = c.passed := by
  obtain ⟨front, ts, tail, hcs, -, hpassed, -⟩ := h
  exact ⟨front, _, hcs, hpassed.symm⟩

/-- A text can be cut where a token starts. -/
theorem cut_start (h : c.StandsIn cs) (hc : c.kind ≠ .endOfFile) :
    ∃ a b, cs = a ++ b ∧ byteLength a = c.start := by
  obtain ⟨front, t, rest, hcs, -, -, -, hspan, -⟩ := h.token hc
  exact ⟨front ++ t.blank, t.text ++ rest, by rw [hcs]; simp, (congrArg Span.start hspan).symm⟩

/-- Nothing is read at the end of a text. -/
theorem advance_eq (h : c.StandsIn cs) (hc : c.kind = .endOfFile) : c.advance = c := by
  obtain ⟨front, ts, tail, hcs, htiling, hpassed, hrest⟩ := h
  cases htiling with
  | finish => simp [Cursor.advance, hrest, Tile.tokens]
  | @tile _ rest _ t ts hs more =>
    have hkind : t.kind = .endOfFile := by
      simpa [kind, kindAt, tokenAt, hrest, Tile.tokens] using hc
    exact absurd (hkind ▸ hs.spells) Spells.ne_endOfFile

/-- A token that is reached starts no earlier than the one at which reading started. -/
theorem start_le (h : c.StandsIn cs) (hr : c.Reaches c') (hc' : c'.kind ≠ .endOfFile) :
    c.kind ≠ .endOfFile ∧ c.start ≤ c'.start := by
  induction hr with
  | refl => exact ⟨hc', Nat.le_refl _⟩
  | @step c' hr ih =>
    have hat := h.reaches hr
    have hkind : c'.kind ≠ .endOfFile := fun heq => by
      rw [hat.advance_eq heq] at hc'
      exact hc' heq
    obtain ⟨hc, hle⟩ := ih hkind
    have h₁ := hat.tiled.span hkind
    have h₂ := hat.advance.tiled.span hc'
    exact ⟨hc, by omega⟩

/-- The names and numbers in a text have no newline. -/
theorem oneLine (h : c.StandsIn cs) : c.kind.OneLine := by
  by_cases hc : c.kind = .endOfFile
  · rw [hc]
    trivial
  · obtain ⟨_, t, _, -, -, hs, hkind, -⟩ := h.token hc
    rw [hkind]
    exact hs.spells.oneLine

/-- What stands in a text at a word of the language is that word. -/
theorem slice_keyword {source : Source} (h : c.StandsIn source.text.toList) {k : Keyword}
    (hc : c.kind = .keyword k) : source.slice (c.advance.since c.start) = k.text := by
  obtain ⟨front, t, rest, hcs, -, hs, hkind, hspan, hadvance⟩ := h.token (by simp [hc])
  have hstart : c.start = byteLength (front ++ t.blank) := congrArg Span.start hspan
  have hspells : Spells (.keyword k) t.text := by
    rw [← hc, hkind]
    exact hs.spells
  have hplace : c.advance.since c.start =
      ⟨byteLength (front ++ t.blank), byteLength (front ++ t.blank) + byteLength t.text⟩ := by
    rw [since, hadvance, hstart, byteLength_append _ t.text, Nat.max_eq_left (Nat.le_add_right _ _)]
  rw [hplace, Source.slice_append hcs, hspells.keyword]

theorem oneLine_ident (h : c.StandsIn cs) {n : String} (hc : c.kind = .ident n) : OneLine n := by
  have := h.oneLine
  rwa [hc] at this

theorem oneLine_word (h : c.StandsIn cs) {n : String} (hc : c.kind.word? = some n) :
    OneLine n := by
  cases hkind : c.kind with
  | ident m =>
    rw [hkind] at hc
    obtain rfl := Option.some.inj hc
    exact h.oneLine_ident hkind
  | keyword k =>
    rw [hkind] at hc
    obtain rfl := Option.some.inj hc
    cases k <;> decide
  | _ => simp [hkind, TokenKind.word?] at hc

end StandsIn

end Cursor

end Durable
