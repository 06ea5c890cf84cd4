/-
What is wrong with a text that has no tokens.

A text has no tokens because of one character that no token starts with, one string literal that
is not closed, or one escape that has no meaning.  The place of each is a piece of the text.  Every
round of the scanner takes at least a character off the text, so that no bound above the text's
length is ever met, and all of them give the same answer.
-/
import Durable.Proofs.Token.Tiling

namespace Durable

open Text

/-- A span cuts a piece out of a text: it is in bounds and splits no character. -/
def Span.Cuts (s : Span) (cs : List Char) : Prop :=
  ∃ front piece rest, cs = front ++ piece ++ rest ∧
    s = ⟨byteLength front, byteLength front + byteLength piece⟩

/-- A span that cuts a piece out of a text is in order and within its bounds. -/
theorem Span.Cuts.bounds {s : Span} {cs : List Char} (h : s.Cuts cs) :
    s.start ≤ s.stop ∧ s.stop ≤ byteLength cs := by
  obtain ⟨front, piece, rest, rfl, rfl⟩ := h
  simp only [byteLength_append]
  omega

/-- The place of a fault cuts a piece out of a text that starts at an offset, and the fault is not
that a bound was met. -/
def SyntaxError.InText (e : SyntaxError) (offset : Nat) (cs : List Char) : Prop :=
  (∀ s, e ≠ .noProgress s) ∧ ∃ front piece rest, cs = front ++ piece ++ rest ∧
    e.span = ⟨offset + byteLength front, offset + byteLength front + byteLength piece⟩

/-- What is wrong with a part of a text is wrong with the text. -/
theorem SyntaxError.InText.behind {e : SyntaxError} {offset : Nat} {front cs : List Char}
    (h : e.InText (offset + byteLength front) cs) : e.InText offset (front ++ cs) := by
  obtain ⟨hreal, a, piece, rest, rfl, hspan⟩ := h
  refine ⟨hreal, front ++ a, piece, rest, by simp, ?_⟩
  rw [hspan, byteLength_append, Nat.add_assoc]

namespace Lexer

theorem scanQuoted_unterminated {cs read : List Char} (h : scanQuoted cs = .unterminated read) :
    ∃ rest, cs = read ++ rest := by
  fun_induction scanQuoted cs generalizing read with
  | case1 =>
    cases h
    exact ⟨[], rfl⟩
  | case2 =>
    cases h
    exact ⟨[], rfl⟩
  | case3 e cs c _ ih =>
    cases hs : scanQuoted cs with
    | unterminated r =>
      rw [hs] at h
      cases h
      obtain ⟨rest, rfl⟩ := ih hs
      exact ⟨rest, rfl⟩
    | closed | badEscape => simp [hs, QuotedScan.push] at h
  | case4 => simp at h
  | case5 => simp at h
  | case6 cs =>
    cases h
    exact ⟨_, rfl⟩
  | case7 c cs _ _ _ _ ih =>
    cases hs : scanQuoted cs with
    | unterminated r =>
      rw [hs] at h
      cases h
      obtain ⟨rest, rfl⟩ := ih hs
      exact ⟨rest, rfl⟩
    | closed | badEscape => simp [hs, QuotedScan.push] at h

theorem scanQuoted_badEscape {cs before : List Char} {letter : Char}
    (h : scanQuoted cs = .badEscape before letter) :
    ∃ rest, cs = before ++ '\\' :: letter :: rest := by
  fun_induction scanQuoted cs generalizing before with
  | case1 => simp at h
  | case2 => simp at h
  | case3 e cs c _ ih =>
    cases hs : scanQuoted cs with
    | badEscape b l =>
      rw [hs] at h
      cases h
      obtain ⟨rest, rfl⟩ := ih hs
      exact ⟨rest, rfl⟩
    | closed | unterminated => simp [hs, QuotedScan.push] at h
  | case4 e cs =>
    cases h
    exact ⟨cs, rfl⟩
  | case5 => simp at h
  | case6 => simp at h
  | case7 c cs _ _ _ _ ih =>
    cases hs : scanQuoted cs with
    | badEscape b l =>
      rw [hs] at h
      cases h
      obtain ⟨rest, rfl⟩ := ih hs
      exact ⟨rest, rfl⟩
    | closed | unterminated => simp [hs, QuotedScan.push] at h

theorem scanString_eq_error {offset : Nat} {cs : List Char} {e : SyntaxError}
    (h : scanString offset cs = .error e) : e.InText offset ('"' :: cs) := by
  unfold scanString at h
  split at h
  · simp at h
  · next read hscan =>
    obtain ⟨rest, rfl⟩ := scanQuoted_unterminated hscan
    cases h
    refine ⟨by simp, [], '"' :: read, rest, rfl, ?_⟩
    simp [SyntaxError.span, Nat.add_assoc, show '"'.utf8Size = 1 from rfl]
  · next before letter hscan =>
    obtain ⟨rest, rfl⟩ := scanQuoted_badEscape hscan
    cases h
    refine ⟨by simp, '"' :: before, ['\\', letter], rest, by simp, ?_⟩
    simp [SyntaxError.span, Nat.add_assoc, show '"'.utf8Size = 1 from rfl,
      show '\\'.utf8Size = 1 from rfl]

theorem scanToken_eq_error {offset : Nat} {c : Char} {cs : List Char} {e : SyntaxError}
    (h : scanToken offset c cs = .error e) : e.InText offset (c :: cs) := by
  unfold scanToken at h
  split at h
  · simp at h
  split at h
  · simp at h
  split at h
  · simp at h
  split at h
  · next hquote =>
    subst hquote
    exact scanString_eq_error h
  split at h
  · simp at h
  · cases h
    exact ⟨by simp, [], [c], cs, rfl, by simp [SyntaxError.span]⟩

/-- Every round takes a character off the text. -/
theorem length_rest_lt {offset : Nat} {cs blank more : List Char} {c : Char} {l : Lexeme}
    (hskip : splitTrivia false cs = (blank, c :: more)) (hscan : scanToken offset c more = .ok l) :
    l.rest.length < cs.length := by
  obtain ⟨htext, hne⟩ := scanToken_append hscan
  have hcs := splitTrivia_append false cs
  rw [hskip, ← htext] at hcs
  have hpos : 0 < l.text.length := List.length_pos_iff.mpr hne
  have hlength := congrArg List.length hcs
  simp only [List.length_append] at hlength
  omega

/-- A text whose tokens are not read has a fault in it. -/
theorem tokensFrom_eq_error {fuel offset : Nat} {cs : List Char} {e : SyntaxError}
    (hfuel : cs.length < fuel) (h : tokensFrom fuel offset cs = .error e) :
    e.InText offset cs := by
  induction fuel generalizing offset cs with
  | zero => omega
  | succ fuel ih =>
    rw [tokensFrom] at h
    rcases hskip : splitTrivia false cs with ⟨blank, rest⟩
    have hcs : blank ++ rest = cs := by
      have := splitTrivia_append false cs
      rwa [hskip] at this
    simp only [hskip, bind, Except.bind, pure, Except.pure] at h
    rw [← hcs]
    apply SyntaxError.InText.behind
    cases rest with
    | nil => simp at h
    | cons c more =>
      cases hscan : scanToken (offset + byteLength blank) c more with
      | error e' =>
        simp only [hscan, Except.error.injEq] at h
        exact h ▸ scanToken_eq_error hscan
      | ok l =>
        obtain ⟨htext, -⟩ := scanToken_append hscan
        have hshorter := length_rest_lt hskip hscan
        simp only [hscan] at h
        split at h
        · next hmore =>
          cases h
          exact htext ▸ (ih (by omega) hmore).behind
        · simp at h

/-- All bounds above the length of a text give the same tokens, or the same fault. -/
theorem tokensFrom_bound {fuel fuel' offset : Nat} {cs : List Char} (h : cs.length < fuel)
    (h' : cs.length < fuel') : tokensFrom fuel offset cs = tokensFrom fuel' offset cs := by
  induction fuel generalizing fuel' offset cs with
  | zero => omega
  | succ fuel ih =>
    obtain ⟨fuel', rfl⟩ : ∃ n, fuel' = n + 1 := ⟨fuel' - 1, by omega⟩
    rw [tokensFrom, tokensFrom]
    rcases hskip : splitTrivia false cs with ⟨blank, rest⟩
    cases rest with
    | nil => rfl
    | cons c more =>
      simp only [bind, Except.bind]
      cases hscan : scanToken (offset + byteLength blank) c more with
      | error e => rfl
      | ok l =>
        have hshorter := length_rest_lt hskip hscan
        have hrest : ∀ behind, tokensFrom fuel behind l.rest = tokensFrom fuel' behind l.rest :=
          fun _ => ih (by omega) (by omega)
        simp only [hrest]

end Lexer

/-- What is wrong with a text: not that a bound was met, and its place cuts a piece out of it. -/
def SyntaxError.IsIn (e : SyntaxError) (text : String) : Prop :=
  (∀ s, e ≠ .noProgress s) ∧ e.span.Cuts text.toList

/-- A text without tokens has a fault in it. -/
theorem tokenize_eq_error {text : String} {e : SyntaxError} (h : tokenize text = .error e) :
    e.IsIn text := by
  obtain ⟨hreal, front, piece, rest, hcs, hspan⟩ :=
    Lexer.tokensFrom_eq_error (Nat.lt_succ_self _) h
  exact ⟨hreal, front, piece, rest, hcs, by rw [hspan, Nat.zero_add]⟩

end Durable
