/-
The tokens of a text tile it.

A tile is a lexeme with the blanks and comments in front of it.  `Tiling cs ts tail` says that
the scanners cut `cs` into the tiles `ts` and a `tail` of blanks, and `tokenize_eq_ok_iff` that
a text has tokens exactly when it has a tiling, its tokens then being the tiles with their
places.  Tiles know no offsets, so what is true of them stays true when the text around them
changes; that is what printing and editing are judged by.
-/
import Durable.Proofs.Text.Bytes
import Durable.Token.Lexer

namespace Durable

open Durable.Text

/-- A lexeme and the blanks and comments in front of it. -/
structure Tile where
  blank : List Char
  text : List Char
  kind : TokenKind
deriving DecidableEq, Repr

namespace Tile

/-- The characters of a tile. -/
def chars (t : Tile) : List Char := t.blank ++ t.text

/-- The characters of several tiles. -/
def render (ts : List Tile) : List Char := ts.flatMap chars

@[simp] theorem render_nil : render [] = [] := rfl

@[simp] theorem render_cons (t : Tile) (ts : List Tile) :
    render (t :: ts) = t.blank ++ t.text ++ render ts := rfl

@[simp] theorem render_append (ts us : List Tile) : render (ts ++ us) = render ts ++ render us := by
  simp [render]

/-- The tokens that tiles become where the first of them starts at an offset. -/
def tokens (offset : Nat) : List Tile → List Token
  | [] => []
  | t :: ts =>
    let start := offset + byteLength t.blank
    let stop := start + byteLength t.text
    ⟨t.kind, ⟨start, stop⟩⟩ :: tokens stop ts

theorem tokens_append (offset : Nat) (ts us : List Tile) :
    tokens offset (ts ++ us) = tokens offset ts ++ tokens (offset + byteLength (render ts)) us := by
  induction ts generalizing offset with
  | nil => simp [tokens]
  | cons t ts ih =>
    simp only [List.cons_append, tokens, ih, render_cons, byteLength_append]
    congr 3
    omega

@[simp] theorem length_tokens (offset : Nat) (ts : List Tile) :
    (tokens offset ts).length = ts.length := by
  induction ts generalizing offset with
  | nil => rfl
  | cons t ts ih => simp [tokens, ih]

/-- A text starts with a tile, behind which `rest` follows. -/
structure Starts (t : Tile) (cs rest : List Char) : Prop where
  /-- What separates the tile from the text before it is passed over. -/
  skip : Lexer.splitTrivia false cs = (t.blank, t.text ++ rest)
  /-- The token that stands there is the tile's. -/
  scan : ∃ c more, t.text ++ rest = c :: more ∧
    ∀ offset, Lexer.scanToken offset c more = .ok ⟨t.kind, t.text, rest⟩

end Tile

/-- The scanners cut a text into tiles and a tail that holds no token. -/
inductive Tiling : List Char → List Tile → List Char → Prop
  | finish {tail : List Char} (h : Lexer.splitTrivia false tail = (tail, [])) : Tiling tail [] tail
  | tile {cs rest tail : List Char} {t : Tile} {ts : List Tile} (h : t.Starts cs rest)
      (more : Tiling rest ts tail) : Tiling cs (t :: ts) tail

/-! ### Scanning loses nothing -/

theorem Text.isWordChar_of_isWordStart {c : Char} (h : isWordStart c = true) :
    isWordChar c = true := by
  simp only [isWordStart, Bool.or_eq_true] at h
  simp only [isWordChar, Char.isAlphanum, Bool.or_eq_true]
  tauto

namespace Lexer

theorem splitTrivia_append (open? : Bool) (cs : List Char) :
    (splitTrivia open? cs).1 ++ (splitTrivia open? cs).2 = cs := by
  fun_induction splitTrivia open? cs <;> simp_all

/-- The token behind what separates tokens neither is a blank nor starts a comment. -/
theorem splitTrivia_rest {open? : Bool} {cs b rest : List Char} {c : Char}
    (h : splitTrivia open? cs = (b, c :: rest)) :
    isBlank c = false ∧ ∀ more, c :: rest ≠ '/' :: '/' :: more := by
  fun_induction splitTrivia open? cs generalizing b with
  | case1 => simp at h
  | case2 c' cs skipped rest' heq ih =>
    simp only [Prod.mk.injEq] at h
    exact ih (b := skipped) (by rw [heq, h.2])
  | case3 cs skipped rest' heq ih =>
    simp only [Prod.mk.injEq] at h
    exact ih (b := skipped) (by rw [heq, h.2])
  | case4 c' cs hne hblank skipped rest' heq ih =>
    simp only [Prod.mk.injEq] at h
    exact ih (b := skipped) (by rw [heq, h.2])
  | case5 c' cs hne hblank =>
    simp only [Prod.mk.injEq, List.cons.injEq] at h
    obtain ⟨-, rfl, rfl⟩ := h
    refine ⟨by simpa using hblank, fun more heq => ?_⟩
    simp only [List.cons.injEq] at heq
    exact hne more heq.1 heq.2

/-- What separates two tokens does so in front of any other token too. -/
theorem splitTrivia_replace {open? : Bool} {cs b rest : List Char} {c : Char}
    (h : splitTrivia open? cs = (b, c :: rest)) {d : Char} {more : List Char}
    (hd : isBlank d = false) (hslash : ∀ x, d :: more ≠ '/' :: '/' :: x) :
    splitTrivia open? (b ++ d :: more) = (b, d :: more) := by
  fun_induction splitTrivia open? cs generalizing b with
  | case1 => simp at h
  | case2 c' cs skipped rest' heq ih =>
    simp only [Prod.mk.injEq] at h
    obtain ⟨rfl, rfl⟩ := h
    rw [List.cons_append, splitTrivia, ih heq]
  | case3 cs skipped rest' heq ih =>
    simp only [Prod.mk.injEq] at h
    obtain ⟨rfl, rfl⟩ := h
    rw [List.cons_append, List.cons_append, splitTrivia, ih heq]
  | case4 c' cs hne hblank skipped rest' heq ih =>
    simp only [Prod.mk.injEq] at h
    obtain ⟨rfl, rfl⟩ := h
    have hstep := ih heq
    rw [List.cons_append, splitTrivia, if_pos hblank, hstep]
    intro x hc hx
    subst hc
    exact absurd hblank (by decide)
  | case5 c' cs hne hblank =>
    simp only [Prod.mk.injEq, List.cons.injEq] at h
    obtain ⟨rfl, -, -⟩ := h
    rw [List.nil_append, splitTrivia, if_neg (by simp [hd])]
    intro x hc hx
    exact hslash x (by rw [hc, hx])

theorem scanNumber_append (cs : List Char) :
    (scanNumber cs).text ++ (scanNumber cs).rest = cs := by
  unfold scanNumber
  split
  · simp [scanNumber.hex, List.takeWhile_append_dropWhile]
  · simp [scanNumber.hex, List.takeWhile_append_dropWhile]
  · simp

theorem scanQuoted_append {cs value read rest : List Char}
    (h : scanQuoted cs = .closed value read rest) : read ++ rest = cs := by
  fun_induction scanQuoted cs generalizing value read with
  | case1 => simp at h
  | case2 => simp at h
  | case3 e cs c hc ih =>
    cases hs : scanQuoted cs with
    | closed v r more =>
      simp only [hs, QuotedScan.push, QuotedScan.closed.injEq] at h
      obtain ⟨-, rfl, rfl⟩ := h
      simp [ih hs]
    | unterminated r => simp [hs, QuotedScan.push] at h
    | badEscape b l => simp [hs, QuotedScan.push] at h
  | case4 => simp at h
  | case5 =>
    simp only [QuotedScan.closed.injEq] at h
    obtain ⟨-, rfl, rfl⟩ := h
    rfl
  | case6 => simp at h
  | case7 c cs _ _ _ _ ih =>
    cases hs : scanQuoted cs with
    | closed v r more =>
      simp only [hs, QuotedScan.push, QuotedScan.closed.injEq] at h
      obtain ⟨-, rfl, rfl⟩ := h
      simp [ih hs]
    | unterminated r => simp [hs, QuotedScan.push] at h
    | badEscape b l => simp [hs, QuotedScan.push] at h

theorem scanString_eq_ok {offset : Nat} {cs : List Char} {l : Lexeme}
    (h : scanString offset cs = .ok l) :
    ∃ value read, scanQuoted cs = .closed value read l.rest ∧
      l.kind = .string (String.ofList value) ∧ l.text = '"' :: read := by
  unfold scanString at h
  split at h
  · next value read rest hscan =>
    simp only [Except.ok.injEq] at h
    subst h
    exact ⟨value, read, hscan, rfl, rfl⟩
  · simp at h
  · simp at h

/-- A lexeme is what the scanned text starts with, and it is not empty. -/
theorem scanToken_append {offset : Nat} {c : Char} {cs : List Char} {l : Lexeme}
    (h : scanToken offset c cs = .ok l) : l.text ++ l.rest = c :: cs ∧ l.text ≠ [] := by
  unfold scanToken at h
  split at h
  · next hword =>
    simp only [Except.ok.injEq] at h
    subst h
    simp [scanWord, List.takeWhile_append_dropWhile, isWordChar_of_isWordStart hword]
  split at h
  · next hquote =>
    simp only [Except.ok.injEq] at h
    subst h
    simp [scanQuotedName, List.takeWhile_append_dropWhile, hquote]
  split at h
  · next hdigit =>
    simp only [Except.ok.injEq] at h
    subst h
    refine ⟨scanNumber_append _, ?_⟩
    unfold scanNumber
    split
    · simp [scanNumber.hex]
    · simp [scanNumber.hex]
    · simp [hdigit]
  split at h
  · next hmark =>
    obtain ⟨value, read, hscan, -, htext⟩ := scanString_eq_ok h
    have := scanQuoted_append hscan
    rw [htext, ← this, hmark]
    simp
  split at h
  · next m hm =>
    simp only [Except.ok.injEq] at h
    subst h
    refine ⟨List.take_append_drop _ _, ?_⟩
    have hlen : m.text.length ≠ 0 := by cases m <;> decide
    simp [hlen]
  · simp at h

/-- Where a token is scanned says nothing about which. -/
theorem scanToken_offset {offset : Nat} {c : Char} {cs : List Char} {l : Lexeme}
    (h : scanToken offset c cs = .ok l) (other : Nat) : scanToken other c cs = .ok l := by
  unfold scanToken at h ⊢
  repeat' split at h <;> simp_all
  obtain ⟨value, read, hscan, hkind, htext⟩ := scanString_eq_ok h
  unfold scanString
  rw [hscan]
  cases l
  simp_all

end Lexer

namespace Tile.Starts

variable {t : Tile} {cs rest : List Char}

theorem text_append (h : t.Starts cs rest) : t.blank ++ (t.text ++ rest) = cs := by
  have := Lexer.splitTrivia_append false cs
  rwa [h.skip] at this

end Tile.Starts

/-! ### The tokens of a text are its tiles -/

namespace Tiling

variable {cs tail : List Char} {ts : List Tile}

/-- A tiling covers the text. -/
theorem render_append (h : Tiling cs ts tail) : Tile.render ts ++ tail = cs := by
  induction h with
  | finish => rfl
  | tile hs _ ih =>
    rw [Tile.render_cons, List.append_assoc, ih, List.append_assoc, ← hs.text_append]

theorem text_ne_nil (h : Tiling cs ts tail) : ∀ t ∈ ts, t.text ≠ [] := by
  induction h with
  | finish => simp
  | @tile cs rest tail t ts hs _ ih =>
    intro u hu
    rcases List.mem_cons.mp hu with rfl | hu
    · obtain ⟨c, more, -, hscan⟩ := hs.scan
      exact (Lexer.scanToken_append (hscan 0)).2
    · exact ih u hu

/-- The token that marks the end of a text. -/
def endMark (offset : Nat) : Token := ⟨.endOfFile, ⟨offset, offset⟩⟩

theorem of_tokensFrom {fuel offset : Nat} {tokens : List Token}
    (h : Lexer.tokensFrom fuel offset cs = .ok tokens) :
    ∃ ts tail, Tiling cs ts tail ∧
      tokens = Tile.tokens offset ts ++ [endMark (offset + byteLength cs)] := by
  induction fuel generalizing offset cs tokens with
  | zero => simp [Lexer.tokensFrom] at h
  | succ fuel ih =>
    rw [Lexer.tokensFrom] at h
    rcases hskip : Lexer.splitTrivia false cs with ⟨blank, rest⟩
    have hcs : blank ++ rest = cs := by
      have := Lexer.splitTrivia_append false cs
      rwa [hskip] at this
    simp only [hskip, bind, Except.bind, pure, Except.pure] at h
    cases rest with
    | nil =>
      simp only [Except.ok.injEq] at h
      rw [List.append_nil] at hcs
      subst hcs
      exact ⟨[], blank, .finish hskip, by rw [← h]; rfl⟩
    | cons c more =>
      cases hscan : Lexer.scanToken (offset + byteLength blank) c more with
      | error e => simp [hscan] at h
      | ok l =>
        cases hmore : Lexer.tokensFrom fuel (offset + byteLength blank + byteLength l.text)
            l.rest with
        | error e => simp [hscan, hmore] at h
        | ok others =>
          simp only [hscan, hmore, Except.ok.injEq] at h
          obtain ⟨ts, tail, htiling, rfl⟩ := ih hmore
          obtain ⟨htext, hne⟩ := Lexer.scanToken_append hscan
          have hstarts : (Tile.mk blank l.text l.kind).Starts cs l.rest :=
            ⟨by rw [htext]; exact hskip,
              ⟨c, more, htext, fun other => Lexer.scanToken_offset hscan other⟩⟩
          refine ⟨_, tail, .tile hstarts htiling, ?_⟩
          rw [← h, Tile.tokens, ← hcs, ← htext]
          simp only [List.cons_append, byteLength_append]
          congr 4
          omega

theorem tokensFrom_eq (h : Tiling cs ts tail) {fuel : Nat} (hfuel : cs.length < fuel)
    (offset : Nat) :
    Lexer.tokensFrom fuel offset cs
      = .ok (Tile.tokens offset ts ++ [endMark (offset + byteLength cs)]) := by
  induction h generalizing fuel offset with
  | finish hskip =>
    obtain ⟨fuel, rfl⟩ : ∃ n, fuel = n + 1 := ⟨fuel - 1, by omega⟩
    simp [Lexer.tokensFrom, hskip, Tile.tokens, endMark]
  | tile hs _ ih =>
    rename_i cs rest tail t ts more
    obtain ⟨fuel, rfl⟩ : ∃ n, fuel = n + 1 := ⟨fuel - 1, by omega⟩
    obtain ⟨c, others, htext, hscan⟩ := hs.scan
    have hshorter : rest.length < fuel := by
      have hne := (Lexer.scanToken_append (hscan 0)).2
      have hpos : 0 < t.text.length := List.length_pos_iff.mpr hne
      have := congrArg List.length hs.text_append
      simp only [List.length_append] at this
      omega
    rw [Lexer.tokensFrom, hs.skip, htext]
    simp only [bind, Except.bind, pure, Except.pure, hscan, ih hshorter]
    rw [← hs.text_append, Tile.tokens]
    simp only [List.cons_append, byteLength_append]
    congr 5
    omega

end Tiling

/-- **A text has tokens exactly when the scanners tile it, and they are the tiles in place.** -/
theorem tokenize_eq_ok_iff {text : String} {tokens : List Token} :
    tokenize text = .ok tokens ↔ ∃ ts tail, Tiling text.toList ts tail ∧
      tokens = Tile.tokens 0 ts ++ [Tiling.endMark (byteLength text.toList)] := by
  unfold tokenize
  constructor
  · intro h
    obtain ⟨ts, tail, htiling, htokens⟩ := Tiling.of_tokensFrom h
    exact ⟨ts, tail, htiling, by rw [htokens, Nat.zero_add]⟩
  · rintro ⟨ts, tail, htiling, rfl⟩
    rw [htiling.tokensFrom_eq (Nat.lt_succ_self _), Nat.zero_add]

end Durable
