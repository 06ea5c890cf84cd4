/-
The tokens of a text and the gaps between them make up the text.

A token's span cuts a piece out of the text that is the token's own: read by itself, the piece
gives the token again, whatever stood behind it.  In front of each token, the mark of the end
included, is a gap that reaches back to the end of the token before it, or to the start of the
text; `Trivia` says what gaps are made of.  A comment ends with its line, so that only the last gap
can end inside one.

Both follow from the tiling: the gap in front of a token is the blank part of its tile, and the
tiles in front of that make up what stands before it.
-/
import Mathlib.Data.List.Induction
import Durable.Proofs.Token.Spelling

namespace Durable

open Text

/-! ### Blanks and comments -/

/-- A text of blanks and comments; the flag says whether its last comment may be cut short by the end
of the text. -/
inductive Trivia : Bool → List Char → Prop
  | nil {atEnd : Bool} : Trivia atEnd []
  | blank {atEnd : Bool} {c : Char} {cs : List Char} (h : isBlank c = true)
      (more : Trivia atEnd cs) : Trivia atEnd (c :: cs)
  | comment {atEnd : Bool} {body cs : List Char} (h : '\n' ∉ body) (more : Trivia atEnd cs) :
      Trivia atEnd ('/' :: '/' :: (body ++ '\n' :: cs))
  | lastComment {body : List Char} (h : '\n' ∉ body) : Trivia true ('/' :: '/' :: body)

/-- The rest of a comment, and blanks and comments behind it. -/
inductive CommentRest : Bool → List Char → Prop
  | closed {atEnd : Bool} {body cs : List Char} (h : '\n' ∉ body) (more : Trivia atEnd cs) :
      CommentRest atEnd (body ++ '\n' :: cs)
  | cut {body : List Char} (h : '\n' ∉ body) : CommentRest true body

theorem CommentRest.trivia {atEnd : Bool} {cs : List Char} (h : CommentRest atEnd cs) :
    Trivia atEnd ('/' :: '/' :: cs) := by
  cases h with
  | closed h more => exact .comment h more
  | cut h => exact .lastComment h

theorem CommentRest.cons {atEnd : Bool} {c : Char} {cs : List Char} (hc : c ≠ '\n')
    (h : CommentRest atEnd cs) : CommentRest atEnd (c :: cs) := by
  cases h with
  | @closed _ body cs h more =>
    have hbody : '\n' ∉ c :: body := by simp [hc.symm, h]
    exact .closed hbody more
  | cut h => exact .cut (by simp [hc.symm, h])

namespace Lexer

/-- What is skipped in front of a token is blanks and comments; in an open comment, its rest comes
first. -/
theorem trivia_of_splitTrivia {open? : Bool} {cs gap rest : List Char}
    (h : splitTrivia open? cs = (gap, rest)) :
    if open? then CommentRest rest.isEmpty gap else Trivia rest.isEmpty gap := by
  fun_induction splitTrivia open? cs generalizing gap with
  | case1 open? =>
    obtain ⟨rfl, rfl⟩ := Prod.mk.inj h
    cases open?
    · exact .nil
    · exact .cut (by simp)
  | case2 c cs skipped rest' heq ih =>
    obtain ⟨rfl, rfl⟩ := Prod.mk.inj h
    have hmore := ih heq
    by_cases hc : c = '\n'
    · subst hc
      have hbody : '\n' ∉ ([] : List Char) := by simp
      exact .closed hbody (by simpa using hmore)
    · exact .cons hc (by simpa [hc] using hmore)
  | case3 cs skipped rest' heq ih =>
    obtain ⟨rfl, rfl⟩ := Prod.mk.inj h
    exact CommentRest.trivia (by simpa using ih heq)
  | case4 c cs _ hblank skipped rest' heq ih =>
    obtain ⟨rfl, rfl⟩ := Prod.mk.inj h
    exact .blank hblank (by simpa using ih heq)
  | case5 c cs _ _ =>
    obtain ⟨rfl, rfl⟩ := Prod.mk.inj h
    exact .nil

/-- Nothing is skipped in front of a token. -/
theorem splitTrivia_token {c : Char} {cs : List Char} (hc : isBlank c = false)
    (hslash : ∀ more, c :: cs ≠ '/' :: '/' :: more) :
    splitTrivia false (c :: cs) = ([], c :: cs) := by
  rw [splitTrivia, if_neg (by simp [hc])]
  intro x hhead hx
  exact hslash x (by rw [hhead, hx])

end Lexer

/-! ### A piece by itself -/

theorem TokenKind.ends_nil (k : TokenKind) : k.Ends [] := by
  have hnumber : Lexer.EndsNumber [] := ⟨.nil, fun _ _ h => absurd h (by simp)⟩
  cases k with
  | ident | keyword | mark => exact HeadFails.nil
  | int | float => exact hnumber
  | string | endOfFile => trivial

/-- **The text of a token gives that token by itself**, whatever stood behind it. -/
theorem Tile.Starts.tokenize {t : Tile} {cs rest : List Char} (h : t.Starts cs rest) :
    Durable.tokenize (String.ofList t.text)
      = .ok [⟨t.kind, ⟨0, byteLength t.text⟩⟩, Tiling.endMark (byteLength t.text)] := by
  have hskip := h.skip
  have hends : t.kind.Ends [] := t.kind.ends_nil
  obtain ⟨c, more, htext, hscan⟩ := Lexer.scanToken_of_spells h.spells hends
  rw [List.append_nil] at htext
  rw [htext, List.cons_append] at hskip
  obtain ⟨hblank, hslash⟩ := Lexer.splitTrivia_rest hskip
  have halone : (Tile.mk [] t.text t.kind).Starts t.text [] := by
    refine ⟨?_, c, more, by rw [List.append_nil, htext], hscan⟩
    rw [List.append_nil, htext]
    exact Lexer.splitTrivia_token hblank fun x hx => hslash (x ++ rest) (by
      rw [← List.cons_append, hx]
      rfl)
  refine tokenize_eq_ok_iff.mpr ⟨[⟨[], t.text, t.kind⟩], [], ?_, ?_⟩
  · rw [String.toList_ofList]
    exact .tile halone (.finish rfl)
  · simp [Tile.tokens]

/-! ### Tiles in a row -/

namespace Tile

/-- Tokens that split come from tiles that split. -/
theorem tokens_eq_append {offset : Nat} {ts : List Tile} {before after : List Token} {t : Token}
    (h : tokens offset ts = before ++ t :: after) :
    ∃ ts₁ u ts₂, ts = ts₁ ++ u :: ts₂ ∧ before = tokens offset ts₁ ∧
      t = ⟨u.kind, ⟨offset + byteLength (render ts₁ ++ u.blank),
        offset + byteLength (render ts₁ ++ u.blank) + byteLength u.text⟩⟩ := by
  induction before generalizing offset ts with
  | nil =>
    cases ts with
    | nil => simp [tokens] at h
    | cons u ts =>
      rw [tokens, List.nil_append, List.cons.injEq] at h
      exact ⟨[], u, ts, rfl, rfl, h.1.symm⟩
  | cons b before ih =>
    cases ts with
    | nil => simp [tokens] at h
    | cons u ts =>
      rw [tokens, List.cons_append, List.cons.injEq] at h
      obtain ⟨ts₁, v, ts₂, rfl, rfl, rfl⟩ := ih h.2
      refine ⟨u :: ts₁, v, ts₂, rfl, by rw [tokens, h.1], ?_⟩
      simp only [render_cons, byteLength_append, Nat.add_assoc]

/-- A token of some tiles starts at or behind the offset of the first of them. -/
theorem le_of_mem_tokens {offset : Nat} {ts : List Tile} {t : Token} (h : t ∈ tokens offset ts) :
    offset ≤ t.span.start := by
  obtain ⟨before, after, h⟩ := List.append_of_mem h
  obtain ⟨_, _, _, -, -, rfl⟩ := tokens_eq_append h
  exact Nat.le_add_right _ _

/-- A token of some tiles ends at or in front of where they end. -/
theorem le_end_of_mem_tokens {offset : Nat} {ts : List Tile} {t : Token}
    (h : t ∈ tokens offset ts) : t.span.stop ≤ offset + byteLength (render ts) := by
  obtain ⟨before, after, h⟩ := List.append_of_mem h
  obtain ⟨ts₁, u, ts₂, rfl, -, rfl⟩ := tokens_eq_append h
  simp only [render_append, render_cons, byteLength_append]
  omega

theorem tokens_pairwise (offset : Nat) (ts : List Tile) :
    (tokens offset ts).Pairwise fun a b => a.span.stop ≤ b.span.start := by
  induction ts generalizing offset with
  | nil => exact .nil
  | cons u ts ih => exact .cons (fun t ht => le_of_mem_tokens ht) (ih _)

end Tile

theorem Tiling.split {cs tail : List Char} {ts₁ ts₂ : List Tile} {u : Tile}
    (h : Tiling cs (ts₁ ++ u :: ts₂) tail) : ∃ rest,
      cs = Tile.render ts₁ ++ u.blank ++ u.text ++ rest ∧
        u.Starts (u.blank ++ (u.text ++ rest)) rest := by
  induction ts₁ generalizing cs with
  | nil =>
    cases h with
    | @tile _ rest _ _ _ hs more =>
      have hcs := hs.text_append
      exact ⟨rest, by simp [← hcs], by rwa [hcs]⟩
  | cons v ts₁ ih =>
    cases h with
    | @tile _ rest _ _ _ hs more =>
      obtain ⟨rest', hrest, hu⟩ := ih more
      exact ⟨rest', by simp [← hs.text_append, hrest], hu⟩

theorem Tiling.tail_trivia {cs tail : List Char} {ts : List Tile} (h : Tiling cs ts tail) :
    Trivia true tail := by
  induction h with
  | finish hskip => simpa using Lexer.trivia_of_splitTrivia hskip
  | tile _ _ ih => exact ih

/-! ### The partition -/

/-- The offset at which the last of some tokens ends. -/
def stopOf (before : List Token) : Nat := (before.getLast?.map (·.span.stop)).getD 0

theorem stopOf_tokens (ts : List Tile) :
    stopOf (Tile.tokens 0 ts) = byteLength (Tile.render ts) := by
  induction ts using List.reverseRecOn with
  | nil => rfl
  | append_singleton ts u _ => simp [stopOf, Tile.tokens_append, Tile.tokens, Nat.add_assoc]

/-- A token stands in its text as its tile does. -/
theorem Tiling.token {cs tail : List Char} {ts : List Tile} {before after : List Token} {t : Token}
    (h : Tiling cs ts tail) (ht : Tile.tokens 0 ts = before ++ t :: after) :
    ∃ front, ∃ u : Tile, ∃ rest, cs = front ++ u.blank ++ u.text ++ rest ∧
      u.Starts (u.blank ++ (u.text ++ rest)) rest ∧ stopOf before = byteLength front ∧
      t = ⟨u.kind, ⟨byteLength (front ++ u.blank),
        byteLength (front ++ u.blank) + byteLength u.text⟩⟩ := by
  obtain ⟨ts₁, u, ts₂, rfl, rfl, rfl⟩ := Tile.tokens_eq_append ht
  obtain ⟨rest, hcs, hu⟩ := h.split
  exact ⟨Tile.render ts₁, u, rest, hcs, hu, stopOf_tokens ts₁, by simp⟩

theorem Tiling.token_of_mem {cs tail : List Char} {ts : List Tile} {t : Token}
    (h : Tiling cs ts tail) (ht : t ∈ Tile.tokens 0 ts) :
    ∃ front, ∃ u : Tile, ∃ rest, cs = front ++ u.blank ++ u.text ++ rest ∧
      u.Starts (u.blank ++ (u.text ++ rest)) rest ∧
      t = ⟨u.kind, ⟨byteLength (front ++ u.blank),
        byteLength (front ++ u.blank) + byteLength u.text⟩⟩ := by
  obtain ⟨before, after, hsplit⟩ := List.append_of_mem ht
  obtain ⟨front, u, rest, hcs, hu, -, ht⟩ := h.token hsplit
  exact ⟨front, u, rest, hcs, hu, ht⟩

/-- Tokens and the gaps between them make up a text. -/
structure Partition (cs : List Char) (tokens : List Token) : Prop where
  /-- The last token marks the end of the text, and no other does. -/
  finish : ∃ words, tokens = words ++ [Tiling.endMark (byteLength cs)] ∧
    ∀ t ∈ words, t.kind ≠ .endOfFile ∧ t.span.start < t.span.stop
  inOrder : tokens.Pairwise fun a b => a.span.stop ≤ b.span.start
  /-- Spans are in bounds and cut no character. -/
  pieces : ∀ t ∈ tokens, ∃ front piece rest, cs = front ++ piece ++ rest ∧
    t.span = ⟨byteLength front, byteLength front + byteLength piece⟩
  /-- What stands between a token and the one before it, or the start of the text. -/
  gaps : ∀ before t after, tokens = before ++ t :: after →
    ∃ gap, slice? cs (stopOf before) t.span.start = some gap ∧ Trivia after.isEmpty gap
  /-- A piece gives its token by itself. -/
  alone : ∀ t ∈ tokens, t.kind ≠ .endOfFile → ∃ piece,
    slice? cs t.span.start t.span.stop = some piece ∧
      tokenize (String.ofList piece)
        = .ok [⟨t.kind, ⟨0, byteLength piece⟩⟩, Tiling.endMark (byteLength piece)]

/-- **The tokens of a text and the gaps between them make it up.** -/
theorem tokenize_partition {text : String} {tokens : List Token} (h : tokenize text = .ok tokens) :
    Partition text.toList tokens := by
  obtain ⟨ts, tail, htiling, rfl⟩ := tokenize_eq_ok_iff.mp h
  generalize text.toList = cs at htiling ⊢
  have hcs := htiling.render_append
  constructor
  case finish =>
    refine ⟨_, rfl, fun t ht => ?_⟩
    obtain ⟨front, u, rest, -, hu, rfl⟩ := htiling.token_of_mem ht
    refine ⟨fun heq : u.kind = _ => Spells.ne_endOfFile (heq ▸ hu.spells), ?_⟩
    obtain ⟨_, _, -, hscan⟩ := hu.scan
    have := byteLength_pos (Lexer.scanToken_append (hscan 0)).2
    exact Nat.lt_add_of_pos_right this
  case inOrder =>
    refine List.pairwise_append.mpr ⟨Tile.tokens_pairwise 0 ts, List.pairwise_singleton _ _, ?_⟩
    intro t ht e he
    obtain rfl := List.mem_singleton.mp he
    have := Tile.le_end_of_mem_tokens ht
    simp only [Tiling.endMark, ← hcs, byteLength_append]
    omega
  case pieces =>
    intro t ht
    rcases List.mem_append.mp ht with ht | ht
    · obtain ⟨front, u, rest, hcs, -, rfl⟩ := htiling.token_of_mem ht
      exact ⟨front ++ u.blank, u.text, rest, hcs, rfl⟩
    · obtain rfl := List.mem_singleton.mp ht
      exact ⟨cs, [], [], by simp, by simp [Tiling.endMark]⟩
  case gaps =>
    intro before t after heq
    rcases List.eq_nil_or_concat after with rfl | ⟨after, e, rfl⟩
    · -- The last gap reaches to the end of the text.
      obtain ⟨rfl, hlast⟩ := List.append_inj' heq rfl
      obtain rfl := List.singleton_inj.mp hlast
      refine ⟨tail, ?_, htiling.tail_trivia⟩
      rw [stopOf_tokens]
      have hslice := slice?_append (Tile.render ts) tail []
      rwa [List.append_nil, hcs, ← byteLength_append, hcs] at hslice
    · rw [List.concat_eq_append, ← List.cons_append, ← List.append_assoc] at heq
      obtain ⟨heq, -⟩ := List.append_inj' heq rfl
      obtain ⟨front, u, rest, hcs, hu, hstop, rfl⟩ := htiling.token heq
      refine ⟨u.blank, ?_, ?_⟩
      · rw [hstop, hcs, List.append_assoc, byteLength_append]
        exact slice?_append _ _ _
      · obtain ⟨c, more, htext, -⟩ := hu.scan
        have htrivia := Lexer.trivia_of_splitTrivia (htext ▸ hu.skip)
        have hafter : (after ++ [e]).isEmpty = false := by simp
        rw [List.concat_eq_append, hafter]
        simpa using htrivia
  case alone =>
    intro t ht hkind
    rcases List.mem_append.mp ht with ht | ht
    · obtain ⟨front, u, rest, hcs, hu, rfl⟩ := htiling.token_of_mem ht
      exact ⟨u.text, by rw [hcs]; exact slice?_append _ _ _, hu.tokenize⟩
    · obtain rfl := List.mem_singleton.mp ht
      exact absurd rfl hkind

/-- A text that ends in a comment, and in which numbers, points and names touch. -/
def commentedText : String := "a//b\n'type 1.5d.x \"é\"//"

/-- Its tokens. -/
def commentedTokens : List Token :=
  [⟨.ident "a", ⟨0, 1⟩⟩, ⟨.ident "type", ⟨5, 10⟩⟩, ⟨.float "1.5d", ⟨11, 15⟩⟩,
    ⟨.mark .dot, ⟨15, 16⟩⟩, ⟨.ident "x", ⟨16, 17⟩⟩, ⟨.string "é", ⟨18, 22⟩⟩,
    ⟨.endOfFile, ⟨24, 24⟩⟩]

theorem commented_partition : tokenize commentedText = .ok commentedTokens ∧
    Partition commentedText.toList commentedTokens := by
  have h : tokenize commentedText = .ok commentedTokens := by rfl
  exact ⟨h, tokenize_partition h⟩

end Durable
