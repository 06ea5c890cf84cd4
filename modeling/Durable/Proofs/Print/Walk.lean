/-
Reading along a text.

`c.Before src cs` says that the tokens left at a cursor are those of `cs`, the end of a text
`src`.  `Runs src cs R rest` says that from before `cs` one gets before `rest` by steps that `R`
describes, and that `cs` has tokens if `rest` has.  A text is read piece by piece: `Runs.token`
reads one token, whose spelling must not be lengthened by what follows, `Runs.blank` passes over
blanks, and `Runs.seq` puts two pieces one behind the other.
-/
import Durable.Proofs.Grammar.Standing

namespace Durable

open Text

/-! ### Tokens at the start of a text -/

namespace Text

/-- The characters of words lie between the first digit and the last letter. -/
theorem bounds_of_isWordChar {ch : Char} (h : isWordChar ch = true) :
    48 ≤ ch.toNat ∧ ch.toNat ≤ 122 := by
  have between : ∀ low high : Char, low ≤ ch ∧ ch ≤ high → 48 ≤ low.toNat → high.toNat ≤ 122 →
      48 ≤ ch.toNat ∧ ch.toNat ≤ 122 := fun _ _ hch hlow hhigh =>
    ⟨Nat.le_trans hlow (UInt32.le_iff_toNat_le.mp hch.1),
      Nat.le_trans (UInt32.le_iff_toNat_le.mp hch.2) hhigh⟩
  rcases Bool.or_eq_true_iff.mp h with h | h
  · rcases Bool.or_eq_true_iff.mp h with h | h
    · rcases Bool.or_eq_true_iff.mp h with h | h
      · exact between 'A' 'Z' (of_decide_eq_true h) (by decide) (by decide)
      · have h := Bool.and_eq_true_iff.mp h
        exact between 'a' 'z' ⟨of_decide_eq_true h.1, of_decide_eq_true h.2⟩
          (by decide) (by decide)
    · have h := Bool.and_eq_true_iff.mp h
      exact between '0' '9' ⟨of_decide_eq_true h.1, of_decide_eq_true h.2⟩
        (by decide) (by decide)
  · obtain rfl := eq_of_beq h
    decide

theorem blank_space : isBlank ' ' = true := rfl

theorem isBlank_of_isWordChar {ch : Char} (h : isWordChar ch = true) : isBlank ch = false := by
  have := bounds_of_isWordChar h
  simp only [isBlank, blankRanges, List.any_cons, List.any_nil, Bool.or_false, Bool.or_eq_false_iff,
    Bool.and_eq_false_iff, decide_eq_false_iff_not]
  omega

end Text

namespace Lexer

theorem splitTrivia_blanks {gap : List Char} (h : ∀ ch ∈ gap, isBlank ch = true) (cs : List Char) :
    splitTrivia false (gap ++ cs)
      = (gap ++ (splitTrivia false cs).1, (splitTrivia false cs).2) := by
  induction gap with
  | nil => rfl
  | cons ch gap ih =>
    have hch : isBlank ch = true := h ch (by simp)
    have hgap := ih fun x hx => h x (by simp [hx])
    rw [List.cons_append, splitTrivia, if_pos hch, hgap]
    · rfl
    · rintro _ rfl
      exact absurd hch (by decide)

/-- Nothing is skipped in front of a character that is no blank and starts no comment. -/
theorem splitTrivia_none {x : Char} {more : List Char} (hx : isBlank x = false)
    (hslash : x = '/' → HeadFails (· == '/') more) :
    splitTrivia false (x :: more) = ([], x :: more) := by
  rw [splitTrivia, if_neg (by simp [hx])]
  rintro x rfl rfl
  exact absurd (headFails_cons.mp (hslash rfl)) (by decide)

end Lexer

/-- Nothing is skipped in front of a token. -/
theorem Spells.splitTrivia {k : TokenKind} {text rest : List Char} (h : Spells k text)
    (hrest : k.Ends rest) : Lexer.splitTrivia false (text ++ rest) = ([], text ++ rest) := by
  have word : ∀ {ch : Char} {more : List Char}, isWordChar ch = true →
      Lexer.splitTrivia false (ch :: more) = ([], ch :: more) := by
    intro ch more hch
    refine Lexer.splitTrivia_none (isBlank_of_isWordChar hch) ?_
    rintro rfl
    exact absurd hch (by decide)
  cases h with
  | word start others => exact word (others _ (by simp))
  | quotedName | string => exact Lexer.splitTrivia_none (by decide) (fun h => absurd h (by decide))
  | number hnumber =>
    cases hnumber with
    | hex => exact word (by decide)
    | decimal hwhole => exact word (Lexer.isWordChar_of_isDigit (hwhole _ (by simp)))
  | mark m =>
    by_cases hm : m = .slash
    · subst hm
      refine Lexer.splitTrivia_none (x := '/') (by decide) fun _ ch hch => ?_
      have := hrest ch hch
      simp only [beq_eq_false_iff_ne]
      rintro rfl
      exact absurd this (by decide)
    · have : ∃ ch cs, m.text.toList = ch :: cs ∧ isBlank ch = false ∧ (ch = '/' → cs = ['=']) := by
        cases m <;> first | exact absurd rfl hm | exact ⟨_, _, rfl, by decide, by decide⟩
      obtain ⟨ch, cs, htext, hblank, hslash⟩ := this
      rw [htext]
      refine Lexer.splitTrivia_none hblank fun h => ?_
      rw [hslash h]
      exact headFails_cons.mpr (by decide)

/-- Blanks and a spelling are a tile where what follows does not lengthen the spelling. -/
theorem Spells.starts {k : TokenKind} {gap text rest : List Char}
    (hgap : ∀ ch ∈ gap, isBlank ch = true) (h : Spells k text) (hrest : k.Ends rest) :
    (Tile.mk gap text k).Starts (gap ++ (text ++ rest)) rest where
  skip := by rw [Lexer.splitTrivia_blanks hgap, h.splitTrivia hrest, List.append_nil]
  scan := Lexer.scanToken_of_spells h hrest

/-- More blanks in front of a tile belong to it. -/
theorem Tile.Starts.behind {t : Tile} {cs rest gap : List Char} (h : t.Starts cs rest)
    (hgap : ∀ ch ∈ gap, isBlank ch = true) :
    (Tile.mk (gap ++ t.blank) t.text t.kind).Starts (gap ++ cs) rest where
  skip := by rw [Lexer.splitTrivia_blanks hgap, h.skip]
  scan := h.scan

/-- A text starts with one tile at most. -/
theorem Tile.Starts.unique {t t' : Tile} {cs rest rest' : List Char} (h : t.Starts cs rest)
    (h' : t'.Starts cs rest') : t = t' ∧ rest = rest' := by
  have hskip := h.skip.symm.trans h'.skip
  simp only [Prod.mk.injEq] at hskip
  obtain ⟨c, more, htext, hscan⟩ := h.scan
  obtain ⟨c', more', htext', hscan'⟩ := h'.scan
  rw [← hskip.2, htext, List.cons.injEq] at htext'
  have hlexeme := hscan 0
  rw [htext'.1, htext'.2, hscan' 0] at hlexeme
  simp only [Except.ok.injEq, Lexer.Lexeme.mk.injEq] at hlexeme
  obtain ⟨_, _, _⟩ := t
  obtain ⟨_, _, _⟩ := t'
  simp_all

/-! ### Spellings that the printer writes -/

namespace TokenKind

/-- How the printer spells a token. -/
def spelling : TokenKind → List Char
  | ident n | int n | float n => n.toList
  | keyword k => k.text.toList
  | string value => (Text.quote value).toList
  | mark m => m.text.toList
  | endOfFile => []

@[simp] theorem spelling_ident (n : String) : (ident n).spelling = n.toList := rfl
@[simp] theorem spelling_int (n : String) : (int n).spelling = n.toList := rfl
@[simp] theorem spelling_float (n : String) : (float n).spelling = n.toList := rfl
@[simp] theorem spelling_keyword (k : Keyword) : (keyword k).spelling = k.text.toList := rfl
@[simp] theorem spelling_string (v : String) : (string v).spelling = (Text.quote v).toList := rfl
@[simp] theorem spelling_mark (m : Mark) : (mark m).spelling = m.text.toList := rfl

/-- A token is read from the way the printer spells it; a name behind an apostrophe is not. -/
def Plain (k : TokenKind) : Prop := Spells k k.spelling

theorem plain_mark (m : Mark) : (mark m).Plain := .mark m

theorem plain_keyword (k : Keyword) : (keyword k).Plain := by
  have hmem : k ∈ Keyword.all := by cases k <;> decide
  have hfind : ∀ k ∈ Keyword.all, Keyword.ofText? k.text = some k := by decide +kernel
  have hall : (Keyword.all.all fun k => k.text.toList.head?.any isWordStart &&
      k.text.toList.all isWordChar) = true := by decide +kernel
  have hword : ∀ k ∈ Keyword.all, (∃ ch ∈ k.text.toList.head?, isWordStart ch = true)
      ∧ ∀ d ∈ k.text.toList, isWordChar d = true := by
    intro k hk
    have hk := List.all_eq_true.mp hall k hk
    rwa [Bool.and_eq_true, Option.any_eq_true, List.all_eq_true] at hk
  obtain ⟨⟨ch, hhead, hstart⟩, hothers⟩ := hword k hmem
  obtain ⟨cs, htext⟩ := List.head?_eq_some_iff.mp hhead
  have hclass : Lexer.classifyWord k.text.toList = keyword k := by
    rw [Lexer.classifyWord, String.ofList_toList, hfind k hmem]
  rw [htext] at hclass hothers
  have hspells := Spells.word hstart hothers
  rw [hclass, ← htext] at hspells
  exact hspells

theorem plain_string (value : String) : (string value).Plain := by
  have hscan := Lexer.scanQuoted_escape value.toList []
  have hspells := Spells.string hscan
  rw [String.ofList_toList] at hspells
  show Spells (string value) (Text.quote value).toList
  simpa [Text.quote] using hspells

theorem spelling_of_word? {k : TokenKind} {n : String} (h : k.word? = some n) :
    k.spelling = n.toList := by
  cases k <;> simp_all [word?, spelling]

end TokenKind

/-! ### What stands behind a token -/

namespace Mark

/-- The characters that make another token of a mark. -/
def joins : Mark → List Char
  | dot => ['.']
  | openBrace => ['|']
  | pipe => ['\x7d', '|']
  | minus | assign => ['>', '=']
  | plus | star | less | greater | bang => ['=']
  | slash => ['=', '/']
  | amp => ['&']
  | _ => []

theorem mem_joins_of_lengthens {m : Mark} {ch : Char} (h : m.lengthens ch = true) :
    ch ∈ m.joins := by
  have hjoins : (all.all fun longer => !m.text.toList.isPrefixOf longer.text.toList ||
      (longer.text.toList.drop m.text.toList.length).head?.all m.joins.contains) = true := by
    cases m <;> decide +kernel
  have hnext : ∀ longer ∈ all, m.text.toList.isPrefixOf longer.text.toList = true →
      ∀ x ∈ (longer.text.toList.drop m.text.toList.length).head?, x ∈ m.joins := by
    intro longer hmem hlead x hx
    have hlonger := List.all_eq_true.mp hjoins longer hmem
    rw [hlead, Bool.not_true, Bool.false_or, Option.all_eq_true] at hlonger
    exact List.contains_iff_mem.mp (hlonger x hx)
  simp only [lengthens, Bool.or_eq_true, List.any_eq_true, Bool.and_eq_true, beq_iff_eq] at h
  rcases h with ⟨longer, hmem, hlead⟩ | ⟨rfl, rfl⟩
  · obtain ⟨more, hmore⟩ := List.isPrefixOf_iff_prefix.mp hlead
    refine hnext longer hmem (List.isPrefixOf_iff_prefix.mpr ?_) ch ?_
    · rw [← hmore, List.append_assoc]
      exact List.prefix_append _ _
    · rw [← hmore, List.append_assoc, List.drop_left]
      rfl
  · decide

theorem ends_of_joins {m : Mark} {rest : List Char} (h : ∀ ch ∈ rest.head?, ch ∉ m.joins) :
    (TokenKind.mark m).Ends rest := by
  intro ch hch
  by_contra hlong
  exact h ch hch (mem_joins_of_lengthens (by simpa using hlong))

/-- Nothing lengthens most marks. -/
theorem ends_of_joins_nil {m : Mark} (h : m.joins = []) (rest : List Char) :
    (TokenKind.mark m).Ends rest := ends_of_joins (by simp [h])

theorem ends_cons {m : Mark} {x : Char} (h : x ∉ m.joins) (more : List Char) :
    (TokenKind.mark m).Ends (x :: more) := ends_of_joins (by simpa using h)

end Mark

/-- A character that may start what stands behind an operator or an opening mark. -/
def opensPhrase (ch : Char) : Bool :=
  !(ch == '=' || ch == '>' || ch == '|' || ch == '\x7d' || ch == '&' || ch == '/')

/-- A text may stand behind an operator or an opening mark. -/
def Opens (text : List Char) : Prop := ∃ ch more, text = ch :: more ∧ opensPhrase ch = true

namespace Opens

variable {text : List Char}

theorem cons {ch : Char} (h : opensPhrase ch = true) (more : List Char) : Opens (ch :: more) :=
  ⟨ch, more, rfl, h⟩

theorem char (ch : Char) (h : opensPhrase ch = true) : Opens [ch] := .cons h []

theorem append (h : Opens text) (more : List Char) : Opens (text ++ more) := by
  obtain ⟨ch, cs, rfl, hch⟩ := h
  exact ⟨ch, cs ++ more, rfl, hch⟩

theorem ends (h : Opens text) {m : Mark} (hm : m ≠ .dot) : (TokenKind.mark m).Ends text := by
  obtain ⟨ch, cs, rfl, hch⟩ := h
  refine Mark.ends_cons (fun hjoins => ?_) cs
  cases m <;> simp [Mark.joins] at hjoins hm <;>
    rcases hjoins with rfl | rfl <;> exact absurd hch (by decide)

theorem of_wordChar {ch : Char} (h : isWordChar ch = true) (more : List Char) :
    Opens (ch :: more) := by
  refine .cons (Bool.eq_true_of_not_eq_false fun hch => ?_) more
  simp only [opensPhrase, Bool.not_eq_false', Bool.or_eq_true, beq_iff_eq] at hch
  rcases hch with ((((rfl | rfl) | rfl) | rfl) | rfl) | rfl <;> exact absurd h (by decide)

theorem extend (h : Opens text) {text' : List Char} (hlead : text <+: text') :
    Opens text' := by
  obtain ⟨more, rfl⟩ := hlead
  exact h.append more

end Opens

/-- Every spelling but that of a mark may stand behind an operator. -/
theorem Spells.opens {k : TokenKind} {text : List Char} (h : Spells k text)
    (hk : ∀ m, k ≠ .mark m) : Opens text := by
  cases h with
  | word _ others => exact .of_wordChar (others _ (by simp)) _
  | quotedName | string => exact .cons (by decide) _
  | number hnumber =>
    cases hnumber with
    | hex => exact .cons (by decide) _
    | decimal hwhole => exact .of_wordChar (Lexer.isWordChar_of_isDigit (hwhole _ (by simp))) _
  | mark m => exact absurd rfl (hk m)

theorem Opens.keyword (k : Keyword) (more : List Char) : Opens (k.text.toList ++ more) :=
  (Spells.opens (TokenKind.plain_keyword k) (by simp)).append more

/-- A text that may stand behind a phrase: it lengthens no name and no number, no sign joins it to
a mark, and no colon makes a prefix of a name. -/
structure Clear (rest : List Char) : Prop where
  word : HeadFails isWordChar rest
  point : ∀ d more, rest = '.' :: d :: more → d.isDigit = false
  sign : HeadFails (fun ch => ch == '=' || ch == ':') rest

/-- A character that clears what stands before it. -/
def clears (ch : Char) : Bool :=
  !(isWordChar ch || ch == '.' || ch == '=' || ch == ':')

namespace Clear

variable {rest : List Char}

theorem nil : Clear [] :=
  ⟨.nil, fun _ _ => nofun, .nil⟩

theorem cons {x : Char} (h : clears x = true) (more : List Char) : Clear (x :: more) := by
  simp only [clears, Bool.not_eq_true', Bool.or_eq_false_iff, beq_eq_false_iff_ne] at h
  obtain ⟨⟨⟨hword, hdot⟩, hassign⟩, hcolon⟩ := h
  refine ⟨headFails_cons.mpr hword, fun d more heq => ?_, headFails_cons.mpr (by simp [*])⟩
  simp only [List.cons.injEq] at heq
  exact absurd heq.1 hdot

theorem mark {m : Mark} (h : m.text.toList.head?.any clears = true) (more : List Char) :
    Clear (m.text.toList ++ more) := by
  obtain ⟨ch, hch, hclears⟩ := (Option.any_eq_true _ _).mp h
  obtain ⟨cs, hcs⟩ := List.head?_eq_some_iff.mp hch
  rw [hcs]
  exact .cons hclears _

/-- A point clears what stands before it, if no digit follows the point. -/
theorem dot {d : Char} (h : d.isDigit = false) (more : List Char) : Clear ('.' :: d :: more) := by
  refine ⟨headFails_cons.mpr (by decide), fun d' more' heq => ?_, headFails_cons.mpr (by decide)⟩
  simp only [List.cons.injEq, true_and] at heq
  rw [← heq.1]
  exact h

theorem ellipsis (more : List Char) : Clear (Mark.ellipsis.text.toList ++ more) :=
  .dot (d := '.') (by decide) ('.' :: more)

theorem endsNumber (h : Clear rest) : Lexer.EndsNumber rest := ⟨h.word, h.point⟩

/-- A cleared token that is no mark is not lengthened. -/
theorem ends (h : Clear rest) {k : TokenKind} (hk : ∀ m, k ≠ .mark m) : k.Ends rest := by
  cases k with
  | ident | keyword => exact h.word
  | int | float => exact h.endsNumber
  | mark m => exact absurd rfl (hk m)
  | string | endOfFile => trivial

theorem ne_colon (h : Clear rest) (more : List Char) : rest ≠ ':' :: more := by
  rintro rfl
  exact absurd (headFails_cons.mp h.sign) (by decide)

end Clear

/-! ### Cursors before a text -/

namespace Cursor

/-- The tokens left at a cursor are those of `cs`, the end of a text. -/
def Before (src : List Char) (c : Cursor) (cs : List Char) : Prop :=
  ∃ front gap ts tail, src = front ++ (gap ++ cs) ∧ (∀ ch ∈ gap, isBlank ch = true) ∧
    Tiling (gap ++ cs) ts tail ∧ c.passed = byteLength front ∧ c.rest = Tile.tokens c.passed ts

variable {src rest : List Char} {c : Cursor} {k : TokenKind}

namespace Before

theorem blanks {gap : List Char} (hgap : ∀ ch ∈ gap, isBlank ch = true)
    (h : c.Before src (gap ++ rest)) : c.Before src rest := by
  obtain ⟨front, gap', ts, tail, hsrc, hgap', htiling, hpassed, hrest⟩ := h
  refine ⟨front, gap' ++ gap, ts, tail, by simpa using hsrc, fun ch hch => ?_,
    by simpa using htiling, hpassed, hrest⟩
  exact (List.mem_append.mp hch).elim (hgap' ch) (hgap ch)

/-- The tiles left where a tile comes next. -/
theorem tile {t : Tile} {cs : List Char} (h : c.Before src cs) (ht : t.Starts cs rest) :
    ∃ front gap ts tail, src = front ++ (gap ++ cs) ∧ (∀ ch ∈ gap, isBlank ch = true) ∧
      Tiling rest ts tail ∧ c.passed = byteLength front ∧
      c.rest = Tile.tokens c.passed (⟨gap ++ t.blank, t.text, t.kind⟩ :: ts) := by
  obtain ⟨front, gap, ts, tail, hsrc, hgap, htiling, hpassed, hrest⟩ := h
  have hstarts := ht.behind hgap
  generalize hcs : gap ++ cs = all at htiling hstarts
  cases htiling with
  | finish hskip =>
    obtain ⟨ch, more, htext, -⟩ := hstarts.scan
    have := hstarts.skip.symm.trans hskip
    simp [htext] at this
  | @tile _ rest' _ t ts ht more =>
    obtain ⟨rfl, rfl⟩ := ht.unique hstarts
    exact ⟨front, gap, ts, tail, hcs ▸ hsrc, hgap, more, hpassed, hrest⟩

/-- The tiles left where a token comes next. -/
theorem tiles (h : c.Before src (k.spelling ++ rest)) (hk : k.Plain) (hend : k.Ends rest) :
    ∃ front gap ts tail, src = front ++ (gap ++ (k.spelling ++ rest)) ∧
      (∀ ch ∈ gap, isBlank ch = true) ∧ Tiling rest ts tail ∧ c.passed = byteLength front ∧
      c.rest = Tile.tokens c.passed (⟨gap, k.spelling, k⟩ :: ts) := by
  have hgap : ∀ ch ∈ ([] : List Char), isBlank ch = true := by simp
  simpa using h.tile (Spells.starts hgap hk hend)

/-- The next token is the one that is spelled next. -/
theorem kind (h : c.Before src (k.spelling ++ rest)) (hk : k.Plain) (hend : k.Ends rest) :
    c.kind = k := by
  obtain ⟨_, _, _, _, -, -, -, -, hrest⟩ := h.tiles hk hend
  simp [Cursor.kind, kindAt, tokenAt, hrest, Tile.tokens]

theorem advance (h : c.Before src (k.spelling ++ rest)) (hk : k.Plain) (hend : k.Ends rest) :
    c.advance.Before src rest := by
  obtain ⟨front, gap, ts, tail, hsrc, hgap, htiling, hpassed, hrest⟩ := h.tiles hk hend
  refine ⟨front ++ (gap ++ k.spelling), [], ts, tail, by simpa using hsrc, by simp, htiling, ?_, ?_⟩
  · simp [Cursor.advance, hrest, Tile.tokens, hpassed, Nat.add_assoc]
  · simp [Cursor.advance, hrest, Tile.tokens]

/-- Two tokens that are spelled without a blank between them touch. -/
theorem touching {k' : TokenKind} {more : List Char}
    (h : c.Before src (k.spelling ++ (k'.spelling ++ more))) (hk : k.Plain)
    (hend : k.Ends (k'.spelling ++ more)) (hk' : k'.Plain) (hend' : k'.Ends more) :
    c.touching 0 = true := by
  obtain ⟨_, _, ts, _, -, -, htiling, -, hrest⟩ := h.tiles hk hend
  have hstarts : (Tile.mk [] k'.spelling k').Starts (k'.spelling ++ more) more :=
    Spells.starts (by simp) hk' hend'
  generalize k'.spelling ++ more = cs at htiling hstarts
  cases htiling with
  | finish hskip =>
    obtain ⟨ch, _, htext, -⟩ := hstarts.scan
    have := hstarts.skip.symm.trans hskip
    simp [htext] at this
  | tile ht _ =>
    obtain ⟨rfl, rfl⟩ := ht.unique hstarts
    simp [Cursor.touching, tokenAt, hrest, Tile.tokens]

/-- A colon touches a token only if it stands right behind it. -/
theorem colon_of_touching (h : c.Before src (k.spelling ++ rest)) (hk : k.Plain)
    (hend : k.Ends rest) (htouching : c.touching 0 = true) (hcolon : c.kindAt 1 = .mark .colon) :
    ∃ more, rest = ':' :: more := by
  obtain ⟨_, _, ts, _, -, -, htiling, -, hrest⟩ := h.tiles hk hend
  cases htiling with
  | finish => simp [kindAt, tokenAt, hrest, Tile.tokens] at hcolon
  | @tile _ rest' _ t ts ht _ =>
    simp only [kindAt, tokenAt, hrest, Tile.tokens, List.getElem?_cons_succ,
      List.getElem?_cons_zero, Option.getD_some] at hcolon
    simp only [Cursor.touching, tokenAt, hrest, Tile.tokens, List.getElem?_cons_succ,
      List.getElem?_cons_zero, Option.getD_some, beq_iff_eq] at htouching
    have hblank : t.blank = [] := by
      by_contra hne
      have := byteLength_pos hne
      omega
    have htext : t.text = [':'] := Spells.text_of_mark (hcolon ▸ ht.spells)
    exact ⟨rest', by rw [← ht.text_append, hblank, htext]; rfl⟩

/-- Behind the last token of a text stands the mark of its end. -/
theorem kind_of_blanks (h : c.Before src rest) (hblank : ∀ ch ∈ rest, isBlank ch = true) :
    c.kind = .endOfFile := by
  obtain ⟨_, gap, ts, tail, -, hgap, htiling, -, hrest⟩ := h
  have hblanks : ∀ ch ∈ gap ++ rest, isBlank ch = true := fun ch hch =>
    (List.mem_append.mp hch).elim (hgap ch) (hblank ch)
  have hskip := Lexer.splitTrivia_blanks hblanks []
  rw [List.append_nil] at hskip
  cases htiling with
  | finish => simp [Cursor.kind, kindAt, tokenAt, hrest, Tile.tokens]
  | tile ht _ =>
    obtain ⟨ch, more, htext, -⟩ := ht.scan
    have := ht.skip.symm.trans hskip
    simp [htext, Lexer.splitTrivia] at this

end Before

end Cursor

/-! ### Runs along a text -/

/-- A text has tokens. -/
def Tiles (cs : List Char) : Prop := ∃ ts tail, Tiling cs ts tail

theorem Tiles.blanks {gap cs : List Char} (hgap : ∀ ch ∈ gap, isBlank ch = true) (h : Tiles cs) :
    Tiles (gap ++ cs) := by
  obtain ⟨ts, tail, htiling⟩ := h
  have hskip := Lexer.splitTrivia_blanks hgap cs
  cases htiling with
  | finish h =>
    rw [h] at hskip
    exact ⟨[], _, .finish hskip⟩
  | @tile _ rest _ t ts ht more =>
    rw [ht.skip] at hskip
    exact ⟨⟨gap ++ t.blank, t.text, t.kind⟩ :: ts, tail, .tile ⟨hskip, ht.scan⟩ more⟩

theorem Tiles.token {k : TokenKind} {rest : List Char} (hk : k.Plain) (hend : k.Ends rest)
    (h : Tiles rest) : Tiles (k.spelling ++ rest) := by
  obtain ⟨ts, tail, htiling⟩ := h
  have hgap : ∀ ch ∈ ([] : List Char), isBlank ch = true := by simp
  exact ⟨_, _, .tile (Spells.starts hgap hk hend) htiling⟩

/-- From before a text one gets before its end `rest`, by steps that a relation describes. -/
structure Runs (src cs : List Char) (R : Cursor → Cursor → Prop) (rest : List Char) : Prop where
  tiles : Tiles rest → Tiles cs
  run : ∀ ⦃d : Cursor⦄, d.Before src cs → ∃ d', R d d' ∧ d'.Before src rest

namespace Runs

variable {src cs mid rest : List Char} {R S : Cursor → Cursor → Prop}

theorem seq (h : Runs src cs R mid) (h' : Runs src mid S rest) :
    Runs src cs (fun d d' => ∃ d₁, R d d₁ ∧ S d₁ d') rest where
  tiles := h.tiles ∘ h'.tiles
  run d hd := by
    obtain ⟨d₁, hR, hd₁⟩ := h.run hd
    obtain ⟨d', hS, hd'⟩ := h'.run hd₁
    exact ⟨d', ⟨d₁, hR, hS⟩, hd'⟩

theorem imp (h : Runs src cs R rest) (himp : ∀ d d', R d d' → S d d') : Runs src cs S rest where
  tiles := h.tiles
  run d hd := by
    obtain ⟨d', hR, hd'⟩ := h.run hd
    exact ⟨d', himp d d' hR, hd'⟩

/-- What a run gets before may be used to say what it does. -/
theorem before (h : Runs src cs R rest) :
    Runs src cs (fun d d' => R d d' ∧ d'.Before src rest) rest where
  tiles := h.tiles
  run d hd := by
    obtain ⟨d', hR, hd'⟩ := h.run hd
    exact ⟨d', ⟨hR, hd'⟩, hd'⟩

theorem kind_eq {k : TokenKind} (h : Runs src cs R rest) (hkind : ∀ d d', R d d' → d.kind = k)
    {d : Cursor} (hd : d.Before src cs) : d.kind = k := by
  obtain ⟨d', hR, -⟩ := h.run hd
  exact hkind d d' hR

/-- Two pieces start with the token that the first one starts with. -/
theorem seq_kind {k : TokenKind} (h : ∀ d d₁, R d d₁ → d.kind = k) :
    ∀ d d', (∃ d₁, R d d₁ ∧ S d₁ d') → d.kind = k := by
  rintro d d' ⟨d₁, hR, -⟩
  exact h d d₁ hR

/-- Nothing is read. -/
theorem here : Runs src cs (fun d d' => d' = d) cs := ⟨id, fun d hd => ⟨d, rfl, hd⟩⟩

theorem blanks {gap : List Char} (hgap : ∀ ch ∈ gap, isBlank ch = true)
    (h : Runs src cs R rest) : Runs src (gap ++ cs) R rest where
  tiles := Tiles.blanks hgap ∘ h.tiles
  run _ hd := h.run (hd.blanks hgap)

theorem space (h : Runs src cs R rest) : Runs src (' ' :: cs) R rest :=
  have hgap : ∀ ch ∈ [' '], isBlank ch = true := by simp [blank_space]
  h.blanks hgap

theorem token {k : TokenKind} (hk : k.Plain) (hend : k.Ends rest) :
    Runs src (k.spelling ++ rest) (fun d d' => d.kind = k ∧ d' = d.advance) rest where
  tiles := .token hk hend
  run d hd := ⟨d.advance, ⟨hd.kind hk hend, rfl⟩, hd.advance hk hend⟩

theorem mark (m : Mark) (hend : (TokenKind.mark m).Ends rest) :
    Runs src (m.text.toList ++ rest) (fun d d' => d.kind = .mark m ∧ d' = d.advance) rest :=
  token (TokenKind.plain_mark m) hend

/-- A tile that is not spelled as the printer spells it, with its place. -/
theorem tile {t : Tile} (ht : t.Starts cs rest) : Runs src cs (fun d d' => d.kind = t.kind ∧
    d' = d.advance ∧ d.start + byteLength (t.text ++ rest) = byteLength src ∧
    d'.passed + byteLength rest = byteLength src) rest where
  tiles := by
    rintro ⟨ts, tail, htiling⟩
    exact ⟨t :: ts, tail, .tile ht htiling⟩
  run d hd := by
    obtain ⟨front, gap, ts, tail, hsrc, hgap, htiling, hpassed, hrest⟩ := hd.tile ht
    have hsrc' : src = front ++ (gap ++ (t.blank ++ (t.text ++ rest))) := by
      rw [hsrc, ht.text_append]
    refine ⟨d.advance, ⟨?_, rfl, ?_, ?_⟩, front ++ (gap ++ (t.blank ++ t.text)), [], ts, tail, ?_,
      by simp, htiling, ?_, ?_⟩
    · simp [Cursor.kind, Cursor.kindAt, Cursor.tokenAt, hrest, Tile.tokens]
    · simp only [Cursor.start, Cursor.tokenAt, hrest, Tile.tokens, List.getElem?_cons_zero,
        Option.getD_some, hpassed, hsrc', byteLength_append]
      omega
    · simp only [Cursor.advance, hrest, Tile.tokens, hpassed, hsrc', byteLength_append]
      omega
    · rw [hsrc']
      simp
    · simp [Cursor.advance, hrest, Tile.tokens, hpassed, Nat.add_assoc]
    · simp [Cursor.advance, hrest, Tile.tokens]

/-- A mark that nothing lengthens. -/
theorem close (m : Mark) (h : m.joins = []) :
    Runs src (m.text.toList ++ rest) (fun d d' => d.kind = .mark m ∧ d' = d.advance) rest :=
  mark m (Mark.ends_of_joins_nil h rest)

theorem keyword (k : Keyword) (hend : HeadFails isWordChar rest) :
    Runs src (k.text.toList ++ rest) (fun d d' => d.kind = .keyword k ∧ d' = d.advance) rest :=
  token (TokenKind.plain_keyword k) hend

theorem congr {cs' : List Char} (h : Runs src cs R rest) (heq : cs' = cs) : Runs src cs' R rest :=
  heq ▸ h

end Runs

end Durable
