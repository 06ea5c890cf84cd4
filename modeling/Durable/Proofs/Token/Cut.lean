/-
Tokens in front of a cut.

A scanner looks a few characters beyond the token it scans.  Where a text is cut behind the token,
or further on, and goes on there with one of the characters of `cuts`, the token is scanned all the
same: such a character joins nothing that stands before it.  That is how a piece of a source text
keeps its tokens when it is printed into another text, or when the text behind it is edited.
-/
import Durable.Proofs.Token.Spelling

namespace Durable

open Text

/-- A character that joins no token before it. -/
def cuts (x : Char) : Bool := x == ' ' || x == '(' || x == ';' || x == '@'

theorem cuts_cases {x : Char} (hx : cuts x = true) : x = ' ' ∨ x = '(' ∨ x = ';' ∨ x = '@' := by
  simpa [cuts, or_assoc] using hx

theorem isDigit_of_cuts {x : Char} (hx : cuts x = true) : x.isDigit = false := by
  rcases cuts_cases hx with rfl | rfl | rfl | rfl <;> decide

theorem isWordChar_of_cuts {x : Char} (hx : cuts x = true) : isWordChar x = false := by
  rcases cuts_cases hx with rfl | rfl | rfl | rfl <;> decide

namespace Text

/-- A run that ends no later than the cut is the same in front of another text. -/
theorem takeWhile_cut {p : Char → Bool} {q r : List Char} {x : Char} (hx : p x = false)
    (h : ((q ++ r).takeWhile p).length ≤ q.length) (more : List Char) :
    (q ++ x :: more).takeWhile p = (q ++ r).takeWhile p := by
  induction q with
  | nil =>
    have hnone : r.takeWhile p = [] := List.eq_nil_of_length_eq_zero (Nat.le_zero.mp h)
    simp [hx, hnone]
  | cons c q ih =>
    by_cases hc : p c = true
    · simp only [List.cons_append, List.takeWhile_cons, hc, if_true, List.length_cons] at h ⊢
      rw [ih (by omega)]
    · simp [hc]

end Text

namespace Lexer

variable {q r more : List Char} {x : Char}

/-! ### Numbers -/

theorem fractionLength_cut (hx : cuts x = true) (h : fractionLength (q ++ r) ≤ q.length) :
    fractionLength (q ++ x :: more) = fractionLength (q ++ r) := by
  have hdigit := isDigit_of_cuts hx
  match q with
  | [] =>
    have hnone : fractionLength (x :: more) = 0 := by
      rcases cuts_cases hx with rfl | rfl | rfl | rfl <;> rfl
    simp only [List.nil_append, List.length_nil] at h ⊢
    omega
  | [c] =>
    by_cases hc : c = '.'
    · subst hc
      cases r with
      | nil => simp [fractionLength, hdigit]
      | cons d r =>
        cases hd : d.isDigit
        · simp [fractionLength, hdigit, hd]
        · simp only [List.singleton_append, fractionLength, hd, if_true, List.takeWhile_cons,
            List.length_cons, List.length_nil] at h
          omega
    · simp [fractionLength, hc]
  | c :: d :: q =>
    by_cases hc : c = '.'
    · subst hc
      cases hd : d.isDigit
      · simp [fractionLength, hd]
      · have hrun := takeWhile_cut (q := d :: q) (r := r) hdigit ?_ more
        · simp only [List.cons_append] at hrun
          simp only [List.cons_append, fractionLength, hd, if_true, hrun]
        · simp only [List.cons_append, fractionLength, hd, if_true, List.length_cons] at h ⊢
          omega
    · simp [fractionLength, hc]

theorem exponentLength_cut (hx : cuts x = true) (h : exponentLength (q ++ r) ≤ q.length) :
    exponentLength (q ++ x :: more) = exponentLength (q ++ r) := by
  have hdigit := isDigit_of_cuts hx
  have hsign : signLength (x :: more) = 0 := by
    rcases cuts_cases hx with rfl | rfl | rfl | rfl <;> rfl
  cases q with
  | nil =>
    have hnone : exponentLength (x :: more) = 0 := by
      rcases cuts_cases hx with rfl | rfl | rfl | rfl <;> rfl
    simp only [List.nil_append, List.length_nil] at h ⊢
    omega
  | cons e q =>
    simp only [List.cons_append, exponentLength_cons, List.length_cons] at h ⊢
    by_cases he : (e == 'e' || e == 'E') = true
    · simp only [he, if_true] at h ⊢
      cases q with
      | nil =>
        -- Behind the letter alone stood no digits, for they would be part of the number.
        have hnone : ((r.drop (signLength r)).takeWhile Char.isDigit).length = 0 := by
          simp only [List.nil_append, List.length_nil] at h
          split at h <;> omega
        simp [hsign, hdigit, hnone]
      | cons s q =>
        -- The sign, if there is one, stands before the cut.
        have hle : signLength (s :: q) ≤ (s :: q).length := by
          simp only [signLength, List.length_cons]
          split <;> omega
        have hcut : ∀ cs, (s :: q ++ cs).drop (signLength (s :: q ++ cs))
            = (s :: q).drop (signLength (s :: q)) ++ cs := fun cs =>
          List.drop_append_of_le_length hle
        have hlen : ∀ cs, signLength (s :: q ++ cs) = signLength (s :: q) := fun _ => rfl
        rw [hcut, hlen] at h
        rw [hcut, hcut, hlen, hlen, takeWhile_cut hdigit ?_ more]
        simp only [List.length_drop]
        split at h <;> omega
    · simp [he]

/-- A letter in front of the cut becomes a suffix there, unless a word went on behind it. -/
theorem suffixLength_cut (hx : cuts x = true)
    (hword : ∀ c, q = [c] → suffixLength (c :: r) = 0 → isWordStart c = true →
      HeadFails isWordChar r) (h : suffixLength (q ++ r) ≤ q.length) :
    suffixLength (q ++ x :: more) = suffixLength (q ++ r) := by
  have hchar := isWordChar_of_cuts hx
  match q with
  | [] =>
    have hnone : suffixLength (x :: more) = 0 := by
      rcases cuts_cases hx with rfl | rfl | rfl | rfl <;> rfl
    simp only [List.nil_append, List.length_nil] at h ⊢
    omega
  | [c] =>
    by_cases hc : (c == 'd' || c == 'D' || c == 'f' || c == 'F') = true
    · have hstart : isWordStart c = true := by
        simp only [Bool.or_eq_true, beq_iff_eq] at hc
        rcases hc with ((rfl | rfl) | rfl) | rfl <;> decide
      have hhead : HeadFails isWordChar r := by
        by_cases hzero : suffixLength (c :: r) = 0
        · exact hword c rfl hzero hstart
        · cases r with
          | nil => exact .nil
          | cons d r => simpa [suffixLength, hc, headFails_cons] using hzero
      cases r with
      | nil => simp [suffixLength, hc, hchar]
      | cons d r => simp [suffixLength, hc, hchar, headFails_cons.mp hhead]
    · simp [suffixLength, hc]
  | c :: d :: q => rfl

/-- The number of characters of the number in base ten that a text starts with. -/
def decimalLength (cs : List Char) : Nat :=
  let whole := (cs.takeWhile Char.isDigit).length
  let fraction := fractionLength (cs.drop whole)
  let exponent := exponentLength (cs.drop (whole + fraction))
  whole + fraction + exponent + suffixLength (cs.drop (whole + fraction + exponent))

theorem decimalLength_cut (hx : cuts x = true)
    (hword : ∀ c, q.drop (decimalLength (q ++ r)) = [c] → isWordStart c = true →
      HeadFails isWordChar r) (h : decimalLength (q ++ r) ≤ q.length) :
    decimalLength (q ++ x :: more) = decimalLength (q ++ r) := by
  have hdigit := isDigit_of_cuts hx
  unfold decimalLength at h hword ⊢
  simp only at h hword ⊢
  rw [takeWhile_cut hdigit (r := r) (by omega) more]
  generalize ((q ++ r).takeWhile Char.isDigit).length = w at h hword ⊢
  have hw : ∀ cs, (q ++ cs).drop w = q.drop w ++ cs := fun cs =>
    List.drop_append_of_le_length (by omega)
  rw [hw, hw, fractionLength_cut (r := r) hx (by rw [← hw, List.length_drop]; omega), ← hw r]
  generalize fractionLength ((q ++ r).drop w) = f at h hword ⊢
  have hf : ∀ cs, (q ++ cs).drop (w + f) = q.drop (w + f) ++ cs := fun cs =>
    List.drop_append_of_le_length (by omega)
  rw [hf, hf, exponentLength_cut (r := r) hx (by rw [← hf, List.length_drop]; omega), ← hf r]
  generalize exponentLength ((q ++ r).drop (w + f)) = e at h hword ⊢
  have he : ∀ cs, (q ++ cs).drop (w + f + e) = q.drop (w + f + e) ++ cs := fun cs =>
    List.drop_append_of_le_length (by omega)
  rw [he] at h hword
  rw [he, he, suffixLength_cut (r := r) hx (fun c hc hzero => ?_) (by rw [List.length_drop]; omega)]
  rw [hc, List.singleton_append, hzero, Nat.add_zero] at hword
  exact hword c hc

/-- A number in base sixteen starts here. -/
def IsHex (cs : List Char) : Prop := ∃ letter digits, cs = '0' :: letter :: digits ∧
  (letter = 'x' ∨ letter = 'X')

theorem IsHex.of_append {q cs : List Char} (h : IsHex (q ++ cs)) (hq : q ≠ []) :
    IsHex q ∨ q.length = 1 ∧ ∃ letter more, cs = letter :: more ∧ (letter = 'x' ∨ letter = 'X') := by
  obtain ⟨letter, digits, heq, hletter⟩ := h
  match q with
  | [] => exact absurd rfl hq
  | [c] =>
    simp only [List.singleton_append, List.cons.injEq] at heq
    exact .inr ⟨rfl, letter, digits, heq.2, hletter⟩
  | c :: d :: q =>
    simp only [List.cons_append, List.cons.injEq] at heq
    obtain ⟨rfl, rfl, -⟩ := heq
    exact .inl ⟨d, q, rfl, hletter⟩

theorem scanNumber_hex {letter : Char} (h : letter = 'x' ∨ letter = 'X') (digits : List Char) :
    scanNumber ('0' :: letter :: digits) = scanNumber.hex letter digits := by
  rcases h with rfl | rfl <;> rfl

theorem scanNumber_decimal {cs : List Char} (h : ¬ IsHex cs) :
    (scanNumber cs).text = cs.take (decimalLength cs) ∧ (scanNumber cs).kind =
      numberKind (decimalLength cs != (cs.takeWhile Char.isDigit).length)
        (cs.take (decimalLength cs)) := by
  unfold scanNumber
  split
  · exact absurd ⟨_, _, rfl, .inl rfl⟩ h
  · exact absurd ⟨_, _, rfl, .inr rfl⟩ h
  · refine ⟨rfl, ?_⟩
    simp only [numberKind, bne_iff_ne, ne_eq, ite_not]
    rfl

/-- A number in base sixteen has its first digits in front of the cut. -/
theorem scanNumber_cut_of_isHex (hx : cuts x = true) (hhex : IsHex q)
    (h : (scanNumber (q ++ r)).text.length ≤ q.length) (more : List Char) :
    (scanNumber (q ++ x :: more)).kind = (scanNumber (q ++ r)).kind ∧
      (scanNumber (q ++ x :: more)).text = (scanNumber (q ++ r)).text := by
  obtain ⟨letter, digits, rfl, hletter⟩ := hhex
  simp only [List.cons_append, scanNumber_hex hletter, scanNumber.hex, List.length_cons] at h ⊢
  have hrun : (digits ++ x :: more).takeWhile isHexDigit = (digits ++ r).takeWhile isHexDigit :=
    takeWhile_cut (by rcases cuts_cases hx with rfl | rfl | rfl | rfl <;> decide) (by omega) more
  simp [hrun]

/-- No number in base sixteen starts in front of the cut and goes on behind it. -/
theorem not_isHex_cut (hx : cuts x = true) (hhex : ¬ IsHex q) (hne : q ≠ [])
    (h : (scanNumber (q ++ r)).text.length ≤ q.length) (more : List Char) :
    ¬ IsHex (q ++ r) ∧ ¬ IsHex (q ++ x :: more) := by
  constructor
  · intro hhex'
    obtain hhex' | ⟨hone, letter, digits, rfl, hletter⟩ := hhex'.of_append hne
    · exact hhex hhex'
    · obtain ⟨c, rfl⟩ := List.length_eq_one_iff.mp hone
      obtain ⟨_, _, heq, -⟩ := hhex'
      obtain ⟨rfl, -⟩ := List.cons.inj heq
      rw [List.singleton_append, scanNumber_hex hletter, scanNumber.hex] at h
      simp at h
  · intro hhex'
    obtain hhex' | ⟨-, letter, digits, heq, hletter⟩ := hhex'.of_append hne
    · exact hhex hhex'
    · obtain ⟨rfl, -⟩ := List.cons.inj heq
      rcases hletter with rfl | rfl <;> exact absurd hx (by decide)

/-- The kind and the text of a number say what is left. -/
theorem scanNumber_eq {text rest : List Char} {k : TokenKind}
    (hkind : (scanNumber (text ++ rest)).kind = k)
    (htext : (scanNumber (text ++ rest)).text = text) :
    scanNumber (text ++ rest) = ⟨k, text, rest⟩ := by
  have hrest := scanNumber_append (text ++ rest)
  rw [htext, List.append_cancel_left_eq] at hrest
  generalize scanNumber (text ++ rest) = l' at hkind htext hrest ⊢
  cases l'
  simp_all

/-- A number ends where it did before the text was cut. -/
theorem scanNumber_cut {text p : List Char} {k : TokenKind} (hx : cuts x = true) (hr : r ≠ [])
    (hword : ∀ c, p = [c] → isWordStart c = true → HeadFails isWordChar r)
    (h : scanNumber (text ++ (p ++ r)) = ⟨k, text, p ++ r⟩) (hne : text ≠ [])
    (more : List Char) :
    scanNumber (text ++ (p ++ x :: more)) = ⟨k, text, p ++ x :: more⟩ := by
  suffices (scanNumber (text ++ p ++ x :: more)).kind = k ∧
      (scanNumber (text ++ p ++ x :: more)).text = text by
    rw [List.append_assoc] at this
    exact scanNumber_eq this.1 this.2
  rw [← List.append_assoc] at h
  have hq : text.length ≤ (text ++ p).length := by simp
  have hle : (scanNumber (text ++ p ++ r)).text.length ≤ (text ++ p).length := by rwa [h]
  by_cases hhex : IsHex (text ++ p)
  · have hcut := scanNumber_cut_of_isHex hx hhex hle more
    rwa [h] at hcut
  · obtain ⟨hdecimal, hdecimal'⟩ := not_isHex_cut hx hhex (by simp [hne]) hle more
    obtain ⟨htext, hkind⟩ := scanNumber_decimal hdecimal
    obtain ⟨htext', hkind'⟩ := scanNumber_decimal hdecimal'
    simp only [h] at htext hkind
    have hlen : decimalLength (text ++ p ++ r) = text.length := by
      have hlt := congrArg List.length htext
      have hpos := List.length_pos_iff.mpr hr
      rw [List.length_take, List.length_append] at hlt
      omega
    have hcut : decimalLength (text ++ p ++ x :: more) = decimalLength (text ++ p ++ r) := by
      refine decimalLength_cut hx (fun c hc => ?_) (by omega)
      rw [hlen, List.drop_left] at hc
      exact hword c hc
    have hdigits : (text ++ p ++ x :: more).takeWhile Char.isDigit
        = (text ++ p ++ r).takeWhile Char.isDigit := by
      refine takeWhile_cut (isDigit_of_cuts hx) ?_ more
      unfold decimalLength at hlen
      simp only at hlen
      omega
    have htake : (text ++ p ++ x :: more).take text.length = text := by simp
    rw [htext', hkind', hcut, hdigits, hkind, ← htext, hlen, htake]
    exact ⟨rfl, rfl⟩

/-! ### One token -/

end Lexer

theorem Mark.not_mem_tail {x : Char} (hx : cuts x = true) (m : Mark) : x ∉ m.text.toList.tail := by
  rcases cuts_cases hx with rfl | rfl | rfl | rfl <;> cases m <;> decide

theorem Mark.text_of_ofChars? {cs : List Char} {m : Mark} (h : ofChars? cs = some m) :
    m.text.toList = cs.take m.text.length := by
  have hlead : m.text.toList.isPrefixOf cs = true := by simpa using List.find?_some h
  rw [← String.length_toList]
  exact List.prefix_iff_eq_take.mp (List.isPrefixOf_iff_prefix.mp hlead)

/-- No mark reaches beyond the cut. -/
theorem Mark.ofChars?_cut {q r : List Char} {x : Char} {m : Mark} (hx : cuts x = true)
    (hq : q ≠ []) (hle : m.text.toList.length ≤ q.length) (h : ofChars? (q ++ r) = some m)
    (more : List Char) :
    ofChars? (q ++ x :: more) = some m := by
  unfold ofChars? at h ⊢
  simp only [List.find?_eq_some_iff_append, List.isPrefixOf_iff_prefix, Bool.not_eq_true',
    Bool.eq_false_iff, ne_eq] at h ⊢
  obtain ⟨hm, as, bs, hall, has⟩ := h
  refine ⟨(List.prefix_of_prefix_length_le hm (List.prefix_append q r) hle).trans
    (List.prefix_append _ _), as, bs, hall, fun a ha hlong => has a ha ?_⟩
  rcases List.prefix_or_prefix_of_prefix hlong (List.prefix_append q (x :: more)) with hshort | hover
  · exact hshort.trans (List.prefix_append _ _)
  · obtain ⟨behind, hbehind⟩ := hover
    cases behind with
    | nil =>
      rw [List.append_nil] at hbehind
      exact hbehind ▸ List.prefix_append _ _
    | cons y behind =>
      -- The mark would go on with the character at the cut.
      rw [← hbehind, List.prefix_append_right_inj] at hlong
      obtain ⟨_, heq⟩ := hlong
      obtain ⟨rfl, -⟩ := List.cons.inj heq
      obtain ⟨c, q, rfl⟩ := List.exists_cons_of_ne_nil hq
      refine absurd ?_ (a.not_mem_tail hx)
      rw [← hbehind]
      simp

namespace Lexer

variable {text p r : List Char} {x : Char}

/-- A run in front of the cut ends where it did. -/
theorem run_cut {q : Char → Bool} (hx : q x = false) (h : (text ++ (p ++ r)).takeWhile q = text)
    (more : List Char) :
    (text ++ (p ++ x :: more)).takeWhile q = text ∧
      (text ++ (p ++ x :: more)).dropWhile q = p ++ x :: more := by
  have hrun : (text ++ (p ++ x :: more)).takeWhile q = text := by
    rw [← List.append_assoc] at h ⊢
    rw [takeWhile_cut hx (by rw [h]; simp) more, h]
  refine ⟨hrun, (List.append_cancel_left_eq text _ _).mp ?_⟩
  have := List.takeWhile_append_dropWhile (p := q) (l := text ++ (p ++ x :: more))
  rwa [hrun] at this

/-- **A token that ends before the cut ended there before the text was cut.** -/
theorem scanToken_cut {k : TokenKind} (hx : cuts x = true) (hr : r ≠ [])
    (hword : ∀ c, p = [c] → isWordStart c = true → HeadFails isWordChar r)
    (h : ∃ c cs, text ++ (p ++ r) = c :: cs ∧
      ∀ offset, scanToken offset c cs = .ok ⟨k, text, p ++ r⟩) (more : List Char) :
    ∃ c cs, text ++ (p ++ x :: more) = c :: cs ∧
      ∀ offset, scanToken offset c cs = .ok ⟨k, text, p ++ x :: more⟩ := by
  obtain ⟨c, cs, hcs, hscan⟩ := h
  have hne : text ≠ [] := (scanToken_append (hscan 0)).2
  obtain ⟨d, text, rfl⟩ := List.exists_cons_of_ne_nil hne
  rw [List.cons_append] at hcs
  obtain ⟨rfl, rfl⟩ := List.cons.inj hcs
  refine ⟨d, text ++ (p ++ x :: more), rfl, fun offset => ?_⟩
  have hscan := hscan offset
  have hchar := isWordChar_of_cuts hx
  unfold scanToken at hscan ⊢
  split at hscan
  · next hstart =>
    rw [if_pos hstart]
    simp only [scanWord, Except.ok.injEq, Lexeme.mk.injEq] at hscan ⊢
    obtain ⟨rfl, hrun, -⟩ := hscan
    have := run_cut hchar (by rwa [List.cons_append]) more
    simp_all
  next hstart =>
  rw [if_neg hstart]
  split at hscan
  · next hquote =>
    rw [if_pos hquote]
    simp only [scanQuotedName, Except.ok.injEq, Lexeme.mk.injEq, List.cons.injEq] at hscan ⊢
    obtain ⟨rfl, ⟨rfl, hrun⟩, -⟩ := hscan
    obtain ⟨hrun', hrest⟩ := run_cut hchar hrun more
    simp_all
  next hquote =>
  rw [if_neg hquote]
  split at hscan
  · next hdigit =>
    rw [if_pos hdigit]
    simp only [Except.ok.injEq] at hscan ⊢
    exact scanNumber_cut hx hr hword hscan hne more
  next hdigit =>
  rw [if_neg hdigit]
  split at hscan
  · next hmark =>
    rw [if_pos hmark]
    obtain ⟨value, read, hread, hkind, htext⟩ := scanString_eq_ok hscan
    obtain ⟨rfl, rfl⟩ := List.cons.inj htext
    obtain rfl : k = _ := hkind
    rw [scanString, scanQuoted_replace hread]
  next hmark =>
  rw [if_neg hmark]
  split at hscan
  · next m hm =>
    simp only [Except.ok.injEq, Lexeme.mk.injEq] at hscan
    obtain ⟨rfl, htake, -⟩ := hscan
    have htext : m.text.toList = d :: text := (Mark.text_of_ofChars? hm).trans htake
    have hcut := Mark.ofChars?_cut (q := d :: text ++ p) (r := r) hx (by simp) (by rw [htext]; simp)
      (by simpa using hm) more
    simp only [List.cons_append, List.append_assoc] at hcut
    simp only [hcut]
    have hlen : m.text.length = (d :: text).length := by rw [← htext, String.length_toList]
    simp only [hlen, ← List.cons_append, List.take_left, List.drop_left]
  · simp at hscan

end Lexer

namespace Tile.Starts

variable {t : Tile} {cs p r rest more : List Char} {x : Char}

/-- A token is the same without the blanks before it. -/
theorem bare (h : t.Starts cs rest) : (Tile.mk [] t.text t.kind).Starts (t.text ++ rest) rest := by
  refine ⟨?_, h.scan⟩
  obtain ⟨c, more, htext, -⟩ := h.scan
  obtain ⟨hblank, hslash⟩ := Lexer.splitTrivia_rest (htext ▸ h.skip)
  simp only [htext]
  rw [Lexer.splitTrivia, if_neg (by simp [hblank])]
  intro x hc hx
  exact hslash x (by rw [hc, hx])

/-- **A tile that ends before the cut ended there before the text was cut.** -/
theorem cut (h : t.Starts cs (p ++ r)) (hx : cuts x = true) (hr : r ≠ [])
    (hword : ∀ c, p = [c] → isWordStart c = true → HeadFails isWordChar r) :
    t.Starts (t.blank ++ (t.text ++ (p ++ x :: more))) (p ++ x :: more) := by
  have hscan := Lexer.scanToken_cut hx hr hword h.scan more
  refine ⟨?_, hscan⟩
  obtain ⟨c, others, htext, hscan₁⟩ := h.scan
  obtain ⟨hblank, hslash⟩ := Lexer.splitTrivia_rest (htext ▸ h.skip)
  obtain ⟨d, text, hd⟩ := List.exists_cons_of_ne_nil (Lexer.scanToken_append (hscan₁ 0)).2
  simp only at hd
  rw [hd, List.cons_append] at htext
  obtain ⟨rfl, rfl⟩ := List.cons.inj htext
  have hskip := h.skip
  rw [hd, List.cons_append] at hskip ⊢
  refine Lexer.splitTrivia_replace hskip hblank fun y heq => ?_
  simp only [List.cons.injEq] at heq
  obtain ⟨rfl, heq⟩ := heq
  rw [← List.append_assoc] at heq
  -- A second slash would stand before the cut, or be the character at the cut.
  cases hq : text ++ p with
  | nil =>
    rw [hq, List.nil_append, List.cons.injEq] at heq
    rw [heq.1] at hx
    exact absurd hx (by decide)
  | cons z q =>
    rw [hq, List.cons_append, List.cons.injEq] at heq
    rw [← List.append_assoc, hq, heq.1] at hslash
    exact hslash (q ++ r) (by simp)

/-- No word goes on behind a word. -/
theorem headFails (h : t.Starts cs r) {c : Char} (htext : t.text = [c])
    (hc : isWordStart c = true) : HeadFails isWordChar r := by
  obtain ⟨d, others, heq, hscan⟩ := h.scan
  rw [htext, List.singleton_append, List.cons.injEq] at heq
  obtain ⟨rfl, rfl⟩ := heq
  have hword := hscan 0
  rw [Lexer.scanToken, if_pos hc] at hword
  simp only [Lexer.scanWord, Except.ok.injEq, Lexer.Lexeme.mk.injEq] at hword
  have hdrop := headFails_dropWhile isWordChar (c :: r)
  rwa [hword.2.2] at hdrop

end Tile.Starts

end Durable
