/-
Phrases that are printed and read again.

A symbol of the grammar reads a tree; `Sym.text` is how the printer writes such a tree.
`s.Reprints src c t stop` says that the text of `t` is read by `s` as `t` again, spans aside, and
that it starts with the kind of token that stands at `c`.  What comes behind the text must stop
the phrase, which is what `stop` is about: as a rule, `c'.Follows d` says that the token at `d`
stops it as the token at `c'` stopped the phrase when it was first read, or is one that goes on no
phrase.  The items of lists in parentheses, brackets and braces are stopped by commas and closing
marks, wherever they stood.
-/
import Durable.Proofs.Grammar.Starts
import Durable.Proofs.Print.Walk
import Durable.Proofs.Tree.Erase

namespace Durable

open Text

/-! ### Plain cursors -/

namespace Cursor

/-- All tokens left at a cursor are spelled the way the printer writes them. -/
def Plain (c : Cursor) : Prop := ∀ t ∈ c.rest, t.kind.Plain

variable {c c' : Cursor}

theorem Plain.advance (h : c.Plain) : c.advance.Plain := by
  intro t ht
  unfold Cursor.advance at ht
  split at ht
  · exact h t ht
  · next hrest => exact h t (by simp_all)

theorem Plain.reaches (h : c.Plain) (hr : c.Reaches c') : c'.Plain :=
  hr.keeps (fun _ hc => hc.advance) h

theorem Plain.kind (h : c.Plain) (hc : c.kind ≠ .endOfFile) : c.kind.Plain := by
  cases hrest : c.rest with
  | nil => exact absurd hrest (rest_ne_nil hc)
  | cons t ts =>
    have := h t (by simp [hrest])
    simpa [Cursor.kind, kindAt, tokenAt, hrest] using this

end Cursor

/-! ### What may follow a phrase -/

namespace TokenKind

/-- A token that stands behind an item of a list in parentheses, brackets or braces. -/
def closes : TokenKind → Bool
  | mark .comma | mark .closeParen | mark .closeBracket | mark .closeBrace => true
  | _ => false

/-- A token that goes on no phrase: one that stands behind an item of a list, a colon, a semicolon
or a name. -/
def stops : TokenKind → Bool
  | mark .colon | mark .semicolon | ident _ => true
  | k => k.closes

theorem stops_of_closes {k : TokenKind} (h : k.closes = true) : k.stops = true := by
  unfold closes at h
  split at h <;> first | rfl | simp at h

theorem binaryOp?_of_stops {k : TokenKind} (h : k.stops = true) : Grammar.binaryOp? k = none := by
  unfold stops closes at h
  repeat' split at h
  all_goals first | rfl | simp at h

end TokenKind

namespace Cursor

/-- A pair of empty brackets comes next. -/
def AtBrackets (c : Cursor) : Prop :=
  c.kind = .mark .openBracket ∧ c.kindAt 1 = .mark .closeBracket

/-- What comes next stops a phrase as what came next at another cursor did. -/
structure Follows (c d : Cursor) : Prop where
  kind : d.kind = c.kind ∨ d.kind.stops = true
  brackets : d.AtBrackets → c.AtBrackets

variable {c d : Cursor}

namespace Follows

theorem of_kind (h : d.kind = c.kind) (hd : d.kind ≠ .mark .openBracket) : c.Follows d :=
  ⟨.inl h, fun hat => absurd hat.1 hd⟩

theorem of_stops (h : d.kind.stops = true) : c.Follows d :=
  ⟨.inr h, fun hat => by rw [hat.1] at h; exact absurd h (by decide)⟩

theorem of_closes (h : d.kind.closes = true) : c.Follows d :=
  .of_stops (TokenKind.stops_of_closes h)

theorem ne (h : c.Follows d) {k : TokenKind} (hc : c.kind ≠ k) (hk : k.stops = false) :
    d.kind ≠ k := by
  rintro rfl
  rcases h.kind with heq | hstop
  · exact hc heq.symm
  · simp [hk] at hstop

theorem endsType (h : c.Follows d) (hc : c.EndsType) : d.EndsType :=
  ⟨h.ne hc.1 rfl, fun hat => hc.2 (h.brackets hat)⟩

theorem endsAccess (h : c.Follows d) (hc : c.EndsAccess) : d.EndsAccess :=
  ⟨h.ne hc.1 rfl, h.ne hc.2.1 rfl, fun hd => h.ne hc.2.2 rfl hd⟩

theorem endsOperand (h : c.Follows d) {floor : Nat} (hc : c.EndsOperand floor) :
    d.EndsOperand floor := by
  refine ⟨fun ⟨hd, hle⟩ => ?_, fun op hop => ?_⟩
  · exact h.ne (fun heq => hc.1 ⟨heq, hle⟩) rfl hd
  · rcases h.kind with heq | hstop
    · exact hc.2 op (heq ▸ hop)
    · simp [TokenKind.binaryOp?_of_stops hstop] at hop

end Follows

theorem EndsAccess.of_question (h : d.kind = .mark .question) : d.EndsAccess := by
  simp [EndsAccess, h]

theorem EndsOperand.of_question {floor : Nat} (h : d.kind = .mark .question) :
    d.EndsOperand floor := by
  have hnone : Grammar.binaryOp? (.mark .question) = none := rfl
  simp [EndsOperand, h, hnone]

end Cursor

/-! ### Texts of phrases -/

/-- How the printer writes what a symbol reads; lists are written where they stand. -/
def Sym.text : (s : Sym) → s.Result → List Char
  | .type, t | .intersection, t | .suffixed, t | .suffixing, t | .plainType, t => t.print.toList
  | .typeArgument, t => '<' :: (t.print.toList ++ ['>'])
  | .typeParam, x => x.2.print.toList ++ if x.1 then ['.', '.', '.'] else []
  | .recordItem, .inl f => (printRecordFields [f]).toList
  | .recordItem, .inr t => ' ' :: (t.print.toList ++ ['.', '.', '.', ';'])
  | .expr, e | .binary _, e | .joining _, e | .unary, e | .accessed, e | .accessing, e
  | .primary, e | .mapping, e => e.print.toList
  | .arg, a => (printArgs [a]).flatMap String.toList
  | .mappingField, f => (printFields [f]).flatMap String.toList
  | .tag, a => a.print.toList
  | .param, p => p.print.toList
  | .localVar, d => d.print.toList
  | .many _ _, _ | .separated _ _, _ | .commaList _ _, _ | .behind _ _, _ | .given _ _, _ => []

/-- What a symbol reads, without its places. -/
def Sym.erase : (s : Sym) → s.Result → s.Result
  | .type, t | .intersection, t | .suffixed, t | .suffixing, t | .plainType, t
  | .typeArgument, t => t.erase
  | .typeParam, x => (x.1, x.2.erase)
  | .recordItem, .inl f => .inl f.erase
  | .recordItem, .inr t => .inr t.erase
  | .expr, e | .binary _, e | .joining _, e | .unary, e | .accessed, e | .accessing, e
  | .primary, e | .mapping, e => e.erase
  | .arg, a => a.erase
  | .mappingField, f => f.erase
  | .tag, a => a.erase
  | .param, p => p.erase
  | .localVar, d => d.erase
  | .many _ s, as | .separated _ s, as | .commaList _ s, as => as.map s.erase
  | .behind _ s, a | .given _ s, a => a.map s.erase

/-- The text of a phrase is read as the phrase, where what follows stops it. -/
structure Reprints (src : List Char) (s : Sym) (c : Cursor) (t : s.Result)
    (stop : Cursor → Prop) : Prop where
  opens : Opens (s.text t)
  runs : ∀ ⦃rest⦄, Clear rest → (∀ d, d.Before src rest → stop d) →
    Runs src (s.text t ++ rest)
      (fun d d' => d.kind = c.kind ∧ ∃ t', Reads s d t' d' ∧ s.erase t' = s.erase t) rest

namespace Reprints

variable {src : List Char} {s : Sym} {c : Cursor} {t : s.Result} {stop stop' : Cursor → Prop}

theorem mono (h : Reprints src s c t stop) (himp : ∀ d, stop' d → stop d) :
    Reprints src s c t stop' :=
  ⟨h.opens, fun _ hclear hstop => h.runs hclear fun d hd => himp d (hstop d hd)⟩

end Reprints

namespace Runs

variable {src cs mid rest : List Char} {R S : Cursor → Cursor → Prop} {c : Cursor}

/-- What is read next stops a phrase as the token did that once stood there. -/
theorem follows {k : TokenKind} (h : Runs src cs R rest) (hkind : ∀ d d', R d d' → d.kind = k)
    (hc : c.kind = k) (hk : k ≠ .mark .openBracket) : ∀ d : Cursor, d.Before src cs → c.Follows d := by
  intro d hd
  have := h.kind_eq hkind hd
  exact .of_kind (this.trans hc.symm) (this ▸ hk)

theorem closes {k : TokenKind} (h : Runs src cs R rest) (hkind : ∀ d d', R d d' → d.kind = k)
    (hk : k.closes = true) : ∀ d : Cursor, d.Before src cs → d.kind.closes = true := by
  intro d hd
  rw [h.kind_eq hkind hd]
  exact hk

end Runs

/-! ### Lists -/

theorem intercalate_cons (sep a : List Char) (as : List (List Char)) :
    sep.intercalate (a :: as) = a ++ as.flatMap (sep ++ ·) := by
  induction as generalizing a with
  | nil => simp [List.intercalate]
  | cons b bs ih =>
    have := ih b
    simp_all [List.intercalate]

section

variable {src : List Char} {s : Sym}

theorem clear_commas {close : Mark} (hclose : (TokenKind.mark close).closes = true)
    (as : List s.Result) (rest : List Char) :
    Clear (as.flatMap (fun a => ',' :: ' ' :: s.text a) ++ (close.text.toList ++ rest)) := by
  cases as with
  | nil => cases close <;> first | exact .cons (by decide) _ | simp [TokenKind.closes] at hclose
  | cons b bs => exact .cons (by decide) _

/-- The items of a list behind the first one, up to its closing mark. -/
theorem runs_commas {close : Mark} (hclose : (TokenKind.mark close).closes = true)
    (hcomma : close ≠ .comma) {as : List s.Result}
    (h : ∀ a ∈ as, ∃ c, Reprints src s c a (·.kind.closes = true)) (rest : List Char) :
    Runs src (as.flatMap (fun a => ',' :: ' ' :: s.text a) ++ (close.text.toList ++ rest))
      (fun d d' => d.kind.closes = true ∧
        ∃ as', Reads (.many (.commas close) s) d as' d' ∧ as'.map s.erase = as.map s.erase)
      rest := by
  induction as with
  | nil =>
    have hjoins : close.joins = [] := by cases close <;> simp_all [TokenKind.closes, Mark.joins]
    refine (Runs.close close hjoins).imp ?_
    rintro d d' ⟨hk, rfl⟩
    refine ⟨by rw [hk]; exact hclose, [], .stop ?_, rfl⟩
    simp [Gap.step, hk, hcomma]
  | cons a as ih =>
    obtain ⟨c, ha⟩ := h a (by simp)
    have hothers := ih fun b hb => h b (by simp [hb])
    have hfirst := ha.runs (clear_commas hclose as rest) fun d hd => by
      obtain ⟨d', ⟨hk, -⟩, -⟩ := hothers.run hd
      exact hk
    refine (((Runs.close .comma rfl).seq (hfirst.space.seq hothers)).imp ?_).congr
      (by simp [Mark.text])
    rintro d d' ⟨_, ⟨hk, rfl⟩, d₁, ⟨-, a', hread, ha'⟩, -, as', hmany, has'⟩
    refine ⟨by rw [hk]; rfl, a' :: as', .more ?_ hread hmany, by simp [ha', has']⟩
    simp [Gap.step, hk]

/-- The items of a list whose opening mark stands before them, up to its closing mark. -/
theorem runs_commaList {close : Mark} (hclose : (TokenKind.mark close).closes = true)
    (hcomma : close ≠ .comma) (hs : ¬ s.Starts (.mark close)) {as : List s.Result}
    (h : ∀ a ∈ as, ∃ c, Reprints src s c a (·.kind.closes = true)) (rest : List Char) :
    Runs src ([',', ' '].intercalate (as.map s.text) ++ (close.text.toList ++ rest))
      (fun d d' => ∃ as', Reads (.commaList close s) d as' d' ∧ as'.map s.erase = as.map s.erase)
      rest := by
  cases as with
  | nil =>
    have hjoins : close.joins = [] := by cases close <;> simp_all [TokenKind.closes, Mark.joins]
    refine ((Runs.close close hjoins).imp ?_).congr (by simp [List.intercalate])
    rintro d d' ⟨hk, rfl⟩
    exact ⟨[], .noItems hk, rfl⟩
  | cons a as =>
    obtain ⟨c, ha⟩ := h a (by simp)
    have hothers := runs_commas hclose hcomma (fun b hb => h b (List.mem_cons_of_mem a hb)) rest
    have hfirst := ha.runs (clear_commas hclose as rest) fun d hd => by
      obtain ⟨d', ⟨hk, -⟩, -⟩ := hothers.run hd
      exact hk
    refine ((hfirst.seq hothers).imp ?_).congr
      (by simp [intercalate_cons, List.flatMap_map])
    rintro d d' ⟨d₁, ⟨-, a', hread, ha'⟩, -, as', hmany, has'⟩
    exact ⟨a' :: as', .items (fun heq => hs (heq ▸ hread.starts)) hread hmany, by simp [ha', has']⟩

/-- Blanks that the printer puts around a token that stands between two phrases. -/
structure Separates (k : TokenKind) (before behind : List Char) : Prop where
  plain : k.Plain
  blanks : ∀ ch ∈ before ++ behind, isBlank ch = true
  clear : ∀ more, Clear (before ++ (k.spelling ++ more))
  ends : ∀ {text}, Opens text → k.Ends (behind ++ text)
  ne : k ≠ .mark .openBracket

theorem separates_pipe : Separates (.mark .pipe) [] [] where
  plain := TokenKind.plain_mark _
  blanks := by simp
  clear more := .cons (by decide) more
  ends h := h.ends (by decide)
  ne := by decide

theorem separates_amp : Separates (.mark .amp) [' '] [' '] where
  plain := TokenKind.plain_mark _
  blanks := by simp [Text.blank_space]
  clear more := .cons (by decide) _
  ends _ := Mark.ends_cons (by decide) _
  ne := by decide

theorem separates_comma : Separates (.mark .comma) [] [' '] where
  plain := TokenKind.plain_mark _
  blanks := by simp [Text.blank_space]
  clear more := .cons (by decide) more
  ends _ := Mark.ends_cons (by decide) _
  ne := by decide

theorem separates_assign : Separates (.mark .assign) [' '] [' '] where
  plain := TokenKind.plain_mark _
  blanks := by simp [Text.blank_space]
  clear more := .cons (by decide) _
  ends _ := Mark.ends_cons (by decide) _
  ne := by decide

theorem separates_keyword (k : Keyword) : Separates (.keyword k) [' '] [' '] where
  plain := TokenKind.plain_keyword k
  blanks := by simp [Text.blank_space]
  clear more := .cons (by decide) _
  ends _ := headFails_cons.mpr (by decide)
  ne := by simp

variable {m : Mark} {before behind : List Char}

theorem between_stops {α : Type} {R : Cursor → α → Cursor → Prop} {c c' : Cursor} {as : List α}
    (h : Repeats (Gap.between m).step R c as c') : c'.kind ≠ .mark m := by
  induction h with
  | stop hstep =>
    obtain ⟨hne, rfl⟩ := between_stop hstep
    exact hne
  | more _ _ _ ih => exact ih

/-- The items of a list behind the first one, with a mark before each. -/
theorem runs_between (hm : Separates (.mark m) before behind) {c c' : Cursor} {as : List s.Result}
    (h : Repeats (Gap.between m).step (fun c a c' => Reprints src s c a c'.Follows) c as c')
    {rest : List Char} (hclear : Clear rest)
    (hstop : ∀ d : Cursor, d.Before src rest → c'.Follows d ∧ d.kind ≠ .mark m) :
    let text := as.flatMap (fun a => before ++ (m.text.toList ++ (behind ++ s.text a))) ++ rest
    Clear text ∧ (∀ d : Cursor, d.Before src text → c.Follows d) ∧
      Runs src text (fun d d' =>
        ∃ as', Reads (.many (.between m) s) d as' d' ∧ as'.map s.erase = as.map s.erase) rest := by
  induction h with
  | stop hstep =>
    obtain ⟨-, rfl⟩ := between_stop hstep
    refine ⟨hclear, fun d hd => (hstop d hd).1, ⟨id, fun d hd => ⟨d, ⟨[], .stop ?_, rfl⟩, hd⟩⟩⟩
    simp [Gap.step, (hstop d hd).2]
  | @more c c₁ c₂ c' a as hstep first others ih =>
    obtain ⟨hmark, rfl⟩ := between_more hstep
    obtain ⟨hclear', hstop', hothers⟩ := ih hstop
    have hbefore : ∀ ch ∈ before, isBlank ch = true := fun ch h => hm.blanks ch (by simp [h])
    have hbehind : ∀ ch ∈ behind, isBlank ch = true := fun ch h => hm.blanks ch (by simp [h])
    have hfirst := (first.runs hclear' hstop').blanks hbehind
    have htext := ((Runs.token hm.plain (hm.ends (first.opens.append _))).seq
      (hfirst.seq hothers)).blanks hbefore
    simp only [List.flatMap_cons, List.append_assoc]
    refine ⟨hm.clear _, htext.follows (Runs.seq_kind fun _ _ h => h.1) hmark (by simp [hm.ne]),
      htext.imp ?_⟩
    rintro d d' ⟨_, ⟨hk, rfl⟩, d₁, ⟨-, a', hread, ha'⟩, as', hmany, has'⟩
    refine ⟨a' :: as', .more ?_ hread hmany, by simp [ha', has']⟩
    simp [Gap.step, hk]

/-- Items with a mark between them. -/
theorem runs_separated (hm : Separates (.mark m) before behind) {c c₁ c' : Cursor} {a : s.Result}
    {as : List s.Result} (first : Reprints src s c a c₁.Follows)
    (others : Repeats (Gap.between m).step (fun c a c' => Reprints src s c a c'.Follows) c₁ as c')
    {rest : List Char} (hclear : Clear rest)
    (hstop : ∀ d : Cursor, d.Before src rest → c'.Follows d ∧ d.kind ≠ .mark m) :
    Runs src ((before ++ (m.text.toList ++ behind)).intercalate ((a :: as).map s.text) ++ rest)
      (fun d d' => d.kind = c.kind ∧ ∃ a' as', Reads (.separated m s) d (a' :: as') d' ∧
        s.erase a' = s.erase a ∧ as'.map s.erase = as.map s.erase) rest := by
  obtain ⟨hclear', hstop', hothers⟩ := runs_between hm others hclear hstop
  refine (((first.runs hclear' hstop').seq hothers).imp ?_).congr
    (by simp [intercalate_cons, List.flatMap_map])
  rintro d d' ⟨d₁, ⟨hk, a', hread, ha'⟩, as', hmany, has'⟩
  exact ⟨hk, a', as', .separated hread hmany, ha', has'⟩

/-! ### Optional parts -/

/-- A phrase that may stand behind a token of a kind. -/
theorem runs_behind {k : TokenKind} (hk : Separates k before behind) {c c' : Cursor}
    {a : Option s.Result} (h : a.elim (c.kind ≠ k ∧ c' = c) fun x =>
      c.kind = k ∧ Reprints src s c.advance x c'.Follows)
    {rest : List Char} (hclear : Clear rest)
    (hstop : ∀ d : Cursor, d.Before src rest → c'.Follows d ∧ (k.stops = true → d.kind ≠ k)) :
    let text := a.elim [] (fun x => before ++ (k.spelling ++ (behind ++ s.text x))) ++ rest
    Clear text ∧ (∀ d : Cursor, d.Before src text → c.Follows d) ∧
      Runs src text (fun d d' =>
        ∃ a', Reads (.behind k s) d a' d' ∧ a'.map s.erase = a.map s.erase) rest := by
  cases a with
  | none =>
    obtain ⟨hne, rfl⟩ := h
    have hother : ∀ d : Cursor, d.Before src rest → d.kind ≠ k := by
      intro d hd
      cases hstops : k.stops
      · exact (hstop d hd).1.ne hne hstops
      · exact (hstop d hd).2 hstops
    exact ⟨hclear, fun d hd => (hstop d hd).1,
      ⟨id, fun d hd => ⟨d, ⟨none, .absent (hother d hd), rfl⟩, hd⟩⟩⟩
  | some x =>
    obtain ⟨hkind, hx⟩ := h
    have hbefore : ∀ ch ∈ before, isBlank ch = true := fun ch h => hk.blanks ch (by simp [h])
    have hbehind : ∀ ch ∈ behind, isBlank ch = true := fun ch h => hk.blanks ch (by simp [h])
    have hvalue := (hx.runs hclear fun d hd => (hstop d hd).1).blanks hbehind
    have htext := ((Runs.token hk.plain (hk.ends (hx.opens.append _))).seq hvalue).blanks hbefore
    simp only [Option.elim_some, List.append_assoc]
    refine ⟨hk.clear _, htext.follows (Runs.seq_kind fun _ _ h => h.1) hkind hk.ne, htext.imp ?_⟩
    rintro d d' ⟨_, ⟨hk, rfl⟩, -, x', hread, hx'⟩
    exact ⟨some x', .present hk hread, by simp [hx']⟩

end

end Durable
