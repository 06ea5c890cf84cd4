/-
Where the edits of routed calls stand.

A call that initialises a variable starts with the reference it is made by, behind which its
parenthesis follows; the two edits that route it lie in between.  Calls stand one behind
another, so the edits of a service are stacked: in order, each clear of the others, each on
boundaries of characters, and none over a newline.
-/
import Durable.Proofs.Grammar.Inits
import Durable.Proofs.Text.Splice
import Durable.Proofs.Tree.OneLine

namespace Durable

open Text

/-! ### Calls in the text -/

/-- The reference that a call is made by is read, the word `error` included. -/
inductive ReadsCallee : Cursor → NameRef → Cursor → Prop
  | name {c c' : Cursor} {r : NameRef} (ref : ReadsName c r c') : ReadsCallee c r c'
  | error {c : Cursor} (word : c.kind = .keyword .kwError) :
      ReadsCallee c (.simple ⟨Keyword.kwError.text, c.span⟩) c.advance

/-- The parts of an expression that is a call. -/
def Expr.call? : Expr → Option (NameRef × List Arg)
  | .call r as _ => some (r, as)
  | _ => none

/-- The call that a symbol reads, if it reads one. -/
def Sym.call? : (s : Sym) → s.Result → Option (NameRef × List Arg)
  | .expr, e | .binary _, e | .joining _, e | .unary, e | .accessed, e | .accessing, e
  | .primary, e => e.call?
  | _, _ => none

variable {c c' : Cursor} {cs : List Char}

/-- A call is read from the reference it is made by. -/
theorem Reads.exists_callee {s : Sym} {t : s.Result} {r : NameRef} {as : List Arg} (h : Reads s c t c')
    (hcall : s.call? t = some (r, as)) : ∃ c₁, ReadsCallee c r c₁ ∧
      c₁.kind = .mark .openParen ∧ Reads .args c₁.advance as c' := by
  induction h with
  | condition _ _ ih | operand _ ih | binary _ _ ih | bare _ ih | accessed _ _ ih
  | primary _ ih => exact ih hcall
  | errorCall word opening args =>
    simp only [Sym.call?, Expr.call?, Option.some.injEq, Prod.mk.injEq] at hcall
    obtain ⟨rfl, rfl⟩ := hcall
    exact ⟨_, .error word, opening, args⟩
  | call _ ref opening args =>
    simp only [Sym.call?, Expr.call?, Option.some.injEq, Prod.mk.injEq] at hcall
    obtain ⟨rfl, rfl⟩ := hcall
    exact ⟨_, .name ref, opening, args⟩
  | mapping inner => cases inner; simp [Sym.call?, Expr.call?] at hcall
  | _ => simp [Sym.call?, Expr.call?] at hcall

theorem ReadsCallee.reaches {r : NameRef} (h : ReadsCallee c r c') : c.Reaches c' := by
  cases h with
  | name ref => exact ref.reaches
  | error => exact Cursor.Reaches.refl.step

theorem ReadsCallee.oneLine {r : NameRef} (h : ReadsCallee c r c') (hc : c.StandsIn cs) :
    OneLine r.asWritten := by
  cases h with
  | name ref => exact ref.oneLine hc
  | error => exact (by decide : OneLine "error")

/-- A piece of a text that ends at a cursor goes on with the next token where the two touch. -/
theorem Cursor.StandsIn.extend {a b rest : List Char} (hc : c.StandsIn cs)
    (hkind : c.kind ≠ .endOfFile) (hcs : cs = a ++ b ++ rest)
    (hpassed : c.passed = byteLength (a ++ b)) (htouch : c.start = c.passed) :
    ∃ text rest', cs = a ++ (b ++ text) ++ rest' ∧ '\n' ∉ text ∧
      c.advance.passed = byteLength (a ++ (b ++ text)) := by
  obtain ⟨front, t, rest', hcs', hfront, hs, -, hspan, hadvance⟩ := hc.token hkind
  have hcut : front ++ (t.blank ++ t.text ++ rest') = a ++ b ++ rest := by
    rw [← hcs, hcs']
    simp
  obtain ⟨rfl, -⟩ := append_inj_of_byteLength hcut (hfront.symm.trans hpassed)
  have hblank : t.blank = [] := by
    have hstart : c.start = byteLength (a ++ b ++ t.blank) := congrArg Span.start hspan
    rw [htouch, hpassed, byteLength_append (a ++ b)] at hstart
    exact byteLength_eq_zero.mp (by omega)
  rw [hblank] at hcs' hadvance
  exact ⟨t.text, rest', by rw [hcs']; simp, hs.spells.ne_newline, by rw [hadvance]; simp⟩

/-- The reference of a call is a piece of the text that no blank, no comment and no newline stands
in. -/
theorem ReadsCallee.piece {r : NameRef} (h : ReadsCallee c r c') (hc : c.StandsIn cs) :
    ∃ a b rest, cs = a ++ b ++ rest ∧ r.span = ⟨byteLength a, byteLength a + byteLength b⟩ ∧
      '\n' ∉ b ∧ b ≠ [] ∧ c.passed ≤ byteLength a ∧ c'.passed = byteLength (a ++ b) := by
  -- A reference starts with a token.
  have first : c.kind ≠ .endOfFile → ∃ a b rest, cs = a ++ b ++ rest ∧
      c.span = ⟨byteLength a, byteLength a + byteLength b⟩ ∧ '\n' ∉ b ∧ b ≠ [] ∧
      c.passed ≤ byteLength a ∧ c.advance.passed = byteLength (a ++ b) := by
    intro hkind
    obtain ⟨front, t, rest, hcs, hpassed, hs, -, hspan, hadvance⟩ := hc.token hkind
    refine ⟨front ++ t.blank, t.text, rest, hcs, hspan, hs.spells.ne_newline, ?_, ?_, hadvance⟩
    · obtain ⟨d, more, -, hscan⟩ := hs.scan
      exact (Lexer.scanToken_append (hscan 0)).2
    · rw [hpassed, byteLength_append]
      exact Nat.le_add_right _ _
  cases h with
  | error word => exact first (by simp [word])
  | name ref =>
    cases ref with
    | simple _ hname => exact first (by simp [hname])
    | qualified hat hvia hname =>
      have hat' := hat
      simp only [Cursor.atQualified, Bool.and_eq_true, beq_iff_eq, Cursor.touching,
        Cursor.tokenAt_succ] at hat'
      obtain ⟨⟨⟨hcolon, -⟩, htouch₁⟩, htouch₂⟩ := hat'
      rw [Cursor.kindAt_succ] at hcolon
      have h₁ : c.kind ≠ .endOfFile := fun h => by simp [h, TokenKind.word?] at hvia
      have h₂ : c.advance.kind ≠ .endOfFile := by
        rw [show c.advance.kind = .mark .colon from hcolon]
        simp
      obtain ⟨a, b, rest, hcs, hspan, hline, hne, hle, hpassed⟩ := first h₁
      have hstop := (hc.tiled.span h₁).2.1
      have hstop₂ := (hc.advance.tiled.span h₂).2.1
      obtain ⟨b₂, rest₂, hcs₂, hline₂, hpassed₂⟩ := hc.advance.extend h₂ hcs hpassed
        (htouch₁.symm.trans (congrArg Span.stop hstop))
      obtain ⟨b₃, rest₃, hcs₃, hline₃, hpassed₃⟩ := hc.advance.advance.extend (by simp [hname])
        hcs₂ hpassed₂ (htouch₂.symm.trans (congrArg Span.stop hstop₂))
      refine ⟨a, b ++ b₂ ++ b₃, rest₃, hcs₃, ?_, by simp [hline, hline₂, hline₃], by simp [hne],
        hle, hpassed₃⟩
      have hstart : c.start = byteLength a := congrArg Span.start hspan
      rw [Cursor.since, hpassed₃, hstart, byteLength_append a, max_eq_left (Nat.le_add_right _ _)]

/-! ### Stacks of edits -/

namespace Text.Edit

/-- An edit replaces a part of a text that has no newline by a text that has none. -/
def Steady (cs : List Char) (e : Edit) : Prop :=
  ∃ a b c, cs = a ++ b ++ c ∧ e.span = ⟨byteLength a, byteLength a + byteLength b⟩ ∧ '\n' ∉ b ∧
    OneLine e.text

theorem Steady.fits {e : Edit} (h : e.Steady cs) : e.Fits cs := by
  obtain ⟨a, b, d, hcs, hspan, -⟩ := h
  exact ⟨a, b, d, hcs, hspan⟩

theorem Steady.start_le_stop {e : Edit} (h : e.Steady cs) : e.span.start ≤ e.span.stop :=
  h.fits.start_le_stop

/-- An insertion is steady wherever the text can be cut. -/
theorem steady_insertion {a b : List Char} {text : String} (hcs : cs = a ++ b)
    (htext : OneLine text) : (insertion (byteLength a) text).Steady cs :=
  ⟨a, [], b, by simpa using hcs, rfl, by simp, htext⟩

/-- Patches whose edits are steady neither take away nor put in a newline. -/
theorem keepsLines_of_steady {ps : List Patch} (front : List Char) {tail : List Char}
    (hcs : cs = front ++ Patch.before ps ++ tail)
    (h : ∀ e ∈ Patch.edits (byteLength front) ps, e.Steady cs) : Patch.KeepsLines ps := by
  induction ps generalizing front with
  | nil => simp [Patch.KeepsLines]
  | cons p ps ih =>
    simp only [Patch.edits, List.forall_mem_cons, Patch.before_cons] at h hcs
    obtain ⟨⟨a, b, c, hcs', hspan, hb, htext⟩, hothers⟩ := h
    obtain ⟨hstart, hstop⟩ := Span.mk.inj hspan
    have hcut : (front ++ p.kept) ++ (p.removed ++ (Patch.before ps ++ tail)) = a ++ (b ++ c) := by
      rw [← List.append_assoc a, ← hcs', hcs]
      simp
    obtain ⟨rfl, hrest⟩ := append_inj_of_byteLength hcut ((byteLength_append _ _).trans hstart)
    have hlen : byteLength p.removed = byteLength b := by
      rw [hstart] at hstop
      exact Nat.add_left_cancel hstop
    obtain ⟨rfl, -⟩ := append_inj_of_byteLength hrest hlen
    have hps := ih (front ++ p.kept ++ p.removed) (by rw [hcs]; simp) (by
      simp only [byteLength_append]
      exact hothers)
    have hinserted : '\n' ∉ p.inserted := by simpa [OneLine] using htext
    exact List.forall_mem_cons.mpr ⟨⟨hb, hinserted⟩, hps⟩

/-- Edits between two offsets that are steady and clear of each other.  At the lower offset itself
nothing is replaced, so stacks can be put on top of each other. -/
structure Stacked (cs : List Char) (lo hi : Nat) (es : List Edit) : Prop where
  steady : ∀ e ∈ es, e.Steady cs
  within : ∀ e ∈ es, lo ≤ e.span.start ∧ e.span.stop ≤ hi ∧ (e.span.start = lo → e.span.stop = lo)
  clear : es.Pairwise Clear

namespace Stacked

variable {lo lo' mid hi hi' : Nat} {as bs : List Edit}

theorem nil : Stacked cs lo hi [] := ⟨by simp, by simp, .nil⟩

theorem mono (h : Stacked cs lo hi as) (hlo : lo' ≤ lo) (hhi : hi ≤ hi') :
    Stacked cs lo' hi' as := by
  refine ⟨h.steady, fun e he => ?_, h.clear⟩
  obtain ⟨h₁, h₂, h₃⟩ := h.within e he
  refine ⟨by omega, by omega, fun heq => ?_⟩
  have := h₃ (by omega)
  omega

theorem append (ha : Stacked cs lo mid as) (hb : Stacked cs mid hi bs) (hlo : lo ≤ mid)
    (hhi : mid ≤ hi) : Stacked cs lo hi (as ++ bs) := by
  have ha' := ha.mono (Nat.le_refl lo) hhi
  have hb' := hb.mono hlo (Nat.le_refl hi)
  refine ⟨fun e he => ?_, fun e he => ?_, List.pairwise_append.mpr ⟨ha.clear, hb.clear, ?_⟩⟩
  · exact (List.mem_append.mp he).elim (ha.steady e) (hb.steady e)
  · exact (List.mem_append.mp he).elim (ha'.within e) (hb'.within e)
  · intro a hmem b hmem'
    have hle := (ha.steady a hmem).start_le_stop
    obtain ⟨-, h₂, -⟩ := ha.within a hmem
    obtain ⟨h₁', -, h₃'⟩ := hb.within b hmem'
    refine ⟨.inl (by omega), fun heq => ?_⟩
    have := h₃' (by omega)
    omega

theorem perm (h : Stacked cs lo hi as) (hperm : bs.Perm as) : Stacked cs lo hi bs :=
  ⟨fun e he => h.steady e (hperm.mem_iff.mp he), fun e he => h.within e (hperm.mem_iff.mp he),
    (hperm.pairwise_iff fun hab => Clear.symm hab).mpr h.clear⟩

/-- One insertion. -/
theorem single {a b : List Char} {text : String} (hcs : cs = a ++ b) (htext : OneLine text)
    (hlo : lo ≤ byteLength a) (hhi : byteLength a ≤ hi) :
    Stacked cs lo hi [insertion (byteLength a) text] := by
  refine ⟨?_, ?_, List.pairwise_singleton _ _⟩
  · simpa using steady_insertion hcs htext
  · simp only [List.mem_singleton, insertion, forall_eq]
    exact ⟨hlo, hhi, id⟩

end Stacked

end Text.Edit

open Text.Edit (Stacked)

/-! ### The edits of calls -/

namespace Routing

variable {m : Model} {doc : DocId} {source : Source} {via : String}

/-! #### What is written for a call -/

namespace RoutedCall

/-- The dispatch function of the internal module takes the place of the reference, cast to the type
that is returned. -/
theorem head_eq (via : String) (c : RoutedCall) :
    c.head via = "<" ++ c.returns.print ++ ">" ++ via ++ ":invokeActivity" := by
  simp [head, dispatchFunction, String.append_assoc]

/-- The first argument is the reference as it is written, as a literal. -/
theorem firstArg_eq (c : RoutedCall) :
    c.firstArg = quote c.callee.asWritten ++ if c.hasArgs then ", " else "" := rfl

theorem edits_eq (via : String) (c : RoutedCall) : c.edits via =
    [⟨c.callee.span, "<" ++ c.returns.print ++ ">" ++ via ++ ":invokeActivity"⟩,
      .insertion c.argsStart (quote c.callee.asWritten ++ if c.hasArgs then ", " else "")] := by
  rw [edits, head_eq, firstArg_eq]

end RoutedCall

/-! #### Where it is written -/

/-- What is used of the expression of a routed call. -/
theorem routedCall?_eq_some {e : Expr} {r : RoutedCall} (h : routedCall? m doc source e = some r) :
    ∃ args span item activity, e = .call r.callee args span ∧
      m.activity? doc r.callee = some (item, activity) ∧
      r.returns = returnTypeAt r.callee activity ∧
      behindParenthesis? source r.callee.span.stop = some r.argsStart ∧
      r.hasArgs = !args.isEmpty := by
  cases e with
  | call callee args span =>
    obtain ⟨⟨item, activity⟩, hactivity, h⟩ := Option.bind_eq_some_iff.mp h
    obtain ⟨n, hn, h⟩ := Option.bind_eq_some_iff.mp h
    obtain rfl := Option.some.inj h
    exact ⟨args, span, item, activity, rfl, hactivity, rfl, hn, rfl⟩
  | _ => simp [routedCall?] at h

theorem behindParenthesis?_eq_some {a rest : List Char} {n : Nat}
    (hsource : source.text.toList = a ++ rest)
    (h : behindParenthesis? source (byteLength a) = some n) :
    ∃ before after, rest = before ++ '(' :: after ∧ '(' ∉ before ∧
      n = byteLength (a ++ before ++ ['(']) := by
  unfold behindParenthesis? at h
  rw [hsource, splitAtByte_append] at h
  simp only [Option.bind_eq_bind, Option.bind_some] at h
  split at h
  · next hmem =>
    obtain ⟨before, after, rfl, hnot⟩ := List.eq_append_cons_of_mem (by simpa using hmem)
    have htake : (before ++ '(' :: after).takeWhile (· != '(') = before := by
      refine takeWhile_append_run (fun d hd => ?_) (headFails_cons.mpr (by simp))
      simp only [bne_iff_ne, ne_eq]
      rintro rfl
      exact hnot hd
    rw [htake, Option.some.injEq] at h
    refine ⟨before, after, rfl, hnot, ?_⟩
    rw [← h, byteLength_append, byteLength_append]
    rfl
  · simp at h

/-- The parenthesis that is found stands no further than the one that opens the arguments. -/
theorem argsStart_le {a before after : List Char} (hc : c.StandsIn (a ++ before ++ '(' :: after))
    (hopen : c.kind = .mark .openParen) (hpassed : c.passed = byteLength a)
    (hfirst : '(' ∉ before) : byteLength (a ++ before ++ ['(']) ≤ c.advance.passed := by
  obtain ⟨front, t, rest, hcs, hfront, hs, hkind, -, hadvance⟩ := hc.token (by simp [hopen])
  have htext : t.text = ['('] := by
    rw [hopen] at hkind
    exact Spells.text_of_mark (hkind ▸ hs.spells)
  simp only [List.append_assoc] at hcs
  obtain ⟨rfl, hrest⟩ := append_inj_of_byteLength hcs (hpassed.symm.trans hfront)
  rw [htext] at hrest hadvance
  have hblank : ∃ more, t.blank = before ++ more := by
    have hcut : before ++ '(' :: after = t.blank ++ '(' :: rest := by simpa using hrest
    rcases Patch.split_append hcut with ⟨more, rfl, -⟩ | ⟨more, hblank, -⟩
    · exact absurd (by simp) hfirst
    · exact ⟨more, hblank⟩
  obtain ⟨more, hblank⟩ := hblank
  rw [hadvance, hblank]
  simp only [byteLength_append]
  omega

/-- The two edits of a routed call lie in the text of the call. -/
theorem stacked_edits {e : Expr} {r : RoutedCall} (hc : c.StandsIn source.text.toList)
    (hread : ReadsInitValue c e c') (h : routedCall? m doc source e = some r) (hvia : OneLine via)
    (hreturns : OneLine r.returns.print) :
    Stacked source.text.toList c.passed c'.passed (r.edits via) := by
  obtain ⟨hsign, hexpr⟩ := hread
  obtain ⟨args, span, item, activity, rfl, -, -, hn, -⟩ := routedCall?_eq_some h
  obtain ⟨c₁, hcallee, hopen, hargs⟩ := hexpr.exists_callee rfl
  obtain ⟨a, b, rest, hcs, hspan, hline, hne, hle, hpassed⟩ := hcallee.piece hc.advance
  rw [hspan, ← byteLength_append] at hn
  obtain ⟨before, after, rfl, hfirst, hn⟩ := behindParenthesis?_eq_some hcs hn
  -- The insertion stands behind the reference and in front of the arguments' end.
  have hc₁ : c₁.StandsIn (a ++ b ++ before ++ '(' :: after) := by
    have := hc.advance.reaches hcallee.reaches
    rw [hcs] at this
    simpa using this
  have hstop := argsStart_le hc₁ hopen hpassed hfirst
  have hend := (Cursor.Covers.of_reaches hargs.reaches hc₁.advance.tiled).2.1
  have hstart := hc.tiled.span (by simp [hsign])
  have hb : 0 < byteLength b := byteLength_pos hne
  have hafter : byteLength (a ++ b) ≤ r.argsStart := by
    rw [hn, List.append_assoc, byteLength_append (a ++ b)]
    exact Nat.le_add_right _ _
  rw [← hn] at hstop
  rw [byteLength_append] at hafter
  refine ⟨?_, ?_, ?_⟩
  · simp only [RoutedCall.edits, List.mem_cons, List.not_mem_nil, or_false]
    rintro e (rfl | rfl)
    · refine ⟨a, b, _, hcs, hspan, hline, ?_⟩
      simp +decide [RoutedCall.head_eq, hreturns, hvia]
    · refine hn ▸ Text.Edit.steady_insertion (b := after) (by rw [hcs]; simp) ?_
      have hcomma : OneLine (if r.hasArgs then ", " else "") := by split <;> decide
      exact (oneLine_append _ _).mpr ⟨oneLine_quote _, hcomma⟩
  · simp only [RoutedCall.edits, List.mem_cons, List.not_mem_nil, or_false]
    rintro e (rfl | rfl)
    · simp only [hspan]
      omega
    · simp only [Text.Edit.insertion]
      omega
  · refine List.pairwise_pair.mpr ⟨.inl ?_, fun heq => ?_⟩
    · simp only [hspan, Text.Edit.insertion]
      omega
    · simp only [hspan, Text.Edit.insertion] at heq
      omega

end Routing

end Durable
