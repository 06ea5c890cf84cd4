/-
Printed types are read again.

One lemma for each production of types: where its parts are read again from the way they are
printed, so is the whole.  A type in front of a parenthesis, as in the construction of an object,
is a name with question marks and brackets, which nothing but more of these goes on.
-/
import Durable.Proofs.Print.Phrase
import Durable.Proofs.Tree.OneLine

namespace Durable

open Text

variable {src rest : List Char} {c c₁ c₂ c₃ c' d : Cursor} {k : TokenKind}

/-! ### Names -/

namespace Cursor

theorem touching_succ (c : Cursor) (n : Nat) : c.touching (n + 1) = c.advance.touching n := by
  simp only [touching, tokenAt_succ]

/-- A word in front of what clears it is no prefix. -/
theorem Before.atQualified_eq_false (h : d.Before src (k.spelling ++ rest)) (hk : k.Plain)
    (hmark : ∀ m, k ≠ .mark m) (hclear : Clear rest) : d.atQualified = false := by
  by_contra hat
  simp only [atQualified, Bool.not_eq_false, Bool.and_eq_true, beq_iff_eq] at hat
  obtain ⟨more, hmore⟩ := h.colon_of_touching hk (hclear.ends hmark) hat.1.2 hat.1.1.1
  exact hclear.ne_colon more hmore

end Cursor

theorem ReadsName.kind_ne_endOfFile {r : NameRef} (h : ReadsName c r c') :
    c.kind ≠ .endOfFile := by
  cases h with
  | qualified _ hvia => exact TokenKind.ne_endOfFile_of_word? hvia
  | simple _ hname => simp [hname]

theorem TokenKind.ne_mark_of_word? {n : String} (h : k.word? = some n) (m : Mark) :
    k ≠ .mark m := by
  rintro rfl
  simp [word?] at h

/-- A reference is read again from its text. -/
theorem ReadsName.runs {r : NameRef} (hp : c.Plain) (h : ReadsName c r c')
    (hclear : Clear rest) : Runs src (r.asWritten.toList ++ rest) (fun d d' => d.kind = c.kind ∧
      d.atQualified = c.atQualified ∧ ∃ r', ReadsName d r' d' ∧ r'.erase = r.erase) rest := by
  have hkind := hp.kind h.kind_ne_endOfFile
  cases h with
  | @simple n hat hname =>
    rw [hname] at hkind
    have hend := hclear.ends (k := .ident n) (by simp)
    refine ⟨.token hkind hend, fun d hd => ⟨d.advance, ?_, hd.advance hkind hend⟩⟩
    have hsimple := hd.atQualified_eq_false hkind (by simp) hclear
    exact ⟨(hd.kind hkind hend).trans hname.symm, hsimple.trans hat.symm, _,
      .simple hsimple (hd.kind hkind hend), rfl⟩
  | @qualified p n hat hvia hname =>
    have hident : (TokenKind.ident n).Plain := by
      have := hp.advance.advance.kind (by simp [hname])
      rwa [hname] at this
    have hend := hclear.ends (k := .ident n) (by simp)
    have hcolon : (TokenKind.mark .colon).Ends ((TokenKind.ident n).spelling ++ rest) :=
      Mark.ends_of_joins_nil rfl _
    have hlead : c.kind.Ends
        ((TokenKind.mark .colon).spelling ++ ((TokenKind.ident n).spelling ++ rest)) := by
      cases hc : c.kind <;> simp [hc, TokenKind.word?] at hvia <;>
        exact headFails_cons.mpr (by decide)
    have htext : (NameRef.asWritten ⟨some ⟨p, c.span⟩, ⟨n, c.advance.advance.span⟩,
        c.advance.advance.advance.since c.start⟩).toList ++ rest = c.kind.spelling
          ++ ((TokenKind.mark .colon).spelling ++ ((TokenKind.ident n).spelling ++ rest)) := by
      simp [NameRef.asWritten, TokenKind.spelling_of_word? hvia, Mark.text]
    rw [htext]
    refine ⟨fun h => .token hkind hlead (.token (TokenKind.plain_mark _) hcolon
      (.token hident hend h)), fun d hd => ⟨d.advance.advance.advance, ?_, ?_⟩⟩
    · have hd₁ := hd.advance hkind hlead
      have hd₂ := hd₁.advance (TokenKind.plain_mark _) hcolon
      have hk := hd.kind hkind hlead
      have hk₁ : d.kindAt 1 = .mark .colon := by
        rw [Cursor.kindAt_succ]
        exact hd₁.kind (TokenKind.plain_mark _) hcolon
      have hk₂ : d.kindAt 2 = .ident n := by
        rw [Cursor.kindAt_succ, Cursor.kindAt_succ]
        exact hd₂.kind hident hend
      have ht := hd.touching hkind hlead (TokenKind.plain_mark _) hcolon
      have ht₁ := hd₁.touching (TokenKind.plain_mark _) hcolon hident hend
      have hqualified : d.atQualified = true := by
        simp [Cursor.atQualified, hk₁, hk₂, ht, Cursor.touching_succ, ht₁]
      exact ⟨hk, hqualified.trans hat.symm, _,
        .qualified hqualified (hk ▸ hvia) (hd₂.kind hident hend), rfl⟩
    · exact ((hd.advance hkind hlead).advance (TokenKind.plain_mark _) hcolon).advance hident hend

theorem ReadsName.opens {r : NameRef} (hp : c.Plain) (h : ReadsName c r c') :
    Opens r.asWritten.toList := by
  have hkind := hp.kind h.kind_ne_endOfFile
  cases h with
  | @simple n _ hname =>
    rw [hname] at hkind
    exact Spells.opens hkind (by simp)
  | @qualified p n _ hvia _ =>
    have hopens := Spells.opens hkind (TokenKind.ne_mark_of_word? hvia)
    rw [TokenKind.spelling_of_word? hvia] at hopens
    simpa [NameRef.asWritten] using (hopens.append (':' :: n.toList))

theorem Cursor.atName_eq (hk : d.kind = c.kind) (hat : d.atQualified = c.atQualified) :
    d.atName = c.atName := by
  simp only [Cursor.atName, hk, hat]

/-! ### Parts of types -/

/-- A phrase of one token. -/
theorem reprints_token {s : Sym} {t : s.Result} {stop : Cursor → Prop} (hp : c.Plain)
    (hc : c.kind ≠ .endOfFile) (hmark : ∀ m, c.kind ≠ .mark m) (htext : s.text t = c.kind.spelling)
    (hread : ∀ d, d.kind = c.kind → (c.atQualified = false → d.atQualified = false) →
      stop d.advance → ∃ t', Reads s d t' d.advance ∧ s.erase t' = s.erase t) :
    Reprints src s c t stop where
  opens := htext ▸ Spells.opens (hp.kind hc) hmark
  runs rest hclear hstop := by
    have hend := hclear.ends hmark
    rw [htext]
    refine ⟨.token (hp.kind hc) hend, fun d hd => ⟨d.advance, ?_, hd.advance (hp.kind hc) hend⟩⟩
    have hk := hd.kind (hp.kind hc) hend
    exact ⟨hk, hread d hk (fun _ => hd.atQualified_eq_false (hp.kind hc) hmark hclear)
      (hstop _ (hd.advance (hp.kind hc) hend))⟩

namespace Reprints

variable {t u : TypeDesc} {ts : List TypeDesc} {stop : Cursor → Prop} {sp : Span}

theorem builtin {b : BuiltinType} (hp : c.Plain) (word : c.kind = .keyword b.keyword)
    (alone : c.atQualified = false) : Reprints src .plainType c (.builtin b sp) stop :=
  reprints_token hp (by simp [word]) (by simp [word])
    (by simp [word, Sym.text, TypeDesc.print])
    fun _ hk hat _ => ⟨_, .builtin (hk.trans word) (hat alone), rfl⟩

theorem inferred (hp : c.Plain) (word : c.kind = .keyword .kwVar) :
    Reprints src .plainType c (.inferred sp) stop :=
  reprints_token hp (by simp [word]) (by simp [word])
    (by simp [word, Sym.text, TypeDesc.print, Keyword.text])
    fun _ hk _ _ => ⟨_, .inferred (hk.trans word), rfl⟩

theorem anyFunction (hp : c.Plain) (word : c.kind = .keyword .kwFunction)
    (alone : c.advance.kind ≠ .mark .openParen) :
    Reprints src .plainType c (.anyFunction sp) c.advance.Follows :=
  reprints_token hp (by simp [word]) (by simp [word])
    (by simp [word, Sym.text, TypeDesc.print, Keyword.text])
    fun _ hk _ hstop => ⟨_, .anyFunction (hk.trans word) (hstop.ne alone rfl), rfl⟩

theorem literal_spelling {k : TokenKind} {v : Literal} (h : k.literal? = some v) :
    k.spelling = v.print.toList ∧ k ≠ .endOfFile ∧ ∀ m, k ≠ .mark m := by
  unfold TokenKind.literal? at h
  split at h <;> first
    | (obtain rfl := Option.some.inj h
       simp [Literal.print, Keyword.text])
    | simp at h

theorem singleton {v : Literal} (hp : c.Plain) (word : c.kind.literal? = some v) :
    Reprints src .plainType c (.singleton v sp) stop := by
  obtain ⟨htext, hend, hmark⟩ := literal_spelling word
  exact reprints_token hp hend hmark (by simp [htext, Sym.text, TypeDesc.print])
    fun _ hk _ _ => ⟨_, .singleton (hk ▸ word), rfl⟩

theorem typeName {r : NameRef} (hp : c.Plain) (hat : c.atName = true) (ref : ReadsName c r c₁) :
    Reprints src .plainType c (.named r) stop where
  opens := ref.opens hp
  runs rest hclear _ := by
    refine (ref.runs hp hclear).imp ?_
    rintro d d' ⟨hk, hqualified, r', href, hr'⟩
    exact ⟨hk, .named r', .typeName ((Cursor.atName_eq hk hqualified).trans hat) href,
      congrArg TypeDesc.named hr'⟩

theorem plain (h : Reprints src .plainType c t stop) : Reprints src .suffixing c t stop where
  opens := h.opens
  runs _ hclear hstop := (h.runs hclear hstop).imp fun _ _ ⟨hk, t', hread, ht⟩ =>
    ⟨hk, t', .plain hread, ht⟩

theorem optional (h : Reprints src .suffixing c t c₁.Follows)
    (hmark : c₁.kind = .mark .question) : Reprints src .suffixing c (.optional t sp) stop where
  opens := h.opens.extend (by simp [Sym.text, TypeDesc.print])
  runs rest hclear _ := by
    have hquestion : Runs src (Mark.question.text.toList ++ rest) _ rest := .close .question rfl
    have hinner := h.runs (.mark (by decide) rest) (hquestion.follows (fun _ _ h => h.1) hmark (by simp))
    refine ((hinner.seq hquestion).imp ?_).congr (by simp [Sym.text, TypeDesc.print, Mark.text])
    rintro d d' ⟨d₁, ⟨hk, t', hread, ht⟩, hk₁, rfl⟩
    exact ⟨hk, _, .optional hread hk₁, congrArg (TypeDesc.optional · .synthetic) ht⟩

theorem array (h : Reprints src .suffixing c t c₁.Follows)
    (hopening : c₁.kind = .mark .openBracket) (hclosing : c₁.kindAt 1 = .mark .closeBracket) :
    Reprints src .suffixing c (.array t sp) stop where
  opens := h.opens.extend (by simp [Sym.text, TypeDesc.print])
  runs rest hclear _ := by
    have hbrackets : Runs src
        (Mark.openBracket.text.toList ++ (Mark.closeBracket.text.toList ++ rest)) _ rest :=
      (Runs.close .openBracket rfl).seq (.close .closeBracket rfl)
    have hinner := h.runs (.mark (m := .openBracket) (by decide) _) fun d hd => by
      obtain ⟨_, ⟨_, ⟨hk, -⟩, -⟩, -⟩ := hbrackets.run hd
      exact ⟨.inl (hk.trans hopening.symm), fun _ => ⟨hopening, hclosing⟩⟩
    refine ((hinner.seq hbrackets).imp ?_).congr (by simp [Sym.text, TypeDesc.print, Mark.text])
    rintro d d' ⟨d₁, ⟨hk, t', hread, ht⟩, _, ⟨hk₁, rfl⟩, hk₂, rfl⟩
    exact ⟨hk, _, .array hread hk₁ (by rwa [Cursor.kindAt_succ]),
      congrArg (TypeDesc.array · .synthetic) ht⟩

theorem suffixed (h : Reprints src .suffixing c t c₁.Follows) (hstop : c₁.EndsType) :
    Reprints src .suffixed c t c₁.Follows where
  opens := h.opens
  runs rest hclear hfollows := by
    refine ⟨(h.runs hclear hfollows).tiles, fun d hd => ?_⟩
    obtain ⟨d', ⟨hk, t', hread, ht⟩, hd'⟩ := (h.runs hclear hfollows).run hd
    exact ⟨d', ⟨hk, t', .suffixed hread ((hfollows d' hd').endsType hstop), ht⟩, hd'⟩

/-- Members with a mark between them, where what follows is not that mark. -/
theorem members {s : Sym} {m : Mark} {before behind : List Char} (hm : Separates (.mark m) before behind)
    (hmark : (TokenKind.mark m).stops = false) {a : s.Result} {as : List s.Result}
    (first : Reprints src s c a c₁.Follows)
    (others : Repeats (Gap.between m).step (fun c a c' => Reprints src s c a c'.Follows) c₁ as c')
    (hclear : Clear rest) (hstop : ∀ d : Cursor, d.Before src rest → c'.Follows d) :
    Runs src ((before ++ (m.text.toList ++ behind)).intercalate ((a :: as).map s.text) ++ rest)
      (fun d d' => d.kind = c.kind ∧ ∃ a' as', Reads (.separated m s) d (a' :: as') d' ∧
        s.erase a' = s.erase a ∧ as'.map s.erase = as.map s.erase) rest :=
  runs_separated hm first others hclear fun d hd =>
    ⟨hstop d hd, (hstop d hd).ne (between_stops others) hmark⟩

theorem oneMember (first : Reprints src .intersection c t c₁.Follows)
    (others : Repeats (Gap.between .pipe).step
      (fun c t c' => Reprints src .intersection c t c'.Follows) c₁ [] c') :
    Reprints src .type c t c'.Follows where
  opens := first.opens
  runs rest hclear hstop := by
    have hmembers := members separates_pipe rfl first others hclear hstop
    refine (hmembers.imp ?_).congr (by simp [Sym.text, List.intercalate])
    rintro d d' ⟨hk, t', ts', hread, ht, hts⟩
    obtain rfl : ts' = [] := by simpa using hts
    exact ⟨hk, t', .oneMember hread, ht⟩

theorem union (first : Reprints src .intersection c t c₁.Follows)
    (others : Repeats (Gap.between .pipe).step
      (fun c t c' => Reprints src .intersection c t c'.Follows) c₁ (u :: ts) c') :
    Reprints src .type c (.union (t :: u :: ts) sp) c'.Follows where
  opens := first.opens.extend
    (by simp [Sym.text, TypeDesc.print, printTypes_eq, intercalate_cons])
  runs rest hclear hstop := by
    have hmembers := members separates_pipe rfl first others hclear hstop
    refine (hmembers.imp ?_).congr
      (by simp [show Sym.text .intersection = (·.print.toList) from rfl, Sym.text, TypeDesc.print,
        printTypes_eq, Mark.text, Function.comp_def])
    rintro d d' ⟨hk, t', ts', hread, ht, hts⟩
    obtain ⟨u', us', rfl, hu, hus⟩ := List.map_eq_cons_iff.mp hts
    refine ⟨hk, _, .union hread, ?_⟩
    have hall : (t' :: u' :: us').map TypeDesc.erase = (t :: u :: ts).map TypeDesc.erase := by
      simp_all [Sym.erase]
    simpa [Sym.erase] using hall

theorem onePart (first : Reprints src .suffixed c t c₁.Follows)
    (others : Repeats (Gap.between .amp).step
      (fun c t c' => Reprints src .suffixed c t c'.Follows) c₁ [] c') :
    Reprints src .intersection c t c'.Follows where
  opens := first.opens
  runs rest hclear hstop := by
    have hmembers := members separates_amp rfl first others hclear hstop
    refine (hmembers.imp ?_).congr (by simp [Sym.text, List.intercalate])
    rintro d d' ⟨hk, t', ts', hread, ht, hts⟩
    obtain rfl : ts' = [] := by simpa using hts
    exact ⟨hk, t', .onePart hread, ht⟩

theorem intersection (first : Reprints src .suffixed c t c₁.Follows)
    (others : Repeats (Gap.between .amp).step
      (fun c t c' => Reprints src .suffixed c t c'.Follows) c₁ (u :: ts) c') :
    Reprints src .intersection c (.intersection (t :: u :: ts) sp) c'.Follows where
  opens := first.opens.extend
    (by simp [Sym.text, TypeDesc.print, printTypes_eq, intercalate_cons])
  runs rest hclear hstop := by
    have hmembers := members separates_amp rfl first others hclear hstop
    refine (hmembers.imp ?_).congr
      (by simp [show Sym.text .suffixed = (·.print.toList) from rfl, Sym.text, TypeDesc.print,
        printTypes_eq, Mark.text, Function.comp_def])
    rintro d d' ⟨hk, t', ts', hread, ht, hts⟩
    obtain ⟨u', us', rfl, hu, hus⟩ := List.map_eq_cons_iff.mp hts
    refine ⟨hk, _, .intersection hread, ?_⟩
    have hall : (t' :: u' :: us').map TypeDesc.erase = (t :: u :: ts).map TypeDesc.erase := by
      simp_all [Sym.erase]
    simpa [Sym.erase] using hall

theorem parenType (h : Reprints src .type c.advance t c₁.Follows)
    (hopening : c.kind = .mark .openParen) (hclosing : c₁.kind = .mark .closeParen) :
    Reprints src .plainType c (.paren t sp) stop where
  opens := (Opens.char '(' (by decide)).extend (by simp [Sym.text, TypeDesc.print])
  runs rest hclear _ := by
    have hparen : Runs src (Mark.closeParen.text.toList ++ rest) _ rest := .close .closeParen rfl
    have hinner := h.runs (.mark (m := .closeParen) (by decide) rest)
      (hparen.follows (fun _ _ h => h.1) hclosing (by simp))
    refine (((Runs.close .openParen rfl).seq (hinner.seq hparen)).imp ?_).congr
      (by simp [Sym.text, TypeDesc.print, Mark.text])
    rintro d d' ⟨_, ⟨hk, rfl⟩, d₁, ⟨-, t', hread, ht⟩, hk₁, rfl⟩
    exact ⟨hk.trans hopening.symm, _, .parenType hk hread hk₁,
      congrArg (TypeDesc.paren · .synthetic) ht⟩

theorem nilType (hopening : c.kind = .mark .openParen) :
    Reprints src .plainType c (.nil sp) stop where
  opens := (Opens.char '(' (by decide)).extend (by simp [Sym.text, TypeDesc.print])
  runs rest hclear _ := by
    refine (((Runs.close .openParen rfl).seq (Runs.close .closeParen rfl)).imp ?_).congr
      (by simp [Sym.text, TypeDesc.print, Mark.text])
    rintro d d' ⟨_, ⟨hk, rfl⟩, hk₁, rfl⟩
    exact ⟨hk.trans hopening.symm, _, .nilType hk hk₁, rfl⟩

end Reprints

/-- A type in angle brackets is read again; only a sign could be taken for a part of its end. -/
def ReprintsArgument (src : List Char) (t : TypeDesc) : Prop :=
  ∀ ⦃rest⦄, (TokenKind.mark .greater).Ends rest → Runs src (Sym.text .typeArgument t ++ rest)
    (fun d d' => d.kind = .mark .less ∧ ∃ t', Reads .typeArgument d t' d' ∧ t'.erase = t.erase) rest

theorem Clear.ends_greater (h : Clear rest) : (TokenKind.mark .greater).Ends rest := by
  refine Mark.ends_of_joins fun ch hch hjoins => ?_
  obtain rfl : ch = '=' := by simpa [Mark.joins] using hjoins
  simpa using h.sign _ hch

namespace Reprints

variable {t u : TypeDesc} {ts : List TypeDesc} {stop : Cursor → Prop} {sp : Span}

theorem typeArgument (h : Reprints src .type c t c₁.Follows)
    (hclosing : c₁.kind = .mark .greater) : ReprintsArgument src t := by
  intro rest hend
  have hgreater : Runs src _ _ _ := Runs.mark .greater hend
  have hinner := h.runs (.mark (m := .greater) (by decide) rest)
    (hgreater.follows (fun _ _ h => h.1) hclosing (by simp))
  refine (((Runs.mark .less ((h.opens.append _).ends (by decide))).seq
    (hinner.seq hgreater)).imp ?_).congr (by simp [Sym.text, Mark.text])
  rintro d d' ⟨_, ⟨hk, rfl⟩, d₁, ⟨-, t', hread, ht⟩, hk₁, rfl⟩
  exact ⟨hk, t', .typeArgument hk hread hk₁, ht⟩

theorem mapType (hc : c.kind = .keyword .kwMap) (h : ReprintsArgument src t) :
    Reprints src .plainType c (.map t sp) stop where
  opens := (Opens.keyword .kwMap []).extend (by simp [Sym.text, TypeDesc.print, Keyword.text])
  runs rest hclear _ := by
    refine (((Runs.keyword .kwMap (headFails_cons.mpr rfl)).seq
      (h hclear.ends_greater)).imp ?_).congr
      (by simp [Sym.text, TypeDesc.print, Keyword.text])
    rintro d d' ⟨_, ⟨hk, rfl⟩, -, t', hread, ht⟩
    exact ⟨hk.trans hc.symm, _, .mapType hk hread, congrArg (TypeDesc.map · .synthetic) ht⟩

theorem future {t : Option TypeDesc} (hc : c.kind = .keyword .kwFuture)
    (h : t.elim (c.advance.kind ≠ .mark .less ∧ c₁ = c.advance) (ReprintsArgument src)) :
    Reprints src .plainType c (.future t sp) c₁.Follows where
  opens := (Opens.keyword .kwFuture []).extend (by
    cases t <;> simp [Sym.text, TypeDesc.print, Keyword.text])
  runs rest hclear hstop := by
    cases t with
    | none =>
      obtain ⟨hless, rfl⟩ := h
      have hword : Runs src (Keyword.kwFuture.text.toList ++ rest) _ rest :=
        .keyword .kwFuture hclear.word
      refine (hword.before.imp ?_).congr (by simp [Sym.text, TypeDesc.print, Keyword.text])
      rintro d d' ⟨⟨hk, rfl⟩, hd'⟩
      refine ⟨hk.trans hc.symm, _, .future hk (.missing ?_), rfl⟩
      simpa using (hstop _ hd').ne hless rfl
    | some x =>
      refine (((Runs.keyword .kwFuture (headFails_cons.mpr rfl)).seq
        (h hclear.ends_greater)).imp ?_).congr
        (by simp [Sym.text, TypeDesc.print, Keyword.text])
      rintro d d' ⟨_, ⟨hk, rfl⟩, hk₁, t', hread, ht⟩
      exact ⟨hk.trans hc.symm, _, .future hk (.found (by simp [hk₁]) hread),
        congrArg (fun t => TypeDesc.future (some t) .synthetic) ht⟩

theorem stream {u : Option TypeDesc} (hc : c.kind = .keyword .kwStream)
    (item : Reprints src .type c.advance.advance t c₁.Follows)
    (completion : u.elim (c₁.kind ≠ .mark .comma ∧ c₂ = c₁) fun x =>
      c₁.kind = .mark .comma ∧ Reprints src .type c₁.advance x c₂.Follows)
    (hclosing : c₂.kind = .mark .greater) :
    Reprints src .plainType c (.stream t u sp) stop where
  opens := (Opens.keyword .kwStream []).extend (by
    cases u <;> simp [Sym.text, TypeDesc.print, Keyword.text])
  runs rest hclear _ := by
    have hgreater : Runs src _ _ _ := Runs.mark .greater hclear.ends_greater
    have hfollows := hgreater.follows (fun _ _ h => h.1) hclosing (by simp)
    obtain ⟨hclear₁, hstop₁, hcompletion⟩ := runs_behind (s := .type) separates_comma completion
      (.mark (m := .greater) (by decide) rest) fun d hd => ⟨hfollows d hd, fun _ => by
        rw [hgreater.kind_eq (fun _ _ h => h.1) hd]
        simp⟩
    have hitem := item.runs hclear₁ hstop₁
    refine (((Runs.keyword .kwStream (Clear.mark (m := .less) (by decide) _).word).seq ((Runs.mark
      .less ((item.opens.append _).ends (by decide))).seq (hitem.seq (hcompletion.seq hgreater)))).imp
      ?_).congr (by
        cases u <;> simp [Sym.text, TypeDesc.print, Keyword.text, Mark.text])
    rintro d d' ⟨_, ⟨hk, rfl⟩, _, ⟨hk₁, rfl⟩, d₂, ⟨-, t', hread, ht⟩, d₃, ⟨u', hread', hu⟩, hk₂, rfl⟩
    refine ⟨hk.trans hc.symm, _, .stream hk hk₁ hread hread' hk₂, ?_⟩
    have ht : t'.erase = t.erase := ht
    have hu : u'.map TypeDesc.erase = u.map TypeDesc.erase := hu
    simp [Sym.erase, ht, hu]

end Reprints

/-! ### Function types -/

theorem fixedParams_map (ps : List (Bool × TypeDesc)) :
    fixedParams (ps.map (Sym.erase .typeParam)) = (fixedParams ps).map TypeDesc.erase := by
  simp only [fixedParams, List.filterMap_map, List.map_filterMap]
  refine List.filterMap_congr fun ⟨b, t⟩ _ => ?_
  cases b <;> rfl

theorem restParam_map (ps : List (Bool × TypeDesc)) :
    restParam (ps.map (Sym.erase .typeParam)) = (restParam ps).map TypeDesc.erase := by
  simp only [restParam, List.filterMap_map, ← List.getLast?_map, List.map_filterMap]
  congr 1
  refine List.filterMap_congr fun ⟨b, t⟩ _ => ?_
  cases b <;> rfl

/-- The parameters of a function type in the order in which they are printed. -/
def paramList (fixed : List TypeDesc) (rest : Option TypeDesc) : List (Bool × TypeDesc) :=
  fixed.map (false, ·) ++ rest.toList.map (true, ·)

@[simp] theorem fixedParams_paramList (ts : List TypeDesc) (t : Option TypeDesc) :
    fixedParams (paramList ts t) = ts := by
  cases t <;> simp [paramList, fixedParams, List.filterMap_map]

@[simp] theorem restParam_paramList (ts : List TypeDesc) (t : Option TypeDesc) :
    restParam (paramList ts t) = t := by
  cases t <;> simp [paramList, restParam, List.filterMap_map]

theorem mem_of_mem_paramList {ps : List (Bool × TypeDesc)} :
    ∀ x ∈ paramList (fixedParams ps) (restParam ps), x ∈ ps := by
  intro x hx
  rcases List.mem_append.mp hx with hx | hx
  · obtain ⟨t, ht, rfl⟩ := List.mem_map.mp hx
    exact mem_of_mem_fixedParams ht
  · obtain ⟨t, ht, rfl⟩ := List.mem_map.mp hx
    exact mem_of_restParam (by simpa using ht)

theorem print_paramList (ts : List TypeDesc) (t : Option TypeDesc) :
    (paramList ts t).map (Sym.text .typeParam)
      = (printTypes ts ++ t.toList.map (·.print ++ "...")).map String.toList := by
  cases t <;> simp [paramList, printTypes_eq, Sym.text, Function.comp_def]

namespace Reprints

variable {t : TypeDesc} {stop : Cursor → Prop} {sp : Span}

/-- The parameter of a function type; a name behind its type is not printed. -/
theorem typeParam (h : Reprints src .type c t c₁.Follows) :
    Reprints src .typeParam c (c₁.kind == .mark .ellipsis, t) (·.kind.closes = true) where
  opens := h.opens.extend (by simp [Sym.text])
  runs rest hclear hstop := by
    have alone : ∀ d : Cursor, d.kind.closes = true → d.passName = d := by
      intro d hd
      unfold Cursor.passName
      cases hk : d.kind <;> simp_all [TokenKind.closes, TokenKind.isIdent]
    by_cases hdots : c₁.kind = .mark .ellipsis
    · have hmark : Runs src (Mark.ellipsis.text.toList ++ rest) _ rest := .close .ellipsis rfl
      have hinner := h.runs (.ellipsis rest) (hmark.follows (fun _ _ h => h.1) hdots (by simp))
      refine ((hinner.seq hmark).before.imp ?_).congr (by simp [Sym.text, hdots, Mark.text])
      rintro d d' ⟨⟨d₁, ⟨hk, t', hread, ht⟩, hk₁, rfl⟩, hd'⟩
      have hparam := Reads.typeParam hread
      rw [Cursor.pass, if_pos hk₁, alone _ (hstop _ hd')] at hparam
      exact ⟨hk, _, hparam, by simp_all [Sym.erase]⟩
    · have hinner := h.runs hclear fun d hd => .of_closes (hstop d hd)
      refine (hinner.before.imp ?_).congr (by simp [Sym.text, hdots])
      rintro d d' ⟨⟨hk, t', hread, ht⟩, hd'⟩
      have hclose := hstop _ hd'
      have hnot : d'.kind ≠ .mark .ellipsis := by
        intro heq
        simp [heq, TokenKind.closes] at hclose
      have hparam := Reads.typeParam hread
      rw [Cursor.pass, if_neg hnot, alone _ hclose] at hparam
      exact ⟨hk, _, hparam, by simp_all [Sym.erase]⟩

theorem print_function (fixed : List TypeDesc) (last returns : Option TypeDesc) (sp : Span) :
    (TypeDesc.function fixed last returns sp).print.toList
      = Keyword.kwFunction.text.toList ++ ' ' :: '(' ::
        ([',', ' '].intercalate ((paramList fixed last).map (Sym.text .typeParam)) ++ ')' ::
          returns.elim [] fun x =>
            [' '] ++ (Keyword.kwReturns.text.toList ++ ([' '] ++ Sym.text .type x))) := by
  rw [print_paramList]
  cases last <;> cases returns <;>
    simp [TypeDesc.print, Keyword.text, Sym.text]

theorem functionType {params : List (Bool × TypeDesc)} {returns : Option TypeDesc}
    (hc : c.kind = .keyword .kwFunction)
    (list : ∀ x ∈ params, ∃ c, Reprints src .typeParam c x (·.kind.closes = true))
    (result : returns.elim (c₁.kind ≠ .keyword .kwReturns ∧ c₂ = c₁) fun x =>
      c₁.kind = .keyword .kwReturns ∧ Reprints src .type c₁.advance x c₂.Follows) :
    Reprints src .plainType c (.function (fixedParams params) (restParam params) returns sp)
      c₂.Follows where
  opens := (Opens.keyword .kwFunction []).extend (by simp [Sym.text, print_function])
  runs rest hclear hstop := by
    obtain ⟨hclear₁, -, hresult⟩ := runs_behind (s := .type) (separates_keyword .kwReturns)
      result hclear fun d hd => ⟨hstop d hd, by simp [TokenKind.stops, TokenKind.closes]⟩
    have hlist more := runs_commaList (s := .typeParam)
      (show (TokenKind.mark .closeParen).closes = true from rfl) (by simp)
      (by simp [Sym.Starts, TokenKind.startsType])
      (fun x hx => list x (mem_of_mem_paramList x hx)) more
    refine (((Runs.keyword .kwFunction (headFails_cons.mpr rfl)).seq
      ((Runs.close .openParen rfl).space.seq ((hlist _).seq hresult))).imp ?_).congr
      (by simp [Sym.text, print_function, Mark.text])
    rintro d d' ⟨_, ⟨hk, rfl⟩, _, ⟨hk₁, rfl⟩, d₂, ⟨ps', hlist', hps⟩, returns', hresult', hr⟩
    refine ⟨hk.trans hc.symm, _, .functionType hk hk₁ hlist' hresult', ?_⟩
    have hfixed := (fixedParams_map ps').symm.trans ((congrArg fixedParams hps).trans
      (fixedParams_map _))
    have hlast := (restParam_map ps').symm.trans ((congrArg restParam hps).trans (restParam_map _))
    simp_all [Sym.erase]

end Reprints

end Durable
