/-
Printed members without paths are read again.

Imports, modifiers, variables, constants, listeners, types and annotations.  A constant or an
annotation may leave out its type, which the parser tells by the token behind the next one:
`Reads.type_kindAt` says what that token is not, if a type stands there.
-/
import Durable.Proofs.Grammar.CompleteMember
import Durable.Proofs.Print.Stmt

namespace Durable

open Text

variable {src rest : List Char} {c c₁ c₂ c₃ c' d : Cursor} {n : String}

/-! ### Names -/

theorem TokenKind.ends_of_word? {k : TokenKind} (h : k.word? = some n)
    (hrest : HeadFails isWordChar rest) : k.Ends rest := by
  cases k <;> simp [word?] at h <;> exact hrest

/-- A word, reserved or not, that is a name. -/
theorem runs_name (hp : c.Plain) (h : c.kind.word? = some n) (hrest : HeadFails isWordChar rest) :
    Runs src (n.toList ++ rest) (fun d d' => d.kind = c.kind ∧ d' = d.advance) rest := by
  rw [← TokenKind.spelling_of_word? h]
  exact .token (hp.kind (TokenKind.ne_endOfFile_of_word? h)) (TokenKind.ends_of_word? h hrest)

theorem runs_ident (hp : c.Plain) (h : c.kind = .ident n) (hrest : HeadFails isWordChar rest) :
    Runs src (n.toList ++ rest) (fun d d' => d.kind = .ident n ∧ d' = d.advance) rest := by
  refine (runs_name hp (by rw [h]; rfl) hrest).imp ?_
  rintro d d' ⟨hk, rfl⟩
  exact ⟨hk.trans h, rfl⟩

/-- No name starts like the rest of an ellipsis. -/
theorem ends_dot (hp : c.Plain) (h : c.kind.word? = some n) (more : List Char) :
    (TokenKind.mark .dot).Ends (n.toList ++ more) := by
  obtain ⟨ch, cs, htext, -, hdot⟩ :=
    Spells.head_of_word? (hp.kind (TokenKind.ne_endOfFile_of_word? h)) h
  rw [TokenKind.spelling_of_word? h] at htext
  rw [htext]
  exact Mark.ends_cons (by simpa [Mark.joins] using hdot) _

/-- No name starts like the rest of a sign or a comment. -/
theorem ends_slash (hp : c.Plain) (h : c.kind.word? = some n) (more : List Char) :
    (TokenKind.mark .slash).Ends (n.toList ++ more) := by
  have hopens := (hp.kind (TokenKind.ne_endOfFile_of_word? h)).opens (TokenKind.ne_mark_of_word? h)
  rw [TokenKind.spelling_of_word? h] at hopens
  exact (hopens.append more).ends (by decide)

/-! ### Imports -/

theorem runs_parts {parts : List Ident} (hp : c.Plain)
    (h : Repeats (Gap.between .dot).step ReadsWord c parts c') (hrest : HeadFails isWordChar rest)
    (hdot : ∀ d : Cursor, d.Before src rest → d.kind ≠ .mark .dot) :
    Runs src (parts.flatMap (fun x => '.' :: x.name.toList) ++ rest) (fun d d' =>
      ∃ parts', Repeats (Gap.between .dot).step ReadsWord d parts' d' ∧
        parts'.map Ident.erase = parts.map Ident.erase) rest ∧
      HeadFails isWordChar (parts.flatMap (fun x => '.' :: x.name.toList) ++ rest) := by
  induction h with
  | stop =>
    refine ⟨⟨id, fun d hd => ⟨d, ⟨[], .stop ?_, rfl⟩, hd⟩⟩, hrest⟩
    simp [Gap.step, hdot d hd]
  | @more c _ _ c' x parts step first others ih =>
    obtain ⟨hword, -, rfl⟩ := first
    obtain ⟨-, rfl⟩ := between_more step
    obtain ⟨hothers, hhead⟩ := ih hp.advance.advance
    refine ⟨?_, headFails_cons.mpr (by decide)⟩
    refine (((Runs.mark .dot (ends_dot hp.advance hword _)).seq
      ((runs_name hp.advance hword hhead).seq hothers)).imp ?_).congr (by simp [Mark.text])
    rintro d d' ⟨_, ⟨hk, rfl⟩, _, ⟨hk₁, rfl⟩, parts', hparts, heq⟩
    refine ⟨⟨x.name, d.advance.span⟩ :: parts', .more ?_ ⟨hk₁ ▸ hword, rfl, rfl⟩ hparts, ?_⟩
    · simp [Gap.step, hk]
    · simp [heq, Ident.erase]

theorem runs_rename {r : Option Ident} (hp : c.Plain) (h : ReadsRename c r c') :
    Runs src ((r.elim [] fun x => " as ".toList ++ x.name.toList) ++ ';' :: rest) (fun d d' =>
      d.kind ≠ .mark .dot ∧ ∃ r' d₁, ReadsRename d r' d₁ ∧ r'.map Ident.erase = r.map Ident.erase ∧
        d₁.kind = .mark .semicolon ∧ d' = d₁.advance) rest ∧
      HeadFails isWordChar ((r.elim [] fun x => " as ".toList ++ x.name.toList) ++ ';' :: rest) := by
  cases h with
  | absent =>
    refine ⟨runs_semicolon.imp ?_, headFails_cons.mpr (by decide)⟩
    rintro d d' ⟨hk, rfl⟩
    exact ⟨by simp [hk], none, d, .absent (by simp [hk]), rfl, hk, rfl⟩
  | present word name =>
    refine ⟨?_, headFails_cons.mpr (by decide)⟩
    refine (((runs_word .kwAs).seq ((runs_ident hp.advance name clear_semicolon.word).seq
      runs_semicolon)).space.imp ?_).congr (by simp [Keyword.text])
    rintro d d' ⟨_, ⟨hk, rfl⟩, _, ⟨hk₁, rfl⟩, hk₂, rfl⟩
    exact ⟨by simp [hk], _, _, .present hk hk₁, rfl, hk₂, rfl⟩

/-- **An import is read again from its text.** -/
theorem ReadsImport.runs {i : Import} (hp : c.Plain) (h : ReadsImport c i c') (rest : List Char) :
    Runs src (i.print.toList ++ rest) (fun d d' => d.kind = .keyword .kwImport ∧
      ∃ i', ReadsImport d i' d' ∧ i'.erase = i.erase) rest := by
  cases h with
  | @mk c₁ c₂ c₃ org rename n parts word horg head further hrename closing =>
    have hp₁ : c₁.Plain := hp.advance.reaches horg.reaches
    have hp₂ : c₂.Plain := hp₁.advance.reaches (further.reaches (fun _ _ _ => Gap.step_reaches)
      fun _ _ _ => ReadsWord.reaches)
    obtain ⟨hend, hhead⟩ : Runs src _ _ rest ∧ _ := runs_rename hp₂ hrename
    obtain ⟨hparts, hhead'⟩ := runs_parts hp₁.advance further hhead fun d hd => by
      obtain ⟨_, ⟨hdot, -⟩, -⟩ := hend.run hd
      exact hdot
    have hname := (runs_name hp₁ head hhead').seq (hparts.seq hend)
    cases horg with
    | absent alone =>
      refine (((runs_word .kwImport).seq hname).imp ?_).congr (by
        cases rename <;> simp [Import.print, Import.moduleName, Keyword.text, intercalate_cons,
          List.flatMap_map])
      rintro d d' ⟨_, ⟨hk, rfl⟩, _, ⟨hk₁, rfl⟩, d₂, ⟨parts', hparts', heq⟩, -, r', d₃, hr', hr, hk₃,
        rfl⟩
      have hslash : d.advance.advance.kind ≠ .mark .slash := by
        cases hparts' with
        | more step => simp [(between_more step).1]
        | stop step =>
          obtain ⟨-, heq⟩ := between_stop step
          rw [heq]
          cases hr' with
          | absent => simp [hk₃]
          | present word => simp [word]
      refine ⟨hk, _, .mk hk (.absent hslash) (hk₁ ▸ head) hparts' hr' hk₃, ?_⟩
      simp [Import.erase, heq, hr, Ident.erase]
    | @present o word' slash =>
      have horg := (runs_name hp.advance word' (Clear.mark (m := .slash) (by decide) _).word).seq
        ((Runs.mark .slash (ends_slash hp₁ head _)).seq hname)
      refine (((runs_word .kwImport).seq horg).imp ?_).congr (by
        cases rename <;> simp [Import.print, Import.moduleName, Keyword.text, intercalate_cons,
          List.flatMap_map, Mark.text])
      rintro d d' ⟨_, ⟨hk, rfl⟩, _, ⟨hk₁, rfl⟩, _, ⟨hk₂, rfl⟩, _, ⟨hk₃, rfl⟩, d₂,
        ⟨parts', hparts', heq⟩, -, r', d₃, hr', hr, hk₄, rfl⟩
      refine ⟨hk, _, .mk hk (.present (hk₁ ▸ word') hk₂) (hk₃ ▸ head) hparts' hr' hk₄, ?_⟩
      simp [Import.erase, heq, hr, Ident.erase]

/-! ### Modifiers -/

theorem ReadsModifiers.stop {ms : Modifiers} (h : ReadsModifiers c ms c') :
    MemberGrammar.modifier? c'.kind = none := by
  induction h with
  | stop step =>
    simp only [modifierStep, Option.some.injEq, Prod.mk.injEq, Option.isNone_iff_eq_none] at step
    rw [← step.2]
    exact step.1
  | more _ _ _ ih => exact ih

/-- What holds of a modifier's word and of the token behind the modifiers holds where they start. -/
theorem ReadsModifiers.start {ms : Modifiers} {P : TokenKind → Prop} (h : ReadsModifiers c ms c₁)
    (hword : ∀ q : Modifier, P (.keyword q.keyword)) (hP : P c₁.kind) : P c.kind := by
  cases h with
  | stop step =>
    simp only [modifierStep, Option.some.injEq, Prod.mk.injEq] at step
    rwa [step.2]
  | more step first =>
    simp only [modifierStep, Option.some.injEq, Prod.mk.injEq] at step
    obtain ⟨-, rfl⟩ := step
    rw [first.1]
    exact hword _

/-- Modifiers in front of a declaration. -/
theorem ReadsModifiers.runs {ms : Modifiers} (h : ReadsModifiers c ms c₁) {text : List Char}
    {R : Cursor → Cursor → Prop} (hrest : Runs src text R rest)
    (hkind : ∀ d d', R d d' → d.kind = c₁.kind) :
    Runs src ((printModifiers ms).toList ++ text) (fun d d' => d.kind = c.kind ∧
      ∃ ms' d₁, ReadsModifiers d ms' d₁ ∧ ms'.erase = ms.erase ∧ R d₁ d') rest := by
  have hstop := h.stop
  induction h with
  | stop step =>
    simp only [modifierStep, Option.some.injEq, Prod.mk.injEq] at step
    obtain ⟨-, rfl⟩ := step
    refine (hrest.imp ?_).congr (by simp [printModifiers])
    intro d d' hR
    have hk := hkind d d' hR
    exact ⟨hk, [], d, Repeats.stop (by simp [modifierStep, hk, hstop]), rfl, hR⟩
  | @more c _ _ c₁ q ms step first others ih =>
    obtain ⟨hword, -, rfl⟩ := first
    simp only [modifierStep, Option.some.injEq, Prod.mk.injEq] at step
    obtain ⟨-, rfl⟩ := step
    refine (((runs_word q.1.keyword).seq (ih hkind hstop)).imp ?_).congr (by simp [printModifiers])
    rintro d d' ⟨_, ⟨hk, rfl⟩, -, ms', d₁, hms', hms, hR⟩
    refine ⟨hk.trans hword.symm, (q.1, d.span) :: ms', d₁, .more ?_ ⟨hk, rfl, rfl⟩ hms', ?_, hR⟩
    · simp [modifierStep, hk, MemberGrammar.modifier?_keyword]
    · simp_all [Modifiers.erase]

/-! ### Annotations and modifiers before a declaration -/

theorem printAnnotations_text (depth : Nat) (as : List Annotation) :
    (printAnnotations depth as).toList
      = as.flatMap fun a => a.print.toList ++ (lineStart depth).toList := by
  induction as with
  | nil => rfl
  | cons a as ih => simp_all [printAnnotations]

/-- What a declaration is read as behind its annotations and modifiers: a tree that depends on
these and on where the modifiers started. -/
abbrev ReadsBody (δ : Type) : Type :=
  Nat → List Annotation → Modifiers → Cursor → δ → Cursor → Prop

/-- A declaration with its annotations and modifiers. -/
def Declared {δ : Type} (Q : ReadsBody δ) (c : Cursor) (v : δ) (c' : Cursor) : Prop :=
  ∃ as c₁ ms c₂, Reads .annotations c as c₁ ∧ ReadsModifiers c₁ ms c₂ ∧ Q c₁.start as ms c₂ v c'

/-- What stands behind annotations and modifiers is read again behind any that differ only in
places. -/
def ReprintsBody {δ : Type} (src : List Char) (Q : ReadsBody δ) (erase : δ → δ) (c : Cursor)
    (as : List Annotation) (ms : Modifiers) (v : δ) (text rest : List Char) : Prop :=
  Runs src text (fun d d' => d.kind = c.kind ∧ ∀ origin as' ms',
    as'.map Annotation.erase = as.map Annotation.erase → ms'.erase = ms.erase →
      ∃ v', Q origin as' ms' d v' d' ∧ erase v' = erase v) rest

/-- A tree around another one is read again if that one is. -/
theorem ReprintsBody.map {δ ε : Type} {Q : ReadsBody δ} {Q' : ReadsBody ε} {erase : δ → δ}
    {erase' : ε → ε} {as : List Annotation} {ms : Modifiers} {v : δ} {text : List Char} {f : δ → ε}
    (h : ReprintsBody src Q erase c as ms v text rest)
    (hQ : ∀ {origin as ms d v d'}, d.kind = c.kind → Q origin as ms d v d' →
      Q' origin as ms d (f v) d')
    (herase : ∀ v', erase v' = erase v → erase' (f v') = erase' (f v)) :
    ReprintsBody src Q' erase' c as ms (f v) text rest := by
  refine Runs.imp h ?_
  rintro d d' ⟨hk, hread⟩
  refine ⟨hk, fun origin' as' ms' has hms => ?_⟩
  obtain ⟨v', hv', hv⟩ := hread origin' as' ms' has hms
  exact ⟨f v', hQ hk hv', herase v' hv⟩

theorem ReprintsBody.declared {δ : Type} {Q : ReadsBody δ} {erase : δ → δ} {v : δ}
    {text : List Char} {as : List Annotation} {ms : Modifiers} (depth : Nat) (hp : c.Plain)
    (annotations : Reads .annotations c as c₁) (modifiers : ReadsModifiers c₁ ms c₂)
    (hne : c₂.kind ≠ .mark .atSign ∧ c₂.kind ≠ .mark .openBrace)
    (body : ReprintsBody src Q erase c₂ as ms v text rest) :
    Runs src ((printAnnotations depth as).toList ++ ((printModifiers ms).toList ++ text))
      (fun d d' => ∃ v', Declared Q d v' d' ∧ erase v' = erase v) rest := by
  have hmodifiers := modifiers.runs body fun _ _ h => h.1
  have hne₁ := modifiers.start (P := fun k => k ≠ .mark .atSign ∧ k ≠ .mark .openBrace)
    (fun _ => by simp) hne
  have htags := (annotations.back hp : Sym.annotations.Back src c as c₁).tags
  rw [printAnnotations_text]
  refine (runs_annotated (setsApart_lineStart depth) annotations htags hne₁ hmodifiers
    fun _ _ h => h.1).imp ?_
  rintro d d' ⟨-, as', d₁, has', has, -, ms', d₂, hms', hms, -, hbody⟩
  obtain ⟨v', hv', hv⟩ := hbody d₁.start as' ms' has hms
  exact ⟨v', ⟨as', d₁, ms', d₂, has', hms', hv'⟩, hv⟩

/-! ### Types that may be left out -/

/-- Behind a parenthesis that starts a type stands the one that closes it, or another type. -/
theorem Reads.plainType_paren {t : TypeDesc} (h : Reads .plainType c t c₁)
    (hc : c.kind = .mark .openParen) :
    c.advance.kind = .mark .closeParen ∨ c.advance.kind.startsType = true := by
  cases h with
  | nilType _ closing => exact .inl closing
  | parenType _ inner => exact .inr inner.starts
  | typeName hat ref =>
    cases ref with
    | qualified _ hvia => simp [hc, TokenKind.word?] at hvia
    | simple _ hname => simp [hc] at hname
  | singleton word => simp [hc, TokenKind.literal?] at word
  | builtin word | inferred word | mapType word | future word | stream word | anyFunction word
  | functionType word | record word => simp [hc] at word

theorem Reads.suffixing_paren : ∀ {c c₁ : Cursor} {t : TypeDesc}, Reads .suffixing c t c₁ →
    c.kind = .mark .openParen →
    c.advance.kind = .mark .closeParen ∨ c.advance.kind.startsType = true
  | _, _, _, .plain inner, hc => inner.plainType_paren hc
  | _, _, _, .optional inner _, hc | _, _, _, .array inner _ _, hc => suffixing_paren inner hc

theorem Reads.type_paren {t : TypeDesc} (h : Reads .type c t c₁) (hc : c.kind = .mark .openParen) :
    c.advance.kind = .mark .closeParen ∨ c.advance.kind.startsType = true := by
  have suffixed : ∀ {ts : List TypeDesc} {c₁ : Cursor}, Reads (.separated .amp .suffixed) c ts c₁ →
      c.advance.kind = .mark .closeParen ∨ c.advance.kind.startsType = true := by
    intro ts c₁ h
    cases h with
    | separated first =>
      cases first with
      | suffixed chain => exact chain.suffixing_paren hc
  have part : ∀ {ts : List TypeDesc} {c₁ : Cursor},
      Reads (.separated .pipe .intersection) c ts c₁ →
      c.advance.kind = .mark .closeParen ∨ c.advance.kind.startsType = true := by
    intro ts c₁ h
    cases h with
    | separated first =>
      cases first with
      | onePart parts | intersection parts => exact suffixed parts
  cases h with
  | oneMember members | union members => exact part members

/-- What stands behind the first token of a type in front of a name shows that there is a type. -/
theorem Reads.type_kindAt {t : TypeDesc} (h : Reads .type c t c₁) (hc : c₁.kind = .ident n) :
    c.kindAt 1 ≠ .mark .assign ∧ c.kindAt 1 ≠ .mark .semicolon ∧ c.kindAt 1 ≠ .keyword .kwOn := by
  rw [c.kindAt_succ 0, show c.advance.kindAt 0 = c.advance.kind from rfl]
  by_cases hparen : c.kind = .mark .openParen
  · rcases h.type_paren hparen with hk | hk
    · simp [hk]
    · refine ⟨?_, ?_, ?_⟩ <;> intro heq <;> rw [heq] at hk <;> exact absurd hk (by decide)
  · cases h.type_second hparen with
    | alone stop => simp [← stop, hc]
    | goesOn m mark inside => simp [mark, inside]

/-- A type, if there is one, and the name behind it. -/
theorem ReadsTypeBefore.runs {absent : TokenKind → Bool} {t : Option TypeDesc} (hp : c.Plain)
    (h : ReadsTypeBefore absent c t c₁) (name : c₁.kind = .ident n) {mid : List Char}
    {R : Cursor → Cursor → Prop} (hclear : Clear mid) (hmid : Runs src mid R rest)
    {k : TokenKind} (hkind : ∀ d d', R d d' → d.kind = k) (hmissing : absent k = true)
    (hfound : ∀ {d d₁ : Cursor} {t}, Reads .type d t d₁ → d₁.kind = .ident n →
      absent (d.kindAt 1) = false) :
    Runs src ((printTypeBefore t).toList ++ (n.toList ++ mid)) (fun d d' => ∃ t' d₁,
      ReadsTypeBefore absent d t' d₁ ∧ t'.map TypeDesc.erase = t.map TypeDesc.erase ∧
        d₁.kind = .ident n ∧ R d₁.advance d') rest := by
  cases h with
  | missing =>
    refine (((runs_ident hp name hclear.word).seq hmid).imp ?_).congr (by simp [printTypeBefore])
    rintro d d' ⟨_, ⟨hk, rfl⟩, hR⟩
    have hsecond : d.kindAt 1 = k := (d.kindAt_succ 0).trans (hkind _ _ hR)
    exact ⟨none, d, .missing (by rw [hsecond, hmissing]), rfl, hk, hR⟩
  | found _ type =>
    refine ((type.runs_type hp name hclear hmid).imp ?_).congr (by simp [printTypeBefore])
    rintro d d' ⟨-, t', d₁, hread, ht, hk, hR⟩
    exact ⟨some t', d₁, .found (hfound hread hk) hread, by simp [ht], hk, hR⟩

/-! ### Variables, constants and types -/

variable {origin : Nat} {as : List Annotation} {ms : Modifiers}

/-- An initial value in front of its semicolon. -/
theorem ReadsInit.runs {configurable : Bool} {e : Option Expr} (hp : c.Plain)
    (h : ReadsInit configurable c e c₁) (closing : c₁.kind = .mark .semicolon) :
    Clear ((printInit e).toList ++ ';' :: rest) ∧
      Runs src ((printInit e).toList ++ ';' :: rest) (fun d d' => ∃ e' d₁,
        ReadsInit configurable d e' d₁ ∧ e'.map Expr.erase = e.map Expr.erase ∧
          d₁.kind = .mark .semicolon ∧ d' = d₁.advance) rest := by
  cases h with
  | written value =>
    have hsemicolon : Runs src (';' :: rest) _ rest := runs_semicolon
    obtain ⟨hclear, hvalue⟩ := runs_init (value.back hp) clear_semicolon
      (hsemicolon.follows (fun _ _ h => h.1) closing (by simp))
    refine ⟨hclear, (hvalue.seq runs_semicolon).imp ?_⟩
    rintro d d' ⟨d₁, ⟨e', hread, he⟩, hk, rfl⟩
    exact ⟨e', d₁, .written hread, he, hk, rfl⟩
  | required =>
    have htext : ∀ s, (printInit (some (.required s))).toList = [' ', '=', ' ', '?'] := fun s => by
      simp [printInit, Expr.print]
    rw [htext]
    refine ⟨.cons (by decide) _, ?_⟩
    have hquestion : Runs src _ _ rest := (Runs.close .question rfl).seq runs_semicolon
    refine (((Runs.mark .assign (Mark.ends_cons (x := ' ') (by decide) _)).seq
      hquestion.space).space.imp ?_).congr (by simp [Mark.text])
    rintro d d' ⟨_, ⟨hk, rfl⟩, _, ⟨hk₁, rfl⟩, hk₂, rfl⟩
    exact ⟨some _, _, .required hk hk₁ hk₂, rfl, hk₂, rfl⟩

theorem ReadsVarDecl.body {configurable : Bool} {v : VarDecl} (hp : c.Plain)
    (h : ReadsVarDecl origin as ms configurable c v c') :
    ReprintsBody src (fun origin as ms => ReadsVarDecl origin as ms configurable) VarDecl.erase c as
      ms v (v.type.print.toList ++ ' ' :: (v.name.name.toList ++
        ((printInit v.init).toList ++ ';' :: rest))) rest := by
  cases h with
  | mk type name value closing =>
    obtain ⟨hclear, hvalue⟩ := value.runs (hp.reaches type.reaches).advance closing
    refine (type.runs_type hp name hclear hvalue).imp ?_
    rintro d d' ⟨hk, t', d₁, ht', ht, hn, e', d₂, he', he, hclosing, rfl⟩
    refine ⟨hk, fun origin' as' ms' has hms => ⟨_, .mk ht' hn he' hclosing, ?_⟩⟩
    simp [VarDecl.erase, ht, he, has, hms, Ident.erase]

theorem ReadsValueDecl.body {d : ValueDecl} {k : Keyword} (hp : c.Plain)
    (word : c.kind = .keyword k) (h : ReadsValueDecl origin as ms c d c') :
    ReprintsBody src ReadsValueDecl ValueDecl.erase c as ms d (k.text.toList ++ ' ' ::
      ((printTypeBefore d.type).toList ++ (d.name.name.toList ++
        (" = ".toList ++ (d.value.print.toList ++ ';' :: rest))))) rest := by
  cases h with
  | mk type name sign value closing =>
    have hp₁ := hp.advance.reaches type.reaches
    have hvalue := value.runs_expr hp₁.advance.advance closing (by simp) clear_semicolon
      (runs_semicolon : Runs src _ _ rest) fun _ _ h => h.1
    have hsign := ((Runs.mark .assign (Mark.ends_cons (x := ' ') (by decide) _)).seq
      hvalue.space).space
    have htype := type.runs hp.advance name (.cons (by decide) _) hsign
      (Runs.seq_kind fun _ _ h => h.1) rfl fun hread hk => by simp [(hread.type_kindAt hk).1]
    refine (((runs_word k).seq htype).imp ?_).congr (by simp [Mark.text])
    rintro e e' ⟨_, ⟨hk, rfl⟩, t', e₁, ht', ht, hn, _, ⟨hassign, rfl⟩, -, v', e₂, hv', hv, hclosing,
      rfl⟩
    refine ⟨hk.trans word.symm, fun origin' as' ms' has hms =>
      ⟨_, .mk ht' hn hassign hv' hclosing, ?_⟩⟩
    simp [ValueDecl.erase, ht, hv, has, hms, Ident.erase]

theorem ReadsTypeDef.body {d : TypeDef} (hp : c.Plain) (word : c.kind = .keyword .kwType)
    (h : ReadsTypeDef origin as ms c d c') :
    ReprintsBody src ReadsTypeDef TypeDef.erase c as ms d ("type ".toList ++
      (d.name.name.toList ++ ' ' :: (d.type.print.toList ++ ';' :: rest))) rest := by
  cases h with
  | mk name type closing =>
    have htype := type.runs_typeBefore hp.advance.advance closing (by simp) clear_semicolon
      (runs_semicolon : Runs src _ _ rest) fun _ _ h => h.1
    have hname := (runs_ident hp.advance name (headFails_cons.mpr (by decide))).seq htype.space
    refine (((runs_word .kwType).seq hname).imp ?_).congr (by simp [Keyword.text])
    rintro e e' ⟨_, ⟨hk, rfl⟩, _, ⟨hn, rfl⟩, -, t', e₁, ht', ht, hclosing, rfl⟩
    refine ⟨hk.trans word.symm, fun origin' as' ms' has hms => ⟨_, .mk hn ht' hclosing, ?_⟩⟩
    simp [TypeDef.erase, ht, has, hms, Ident.erase]

/-! ### Declarations of annotations -/

theorem pointStep_word (h : c.kind.word? = some n) : pointStep c = some (false, c) := by
  cases hk : c.kind <;> simp [hk, TokenKind.word?] at h <;> simp [pointStep, hk]

theorem pointStep_stop (h : c.kind = .mark .comma ∨ c.kind = .mark .semicolon) :
    pointStep c = some (true, c) := by
  rcases h with hk | hk <;> simp [pointStep, hk]

theorem pointStep_eq {b : Bool} (h : pointStep c = some (b, c')) : c = c' := by
  simp only [pointStep, Option.some.injEq, Prod.mk.injEq] at h
  exact h.2

section

variable {mid : List Char} {R : Cursor → Cursor → Prop}

/-- The words of an attach point behind the first one. -/
theorem runs_words {words : List Ident} (hp : c.Plain) (h : Repeats pointStep ReadsWord c words c')
    (hclear : HeadFails isWordChar mid) (hmid : Runs src mid R rest)
    (hkind : ∀ d d', R d d' → d.kind = .mark .comma ∨ d.kind = .mark .semicolon) :
    HeadFails isWordChar (words.flatMap (fun x => ' ' :: x.name.toList) ++ mid) ∧
      Runs src (words.flatMap (fun x => ' ' :: x.name.toList) ++ mid) (fun d d' => ∃ words' d₁,
        Repeats pointStep ReadsWord d words' d₁ ∧ words'.map (·.name) = words.map (·.name) ∧
          R d₁ d') rest := by
  induction h with
  | stop =>
    exact ⟨hclear, hmid.imp fun d d' hR =>
      ⟨[], d, .stop (pointStep_stop (hkind d d' hR)), rfl, hR⟩⟩
  | @more c _ _ c' x words step first others ih =>
    obtain ⟨hword, -, rfl⟩ := first
    obtain rfl := pointStep_eq step
    obtain ⟨hhead, hothers⟩ := ih hp.advance
    refine ⟨headFails_cons.mpr (by decide), (((runs_name hp hword hhead).seq hothers).space.imp
      ?_).congr (by simp)⟩
    rintro d d' ⟨_, ⟨hk, rfl⟩, words', d₁, hwords', hwords, hR⟩
    have hword' := hk ▸ hword
    exact ⟨⟨x.name, d.span⟩ :: words', d₁, .more (pointStep_word hword') ⟨hword', rfl, rfl⟩ hwords',
      by simp [hwords], hR⟩

theorem ReadsPoint.runs {p : String} (hp : c.Plain) (h : ReadsPoint c p c')
    (hclear : HeadFails isWordChar mid) (hmid : Runs src mid R rest)
    (hkind : ∀ d d', R d d' → d.kind = .mark .comma ∨ d.kind = .mark .semicolon) :
    Runs src (p.toList ++ mid) (fun d d' => ∃ d₁, ReadsPoint d p d₁ ∧ R d₁ d') rest := by
  cases h with
  | mk list =>
    cases list with
    | stop =>
      refine (hmid.imp fun d d' hR => ?_).congr (by simp)
      have hnone : Repeats pointStep ReadsWord d [] d := .stop (pointStep_stop (hkind d d' hR))
      exact ⟨d, .mk hnone, hR⟩
    | @more _ _ _ _ x words step first others =>
      obtain ⟨hword, -, rfl⟩ := first
      obtain rfl := pointStep_eq step
      obtain ⟨hhead, hothers⟩ := runs_words hp.advance others hclear hmid hkind
      refine (((runs_name hp hword hhead).seq hothers).imp ?_).congr
        (by simp [intercalate_cons, List.flatMap_map])
      rintro d d' ⟨_, ⟨hk, rfl⟩, words', d₁, hwords', hwords, hR⟩
      have hword' := hk ▸ hword
      have hpoint := ReadsPoint.mk (.more (a := ⟨x.name, d.span⟩) (pointStep_word hword')
        ⟨hword', rfl, rfl⟩ hwords')
      rw [List.map_cons, hwords] at hpoint
      exact ⟨d₁, hpoint, hR⟩

end

/-- The attach points behind the first one, in front of the semicolon. -/
theorem runs_points {ps : List String} (hp : c.Plain)
    (h : Repeats (Gap.between .comma).step ReadsPoint c ps c') :
    HeadFails isWordChar (ps.flatMap (fun p => ',' :: ' ' :: p.toList) ++ ';' :: rest) ∧
      Runs src (ps.flatMap (fun p => ',' :: ' ' :: p.toList) ++ ';' :: rest) (fun d d' =>
        (d.kind = .mark .comma ∨ d.kind = .mark .semicolon) ∧ ∃ d₁,
          Repeats (Gap.between .comma).step ReadsPoint d ps d₁ ∧ d₁.kind = .mark .semicolon ∧
            d' = d₁.advance) rest := by
  induction h with
  | stop =>
    refine ⟨headFails_cons.mpr (by decide), runs_semicolon.imp ?_⟩
    rintro d d' ⟨hk, rfl⟩
    exact ⟨.inr hk, d, .stop (by simp [Gap.step, hk]), hk, rfl⟩
  | more step first others ih =>
    obtain ⟨-, rfl⟩ := between_more step
    obtain ⟨hhead, hothers⟩ := ih (hp.advance.reaches first.reaches)
    have hfirst := first.runs hp.advance hhead hothers fun _ _ h => h.1
    refine ⟨headFails_cons.mpr (by decide), (((Runs.close .comma rfl).seq hfirst.space).imp
      ?_).congr (by simp [Mark.text])⟩
    rintro d d' ⟨_, ⟨hk, rfl⟩, d₁, hpoint, -, d₂, hpoints, hclosing, rfl⟩
    exact ⟨.inl hk, d₂, .more (by simp [Gap.step, hk]) hpoint hpoints, hclosing, rfl⟩

/-- How the printer writes the attach points of an annotation. -/
def pointsText (ps : List String) : List Char :=
  if ps.isEmpty then [] else " on ".toList ++ (", ".intercalate ps).toList

theorem ReadsPoints.runs {ps : List String} (src rest : List Char) (hp : c.Plain) (h : ReadsPoints c ps c') :
    Clear (pointsText ps ++ ';' :: rest) ∧ ∃ k, (k = .keyword .kwOn ∨ k = .mark .semicolon) ∧
      Runs src (pointsText ps ++ ';' :: rest) (fun d d' => d.kind = k ∧ ∃ d₁, ReadsPoints d ps d₁ ∧
        d₁.kind = .mark .semicolon ∧ d' = d₁.advance) rest := by
  cases h with
  | absent =>
    refine ⟨clear_semicolon, _, .inr rfl, runs_semicolon.imp ?_⟩
    rintro d d' ⟨hk, rfl⟩
    exact ⟨hk, d, .absent (by simp [hk]), hk, rfl⟩
  | @present _ _ p ps word first others =>
    refine ⟨.cons (by decide) _, _, .inl rfl, ?_⟩
    obtain ⟨hhead, hothers⟩ := runs_points (hp.advance.reaches first.reaches) others
    have hfirst := first.runs hp.advance hhead hothers fun _ _ h => h.1
    refine (((runs_word .kwOn).seq hfirst).space.imp ?_).congr
      (by simp [pointsText, intercalate_cons, List.flatMap_map, Keyword.text])
    rintro d d' ⟨_, ⟨hk, rfl⟩, d₁, hpoint, -, d₂, hpoints, hclosing, rfl⟩
    exact ⟨hk, d₂, .present hk hpoint hpoints, hclosing, rfl⟩

theorem ReadsAnnotationDecl.body {d : AnnotationDecl} (hp : c.Plain)
    (word : c.kind = .keyword .kwAnnotate) (h : ReadsAnnotationDecl origin ms c d c') :
    ReprintsBody src (fun origin _ ms => ReadsAnnotationDecl origin ms) AnnotationDecl.erase c [] ms d
      ("annotation ".toList ++ ((printTypeBefore d.type).toList ++ (d.name.name.toList ++
        (pointsText d.attachPoints ++ ';' :: rest)))) rest := by
  cases h with
  | mk type name points closing =>
    have hp₁ := hp.advance.reaches type.reaches
    obtain ⟨hclear, k, hk, hpoints⟩ := points.runs src rest hp₁.advance
    have htype := type.runs hp.advance name hclear hpoints (fun _ _ h => h.1)
      (by rcases hk with rfl | rfl <;> rfl) fun hread hk => by simp [hread.type_kindAt hk]
    refine (((runs_word .kwAnnotate).seq htype).imp ?_).congr (by simp [Keyword.text])
    rintro e e' ⟨_, ⟨hk, rfl⟩, t', e₁, ht', ht, hn, -, e₂, hps, hclosing, rfl⟩
    refine ⟨hk.trans word.symm, fun origin' _ ms' _ hms => ⟨_, .mk ht' hn hps hclosing, ?_⟩⟩
    simp [AnnotationDecl.erase, ht, hms, Ident.erase]

end Durable
