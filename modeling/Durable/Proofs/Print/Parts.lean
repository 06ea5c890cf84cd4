/-
Printed parts of expressions and declarations are read again.

Arguments, fields of mappings, annotations, parameters and local variables: one lemma for each
production.  Arguments, fields and parameters are items of lists, so commas and closing marks stop
them.  An annotation without a value is stopped by everything but a brace.
-/
import Durable.Proofs.Print.Expr

namespace Durable

open Text

variable {src rest : List Char} {c c₁ c₂ c₃ c' d : Cursor} {e f : Expr} {t : TypeDesc}
  {n : String} {stop : Cursor → Prop} {sp : Span}

/-! ### Arguments -/

namespace Reprints

/-- An item of a list, which a comma or the end of the list stops. -/
theorem listed {s : Sym} {x : s.Result} (h : Reprints src s c x c₁.Follows) :
    Reprints src s c x (·.kind.closes = true) :=
  h.mono fun _ hd => .of_closes hd

theorem restArg (dots : c.kind = .mark .ellipsis)
    (value : Reprints src .expr c.advance e c₁.Follows) :
    Reprints src .arg c (.rest e) (·.kind.closes = true) where
  opens := (Opens.char '.' (by decide)).extend (by simp [Sym.text, printArgs])
  runs rest hclear hstop := by
    refine (((Runs.close .ellipsis rfl).seq (value.listed.runs hclear hstop)).imp ?_).congr
      (by simp [Sym.text, printArgs, Mark.text])
    rintro d d' ⟨_, ⟨hk, rfl⟩, -, e', hread, he⟩
    exact ⟨hk.trans dots.symm, _, .restArg hk hread, congrArg Arg.rest he⟩

theorem namedArg {s : Span} (hp : c.Plain) (name : c.kind = .ident n)
    (value : Reprints src .expr c.advance.advance e c₁.Follows) :
    Reprints src .arg c (.named ⟨n, s⟩ e) (·.kind.closes = true) where
  opens := ((hp.kind (by simp [name])).opens (by simp [name])).extend
    (by simp [Sym.text, printArgs, name])
  runs rest hclear hstop := by
    have hword := hp.kind (by simp [name])
    have hsign := (Runs.mark .assign (Mark.ends_cons (x := ' ') (by decide) _)).seq
      (value.listed.runs hclear hstop).space
    refine (((Runs.token hword (Clear.ends (.cons (x := ' ') (by decide) _)
      (by simp [name]))).seq hsign.space).imp ?_).congr
      (by simp [Sym.text, printArgs, Mark.text, name])
    rintro d d' ⟨_, ⟨hk, rfl⟩, _, ⟨hk₁, rfl⟩, -, e', hread, he⟩
    refine ⟨hk, _, .namedArg (hk.trans name) hk₁ hread, ?_⟩
    simp_all [Sym.erase, Ident.erase]

theorem positional (value : Reprints src .expr c e c₁.Follows) :
    Reprints src .arg c (.positional e) (·.kind.closes = true) where
  opens := value.opens.extend (by simp [Sym.text, printArgs])
  runs rest hclear hstop := by
    refine ((value.listed.runs hclear hstop).before.imp ?_).congr (by simp [Sym.text, printArgs])
    rintro d d' ⟨⟨hk, e', hread, he⟩, hd'⟩
    refine ⟨hk, _, .positional (fun hnamed => ?_) hread, congrArg Arg.positional he⟩
    -- A name in front of a sign would be all that is read, and a sign stops no item.
    obtain ⟨hident, hassign⟩ := hnamed
    cases hname : d.kind with
    | ident n =>
      have hclose := hstop d' hd'
      rw [hread.expr_of_name hname (.inl hassign), hassign] at hclose
      simp [TokenKind.closes] at hclose
    | _ => simp [hname, TokenKind.isIdent] at hident

/-! ### Fields of mappings -/

theorem spread (dots : c.kind = .mark .ellipsis)
    (value : Reprints src .expr c.advance e c₁.Follows) :
    Reprints src .mappingField c (.spread e) (·.kind.closes = true) where
  opens := (Opens.char '.' (by decide)).extend (by simp [Sym.text, printFields])
  runs rest hclear hstop := by
    refine (((Runs.close .ellipsis rfl).seq (value.listed.runs hclear hstop)).imp ?_).congr
      (by simp [Sym.text, printFields, Mark.text])
    rintro d d' ⟨_, ⟨hk, rfl⟩, -, e', hread, he⟩
    exact ⟨hk.trans dots.symm, _, .spread hk hread, congrArg MappingField.spread he⟩

/-- A key of one token and a value behind a colon. -/
theorem runs_keyed {k : TokenKind} (hk : k.Plain)
    (hcolon : ∀ more, k.Ends (':' :: more)) (value : Reprints src .expr c e c₁.Follows)
    (hclear : Clear rest) (hstop : ∀ d : Cursor, d.Before src rest → d.kind.closes = true) :
    Runs src (k.spelling ++ ':' :: ' ' :: (e.print.toList ++ rest))
      (fun d d' => d.kind = k ∧ d.advance.kind = .mark .colon ∧
        ∃ e', Reads .expr d.advance.advance e' d' ∧ e'.erase = e.erase) rest := by
  have hvalue := (Runs.close .colon rfl).seq (value.listed.runs hclear hstop).space
  refine ((Runs.token hk (hcolon _)).seq hvalue).imp ?_
  rintro d d' ⟨_, ⟨hk, rfl⟩, _, ⟨hk₁, rfl⟩, -, e', hread, he⟩
  exact ⟨hk, hk₁, e', hread, he⟩

theorem stringField {key : String} {s : Span} (hkey : c.kind = .string key)
    (value : Reprints src .expr c.advance.advance e c₁.Follows) :
    Reprints src .mappingField c (.string key s e) (·.kind.closes = true) where
  opens := (Spells.opens (TokenKind.plain_string key) (by simp)).extend
    (by simp [Sym.text, printFields])
  runs rest hclear hstop := by
    refine ((runs_keyed (TokenKind.plain_string key) (fun _ => trivial) value hclear
      hstop).imp ?_).congr (by simp [Sym.text, printFields])
    rintro d d' ⟨hk, hk₁, e', hread, he⟩
    refine ⟨hk.trans hkey.symm, _, .stringField hk hk₁ hread, ?_⟩
    simp_all [Sym.erase]

theorem wordField {s : Span} (hp : c.Plain) (hkey : c.kind.word? = some n)
    (value : Reprints src .expr c.advance.advance e c₁.Follows) :
    Reprints src .mappingField c (.word ⟨n, s⟩ e) (·.kind.closes = true) where
  opens := by
    have := (hp.kind (TokenKind.ne_endOfFile_of_word? hkey)).opens (TokenKind.ne_mark_of_word? hkey)
    rw [TokenKind.spelling_of_word? hkey] at this
    exact this.extend (by simp [Sym.text, printFields])
  runs rest hclear hstop := by
    have hword := hp.kind (TokenKind.ne_endOfFile_of_word? hkey)
    have hcolon : ∀ more, c.kind.Ends (':' :: more) := by
      intro more
      cases hc : c.kind <;> simp [hc, TokenKind.word?] at hkey <;>
        exact headFails_cons.mpr (by decide)
    refine ((runs_keyed hword hcolon value hclear hstop).imp
      ?_).congr (by simp [Sym.text, printFields, TokenKind.spelling_of_word? hkey])
    rintro d d' ⟨hk, hk₁, e', hread, he⟩
    refine ⟨hk, _, .wordField (hk ▸ hkey) hk₁ hread, ?_⟩
    simp_all [Sym.erase, Ident.erase]

theorem computedField (opening : c.kind = .mark .openBracket)
    (hkey : Reprints src .expr c.advance f c₁.Follows)
    (value : Reprints src .expr c₁.advance.advance e c₂.Follows) :
    Reprints src .mappingField c (.computed f e) (·.kind.closes = true) where
  opens := (Opens.char '[' (by decide)).extend (by simp [Sym.text, printFields])
  runs rest hclear hstop := by
    have hvalue := (Runs.close .colon rfl).seq (value.listed.runs hclear hstop).space
    have hclose := (Runs.close .closeBracket rfl).seq hvalue
    have hinner := hkey.listed.runs (.mark (m := .closeBracket) (by decide) _)
      (hclose.closes (Runs.seq_kind fun _ _ h => h.1) rfl)
    refine (((Runs.close .openBracket rfl).seq (hinner.seq hclose)).imp ?_).congr
      (by simp [Sym.text, printFields, Mark.text])
    rintro d d' ⟨_, ⟨hk, rfl⟩, d₁, ⟨-, f', hf', hf⟩, _, ⟨hk₁, rfl⟩, _, ⟨hk₂, rfl⟩, -, e', he', he⟩
    refine ⟨hk.trans opening.symm, _, .computedField hk hf' hk₁ hk₂ he', ?_⟩
    simp_all [Sym.erase]

theorem shorthand {s : Span} (hp : c.Plain) (hkey : c.kind.word? = some n) :
    Reprints src .mappingField c (.shorthand (.simple ⟨n, s⟩)) (·.kind.closes = true) :=
  reprints_token hp (TokenKind.ne_endOfFile_of_word? hkey) (TokenKind.ne_mark_of_word? hkey)
    (by simp [Sym.text, printFields, NameRef.simple, NameRef.asWritten,
      TokenKind.spelling_of_word? hkey])
    fun d hk _ hclose => by
      refine ⟨_, .shorthand (hk ▸ hkey) fun hcolon => ?_, rfl⟩
      simp [hcolon, TokenKind.closes] at hclose

theorem fields {fs : List MappingField} (opening : c.kind = .mark .openBrace)
    (list : ∀ f ∈ fs, ∃ c, Reprints src .mappingField c f (·.kind.closes = true)) :
    Reprints src .mapping c (.mapping fs sp) stop where
  opens := (Opens.char '\x7b' (by decide)).extend (by simp [Sym.text, Expr.print])
  runs rest _ _ := by
    have hlist := runs_commaList (s := .mappingField)
      (show (TokenKind.mark .closeBrace).closes = true from rfl) (by decide)
      (by simp [Sym.Starts, TokenKind.word?]) list rest
    have hopen : (TokenKind.mark .openBrace).Ends
        ([',', ' '].intercalate (fs.map (Sym.text .mappingField)) ++
          (Mark.closeBrace.text.toList ++ rest)) := by
      cases fs with
      | nil => exact Mark.ends_cons (x := '\x7d') (by decide) rest
      | cons f fs =>
        obtain ⟨_, hf⟩ := list f (by simp)
        rw [List.map_cons, intercalate_cons, List.append_assoc]
        exact (hf.opens.append _).ends (by decide)
    refine (((Runs.mark .openBrace hopen).seq hlist).imp ?_).congr
      (by simp [Sym.text, Expr.print, Mark.text, printFields_text])
    rintro d d' ⟨_, ⟨hk, rfl⟩, fs', hread, hfs⟩
    refine ⟨hk.trans opening.symm, _, .fields hk hread, ?_⟩
    have : fs'.map MappingField.erase = fs.map MappingField.erase := hfs
    simpa [Sym.erase] using this

end Reprints

/-! ### Annotations -/

theorem Reprints.tag {r : NameRef} {value : Option Expr} (hp : c.Plain)
    (sign : c.kind = .mark .atSign) (ref : ReadsName c.advance r c₁)
    (hvalue : ∀ e ∈ value, ∃ c, Reprints src .mapping c e fun _ => True) :
    Reprints src .tag c ⟨r, value, sp⟩ (·.kind ≠ .mark .openBrace) where
  opens := (Opens.char '@' (by decide)).extend (by simp [Sym.text, Annotation.print])
  runs rest hclear hstop := by
    have hsign : ∀ more, Runs src (Mark.atSign.text.toList ++ more) _ more := fun more =>
      .close .atSign rfl
    cases value with
    | none =>
      refine (((hsign _).seq (ref.runs hp.advance hclear)).before.imp ?_).congr
        (by simp [Sym.text, Annotation.print, Mark.text])
      rintro d d' ⟨⟨_, ⟨hk, rfl⟩, -, -, r', href, hr⟩, hd'⟩
      refine ⟨hk.trans sign.symm, _, .tag hk href (.missing (by simpa using hstop _ hd')), ?_⟩
      simp_all [Sym.erase, Annotation.erase]
    | some e =>
      obtain ⟨_, he⟩ := hvalue e rfl
      have hmapping := (he.runs hclear fun _ _ => trivial).space
      refine (((hsign _).seq ((ref.runs hp.advance (.cons (by decide) _)).seq hmapping)).imp
        ?_).congr (by simp [Sym.text, Annotation.print, Mark.text])
      rintro d d' ⟨_, ⟨hk, rfl⟩, d₁, ⟨-, -, r', href, hr⟩, -, e', hread, he'⟩
      refine ⟨hk.trans sign.symm, _,
        .tag hk href (.found (by simp [hread.mapping_kind]) hread), ?_⟩
      simp_all [Sym.erase, Annotation.erase]

/-- A text that stands behind an annotation and is blank. -/
structure SetsApart (gap : List Char) : Prop where
  blank : ∀ ch ∈ gap, isBlank ch = true
  clear : ∀ more, Clear (gap ++ more)

theorem setsApart_space : SetsApart [' '] := ⟨by simp [Text.blank_space], .cons (by decide)⟩

/-- Annotations with blanks behind each, in front of what takes none. -/
theorem runs_annotations {gap : List Char} (hgap : SetsApart gap) {as : List Annotation}
    (h : ∀ a ∈ as, ∃ c, Reprints src .tag c a (·.kind ≠ .mark .openBrace))
    (hstop : ∀ d : Cursor, d.Before src rest →
      d.kind ≠ .mark .atSign ∧ d.kind ≠ .mark .openBrace) :
    Runs src (as.flatMap (fun a => a.print.toList ++ gap) ++ rest)
      (fun d d' => ((as = [] ∧ d' = d ∧ d.kind ≠ .mark .atSign) ∨
          as ≠ [] ∧ d.kind = .mark .atSign) ∧
        ∃ as', Reads .annotations d as' d' ∧
          as'.map Annotation.erase = as.map Annotation.erase) rest := by
  induction as with
  | nil =>
    refine ⟨id, fun d hd => ⟨d, ⟨.inl ⟨rfl, rfl, (hstop d hd).1⟩, [], .stop ?_, rfl⟩, hd⟩⟩
    simp [Gap.step, (hstop d hd).1]
  | cons a as ih =>
    obtain ⟨c, ha⟩ := h a (by simp)
    have hothers := ih fun b hb => h b (by simp [hb])
    have hnext : ∀ d : Cursor, d.Before src
        (gap ++ (as.flatMap (fun a => a.print.toList ++ gap) ++ rest)) →
        d.kind ≠ .mark .openBrace := by
      intro d hd
      obtain ⟨d', ⟨hcases, -⟩, hd'⟩ := hothers.run (hd.blanks hgap.blank)
      rcases hcases with ⟨-, rfl, -⟩ | ⟨-, hat⟩
      · exact (hstop _ hd').2
      · simp [hat]
    have hfirst := ha.runs (hgap.clear _) hnext
    refine ((hfirst.seq (hothers.blanks hgap.blank)).imp ?_).congr (by simp [Sym.text])
    rintro d d' ⟨d₁, ⟨hk, a', hread, ha'⟩, -, as', hmany, has⟩
    have hat : d.kind = .mark .atSign := hread.starts
    have ha' : a'.erase = a.erase := ha'
    exact ⟨.inr ⟨by simp, hat⟩, a' :: as', .more (by simp [Gap.step, hat]) hread hmany,
      by simp [ha', has]⟩

theorem Reads.annotations_head {as : List Annotation} (h : Reads .annotations c as c₁) :
    (as = [] ∧ c₁ = c) ∨ (as ≠ [] ∧ c.kind = .mark .atSign) := by
  cases h with
  | stop step =>
    simp only [Gap.step] at step
    split at step <;> simp_all
  | more step =>
    simp only [Gap.step] at step
    split at step <;> simp_all

/-- Annotations in front of a declaration. -/
theorem runs_annotated {gap text : List Char} {R : Cursor → Cursor → Prop} (hgap : SetsApart gap)
    {as : List Annotation} (annotations : Reads .annotations c as c₁)
    (h : ∀ a ∈ as, ∃ c, Reprints src .tag c a (·.kind ≠ .mark .openBrace))
    (hne : c₁.kind ≠ .mark .atSign ∧ c₁.kind ≠ .mark .openBrace) (hrest : Runs src text R rest)
    (hkind : ∀ d d', R d d' → d.kind = c₁.kind) :
    Runs src (as.flatMap (fun a => a.print.toList ++ gap) ++ text)
      (fun d d' => d.kind = c.kind ∧ ∃ as' d₁, Reads .annotations d as' d₁ ∧
        as'.map Annotation.erase = as.map Annotation.erase ∧ R d₁ d') rest := by
  have hstart : Runs src _ _ text := runs_annotations hgap h fun d hd => by
    rw [hrest.kind_eq hkind hd]
    exact hne
  refine (hstart.seq hrest).imp ?_
  rintro d d' ⟨d₁, ⟨hcases, as', hread, has⟩, hR⟩
  refine ⟨?_, as', d₁, hread, has, hR⟩
  rcases annotations.annotations_head, hcases with ⟨⟨rfl, rfl⟩ | ⟨hne, hat⟩, ⟨hnil, rfl, -⟩ | ⟨hne', hat'⟩⟩
  · exact hkind _ _ hR
  · exact absurd rfl hne'
  · exact absurd hnil hne
  · exact hat'.trans hat.symm

theorem Opens.annotated {text : List Char} (h : Opens text) (gap : List Char)
    (as : List Annotation) :
    Opens (as.flatMap (fun a => a.print.toList ++ gap) ++ text) := by
  cases as with
  | nil => exact h
  | cons a as => exact (Opens.char '@' (by decide)).extend (by simp [ Annotation.print])

theorem printInlineAnnotations_text (as : List Annotation) :
    (printInlineAnnotations as).toList = as.flatMap fun a => a.print.toList ++ [' '] := by
  induction as with
  | nil => rfl
  | cons a as ih => simp_all [printInlineAnnotations]

/-! ### Parameters and local variables -/

theorem runs_init {v : Option Expr}
    (value : v.elim (c.kind ≠ .mark .assign ∧ c₁ = c) fun e =>
      c.kind = .mark .assign ∧ Reprints src .expr c.advance e c₁.Follows)
    (hclear : Clear rest) (hstop : ∀ d : Cursor, d.Before src rest → c₁.Follows d) :
    Clear ((printInit v).toList ++ rest) ∧ Runs src ((printInit v).toList ++ rest) (fun d d' =>
      ∃ v', Reads (.behind (.mark .assign) .expr) d v' d' ∧
        v'.map Expr.erase = v.map Expr.erase) rest := by
  obtain ⟨hclear', -, hvalue⟩ := runs_behind (s := .expr) separates_assign value hclear
    fun d hd => ⟨hstop d hd, by simp [TokenKind.stops, TokenKind.closes]⟩
  have htext : (printInit v).toList = v.elim [] fun e =>
      [' '] ++ ((TokenKind.mark .assign).spelling ++ ([' '] ++ Sym.text .expr e)) := by
    cases v <;> simp [printInit, Sym.text, Mark.text]
  rw [htext]
  exact ⟨hclear', hvalue⟩

/-- A name behind a type and the value it is given. -/
theorem runs_named {v : Option Expr} (hp : c.Plain) (name : c.kind = .ident n)
    (value : v.elim (c.advance.kind ≠ .mark .assign ∧ c₁ = c.advance) fun e =>
      c.advance.kind = .mark .assign ∧ Reprints src .expr c.advance.advance e c₁.Follows)
    (hclear : Clear rest) (hstop : ∀ d : Cursor, d.Before src rest → c₁.Follows d) :
    Runs src (' ' :: (n.toList ++ ((printInit v).toList ++ rest))) (fun d d' =>
      d.kind = .ident n ∧ ∃ v', Reads (.behind (.mark .assign) .expr) d.advance v' d' ∧
        v'.map Expr.erase = v.map Expr.erase) rest := by
  obtain ⟨hclear', hvalue⟩ := runs_init value hclear hstop
  have hword := hp.kind (by simp [name])
  rw [name] at hword
  refine ((Runs.token hword (hclear'.ends (by simp))).seq hvalue).space.imp ?_
  rintro d d' ⟨_, ⟨hk, rfl⟩, hv⟩
  exact ⟨hk, hv⟩

theorem startsType_ne {k : TokenKind} (h : k.startsType = true) :
    k ≠ .mark .atSign ∧ k ≠ .mark .openBrace ∧ k ≠ .keyword .kwFinal := by
  refine ⟨?_, ?_, ?_⟩ <;> rintro rfl <;> exact absurd h (by decide)

namespace Reprints

variable {as : List Annotation} {s : Span}

theorem restParam (hp : c₂.Plain) (annotations : Reads .annotations c as c₁)
    (tags : ∀ a ∈ as, ∃ c, Reprints src .tag c a (·.kind ≠ .mark .openBrace))
    (hstarts : c₁.kind.startsType = true) (type : Reprints src .type c₁ t c₂.Follows)
    (dots : c₂.kind = .mark .ellipsis) (name : c₂.advance.kind = .ident n) :
    Reprints src .param c ⟨as, .rest, t, ⟨n, s⟩, none, sp⟩ stop where
  opens := (type.opens.annotated [' '] as).extend (by
    simp [Sym.text, Param.print, printInlineAnnotations_text])
  runs rest hclear hstop := by
    have hword := hp.advance.kind (by simp [name])
    rw [name] at hword
    have hname : Runs src _ _ rest := (Runs.token hword (hclear.ends (by simp))).space
    have hend : Runs src _ _ _ := (Runs.close .ellipsis rfl).seq hname
    have htype := (type.runs (.ellipsis _) (hend.follows (Runs.seq_kind fun _ _ h => h.1) dots (by simp)))
    refine ((runs_annotated setsApart_space annotations tags
      ⟨(startsType_ne hstarts).1, (startsType_ne hstarts).2.1⟩ (htype.seq hend)
      (Runs.seq_kind fun _ _ h => h.1)).imp ?_).congr
      (by simp [Sym.text, Param.print, printInlineAnnotations_text, printInit, Mark.text])
    rintro d d' ⟨hk, as', d₁, hannotations, has, d₂, ⟨-, t', htype', ht⟩, _, ⟨hk₂, rfl⟩, hk₃, rfl⟩
    refine ⟨hk, _, .restParam hannotations htype' hk₂ hk₃, ?_⟩
    simp_all [Sym.erase, Param.erase, Ident.erase]

theorem param {v : Option Expr} (hp : c₂.Plain) (annotations : Reads .annotations c as c₁)
    (tags : ∀ a ∈ as, ∃ c, Reprints src .tag c a (·.kind ≠ .mark .openBrace))
    (hstarts : c₁.kind.startsType = true) (type : Reprints src .type c₁ t c₂.Follows)
    (name : c₂.kind = .ident n)
    (value : v.elim (c₂.advance.kind ≠ .mark .assign ∧ c₃ = c₂.advance) fun e =>
      c₂.advance.kind = .mark .assign ∧ Reprints src .expr c₂.advance.advance e c₃.Follows) :
    Reprints src .param c
      ⟨as, if v.isSome then .defaultable else .required, t, ⟨n, s⟩, v, sp⟩
      (·.kind.closes = true) where
  opens := (type.opens.annotated [' '] as).extend (by
    cases v <;> simp [Sym.text, Param.print, printInlineAnnotations_text])
  runs rest hclear hstop := by
    have hend := runs_named hp name value hclear fun d hd => .of_closes (hstop d hd)
    have htype := type.runs (.cons (by decide) _) (hend.follows (fun _ _ h => h.1) name (by simp))
    refine ((runs_annotated setsApart_space annotations tags
      ⟨(startsType_ne hstarts).1, (startsType_ne hstarts).2.1⟩ (htype.seq hend)
      (Runs.seq_kind fun _ _ h => h.1)).imp ?_).congr
      (by cases v <;> simp [Sym.text, Param.print, printInlineAnnotations_text])
    rintro d d' ⟨hk, as', d₁, hannotations, has, d₂, ⟨-, t', htype', ht⟩, hk₂, v', hread, hv⟩
    refine ⟨hk, _, .param hannotations htype' hk₂ hread, ?_⟩
    have hsome : v'.isSome = v.isSome := by
      have := congrArg Option.isSome hv
      simpa using this
    simp_all [Sym.erase, Param.erase, Ident.erase]

end Reprints

/-- A declaration is read again whatever stands behind its semicolon. -/
def ReprintsDecl (src : List Char) (c : Cursor) (d : LocalVar) : Prop :=
  ∀ rest, Runs src (Sym.text .localVar d ++ rest) (fun e e' => e.kind = c.kind ∧
    ∃ d', Reads .localVar e d' e' ∧ Sym.erase .localVar d' = Sym.erase .localVar d) rest

theorem ReprintsDecl.mk {as : List Annotation} {s : Span} {v : Option Expr} (hp : c₂.Plain)
    (annotations : Reads .annotations c as c₁)
    (tags : ∀ a ∈ as, ∃ c, Reprints src .tag c a (·.kind ≠ .mark .openBrace))
    (hstarts : (c₁.pass (.keyword .kwFinal)).kind.startsType = true)
    (type : Reprints src .type (c₁.pass (.keyword .kwFinal)) t c₂.Follows)
    (name : c₂.kind = .ident n)
    (value : v.elim (c₂.advance.kind ≠ .mark .assign ∧ c₃ = c₂.advance) fun e =>
      c₂.advance.kind = .mark .assign ∧ Reprints src .expr c₂.advance.advance e c₃.Follows)
    (closing : c₃.kind = .mark .semicolon) :
    ReprintsDecl src c ⟨as, c₁.kind == .keyword .kwFinal, t, ⟨n, s⟩, v⟩ := by
  intro rest
  have hsemi : Runs src _ _ rest := Runs.close .semicolon rfl
  have hend := runs_named hp name value (.mark (m := .semicolon) (by decide) rest)
    (hsemi.follows (fun _ _ h => h.1) closing (by simp))
  have htype := type.runs (.cons (by decide) _) (hend.follows (fun _ _ h => h.1) name (by simp))
  have hdecl := (htype.seq hend).seq hsemi
  by_cases hfinal : c₁.kind = .keyword .kwFinal
  · refine ((runs_annotated setsApart_space annotations tags (by simp [hfinal])
      ((Runs.keyword .kwFinal (headFails_cons.mpr rfl)).seq hdecl.space)
      (Runs.seq_kind fun _ _ h => h.1.trans hfinal.symm)).imp ?_).congr
      (by simp [hfinal, Sym.text, LocalVar.print, printInlineAnnotations_text, Keyword.text,
        Mark.text])
    rintro d d' ⟨hk, as', d₁, hannotations, has, _, ⟨hk₁, rfl⟩, d₃, ⟨d₂, ⟨-, t', htype', ht⟩, hk₂,
      v', hread, hv⟩, hk₃, rfl⟩
    refine ⟨hk, _, .localVar hannotations (by rwa [Cursor.pass, if_pos hk₁]) hk₂ hread hk₃, ?_⟩
    simp_all [Sym.erase, LocalVar.erase, Ident.erase]
  · rw [Cursor.pass, if_neg hfinal] at hstarts
    have hpass : c₁.pass (.keyword .kwFinal) = c₁ := by rw [Cursor.pass, if_neg hfinal]
    refine ((runs_annotated setsApart_space annotations tags
      ⟨(startsType_ne hstarts).1, (startsType_ne hstarts).2.1⟩ hdecl
      (Runs.seq_kind (Runs.seq_kind fun _ _ h => hpass ▸ h.1))).imp ?_).congr
      (by simp [hfinal, Sym.text, LocalVar.print, printInlineAnnotations_text, Mark.text])
    rintro d d' ⟨hk, as', d₁, hannotations, has, d₃, ⟨d₂, ⟨hk₁, t', htype', ht⟩, hk₂, v', hread,
      hv⟩, hk₃, rfl⟩
    rw [hpass] at hk₁
    refine ⟨hk, _, .localVar hannotations
      (by rwa [Cursor.pass, if_neg (hk₁ ▸ hfinal)]) hk₂ hread hk₃, ?_⟩
    simp_all [Sym.erase, LocalVar.erase, Ident.erase]

end Durable
