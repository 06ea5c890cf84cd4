/-
Imports are read again where they stand in another text.

An import ends with a semicolon, and nothing joins a semicolon: wherever the text of some imports
is put, its tokens are scanned as they were.  Which imports they are only matters by the kinds of
their tokens, so the same imports are read, up to their places, in front of whatever is read behind
them.  Texts of imports may therefore be put one behind another; where the list ends is decided by
the first token that is no import.
-/
import Durable.Proofs.Print.Module
import Durable.Proofs.Token.Partition

namespace Durable

open Text

variable {c c' c₁ : Cursor} {ks ls : List TokenKind} {cs : List Char}

/-! ### A mark in the place of a token -/

/-- A mark that is joined to nothing, on either side. -/
def Mark.isApart : Mark → Bool
  | semicolon | atSign => true
  | _ => false

/-- A single character between two tokens is a blank, for a comment has two slashes. -/
theorem Tile.Starts.isBlank_of_singleton {t : Tile} {rest : List Char} {ch : Char}
    (h : t.Starts cs rest) (hblank : t.blank = [ch]) : isBlank ch = true := by
  have htrivia := Lexer.trivia_of_splitTrivia h.skip
  rw [hblank] at htrivia
  generalize (t.text ++ rest).isEmpty = atEnd at htrivia
  cases htrivia with
  | blank hch => exact hch

/-- A mark stands behind the blanks of another token. -/
theorem Tile.Starts.replace {t : Tile} {rest : List Char} {m : Mark} (h : t.Starts cs rest)
    (hm : m.isApart = true) (more : List Char) :
    (Tile.mk t.blank m.text.toList (.mark m)).Starts (t.blank ++ (m.text.toList ++ more)) more := by
  have hends : (TokenKind.mark m).Ends more :=
    Mark.ends_of_joins_nil (by cases m <;> first | rfl | simp [Mark.isApart] at hm) more
  obtain ⟨ch, others, htext, -⟩ := h.scan
  have hmark : ∃ x, m.text.toList = [x] ∧ isBlank x = false ∧ x ≠ '/' := by
    cases m <;> first | exact ⟨_, rfl, by decide, by decide⟩ | simp [Mark.isApart] at hm
  obtain ⟨x, hx, hblank, hslash⟩ := hmark
  refine ⟨?_, Lexer.scanToken_of_spells (.mark m) hends⟩
  rw [hx]
  exact Lexer.splitTrivia_replace (htext ▸ h.skip) hblank fun y heq => hslash (List.cons.inj heq).1

namespace Passes

theorem append (h : Passes c ks c₁) (h' : Passes c₁ ls c') : Passes c (ks ++ ls) c' := by
  induction h with
  | stop => exact h'
  | pass kind inside _ ih => exact .pass kind inside (ih h')

theorem split (h : Passes c (ks ++ ls) c') : ∃ c₁, Passes c ks c₁ ∧ Passes c₁ ls c' := by
  induction ks generalizing c with
  | nil => exact ⟨c, .stop, h⟩
  | cons k ks ih =>
    cases h with
    | pass kind inside more =>
      obtain ⟨c₁, hks, hls⟩ := ih more
      exact ⟨c₁, .pass kind inside hks, hls⟩

theorem reaches (h : Passes c ks c') : c.Reaches c' := by
  induction h with
  | stop => exact .refl
  | pass _ _ _ ih => exact Cursor.Reaches.refl.step.trans ih

theorem of_reaches (hc : c.StandsIn cs) (h : c.Reaches c') (hend : c'.kind ≠ .endOfFile) :
    ∃ ks, Passes c ks c' := by
  induction h with
  | refl => exact ⟨[], .stop⟩
  | @step c' hr ih =>
    have hkind : c'.kind ≠ .endOfFile := fun heq => by
      rw [(hc.reaches hr).advance_eq heq] at hend
      exact hend heq
    obtain ⟨ks, hks⟩ := ih hkind
    exact ⟨ks ++ [c'.kind], hks.append (.pass rfl hkind .stop)⟩

/-- **The tokens up to a token are passed again where a mark stands in its place.** -/
theorem swap (h : Passes c ks c') (hc : c.StandsIn cs) (hend : c'.kind ≠ .endOfFile) :
    ∃ front p text rest, cs = front ++ (p ++ (text ++ rest)) ∧ Spells c'.kind text ∧
      c.passed = byteLength front ∧ c'.start = byteLength (front ++ p) ∧
      c'.advance.passed = byteLength (front ++ (p ++ text)) ∧
      ∀ {m : Mark}, m.isApart = true → ∀ src more : List Char,
        Runs src (p ++ (m.text.toList ++ more))
          (fun d d' => Passes d (ks ++ [.mark m]) d') more := by
  obtain ⟨front, p, rest, hcs, hpassed, hstop, -, -, hruns⟩ := h.runs hc hend
  obtain ⟨front', t, rest', hcs', hpassed', ht, hkind, hspan, hadvance⟩ :=
    (hc.reaches h.reaches).token hend
  obtain ⟨rfl, rfl⟩ : front ++ p = front' ∧ rest = t.blank ++ t.text ++ rest' :=
    append_inj_of_byteLength (by rw [List.append_assoc, ← hcs, hcs']; simp)
      (hstop.symm.trans hpassed')
  have hne : t.text ++ rest' ≠ [] := by
    obtain ⟨ch, others, htext, -⟩ := ht.scan
    simp [htext]
  refine ⟨front, p ++ t.blank, t.text, rest', by rw [hcs]; simp, hkind ▸ ht.spells, hpassed,
    (congrArg Span.start hspan).trans (by simp), hadvance.trans (by simp),
    fun {m} hm src more => ?_⟩
  have hmark : ∃ x, m.text.toList = [x] ∧ cuts x = true := by
    cases m <;> first | exact ⟨_, rfl, rfl⟩ | simp [Mark.isApart] at hm
  obtain ⟨x, hx, hcuts⟩ := hmark
  have hword : ∀ ch, t.blank = [ch] → isWordStart ch = false := fun ch hblank =>
    Bool.eq_false_iff.mpr fun hstart => by
      have hnone := isBlank_of_isWordChar (isWordChar_of_isWordStart hstart)
      rw [ht.isBlank_of_singleton hblank] at hnone
      contradiction
  have hfirst := hruns t.blank (t.text ++ rest') (by simp) hne hword src more hcuts
  have hlast : Runs src _ _ more := Runs.tile (ht.replace hm more)
  rw [hx, List.singleton_append] at hlast
  refine ((hfirst.seq hlast).imp ?_).congr (by simp [hx])
  rintro d d' ⟨d₁, ⟨hpasses, -⟩, hmark, rfl, -⟩
  exact hpasses.append (.pass hmark (by simp) .stop)

theorem kind_eq {d d' : Cursor} {k : TokenKind} (h : Passes d (k :: ks) d') : d.kind = k := by
  cases h with
  | pass kind => exact kind

/-- The same tokens in two texts start with the same kind of token. -/
theorem kind_congr {d d' : Cursor} (h : Passes c ks c') (h' : Passes d ks d') (hks : ks ≠ []) :
    d.kind = c.kind := by
  obtain ⟨k, ks, rfl⟩ := List.exists_cons_of_ne_nil hks
  rw [h.kind_eq, h'.kind_eq]

theorem advance {k : TokenKind} (h : Passes c (k :: ks) c') : Passes c.advance ks c' := by
  cases h with
  | pass _ _ more => exact more

theorem eq_of_nil (h : Passes c [] c') : c' = c := by
  cases h with
  | stop => rfl

end Passes

/-! ### Only kinds matter to imports -/

section

variable {c₂ c₃ : Cursor}

/-- Only the kinds of its tokens make a name with dots one. -/
theorem passes_furtherParts {parts : List Ident}
    (h : Repeats (Gap.between .dot).step ReadsWord c parts c') : ∃ ks, Passes c ks c' ∧
      c'.kind ≠ .mark .dot ∧ ∀ d d', Passes d ks d' → d'.kind ≠ .mark .dot →
        ∃ parts', Repeats (Gap.between .dot).step ReadsWord d parts' d' ∧
          parts'.map Ident.erase = parts.map Ident.erase := by
  induction h with
  | @stop c c' hstep =>
    simp only [Gap.step] at hstep
    split at hstep
    · simp at hstep
    · next hdot =>
      obtain rfl : c = c' := by simpa using hstep
      refine ⟨[], .stop, hdot, fun d d' hd hd' => ?_⟩
      obtain rfl := hd.eq_of_nil
      exact ⟨[], .stop (by simp [Gap.step, hd']), rfl⟩
  | @more c c₁ c₂ c' x parts hstep first _ ih =>
    obtain ⟨ks, hks, hdot, hsame⟩ := ih
    obtain ⟨hword, -, rfl⟩ := first
    simp only [Gap.step] at hstep
    split at hstep
    · next hmark =>
      obtain rfl : c.advance = c₁ := by simpa using hstep
      have hne := TokenKind.ne_endOfFile_of_word? hword
      refine ⟨_ :: _ :: ks, .pass hmark (by simp) (.pass rfl hne hks), hdot, fun d d' hd hd' => ?_⟩
      obtain ⟨parts', hparts', herase⟩ := hsame _ _ hd.advance.advance hd'
      have hstep' : (Gap.between .dot).step d = some (false, d.advance) := by
        simp [Gap.step, hd.kind_eq]
      have hword' : d.advance.kind.word? = some x.name := by rw [hd.advance.kind_eq, hword]
      exact ⟨⟨x.name, d.advance.span⟩ :: parts', .more hstep' ⟨hword', rfl, rfl⟩ hparts',
        by simp [herase, Ident.erase]⟩
    · simp at hstep

/-- Only the kinds of its tokens make a prefix one. -/
theorem ReadsRename.passes {rename : Option Ident} (h : ReadsRename c rename c') : ∃ ks,
    Passes c ks c' ∧ (ks = [] → c.kind ≠ .keyword .kwAs) ∧
      ∀ d d', Passes d ks d' → (ks = [] → d.kind ≠ .keyword .kwAs) →
        ∃ rename', ReadsRename d rename' d' ∧ rename'.map Ident.erase = rename.map Ident.erase := by
  cases h with
  | absent other =>
    refine ⟨[], .stop, fun _ => other, fun d d' hd hother => ?_⟩
    obtain rfl := hd.eq_of_nil
    exact ⟨none, .absent (hother rfl), rfl⟩
  | @present n word name =>
    refine ⟨[_, _], .pass word (by simp) (.pass name (by simp) .stop), by simp,
      fun d d' hd _ => ?_⟩
    obtain rfl := hd.advance.advance.eq_of_nil
    exact ⟨some ⟨n, d.advance.span⟩, .present hd.kind_eq hd.advance.kind_eq, rfl⟩

/-- **Only the kinds of its tokens make an import what it is**, up to places. -/
theorem ReadsImport.passes {i : Import} (h : ReadsImport c i c') : ∃ ks,
    Passes c (ks ++ [.mark .semicolon]) c' ∧ ∀ d d', Passes d (ks ++ [.mark .semicolon]) d' →
      ∃ i', ReadsImport d i' d' ∧ i'.erase = i.erase := by
  cases h with
  | @mk c₁ c₂ c₃ org rename n parts word horg head further hrename closing =>
    obtain ⟨ks, hks, hdot, hparts⟩ := passes_furtherParts further
    obtain ⟨ls, hls, hother, hrename⟩ := hrename.passes
    have hclose : Passes c₃ [.mark .semicolon] c₃.advance := .pass closing (by simp) .stop
    have hbehind := hks.append (hls.append hclose)
    have hname : Passes c₁ (c₁.kind :: (ks ++ (ls ++ [.mark .semicolon]))) c₃.advance :=
      .pass rfl (TokenKind.ne_endOfFile_of_word? head) hbehind
    -- What is read behind the organization.
    have hrest : ∀ d d', Passes d (c₁.kind :: (ks ++ (ls ++ [.mark .semicolon]))) d' →
        ∃ d₂ d₃ parts' rename', Repeats (Gap.between .dot).step ReadsWord d.advance parts' d₂ ∧
          ReadsRename d₂ rename' d₃ ∧ d₃.kind = .mark .semicolon ∧ d' = d₃.advance ∧
          parts'.map Ident.erase = parts.map Ident.erase ∧
          rename'.map Ident.erase = rename.map Ident.erase := by
      intro d d' hd
      obtain ⟨d₂, hd₂, hd⟩ := hd.advance.split
      obtain ⟨d₃, hd₃, hd⟩ := hd.split
      have hkind : d₂.kind = c₂.kind :=
        (hls.append hclose).kind_congr (hd₃.append hd) (by simp)
      obtain ⟨parts', hparts', hps⟩ := hparts _ _ hd₂ (hkind ▸ hdot)
      obtain ⟨rename', hrename', hr⟩ := hrename _ _ hd₃ fun h => hkind ▸ hother h
      exact ⟨d₂, d₃, parts', rename', hparts', hrename', hd.kind_eq, hd.advance.eq_of_nil, hps, hr⟩
    cases horg with
    | absent alone =>
      refine ⟨.keyword .kwImport :: c.advance.kind :: (ks ++ ls), ?_, fun d d' hd => ?_⟩
      · simpa using Passes.pass word (by simp) hname
      · simp only [List.cons_append, List.append_assoc] at hd
        obtain ⟨d₂, d₃, parts', rename', hparts', hrename', hclosing, rfl, hps, hr⟩ :=
          hrest _ _ hd.advance
        have hslash : d.advance.advance.kind ≠ .mark .slash := by
          rw [hbehind.kind_congr hd.advance.advance (by simp)]
          exact alone
        exact ⟨_, .mk hd.kind_eq (.absent hslash) (hd.advance.kind_eq ▸ head) hparts' hrename'
          hclosing, by simp [Import.erase, Ident.erase, hps, hr]⟩
    | @present o word' slash =>
      have hne := TokenKind.ne_endOfFile_of_word? word'
      refine ⟨.keyword .kwImport :: c.advance.kind :: .mark .slash ::
        c.advance.advance.advance.kind :: (ks ++ ls), ?_, fun d d' hd => ?_⟩
      · simpa using Passes.pass word (by simp) (.pass rfl hne (.pass slash (by simp) hname))
      · simp only [List.cons_append, List.append_assoc] at hd
        obtain ⟨d₂, d₃, parts', rename', hparts', hrename', hclosing, rfl, hps, hr⟩ :=
          hrest _ _ hd.advance.advance.advance
        exact ⟨_, .mk hd.kind_eq (.present (hd.advance.kind_eq ▸ word') hd.advance.advance.kind_eq)
          (hd.advance.advance.advance.kind_eq ▸ head) hparts' hrename' hclosing,
          by simp [Import.erase, Ident.erase, hps, hr]⟩

end

/-! ### Imports one behind another -/

/-- The imports read at a cursor. -/
abbrev ReadsImports : Cursor → List Import → Cursor → Prop := Repeats importStep ReadsImport

theorem importStep_stop :
    importStep c = some (true, c') ↔ c.kind ≠ .keyword .kwImport ∧ c = c' := by
  by_cases h : c.kind = .keyword .kwImport <;> simp [Gap.step, h]

theorem importStep_more :
    importStep c = some (false, c') ↔ c.kind = .keyword .kwImport ∧ c = c' := by
  by_cases h : c.kind = .keyword .kwImport <;> simp [Gap.step, h]

theorem ReadsImports.eq_of_nil (h : ReadsImports c [] c') : c' = c := by
  cases h with
  | stop hstop => exact (importStep_stop.mp hstop).2.symm

theorem ReadsModule.parts {source : Source} {m : Module} (h : ReadsModule source c m c') :
    ∃ c₁, ReadsImports c m.imports c₁ ∧
      Repeats memberStep (ReadsMember source) c₁ m.members c' := by
  cases h with
  | mk imports members => exact ⟨_, imports, members⟩

theorem ReadsImports.unique {is js : List Import} {c₁ c₂ : Cursor} (h : ReadsImports c is c₁)
    (h' : ReadsImports c js c₂) : is = js := by
  have hmany : ∀ {is c₁}, ReadsImports c is c₁ →
      Parser.many (do return !(← Parser.at? (.keyword .kwImport))) MemberGrammar.importDecl c
        = .ok (is, c₁) := fun h =>
    Parser.many_of_repeats (Gap.startedBy_steps _) (fun hstep => (Gap.step_reaches hstep).length_le)
      MemberGrammar.import_length h fun _ h => MemberGrammar.importDecl_complete h
  have heq := (hmany h).symm.trans (hmany h')
  simp only [Except.ok.injEq, Prod.mk.injEq] at heq
  exact heq.1

/-- Tokens of some kinds are read as imports, up to places, in front of all that are read behind
them. -/
def AreImports (ks : List TokenKind) (is : List Import) : Prop :=
  ∀ d d' js e, Passes d ks d' → ReadsImports d' js e →
    ∃ is', ReadsImports d (is' ++ js) e ∧ is'.map Import.erase = is.map Import.erase

theorem ReadsImports.passes {is : List Import} (h : ReadsImports c is c') :
    ∃ ks, Passes c ks c' ∧ AreImports ks is ∧
      (ks = [] ∨ ∃ ls, ks = ls ++ [.mark .semicolon]) := by
  induction h with
  | stop hstep =>
    obtain ⟨-, rfl⟩ := importStep_stop.mp hstep
    refine ⟨[], .stop, fun d d' js e hd hjs => ?_, .inl rfl⟩
    obtain rfl := hd.eq_of_nil
    exact ⟨[], hjs, rfl⟩
  | more hstep first _ ih =>
    obtain ⟨-, rfl⟩ := importStep_more.mp hstep
    obtain ⟨ks, hks, hfirst⟩ := first.passes
    obtain ⟨ls, hls, hothers, hclosed⟩ := ih
    refine ⟨_, hks.append hls, fun d d' js e hd hjs => ?_, .inr ?_⟩
    · obtain ⟨d₁, hd₁, hd⟩ := hd.split
      obtain ⟨i', hi', hi⟩ := hfirst _ _ hd₁
      obtain ⟨is', his', his⟩ := hothers _ _ _ _ hd hjs
      exact ⟨i' :: is', .more hi'.step hi' his', by simp [hi, his]⟩
    · rcases hclosed with rfl | ⟨ls', rfl⟩
      · exact ⟨ks, by simp⟩
      · exact ⟨ks ++ [.mark .semicolon] ++ ls', by simp⟩

/-! ### Texts of imports -/

/-- A text that reads as imports, up to places, in front of all that are read behind it. -/
def IsImports (p : List Char) (is : List Import) : Prop :=
  ∀ src more : List Char, Runs src (p ++ more) (fun d d' => ∀ js e, ReadsImports d' js e →
    ∃ is', ReadsImports d (is' ++ js) e ∧ is'.map Import.erase = is.map Import.erase) more

namespace IsImports

variable {p q : List Char} {is js : List Import}

theorem blanks (h : ∀ ch ∈ p, isBlank ch = true) : IsImports p [] := fun _ _ =>
  (Runs.here.blanks h).imp fun _ _ heq _ _ hjs => ⟨[], heq ▸ hjs, rfl⟩

theorem append (hp : IsImports p is) (hq : IsImports q js) : IsImports (p ++ q) (is ++ js) := by
  intro src more
  refine (((hp src (q ++ more)).seq (hq src more)).imp ?_).congr (List.append_assoc p q more)
  rintro d d' ⟨d₁, hfirst, hlast⟩ ls e hls
  obtain ⟨js', hjs', hjs⟩ := hlast ls e hls
  obtain ⟨is', his', his⟩ := hfirst _ _ hjs'
  exact ⟨is' ++ js', by rwa [List.append_assoc], by simp [his, hjs]⟩

theorem congr (hp : IsImports p is) (h : is.map Import.erase = js.map Import.erase) :
    IsImports p js := by
  unfold IsImports at hp ⊢
  rwa [← h]

/-- What is printed of an import reads as it, unless a name in its text is behind an apostrophe. -/
theorem print {text : String} {m : Module} (h : parseModule text = .ok m)
    (hquotes : quotesName text = false) {i : Import} (hi : i ∈ m.imports) :
    IsImports i.print.toList [i] := by
  obtain ⟨ts, tail, c', htiling, hread⟩ := reads_of_parseModule h
  have hplain := Cursor.plain_ofTiles (byteLength text.toList) htiling hquotes
  obtain ⟨_, himports, -⟩ := hread.parts
  obtain ⟨c, _, hr, hread⟩ := Repeats.reached Gap.step_reaches ReadsImport.reaches himports hi
  intro src more
  refine (hread.runs (hplain.reaches hr) more).imp ?_
  rintro d d' ⟨-, i', hi', herase⟩ js e hjs
  exact ⟨[i'], .more hi'.step hi' hjs, by simp [herase]⟩

end IsImports

/-- The text of the imports of a text reads as them. -/
theorem ReadsImports.isImports {is : List Import} (h : ReadsImports c is c') (hc : c.StandsIn cs)
    (hstart : c.passed = 0) :
    ∃ p rest, cs = p ++ rest ∧ byteLength p = c'.passed ∧ IsImports p is := by
  obtain ⟨ks, hks, hare, rfl | ⟨ls, rfl⟩⟩ := h.passes
  · obtain rfl := hks.eq_of_nil
    refine ⟨[], cs, rfl, hstart.symm, fun _ _ => Runs.here.imp ?_⟩
    rintro d _ rfl js e hjs
    exact hare _ _ js e .stop hjs
  · obtain ⟨c₁, hls, hclose⟩ := hks.split
    obtain rfl := hclose.advance.eq_of_nil
    have hkind := hclose.kind_eq
    obtain ⟨front, p, text, rest, hcs, htext, hpassed, -, hstop, hruns⟩ :=
      hls.swap hc (by simp [hkind])
    obtain rfl : front = [] := byteLength_eq_zero.mp (hpassed.symm.trans hstart)
    obtain rfl : text = Mark.semicolon.text.toList := (hkind ▸ htext).text_of_mark
    refine ⟨p ++ Mark.semicolon.text.toList, rest, by simpa using hcs, hstop.symm,
      fun src more => ?_⟩
    refine ((hruns rfl src more).imp fun d d' hd js e => ?_).congr (List.append_assoc _ _ _)
    exact hare d d' js e hd

/-- Where a mark takes the place of a token, the text starts with the token it started with, or with
the mark. -/
theorem Cursor.StandsIn.kind_of_swapped (hc : c.StandsIn cs) (hr : c.Reaches c')
    (hend : c'.kind ≠ .endOfFile) :
    ∃ front p rest, cs = front ++ (p ++ rest) ∧ c.passed = byteLength front ∧
      c'.start = byteLength (front ++ p) ∧ ∀ {m : Mark}, m.isApart = true →
        ∀ (src more : List Char) (d : Cursor), d.Before src (p ++ (m.text.toList ++ more)) →
          d.kind = c.kind ∨ d.kind = .mark m := by
  obtain ⟨ks, hks⟩ := Passes.of_reaches hc hr hend
  obtain ⟨front, p, text, rest, hcs, -, hpassed, hstart, -, hruns⟩ := hks.swap hc hend
  refine ⟨front, p, text ++ rest, hcs, hpassed, hstart, fun hm src more d hd => ?_⟩
  obtain ⟨d', hpasses, -⟩ := (hruns hm src more).run hd
  cases ks with
  | nil => exact .inr hpasses.kind_eq
  | cons k ks => exact .inl (hpasses.kind_eq.trans hks.kind_eq.symm)

/-- **The imports of a text are those that it starts with**, up to places, if no import follows. -/
theorem IsImports.imports_eq {text : String} {m : Module} {p more : List Char} {is : List Import}
    (hp : IsImports p is) (h : parseModule text = .ok m) (htext : text.toList = p ++ more)
    (hmore : ∀ d : Cursor, d.Before text.toList more → d.kind ≠ .keyword .kwImport) :
    m.imports.map Import.erase = is.map Import.erase := by
  obtain ⟨ts, tail, c', htiling, hread⟩ := reads_of_parseModule h
  have hstart : (Cursor.ofTiles ts (byteLength text.toList)).Before text.toList (p ++ more) :=
    ⟨[], [], ts, tail, by simpa using htext, by simp, by simpa [htext] using htiling, rfl, rfl⟩
  obtain ⟨d, himports, hd⟩ := (hp text.toList more).run hstart
  obtain ⟨is', his', herase⟩ := himports [] d (.stop (importStep_stop.mpr ⟨hmore d hd, rfl⟩))
  rw [List.append_nil] at his'
  obtain ⟨_, hread, -⟩ := hread.parts
  rw [hread.unique his', herase]

end Durable
