/-
Printed modules are read again.

Functions and services hold paths, which are slices of the text they were read from, so what they
are read as depends on the text; in the printed text the same slices stand elsewhere.  Members of
services and of modules and imports are items that are printed one behind another with blanks
between them, and `runs_repeats` reads them again.

`parseModule_print` puts it together: a parse is a derivation in the grammar, the derivation is
repeated along the printed text, and a derivation over the tiles of a text is what is parsed of it.
Tokens matter only by how they are spelled.  The printer writes a name as it is, so a name that was
written behind an apostrophe may come back as a keyword, and the theorem leaves such names out.
-/
import Durable.Proofs.Print.Member
import Durable.Proofs.Print.Path
import Durable.Proofs.Token.Partition

namespace Durable

open Text

variable {rest : List Char} {c c₁ c₂ c₃ c' : Cursor} {source source' : Source} {origin : Nat}
  {as : List Annotation} {ms : Modifiers}

/-! ### Functions -/

/-- The type that a function returns, in front of its body. -/
theorem ReadsReturns.runs {src : List Char} {t : Option TypeDesc} (hp : c.Plain)
    (h : ReadsReturns c t c₁) (hbrace : c₁.kind = .mark .openBrace) {mid : List Char}
    {R : Cursor → Cursor → Prop} (hmid : Runs src mid R rest)
    (hkind : ∀ d d', R d d' → d.kind = .mark .openBrace) :
    Runs src ((t.elim [] fun t => " returns ".toList ++ t.print.toList) ++ ' ' :: mid)
      (fun d d' => ∃ t' d₁, ReadsReturns d t' d₁ ∧ t'.map TypeDesc.erase = t.map TypeDesc.erase ∧
        R d₁ d') rest := by
  cases h with
  | absent =>
    refine hmid.space.imp fun d d' hR => ⟨none, d, .absent ?_, rfl, hR⟩
    simp [hkind d d' hR]
  | present word dropped type =>
    have htype := type.runs_typeBefore (hp.advance.reaches dropped.reaches) hbrace (by simp)
      (.cons (by decide) _) hmid.space hkind
    refine (((runs_word .kwReturns).seq htype).space.imp ?_).congr (by simp [Keyword.text])
    rintro d d' ⟨_, ⟨hk, rfl⟩, -, t', d₁, ht', ht, hR⟩
    -- The annotations on the type are not printed.
    have hnone : Reads .annotations d.advance [] d.advance :=
      .stop (by simp [Gap.step, (startsType_ne ht'.starts).1])
    exact ⟨some t', d₁, .present hk hnone ht', by simp [ht], hR⟩

/-- The parameters of a function, up to the parenthesis that closes them. -/
theorem runs_params {src : List Char} {params : List Param} (hp : c.Plain)
    (h : Reads (.commaList .closeParen .param) c params c') (rest : List Char) :
    Runs src ([',', ' '].intercalate (params.map (Sym.text .param)) ++
      (Mark.closeParen.text.toList ++ rest)) (fun d d' => ∃ params',
        Reads (.commaList .closeParen .param) d params' d' ∧
          params'.map Param.erase = params.map Param.erase) rest := by
  have hclose : (TokenKind.mark .closeParen).closes = true := rfl
  have hback : (Sym.commaList .closeParen .param).Back src c params c' := h.back hp
  refine runs_commaList (s := .param) hclose (by decide) (by unfold Sym.Starts; decide) ?_ rest
  intro p hmem
  obtain ⟨d, _, hparam⟩ := hback p hmem
  exact ⟨d, hparam⟩

/-- How the printer writes a function behind its annotations and modifiers, in front of the rest
of a text. -/
def functionText (depth : Nat) (f : Function) (rest : List Char) : List Char :=
  Keyword.kwFunction.text.toList ++ ' ' :: (f.name.name.toList ++
    ((f.resourcePath.elim [] fun p => ' ' :: p.toList) ++ '(' ::
      ([',', ' '].intercalate (f.params.map (Sym.text .param)) ++ (Mark.closeParen.text.toList ++
        ((f.returns.elim [] fun t => " returns ".toList ++ t.print.toList) ++ ' ' ::
          ((f.body.print depth).toList ++ rest))))))

theorem Function.print_append (depth : Nat) (f : Function) (rest : List Char) :
    (f.print depth).toList ++ rest = (printAnnotations depth f.annotations).toList ++
      ((printModifiers f.modifiers).toList ++ functionText depth f rest) := by
  have hparams : (Sym.text .param : Param → List Char) = String.toList ∘ Param.print := rfl
  obtain ⟨_, _, _, path, _, returns, _, _⟩ := f
  cases path <;> cases returns <;>
    simp [Function.print, functionText, Keyword.text, Mark.text, hparams]

/-- The name of a function ends in front of its path or its parameters. -/
theorem headFails_path (path : Option String) (text : List Char) :
    HeadFails isWordChar ((path.elim [] fun p => ' ' :: p.toList) ++
      (Mark.openParen.text.toList ++ text)) := by
  cases path <;> exact headFails_cons.mpr (by decide)

theorem ReadsFunction.body {f : Function} (depth : Nat) (hp : c.Plain)
    (hc : c.StandsIn source.text.toList) (h : ReadsFunction source origin as ms c f c') :
    ReprintsBody source'.text.toList (ReadsFunction source') Function.erase c as ms f
      (functionText depth f rest) rest := by
  cases h with
  | @mk c₁ c₂ c₃ _ n path params returns body word name hpath opening list result hbody =>
    have hp₁ : c₁.Plain := hp.advance.advance.reaches hpath.reaches
    have hp₂ : c₂.Plain := hp₁.advance.reaches list.reaches
    have hbrun : Runs source'.text.toList _ _ rest :=
      (hbody.back (hp₂.reaches result.reaches)) depth rest fun _ _ => trivial
    have hresult := result.runs hp₂ hbody.block_kind hbrun fun _ _ h => h.1.trans hbody.block_kind
    have hopen := (Runs.close .openParen rfl).seq ((runs_params hp₁.advance list _).seq hresult)
    have hall := (runs_word .kwFunction).seq ((runs_name hp.advance name (headFails_path path _)).seq
      (hpath.runs hc.advance.advance hopen (Runs.seq_kind fun _ _ h => h.1)))
    refine hall.imp ?_
    rintro d d' ⟨_, ⟨hk, rfl⟩, _, ⟨hn, rfl⟩, d₁, hpath', _, ⟨hopen', rfl⟩, d₂, hlist', hresult'⟩
    obtain ⟨params', hparams', hps⟩ := hlist'
    obtain ⟨returns', d₃, hreturns', hreturns, -, body', hbody', hb⟩ := hresult'
    refine ⟨hk.trans word.symm, fun origin' as' ms' has hms => ?_⟩
    rw [← Modifiers.has_of_erase hms] at hpath'
    refine ⟨_, .mk hk (hn ▸ name) hpath' hopen' hparams' hreturns' hbody', ?_⟩
    have hb : body'.erase = body.erase := hb
    simp [Function.erase, has, hms, hps, hreturns, hb, Ident.erase]

/-! ### Items -/

theorem isBlank_newline : ∀ ch ∈ ['\n'], isBlank ch = true := by
  simp
  decide

section

variable {α : Type} {step : Cursor → Option (Bool × Cursor)} {S : Cursor → α → Cursor → Prop}

/-- A repetition reads items that differ from given ones only in places; `F` follows it. -/
abbrev RepeatsAgain (step : Cursor → Option (Bool × Cursor)) (S : Cursor → α → Cursor → Prop)
    (erase : α → α) (items : List α) (F : Cursor → Cursor → Prop) (d d' : Cursor) : Prop :=
  ∃ items' d₁, Repeats step S d items' d₁ ∧ items'.map erase = items.map erase ∧ F d₁ d'

/-- Items with blanks around and between them, in front of what ends them. -/
theorem runs_repeats {src end' : List Char} {sep before behind : List Char} {text : α → List Char}
    {erase : α → α} {F : Cursor → Cursor → Prop}
    (hsep : ∀ ch ∈ sep, isBlank ch = true) (hbefore : ∀ ch ∈ before, isBlank ch = true)
    (hbehind : ∀ ch ∈ behind, isBlank ch = true)
    (hstep : ∀ {d a d'}, S d a d' → step d = some (false, d)) {items : List α}
    (hitem : ∀ a ∈ items, ∀ more, Runs src (text a ++ more)
      (fun d d' => ∃ a', S d a' d' ∧ erase a' = erase a) more)
    (hend : Runs src end' (fun d d' => ∃ d₁, step d = some (true, d₁) ∧ F d₁ d') rest) :
    Runs src (sep.intercalate (items.map fun a => before ++ (text a ++ behind)) ++ end')
      (RepeatsAgain step S erase items F) rest := by
  induction items with
  | nil =>
    refine (hend.imp ?_).congr (by simp [List.intercalate])
    rintro d d' ⟨d₁, hstop, hF⟩
    exact ⟨[], d₁, .stop hstop, rfl, hF⟩
  | cons a items ih =>
    have hothers := ih fun b hb => hitem b (List.mem_cons_of_mem a hb)
    have hmore : ∀ {more}, Runs src more (RepeatsAgain step S erase items F) rest →
        Runs src (before ++ (text a ++ (behind ++ more)))
          (RepeatsAgain step S erase (a :: items) F) rest := by
      intro more hothers
      refine (((hitem a (by simp) _).seq (hothers.blanks hbehind)).blanks hbefore).imp ?_
      rintro d d' ⟨_, ⟨a', hread, ha⟩, items', d₁, hitems', hitems, hF⟩
      exact ⟨a' :: items', d₁, .more (hstep hread) hread hitems', by simp [ha, hitems], hF⟩
    cases items with
    | nil => exact (hmore hothers).congr (by simp [List.intercalate])
    | cons b items => exact (hmore (hothers.blanks hsep)).congr (by simp [intercalate_cons])

end

/-! ### Tokens that members start with -/

/-- A token that a member of a module or a service starts with. -/
def TokenKind.startsMember (k : TokenKind) : Bool :=
  k == .mark .atSign || (MemberGrammar.modifier? k).isSome || announcesMember k || k.startsType

theorem TokenKind.startsMember_ne {k : TokenKind} (h : k.startsMember = true) :
    k ≠ .endOfFile ∧ k ≠ .mark .closeBrace ∧ k ≠ .keyword .kwImport := by
  refine ⟨?_, ?_, ?_⟩ <;> rintro rfl <;> exact absurd h (by decide)

/-- A declaration with annotations and modifiers before it. -/
theorem startsMember_declared (annotations : Reads .annotations c as c₁)
    (modifiers : ReadsModifiers c₁ ms c₂) (h : c₂.kind.startsMember = true) :
    c.kind.startsMember = true := by
  obtain ⟨-, rfl⟩ | ⟨-, hat⟩ := annotations.annotations_head
  · exact modifiers.start (P := (·.startsMember = true))
      (fun q => by simp [TokenKind.startsMember, MemberGrammar.modifier?_keyword]) h
  · rw [hat]
    rfl

theorem ReadsVarDecl.startsType {configurable : Bool} {v : VarDecl}
    (h : ReadsVarDecl origin as ms configurable c v c') : c.kind.startsType = true := by
  cases h with
  | mk type => exact type.starts

theorem ReadsServiceMember.starts {m : ServiceMember} (h : ReadsServiceMember source c m c') :
    c.kind.startsMember = true := by
  cases h with
  | method annotations modifiers decl =>
    refine startsMember_declared annotations modifiers ?_
    rw [MemberGrammar.function_kind decl]
    rfl
  | field annotations modifiers _ decl =>
    refine startsMember_declared annotations modifiers ?_
    simp [TokenKind.startsMember, decl.startsType]

theorem ReadsDecl.starts {d : Member} (h : ReadsDecl source origin as ms c d c') :
    announcesMember c.kind = true ∨ c.kind.startsType = true := by
  cases h with
  | function decl => exact .inl (by rw [MemberGrammar.function_kind decl]; rfl)
  | service decl =>
    cases decl with
    | mk word => exact .inl (by rw [word]; rfl)
  | const word | type word | listener word | annotationDecl word =>
    exact .inl (by rw [word]; rfl)
  | moduleVar _ decl => exact .inr decl.startsType

theorem ReadsMember.starts {d : Member} (h : ReadsMember source c d c') :
    c.kind.startsMember = true := by
  cases h with
  | mk annotations modifiers decl =>
    refine startsMember_declared annotations modifiers ?_
    rcases decl.starts with h | h <;> simp [TokenKind.startsMember, h]

/-! ### Members of services -/

theorem ReadsServiceMember.runs {m : ServiceMember} (hp : c.Plain)
    (hc : c.StandsIn source.text.toList) (h : ReadsServiceMember source c m c')
    (rest : List Char) :
    Runs source'.text.toList (m.print.toList ++ rest)
      (fun d d' => ∃ m', ReadsServiceMember source' d m' d' ∧ m'.erase = m.erase) rest := by
  cases h with
  | method annotations modifiers decl =>
    have hr := annotations.reaches.trans modifiers.reaches
    have hbody : ReprintsBody source'.text.toList _ _ _ _ _ _ _ rest :=
      decl.body 1 (hp.reaches hr) (hc.reaches hr)
    refine ((hbody.declared 1 hp annotations modifiers
      (by simp [MemberGrammar.function_kind decl])).imp ?_).congr (by
        cases decl
        exact Function.print_append 1 _ rest)
    rintro d d' ⟨f', ⟨as', d₁, ms', d₂, has, hms, hf'⟩, hf⟩
    exact ⟨_, .method has hms hf', congrArg ServiceMember.method hf⟩
  | field annotations modifiers other decl =>
    have hr := annotations.reaches.trans modifiers.reaches
    have hbody : ReprintsBody source'.text.toList _ _ _ _ _ _ _ rest := decl.body (hp.reaches hr)
    have hstarts := startsType_ne decl.startsType
    have hfield : ReprintsBody source'.text.toList (fun origin as ms d v d' =>
        d.kind ≠ .keyword .kwFunction ∧ ReadsVarDecl origin as ms false d v d') _ _ _ _ _ _ rest :=
      hbody.map (f := id) (fun hk hv => ⟨hk ▸ other, hv⟩) fun _ h => h
    refine ((hfield.declared 1 hp annotations modifiers ⟨hstarts.1, hstarts.2.1⟩).imp ?_).congr (by
          cases decl
          simp [ServiceMember.print, VarDecl.print])
    rintro d d' ⟨v', ⟨as', d₁, ms', d₂, has, hms, hother, hv'⟩, hv⟩
    exact ⟨_, .field has hms hother hv', congrArg ServiceMember.field hv⟩

/-! ### Services -/

theorem ReadsBasePath.ne_openBracket {path : Option String} (h : ReadsBasePath source c path c')
    (hon : c'.kind = .keyword .kwOn) : c.kind ≠ .mark .openBracket := by
  cases h with
  | slash opening => simp [opening]
  | string word => simp [word]
  | absent => simp [hon]

/-- The type of a service, if there is one, in front of its path. -/
theorem runs_serviceType {src mid : List Char} {t : Option TypeDesc} {R : Cursor → Cursor → Prop}
    (hp : c.Plain) (h : Reads (.given startsServiceType .type) c t c₁)
    (hne : c₁.kind ≠ .mark .openBracket) (hmid : Runs src mid R rest)
    (hkind : ∀ d d', R d d' → d.kind = c₁.kind) :
    Runs src ((printTypeBefore t).toList ++ mid) (fun d d' => ∃ t' d₁,
      Reads (.given startsServiceType .type) d t' d₁ ∧
        t'.map TypeDesc.erase = t.map TypeDesc.erase ∧ R d₁ d') rest := by
  cases h with
  | missing test =>
    refine (hmid.imp fun d d' hR => ?_).congr (by simp [printTypeBefore])
    exact ⟨none, d, .missing (by rw [hkind d d' hR, test]), rfl, hR⟩
  | found test type =>
    refine ((type.runs_typeBefore hp rfl hne (.cons (by decide) _) hmid.space hkind).imp ?_).congr
      (by simp [printTypeBefore])
    rintro d d' ⟨hk, t', d₁, hread, ht, hR⟩
    exact ⟨some t', d₁, .found (by rw [hk, test]) hread, by simp [ht], hR⟩

/-- How the printer writes the members of a service, with its closing brace. -/
def membersText (ms : List ServiceMember) (rest : List Char) : List Char :=
  ['\n'].intercalate (ms.map fun m => (lineStart 1).toList ++ (m.print.toList ++ [])) ++
    (['\n'] ++ (Mark.closeBrace.text.toList ++ rest))

theorem membersText_newline (ms : List ServiceMember) (rest : List Char) :
    ∃ more, membersText ms rest = '\n' :: more := by
  cases ms with
  | nil => exact ⟨_, rfl⟩
  | cons m ms =>
    obtain ⟨more, hmore⟩ := lineStart_cons 1
    simp [membersText, intercalate_cons, hmore]

/-- How the printer writes a service behind its annotations and modifiers, in front of the rest of a
text. -/
def serviceText (s : Service) (rest : List Char) : List Char :=
  Keyword.kwService.text.toList ++ ' ' :: ((printTypeBefore s.type).toList ++
    ((s.basePath.elim [] fun p => p.toList ++ [' ']) ++ (Keyword.kwOn.text.toList ++ ' ' ::
      ([',', ' '].intercalate (s.listeners.map (Sym.text .expr)) ++ ' ' ::
        (Mark.openBrace.text.toList ++ membersText s.members rest)))))

theorem Service.print_append (s : Service) (rest : List Char) :
    s.print.toList ++ rest = (printAnnotations 0 s.annotations).toList ++
      ((printModifiers s.modifiers).toList ++ serviceText s rest) := by
  have hlisteners : (Sym.text .expr : Expr → List Char) = String.toList ∘ Expr.print := rfl
  obtain ⟨_, _, _, path, _, _, _, _⟩ := s
  cases path <;> simp [Service.print, serviceText, membersText, Keyword.text, Mark.text, hlisteners,
    Function.comp_def]

theorem closingStep_of_starts {k : Cursor} (h : k.kind.startsMember = true) :
    StmtGrammar.closingStep k = some (false, k) := by
  obtain ⟨hend, hclose, -⟩ := TokenKind.startsMember_ne h
  simp [StmtGrammar.closingStep, hend, hclose]

/-- The members of a service are read again, up to its closing brace. -/
theorem runs_members {ms : List ServiceMember} (hp : c.Plain) (hc : c.StandsIn source.text.toList)
    (h : Repeats StmtGrammar.closingStep (ReadsServiceMember source) c ms c') (rest : List Char) :
    Runs source'.text.toList (membersText ms rest)
      (RepeatsAgain StmtGrammar.closingStep (ReadsServiceMember source') ServiceMember.erase ms
        fun d d' => d' = d) rest := by
  refine runs_repeats isBlank_newline (isBlank_lineStart 1) (by simp)
    (fun hread => closingStep_of_starts hread.starts) (fun m hm more => ?_) ?_
  · obtain ⟨d, d', hr, hread⟩ := Repeats.reached closingStep_reaches ReadsServiceMember.reaches h hm
    exact hread.runs (hp.reaches hr) (hc.reaches hr) more
  · refine ((Runs.close .closeBrace rfl).blanks isBlank_newline).imp ?_
    rintro d d' ⟨hk, rfl⟩
    exact ⟨_, by simp [StmtGrammar.closingStep, hk], rfl⟩

theorem ReadsService.body {s : Service} (hp : c.Plain) (hc : c.StandsIn source.text.toList)
    (h : ReadsService source origin as ms c s c') :
    ReprintsBody source'.text.toList (ReadsService source') Service.erase c as ms s
      (serviceText s rest) rest := by
  cases h with
  | @mk c₁ c₂ c₃ _ t path ls members word type hpath on listeners opening list =>
    have hr₁ : c.Reaches c₁ := Cursor.Reaches.refl.step.trans type.reaches
    have hr₂ : c.Reaches c₂ := hr₁.trans hpath.reaches
    have hr₃ : c.Reaches c₃ := hr₂.step.trans listeners.reaches
    have hp₂ := (hp.reaches hr₂).advance
    obtain ⟨l, ls, c₄, rfl, first, others⟩ :
      (Sym.separated .comma .expr).Back source'.text.toList _ _ _ := listeners.back hp₂
    have hmembers : Runs source'.text.toList _ _ rest :=
      runs_members (hp.reaches hr₃).advance (hc.reaches hr₃).advance list rest
    have hbrace : (TokenKind.mark .openBrace).Ends (membersText members rest) := by
      obtain ⟨more, hmore⟩ := membersText_newline members rest
      rw [hmore]
      exact Mark.ends_cons (by decide) _
    have hopen := ((Runs.mark .openBrace hbrace).seq hmembers).space
    have hkind := Runs.seq_kind (S := RepeatsAgain StmtGrammar.closingStep
      (ReadsServiceMember source') ServiceMember.erase members fun d d' => d' = d)
      fun (d d' : Cursor) (h : d.kind = .mark .openBrace ∧ d' = d.advance) => h.1
    have hlisteners := (runs_separated separates_comma first others (.cons (by decide) _)
      fun d hd => ⟨hopen.follows hkind opening (by simp) d hd, by simp [hopen.kind_eq hkind hd]⟩).seq
        hopen
    have hon := (runs_word .kwOn).seq hlisteners
    have hbase := hpath.runs (hc.reaches hr₁) on hon (Runs.seq_kind fun _ _ h => h.1)
    have htype := runs_serviceType hp.advance type (hpath.ne_openBracket on) hbase fun _ _ h => h.1
    refine ((runs_word .kwService).seq htype).imp ?_
    rintro d d' ⟨_, ⟨hk, rfl⟩, t', d₁, ht', ht, -, d₂, hpath', _, ⟨hon', rfl⟩, d₃, hls', _,
      ⟨hopen', rfl⟩, members', d₄, hmembers', hms', rfl⟩
    obtain ⟨-, l', ls', hls', hl, hls⟩ := hls'
    refine ⟨hk.trans word.symm, fun origin' as' ms' has hms =>
      ⟨_, .mk hk ht' hpath' hon' hls' hopen' hmembers', ?_⟩⟩
    have hl : l'.erase = l.erase := hl
    have hls : ls'.map Expr.erase = ls.map Expr.erase := hls
    simp [Service.erase, ht, hl, hls, hms', has, hms]

/-! ### Modules -/

theorem AnnotationDecl.print_append (d : AnnotationDecl) (rest : List Char) :
    d.print.toList ++ rest = (printModifiers d.modifiers).toList ++ ("annotation ".toList ++
      ((printTypeBefore d.type).toList ++ (d.name.name.toList ++
        (pointsText d.attachPoints ++ ';' :: rest)))) := by
  by_cases h : d.attachPoints = [] <;> simp [AnnotationDecl.print, pointsText, h]

theorem ReadsMember.runs {d : Member} (hp : c.Plain) (hc : c.StandsIn source.text.toList)
    (h : ReadsMember source c d c') (rest : List Char) :
    Runs source'.text.toList (d.print.toList ++ rest)
      (fun e e' => ∃ d', ReadsMember source' e d' e' ∧ d'.erase = d.erase) rest := by
  cases h with
  | @mk c₁ c₂ _ as ms _ annotations modifiers decl =>
    have hr := annotations.reaches.trans modifiers.reaches
    have hp₂ := hp.reaches hr
    have hc₂ := hc.reaches hr
    have hne : c₂.kind ≠ .mark .atSign ∧ c₂.kind ≠ .mark .openBrace := by
      rcases decl.starts with h | h
      · constructor <;> intro heq <;> rw [heq] at h <;> exact absurd h (by decide)
      · exact ⟨(startsType_ne h).1, (startsType_ne h).2.1⟩
    have whole : ∀ {c as text} {d : Member}, c.Plain → Reads .annotations c as c₁ →
        ReprintsBody source'.text.toList (ReadsDecl source') Member.erase c₂ as ms d text rest →
        Runs source'.text.toList ((printAnnotations 0 as).toList ++
          ((printModifiers ms).toList ++ text))
          (fun e e' => ∃ d', ReadsMember source' e d' e' ∧ d'.erase = d.erase) rest := by
      intro c as text d hp annotations body
      refine (body.declared 0 hp annotations modifiers hne).imp ?_
      rintro e e' ⟨d', ⟨as', e₁, ms', e₂, has, hms, hread⟩, hd⟩
      exact ⟨d', .mk has hms hread, hd⟩
    cases decl with
    | function decl =>
      refine (whole hp annotations ((decl.body 0 hp₂ hc₂).map (f := .function)
        (fun _ h => .function h) fun _ => congrArg _)).congr ?_
      cases decl
      exact Function.print_append 0 _ rest
    | service decl =>
      refine (whole hp annotations ((decl.body hp₂ hc₂).map (f := .service)
        (fun _ h => .service h) fun _ => congrArg _)).congr ?_
      cases decl
      exact Service.print_append _ rest
    | const word decl =>
      refine (whole hp annotations ((decl.body hp₂ word).map (f := .const)
        (fun hk h => .const (hk.trans word) h) fun _ => congrArg _)).congr ?_
      cases decl
      simp [Member.print, ValueDecl.print]
    | type word decl =>
      refine (whole hp annotations ((decl.body hp₂ word).map (f := .type)
        (fun hk h => .type (hk.trans word) h) fun _ => congrArg _)).congr ?_
      cases decl
      simp [Member.print, TypeDef.print]
    | listener word decl =>
      refine (whole hp annotations ((decl.body hp₂ word).map (f := .listener)
        (fun hk h => .listener (hk.trans word) h) fun _ => congrArg _)).congr ?_
      cases decl
      simp [Member.print, ValueDecl.print]
    | annotationDecl word decl =>
      -- The annotations of an annotation's declaration are not printed.
      have hat := modifiers.start (P := (· ≠ .mark .atSign)) (fun _ => by simp) hne.1
      have hnone : Reads .annotations c₁ [] c₁ := .stop (by simp [Gap.step, hat])
      refine (whole (hp.reaches annotations.reaches) hnone ((decl.body hp₂ word).map
        (f := .annotationDecl) (fun hk h => .annotationDecl (hk.trans word) h)
        fun _ => congrArg _)).congr ?_
      cases decl
      exact AnnotationDecl.print_append _ rest
    | moduleVar other decl =>
      refine (whole hp annotations ((decl.body hp₂).map (f := .moduleVar)
        (fun hk h => .moduleVar (hk ▸ other) h) fun _ => congrArg _)).congr ?_
      cases decl
      simp [Member.print, VarDecl.print]

/-- Where the members of a module start, no import does. -/
theorem importStep_of_members {ds : List Member} (h : Repeats memberStep (ReadsMember source) c ds c') :
    importStep c = some (true, c) := by
  have hne : c.kind ≠ .keyword .kwImport := by
    cases h with
    | stop step =>
      simp only [memberStep, Option.some.injEq, Prod.mk.injEq, beq_iff_eq] at step
      simp [step.1]
    | more step first =>
      simp only [memberStep, Option.some.injEq, Prod.mk.injEq] at step
      obtain ⟨-, rfl⟩ := step
      exact (TokenKind.startsMember_ne first.starts).2.2
  simp [Gap.step, hne]

/-- How the printer writes imports or members of a module. -/
def itemsText {α : Type} (sep : List Char) (print : α → String) (items : List α) : List Char :=
  sep.intercalate (items.map fun a => [] ++ ((print a).toList ++ ['\n']))

theorem intercalate_nil (xs : List (List Char)) : [].intercalate xs = xs.flatten := by
  cases xs with
  | nil => rfl
  | cons x xs => simp [intercalate_cons]

theorem Module.print_text (m : Module) : m.print.toList = itemsText [] Import.print m.imports ++
    ((if m.imports.isEmpty || m.members.isEmpty then [] else ['\n']) ++
      (itemsText ['\n'] Member.print m.members ++ [])) := by
  by_cases h : m.imports = [] ∨ m.members = [] <;>
    simp [Module.print, itemsText, intercalate_nil, Function.comp_def, h, List.flatMap_def]

/-- The members of a module are read again, up to the end of the text. -/
theorem runs_moduleMembers {ds : List Member} (hp : c.Plain) (hc : c.StandsIn source.text.toList)
    (h : Repeats memberStep (ReadsMember source) c ds c') :
    Runs source'.text.toList (itemsText ['\n'] Member.print ds ++ [])
      (RepeatsAgain memberStep (ReadsMember source') Member.erase ds fun d d' => d' = d) [] := by
  refine runs_repeats isBlank_newline (by simp) isBlank_newline
    (fun hread => by simp [memberStep, (TokenKind.startsMember_ne hread.starts).1])
    (fun d hd more => ?_)
    ⟨id, fun d hd => ⟨d, ⟨d, by simp [memberStep, hd.kind_of_blanks (by simp)], rfl⟩, hd⟩⟩
  obtain ⟨e, e', hr, hread⟩ := Repeats.reached memberStep_reaches ReadsMember.reaches h hd
  exact hread.runs (hp.reaches hr) (hc.reaches hr) more

/-- **A module is read again from its text.** -/
theorem ReadsModule.runs {m : Module} (hp : c.Plain) (hc : c.StandsIn source.text.toList)
    (h : ReadsModule source c m c') :
    Runs source'.text.toList m.print.toList
      (fun d d' => ∃ m', ReadsModule source' d m' d' ∧ m'.erase = m.erase) [] := by
  cases h with
  | @mk c₁ _ is ds imports members =>
    have hr : c.Reaches c₁ :=
      imports.reaches (fun _ _ _ => Gap.step_reaches) fun _ _ _ => ReadsImport.reaches
    have hmembers : Runs source'.text.toList _ _ [] :=
      runs_moduleMembers (hp.reaches hr) (hc.reaches hr) members
    have hgap : ∀ ch ∈ (if is.isEmpty || ds.isEmpty then [] else ['\n']), isBlank ch = true := by
      split
      · simp
      · exact isBlank_newline
    have hrest : Runs source'.text.toList _ (fun d d' => ∃ d₁, importStep d = some (true, d₁) ∧
        RepeatsAgain memberStep (ReadsMember source') Member.erase ds (fun d d' => d' = d) d₁ d') [] :=
      (hmembers.blanks hgap).imp fun d d' h => ⟨d, by
        obtain ⟨_, _, hds, -⟩ := h
        exact importStep_of_members hds, h⟩
    have himport : ∀ i ∈ is, ∀ more, Runs source'.text.toList (i.print.toList ++ more)
        (fun d d' => ∃ i', ReadsImport d i' d' ∧ i'.erase = i.erase) more := by
      intro i hi more
      obtain ⟨e, e', hr', hread⟩ := Repeats.reached Gap.step_reaches ReadsImport.reaches imports hi
      exact (hread.runs (hp.reaches hr') more).imp fun _ _ h => h.2
    have hnone : ∀ ch ∈ ([] : List Char), isBlank ch = true := by simp
    have himports := runs_repeats hnone hnone isBlank_newline ReadsImport.step himport hrest
    refine (himports.imp ?_).congr (Module.print_text _)
    rintro d d' ⟨is', d₁, his', his, ds', d₂, hds', hds, rfl⟩
    exact ⟨_, .mk his' hds', by simp [Module.erase, his, hds]⟩

/-! ### Whole texts -/

theorem toOption_eq_some {ε α : Type} {x : Except ε α} {a : α} :
    x.toOption = some a ↔ x = .ok a := by
  cases x <;> simp [Except.toOption]

/-- Whether a token of a text is a name behind an apostrophe. -/
def quotesName (text : String) : Bool :=
  (tokenize text).toOption.any fun tokens => tokens.any fun t =>
    ((Source.mk "" text).slice t.span).toList.head? == some '\x27'

/-- Only a name behind an apostrophe may be spelled in another way than the printer spells it. -/
theorem Spells.plain_or_quoted {k : TokenKind} {text : List Char} (h : Spells k text) :
    k.Plain ∨ ∃ cs, text = '\x27' :: cs ∧ k = .ident (String.ofList cs) ∧
      ∀ d ∈ cs, isWordChar d = true := by
  cases h with
  | @word ch cs start others =>
    have hspells := Spells.word start others
    rcases Lexer.classifyWord_cases (ch :: cs) with ⟨k, hk, -⟩ | hk
    · rw [hk]
      exact .inl (TokenKind.plain_keyword k)
    · rw [hk] at hspells ⊢
      exact .inl (by simpa [TokenKind.Plain] using hspells)
  | @quotedName cs word => exact .inr ⟨cs, rfl, rfl, word⟩
  | @number text isFloat hnumber =>
    have hspells := Spells.number hnumber
    exact .inl (by cases isFloat <;> simpa [TokenKind.Plain, Lexer.numberKind] using hspells)
  | string => exact .inl (TokenKind.plain_string _)
  | mark m => exact .inl (TokenKind.plain_mark m)

theorem Spells.plain {k : TokenKind} {text : List Char} (h : Spells k text)
    (hquote : text.head? ≠ some '\x27') : k.Plain := by
  refine h.plain_or_quoted.resolve_right ?_
  rintro ⟨cs, rfl, -⟩
  exact hquote rfl

theorem Cursor.plain_ofTiles {text : String} {ts : List Tile} {tail : List Char} (finish : Nat)
    (h : Tiling text.toList ts tail) (hquotes : quotesName text = false) :
    (ofTiles ts finish).Plain := by
  intro t ht
  obtain ⟨front, u, more, hcs, hu, rfl⟩ := h.token_of_mem ht
  refine hu.spells.plain fun hhead => ?_
  have hslice := Source.slice_append (s := ⟨"", text⟩) hcs
  have hall := tokenize_eq_ok_iff.mpr ⟨ts, tail, h, rfl⟩
  have hquoted : quotesName text = true := by
    simp only [quotesName, hall]
    refine List.any_eq_true.mpr ⟨_, List.mem_append_left _ ht, ?_⟩
    rw [hslice, String.toList_ofList, hhead]
    rfl
  simp [hquotes] at hquoted

theorem Cursor.plain_ofText {text : String} {c : Cursor} (h : ofText text = .ok c)
    (hquotes : quotesName text = false) : c.Plain := by
  obtain ⟨ts, tail, htiling, rfl⟩ := ofText_eq_ok.mp h
  exact plain_ofTiles _ htiling hquotes

/-- Behind a phrase stands nothing or a token that goes on no phrase. -/
def Cursor.StopsPhrase (d : Cursor) : Prop := d.kind = .endOfFile ∨ d.kind.stops = true

theorem Cursor.StopsPhrase.follows {c d : Cursor} (h : d.StopsPhrase) (hc : c.kind = .endOfFile) :
    c.Follows d :=
  h.elim (fun hend => .of_kind (hend.trans hc.symm) (by simp [hend])) .of_stops

/-- An expression from a text is read again from the way it is printed. -/
theorem reprints_of_parseExpr (src : List Char) {text : String} {e : Expr}
    (h : parseExpr text = .ok e) (hquotes : quotesName text = false) :
    ∃ c, Reprints src .expr c e Cursor.StopsPhrase := by
  obtain ⟨c, c', hc, hread, hend⟩ := reads_of_parseExpr h
  have hback : Sym.expr.Back src c e c' := hread.back (Cursor.plain_ofText hc hquotes)
  exact ⟨c, hback.mono fun _ hd => hd.follows hend⟩

/-- So is a type. -/
theorem reprints_of_parseType (src : List Char) {text : String} {t : TypeDesc}
    (h : parseType text = .ok t) (hquotes : quotesName text = false) :
    ∃ c, Cursor.ofText text = .ok c ∧ Reprints src .type c t Cursor.StopsPhrase := by
  obtain ⟨c, c', hc, hread, hend⟩ := reads_of_parseType h
  have hback : Sym.type.Back src c t c' := hread.back (Cursor.plain_ofText hc hquotes)
  exact ⟨c, hc, hback.mono fun _ hd => hd.follows hend⟩

/-- What can be read along a text up to its end is read from its first token. -/
theorem Runs.exists_ofText {text : String} {R : Cursor → Cursor → Prop}
    (h : Runs text.toList text.toList R []) :
    ∃ d d', Cursor.ofText text = .ok d ∧ R d d' ∧ d'.kind = .endOfFile := by
  obtain ⟨ts, tail, htiling⟩ := h.tiles ⟨[], [], .finish rfl⟩
  obtain ⟨d', hR, hd'⟩ := h.run (d := Cursor.ofTiles ts (byteLength text.toList))
    ⟨[], [], ts, tail, rfl, by simp, htiling, rfl, rfl⟩
  exact ⟨_, d', Cursor.ofText_eq_ok.mpr ⟨ts, tail, htiling, rfl⟩, hR,
    hd'.kind_of_blanks (by simp)⟩

/-- **What is printed of a module is read as the same module**, up to places, and is printed as it
was; the printer writes no apostrophe before a name, so the text may have none. -/
theorem parseModule_print {text : String} {m : Module} (h : parseModule text = .ok m)
    (hquotes : quotesName text = false) :
    ∃ m', parseModule m.print = .ok m' ∧ m'.erase = m.erase ∧ m'.print = m.print := by
  obtain ⟨ts, tail, c', htiling, hread⟩ := reads_of_parseModule h
  have hruns : Runs (Source.mk "" m.print).text.toList _ _ [] :=
    hread.runs (Cursor.plain_ofTiles _ htiling hquotes) (Cursor.standsIn_ofTiles _ htiling)
  obtain ⟨ts', tail', htiling'⟩ := hruns.tiles ⟨[], [], .finish rfl⟩
  obtain ⟨d', ⟨m', hread', hm⟩, -⟩ := hruns.run
    (d := Cursor.ofTiles ts' (byteLength m.print.toList))
    ⟨[], [], ts', tail', rfl, by simp, htiling', rfl, rfl⟩
  exact ⟨m', parseModule_of_reads htiling' hread', hm, Module.print_eq_of_erase_eq hm⟩

/-- A module with few blanks and with a comment in the path of its service, so that it is not
printed as it was written. -/
def tightText : String :=
  "service/x//y\n/z on l\x7bresource function get a/[int i](int...n)returns@T int\x7breturn 1+f();\x7d\x7d"

theorem tightText_print : ∃ m m', parseModule tightText = .ok m ∧ m.print ≠ tightText ∧
    parseModule m.print = .ok m' ∧ m'.erase = m.erase ∧ m'.print = m.print := by
  have hquotes : quotesName tightText = false := by decide +kernel
  have hcheck : (match parseModule tightText with
      | .ok m => m.print != tightText
      | .error _ => false) = true := by decide +kernel
  split at hcheck
  · next m hread =>
    obtain ⟨m', hread', hm, hprint⟩ := parseModule_print hread hquotes
    exact ⟨m, m', hread, by simpa using hcheck, hread', hm, hprint⟩
  · exact absurd hcheck (by simp)

end Durable
