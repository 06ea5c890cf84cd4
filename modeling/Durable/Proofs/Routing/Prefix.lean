/-
The prefix by which a routed document reaches the internal module.

Two scans have to agree: the prefix of the calls and annotations that are put in is the first one of
the imports, in source order, that stands for the internal module, and the module is imported anew
unless one of the prefixes does.  A prefix stands for the last import under it, so the new import
has to come behind all others: it is put in where the last one ends, in front of everything else
that is put in.  Then the routed text starts with the imports that the document had and the new one,
each scanned as it was, and the first token behind them is no `import`, because it is the one that
was there or the sign of the first annotation.
-/
import Durable.Proofs.Model.Frame
import Durable.Proofs.Print.Imports
import Durable.Proofs.Routing.Imports
import Durable.Proofs.Routing.Layout

namespace Durable

open Text
open Text.Edit (insertion apply applyAll)

/-! ### The internal module -/

/-- Which imports stand for the internal module does not depend on the package. -/
theorem importTarget_eq_internal {p : Package} {o : Options} {i : Import} :
    importTarget p o i = .internal ↔ ¬ (i.org.map (·.name) = some o.frameworkOrg ∧
      i.moduleName = o.frameworkModule) ∧ i.org.map (·.name) = some o.frameworkOrg ∧
        i.moduleName = o.internalModule := by
  unfold importTarget
  simp only
  split
  · next h => simp [h]
  · next h =>
    split
    · next h' => exact ⟨fun _ => ⟨h, h'⟩, fun _ => rfl⟩
    · next h' =>
      constructor
      · intro heq
        split at heq <;> simp at heq
      · exact fun heq => absurd heq.2 h'

theorem Model.targetIn_internal {p p' : Package} {o : Options} {imports : List Import}
    {via : String} (h : targetIn p o imports via = some .internal) :
    targetIn p' o imports via = some .internal := by
  obtain ⟨i, hi, htarget⟩ := Option.map_eq_some_iff.mp h
  exact Option.map_eq_some_iff.mpr ⟨i, hi, importTarget_eq_internal.mpr
    (importTarget_eq_internal.mp htarget)⟩

namespace Routing

variable {p : Package} {o : Options} {d : Document} {via : String}

/-- If some prefix of a document stands for the internal module, the one by which the document
reaches it does. -/
theorem import?_internalAlias (hd : p.document? d.id = some d)
    (h : (Model.build p o).imports d.id .internal = true) :
    (Model.build p o).import? d.id (internalAlias (.build p o) d) = some .internal := by
  obtain ⟨i, hi, htarget⟩ := (imports_iff hd .internal).mp h
  unfold internalAlias
  cases hfind : (d.tree.imports.map Import.boundName).find? fun via =>
      (Model.build p o).import? d.id via == some .internal with
  | none =>
    have := List.find?_eq_none.mp hfind _ (List.mem_map_of_mem hi)
    simp [htarget] at this
  | some via => simpa using List.find?_some hfind

/-- Among the imports of a routed document the prefix stands for the internal module, whatever it
stood for before. -/
theorem targetIn_importsRouted (hd : p.document? d.id = some d)
    (hmodules : o.internalModule ≠ o.frameworkModule)
    (hchanged : (routeDocument (.build p o) d).changed = true) :
    Model.targetIn p o (importsRouted (.build p o) d) (internalAlias (.build p o) d)
      = some .internal := by
  unfold importsRouted
  cases himports : (Model.build p o).imports d.id .internal with
  | true =>
    have htarget := import?_internalAlias hd himports
    simpa [Model.import?, Model.build, hd] using htarget
  | false =>
    rw [hchanged, Bool.true_and, Bool.not_false, if_pos rfl, Model.targetIn_append]
    exact (if_pos rfl).trans (congrArg some (importTarget_importOfInternal p o _ hmodules))

/-! ### The import that is put in -/

/-- The text of the import of the internal module reads as it. -/
theorem isImports_importOfInternal :
    let i := ({} : Options).importOfInternal ({} : Options).internalAlias
    IsImports i.print.toList [i] := by
  intro i
  have hquotes : quotesName i.print = false := by decide +kernel
  obtain ⟨m, hread, hcheck⟩ := Package.exists_ok_of_any (show ((parseModule i.print).toOption.any
      fun m => m.imports.any fun i' => i'.print == i.print && i'.erase == i.erase) = true by
    decide +kernel)
  obtain ⟨i', hi', hcheck⟩ := List.any_eq_true.mp hcheck
  obtain ⟨hprint, herase⟩ : i'.print = i.print ∧ i'.erase = i.erase := by simpa using hcheck
  have himport := IsImports.print hread hquotes hi'
  rw [hprint] at himport
  exact himport.congr (by simp [herase])

/-- The last import ends where the imports do. -/
theorem stop_of_getLast? {c c' : Cursor} {cs : List Char} {is : List Import} {last : Import}
    (hc : c.StandsIn cs) (h : ReadsImports c is c') (hlast : is.getLast? = some last) :
    last.span.stop = c'.passed := by
  induction h with
  | stop => simp at hlast
  | @more c c₁ c₂ c' i is hstep first others ih =>
    have hc₁ := hc.reaches (Gap.step_reaches hstep)
    cases others with
    | stop hstop =>
      obtain ⟨-, rfl⟩ := importStep_stop.mp hstop
      obtain rfl : i = last := by simpa using hlast
      obtain ⟨hkind, hreaches, hspan⟩ := span_of_readsImport first
      have hstart := (hc₁.tiled.span hkind).2.2
      have hle := hc₁.advance.passed_le hreaches
      rw [hspan]
      exact max_eq_left (by omega)
    | more _ _ _ =>
      exact ih (hc₁.reaches first.reaches) (by simpa using hlast)

/-- The import is put in where the imports end. -/
theorem exists_importEdit {c c' : Cursor} {cs : List Char} (hc : c.StandsIn cs)
    (hstart : c.passed = 0) (h : ReadsImports c d.tree.imports c')
    (hd : p.document? d.id = some d)
    (himports : (Model.build p {}).imports d.id .internal = false) :
    ∃ text : String, importEdit (.build p {}) d (internalAlias (.build p {}) d)
        = insertion c'.passed text ∧
      IsImports text.toList
        [({} : Options).importOfInternal (internalAlias (.build p {}) d)] := by
  rw [internalAlias_of_not_imports hd himports]
  have hspace : IsImports [' '] [] := .blanks (by simp [blank_space])
  cases hlast : d.tree.imports.getLast? with
  | none =>
    rw [List.getLast?_eq_none_iff.mp hlast] at h
    obtain rfl := h.eq_of_nil
    refine ⟨_, by rw [importEdit, hlast, hstart], ?_⟩
    rw [String.toList_append]
    exact isImports_importOfInternal.append hspace
  | some last =>
    refine ⟨_, by rw [importEdit, hlast, ← stop_of_getLast? hc h hlast], ?_⟩
    rw [String.toList_append]
    exact hspace.append isImports_importOfInternal

/-! ### The text of a routed document -/

/-- The table of the first service that is routed is put in where the service starts, and all else
behind that. -/
theorem edits_of_services (hp : p.IsRead) {c c' : Cursor} {ss : List Service} {source : Source}
    (hc : c.StandsIn d.source.text.toList) (hvia : OneLine via)
    (hread : Meets (ReadsPlainService source) c ss c')
    (hne : ss.filterMap (routeService? (Model.build p o) d via) ≠ []) :
    ∃ c₁ table others, c.Reaches c₁ ∧ c₁.kind ≠ .endOfFile ∧
      (ss.filterMap (routeService? (Model.build p o) d via)).flatMap (·.edits) =
        insertion c₁.start ((tagOfTable via table).print ++ " ") :: others ∧
      ∀ e ∈ others, c₁.start < e.span.start := by
  induction hread with
  | done => simp at hne
  | @item c c₁ c₂ c' s ss hr first others ih =>
    have hc₁ := hc.reaches hr
    cases hroute : routeService? (Model.build p o) d via s with
    | none =>
      simp only [List.filterMap_cons, hroute] at hne ⊢
      obtain ⟨c₃, table, others, hr₃, h⟩ := ih (hc₁.reaches first.reaches) hne
      exact ⟨c₃, table, others, (hr.trans first.reaches).trans hr₃, h⟩
    | some routing =>
      obtain ⟨hkind, table, calls, lo, hedits, -, hlt, hend, hcalls⟩ :=
        edits_of_service hp hc₁ hvia first hroute
      have hothers := stacked_services hp (o := o) (hc₁.reaches first.reaches) hvia others
      simp only [List.filterMap_cons, hroute, List.flatMap_cons, hedits, List.cons_append]
      refine ⟨c₁, table, _, hr, hkind, rfl, fun e he => ?_⟩
      rcases List.mem_append.mp he with he | he
      · exact Nat.lt_of_lt_of_le hlt (hcalls.within e he).1
      · have := (hothers.within e he).1
        omega

theorem tag_text (via : String) (table : List (String × NameRef)) : ∃ more,
    ((tagOfTable via table).print ++ " ").toList = Mark.atSign.text.toList ++ more := by
  refine ⟨((tagOfTable via table).print ++ " ").toList.tail, ?_⟩
  simp [Mark.text, Annotation.print]

/-- The edits of a document with services to route. -/
theorem documentEdits_of_changed {m : Model} (h : (routeDocument m d).changed = true) :
    (servicesOf d).filterMap (routeService? m d (internalAlias m d)) ≠ [] ∧
      (documentEdits m d).1 =
        ((servicesOf d).filterMap (routeService? m d (internalAlias m d))).flatMap (·.edits) ++
          (if m.imports d.id .internal then [] else [importEdit m d (internalAlias m d)]) := by
  have hrouted : (servicesOf d).filterMap (routeService? m d (internalAlias m d)) ≠ [] := by
    intro hnone
    simp [routeDocument, documentEdits_eq, hnone, distinct] at h
  refine ⟨hrouted, ?_⟩
  rw [documentEdits_eq]
  simp [hrouted]

/-- What stands where in a document with services to route: its imports, the gap up to the first
table, and all else behind that. -/
theorem exists_front (hp : p.IsRead) (hd : d ∈ p.documents)
    (hne : (servicesOf d).filterMap (routeService? (.build p {}) d
      (internalAlias (.build p {}) d)) ≠ []) :
    ∃ front gap rest table others, d.source.text.toList = front ++ (gap ++ rest) ∧
      IsImports front d.tree.imports ∧
      ((Model.build p {}).imports d.id .internal = false →
        ∃ text : String, importEdit (.build p {}) d (internalAlias (.build p {}) d)
          = insertion (byteLength front) text ∧ IsImports text.toList
            [({} : Options).importOfInternal (internalAlias (.build p {}) d)]) ∧
      ((servicesOf d).filterMap (routeService? (.build p {}) d
          (internalAlias (.build p {}) d))).flatMap (·.edits)
        = insertion (byteLength (front ++ gap))
          ((tagOfTable (internalAlias (.build p {}) d) table).print ++ " ") :: others ∧
      (∀ e ∈ others, byteLength (front ++ gap) < e.span.start) ∧
      ∀ (src more : List Char) (e : Cursor),
        e.Before src (gap ++ (Mark.atSign.text.toList ++ more)) → e.kind ≠ .keyword .kwImport := by
  obtain ⟨hplace, hparse⟩ := hp.document_eq hd
  obtain ⟨ts, tail, c', htiling, hread⟩ := reads_of_parseModule hparse
  have hc := Cursor.standsIn_ofTiles (byteLength d.source.text.toList) htiling
  obtain ⟨c₁, himports, hmembers⟩ := hread.parts
  have hc₁ := hc.reaches
    (himports.reaches (fun _ _ _ => Gap.step_reaches) fun _ _ _ => ReadsImport.reaches)
  have hvia := oneLine_internalAlias (p := p) hc
    (.of_items (fun _ _ _ => Gap.step_reaches) himports)
  have hservices := meets_services
    (.of_items (R := ReadsMember _) (fun _ _ _ => memberStep_reaches) hmembers)
  rw [← servicesOf_eq] at hservices
  obtain ⟨c₂, table, others, hr, hend, hfirst, hbehind⟩ :=
    edits_of_services hp hc₁ hvia hservices hne
  obtain ⟨front, rest, htext, hlen, hfront⟩ := himports.isImports hc rfl
  obtain ⟨front', gap, rest', htext', hpassed, hstart, hkind⟩ := hc₁.kind_of_swapped hr hend
  obtain ⟨rfl, rfl⟩ : front = front' ∧ rest = gap ++ rest' :=
    append_inj_of_byteLength (htext.symm.trans htext') (hlen.trans hpassed)
  rw [hstart] at hfirst hbehind
  refine ⟨front, gap, rest', table, others, htext, hfront, fun hinternal => ?_, hfirst, hbehind,
    fun src more e he => ?_⟩
  · rw [hpassed.symm]
    exact exists_importEdit hc rfl himports hplace hinternal
  · -- The first token is the first one of the members, or the sign of the annotation.
    rcases hkind rfl src more e he with heq | heq
    · rw [heq]
      exact (importStep_stop.mp (importStep_of_members hmembers)).1
    · simp [heq]

/-- **A routed text starts with the imports** that the document had and the one that is added, and
what follows starts with no other. -/
theorem exists_isImports (hp : p.IsRead) (hd : d ∈ p.documents)
    (hchanged : (routeDocument (.build p {}) d).changed = true) :
    ∃ front more, IsImports front (importsRouted (.build p {}) d) ∧
      (routeDocument (.build p {}) d).text.toList = front ++ more ∧
      ∀ (src : List Char) (c : Cursor), c.Before src more → c.kind ≠ .keyword .kwImport := by
  obtain ⟨hne, hedits⟩ := documentEdits_of_changed hchanged
  obtain ⟨front, gap, rest, table, others, htext, hfront, hadded, hfirst, hbehind, hstop⟩ :=
    exists_front hp hd hne
  -- What is edited behind the first table leaves all in front of that table as it is.
  obtain ⟨behind, hservices⟩ := Edit.applyAll_insertion
    ((tagOfTable (internalAlias (.build p {}) d) table).print ++ " ")
    (htext.trans (List.append_assoc front gap rest).symm) hbehind
  obtain ⟨tag, htag⟩ := tag_text (internalAlias (.build p {}) d) table
  rw [htag, List.append_assoc, List.append_assoc] at hservices
  have hrouted : (routeDocument (.build p {}) d).text
      = applyAll d.source.text (documentEdits (.build p {}) d).1 := rfl
  rw [hrouted, hedits, hfirst]
  unfold importsRouted
  cases hinternal : (Model.build p {}).imports d.id .internal with
  | true =>
    refine ⟨front, _, by simpa using hfront, ?_, fun src => hstop src (tag ++ behind)⟩
    rw [if_pos rfl, List.append_nil, hservices]
  | false =>
    obtain ⟨text, hedit, htext⟩ := hadded hinternal
    refine ⟨front ++ text.toList, _, ?_, ?_, fun src => hstop src (tag ++ behind)⟩
    · rw [hchanged]
      exact hfront.append htext
    · rw [if_neg (by simp), hedit, List.append_assoc]
      refine Edit.applyAll_concat_insertion text hservices fun e he => ?_
      rw [byteLength_append] at hbehind
      rcases List.mem_cons.mp he with rfl | he
      · simp [insertion]
      · have := hbehind e he
        omega

/-! ### The prefix in a routed text -/

/-- The imports of a routed text, up to places. -/
theorem imports_of_routed {p' : Package} {d' : Document} (hp : p.IsRead) (hd : d ∈ p.documents)
    (hp' : p'.IsRead) (hd' : d' ∈ p'.documents)
    (htext : d'.source.text = (routeDocument (.build p {}) d).text) :
    d'.tree.imports.map Import.erase = (importsRouted (.build p {}) d).map Import.erase := by
  have hparse := (hp'.document_eq hd').2
  rw [htext] at hparse
  cases hchanged : (routeDocument (.build p {}) d).changed with
  | true =>
    obtain ⟨front, more, hfront, hrouted, hstop⟩ := exists_isImports hp hd hchanged
    exact hfront.imports_eq hparse hrouted fun c hc => hstop _ c hc
  | false =>
    rw [text_of_unchanged hchanged, (hp.document_eq hd).2, Except.ok.injEq] at hparse
    rw [importsRouted, hchanged, Bool.false_and, if_neg Bool.false_ne_true, hparse]

/-- **The import of the internal module and the prefix agree.**  All that routing takes from the
internal module, the annotations of services and the function that dispatches calls, it takes by one
prefix.  A document that is not changed keeps its imports; one that is gains the import exactly if
none of its prefixes stands for the internal module, and then, or if one does, that prefix stands
for it, among the imports as they are listed and in every package that has a document of the routed
text. -/
theorem routed_reaches_internal (hp : p.IsRead) (hd : d ∈ p.documents) :
    let m := Model.build p {}
    let via := internalAlias m d
    let routed := routeDocument m d
    let reached := ∃ i ∈ d.tree.imports, m.import? d.id i.boundName = some .internal
    (∀ e ∈ (documentEdits m d).1, e = importEdit m d via ∨
      ∃ s ∈ servicesOf d, m.isWorkflowService d.id s = true ∧ RoutesService m d via s e) ∧
    (routed.changed = false → routed.text = d.source.text) ∧
    ∃ added : List Import,
      (routed.changed = false ∨ reached → added = []) ∧
      (routed.changed = true ∧ ¬ reached → added = [({} : Options).importOfInternal via]) ∧
      (routed.changed = true →
        Model.targetIn p {} (d.tree.imports ++ added) via = some .internal) ∧
      ∀ p' : Package, p'.IsRead → ∀ d' ∈ p'.documents, d'.source.text = routed.text →
        d'.tree.imports.map Import.erase = (d.tree.imports ++ added).map Import.erase ∧
        (routed.changed = true → (Model.build p' {}).import? d'.id via = some .internal) := by
  intro m via routed reached
  obtain ⟨hplace, -⟩ := hp.document_eq hd
  have hreached : m.imports d.id .internal = true ↔ reached := imports_iff hplace .internal
  refine ⟨fun e => edit_of_document, text_of_unchanged,
    if routed.changed && !m.imports d.id .internal then
      [({} : Options).importOfInternal via] else [], ?_, ?_, ?_⟩
  · rintro (hchanged | h)
    · simp [hchanged]
    · simp [hreached.mpr h]
  · rintro ⟨hchanged, h⟩
    simp [hchanged, Bool.eq_false_iff.mpr fun himports => h (hreached.mp himports)]
  · have hlisted : importsRouted m d = d.tree.imports ++
        if routed.changed && !m.imports d.id .internal then
          [({} : Options).importOfInternal via] else [] := by
      unfold importsRouted
      split
      · rfl
      · exact (List.append_nil _).symm
    rw [← hlisted]
    have htarget : routed.changed = true →
        Model.targetIn p {} (importsRouted m d) via = some .internal :=
      targetIn_importsRouted hplace (by decide)
    refine ⟨htarget, fun p' hp' d' hd' htext => ?_⟩
    have himports := imports_of_routed hp hd hp' hd' htext
    refine ⟨himports, fun hchanged => ?_⟩
    have hread : (Model.build p' {}).import? d'.id via
        = Model.targetIn p' {} d'.tree.imports via := by
      simp only [Model.import?, Model.build, (hp'.document_eq hd').1]
    rw [hread, ← Model.targetIn_erase, himports, Model.targetIn_erase]
    exact Model.targetIn_internal (htarget hchanged)

/-- A document that imports another module under the usual prefix of the internal one. -/
def losesPrefix : Source :=
  ⟨"main.wf", "import ballerina/workflow as w;"
    ++ "import a/b as workflow_internal;"
    ++ "@w:Activity function f()\x7b\x7d"
    ++ "service on new w:Listener()\x7bfunction g()\x7b()x=f();\x7d\x7d"⟩

/-- What routing makes of it. -/
def regainsPrefix : Source :=
  ⟨"main.wf", "import ballerina/workflow as w;"
    ++ "import a/b as workflow_internal; import ballerina/workflow.internal as workflow_internal;"
    ++ "@w:Activity function f()\x7b\x7d"
    ++ "@workflow_internal:Activities \x7b\"f\": f\x7d "
    ++ "service on new w:Listener()\x7bfunction g()\x7b"
    ++ "()x=<()>workflow_internal:invokeActivity(\"f\");\x7d\x7d"⟩

/-- The import that such a document gains is its last one, and its prefix stands for the internal
module once the routed text is read. -/
theorem regainsPrefix_reaches : ∃ p p' : Package, ∃ d d' : Document, p.IsRead ∧
    d ∈ p.documents ∧ p'.IsRead ∧ d' ∈ p'.documents ∧
    d'.source.text = (routeDocument (.build p {}) d).text ∧
    (routeDocument (.build p {}) d).changed = true ∧
    d'.tree.imports.length = d.tree.imports.length + 1 ∧
    (Model.build p' {}).import? d'.id (internalAlias (.build p {}) d) = some .internal := by
  obtain ⟨p, hp, hcheck⟩ := Package.exists_of_any (show ((Package.ofSources "acme" "orders"
      [losesPrefix]).toOption.any fun p => p.documents.any fun d =>
        (routeDocument (.build p {}) d).text == regainsPrefix.text &&
          (routeDocument (.build p {}) d).changed &&
            !(Model.build p {}).imports d.id .internal) = true by decide +kernel)
  obtain ⟨d, hd, hcheck⟩ := List.any_eq_true.mp hcheck
  simp only [Bool.and_eq_true, Bool.not_eq_true', beq_iff_eq] at hcheck
  obtain ⟨⟨htext, hchanged⟩, himports⟩ := hcheck
  obtain ⟨p', hp', hcheck⟩ := Package.exists_of_any (show ((Package.ofSources "acme" "orders"
      [regainsPrefix]).toOption.any fun p => p.documents.any fun d =>
        d.source.text == regainsPrefix.text) = true by decide +kernel)
  obtain ⟨d', hd', htext'⟩ := List.any_eq_true.mp hcheck
  have htext' := (eq_of_beq htext').trans htext.symm
  obtain ⟨-, -, added, -, hadded, -, hread⟩ := routed_reaches_internal hp hd
  obtain ⟨hlisted, htarget⟩ := hread p' hp' d' hd' htext'
  have hone := hadded ⟨hchanged, fun hreached => by
    rw [(imports_iff (hp.document_eq hd).1 .internal).mpr hreached] at himports
    contradiction⟩
  refine ⟨p, p', d, d', hp, hd, hp', hd', htext', hchanged, ?_, htarget hchanged⟩
  have hlen := congrArg List.length hlisted
  simpa [hone] using hlen

end Routing

end Durable
