/-
Routing keeps the layout of a text.

A routed document is its source with patches made on it: the reference of every routed call is
replaced where it stands, and everything else that is new is put in between.  The patches are
clear of each other because calls, services and imports stand one behind another, and none of
them has a newline because everything that is printed into the text is printed on one line.  So
every character that is kept stays on its line.
-/
import Durable.Proofs.Package.Sources
import Durable.Proofs.Routing.Calls

namespace Durable

open Text
open Text.Edit (Stacked)

/-! ### The calls that are routed -/

namespace Routing

variable {m : Model} {doc : DocId} {source : Source}

mutual

theorem walk_eq : ∀ {o : Outline}, o.Shaped →
    o.walk (routedNode m doc source) () = (initsOf [o]).filterMap (routedCall? m doc source)
  | .mk n parts, h => by
    have hparts := walkAll_eq h.2.2
    have hinits : initsOf [.mk n parts] = n.init?.toList ++ initsOf parts := by simp
    rw [hinits, List.filterMap_append, ← hparts, Outline.walk]
    cases n with
    | localVar d =>
      have hnone := (h.2.1 d rfl).initsOf_eq
      rw [hnone] at hparts
      cases hinit : d.init with
      | none => simp [routedNode, Node.init?, hinit]
      | some e =>
        cases hcall : routedCall? m doc source e with
        | none => simp [routedNode, Node.init?, hinit, hcall]
        | some r => simp [routedNode, Node.init?, hinit, hcall, hparts]
    | _ => rfl

theorem walkAll_eq : ∀ {os : List Outline}, Outline.ShapedAll os →
    Outline.walkAll (routedNode m doc source) () os
      = (initsOf os).filterMap (routedCall? m doc source)
  | [], _ => rfl
  | .mk n parts :: os, h => by
    rw [Outline.walkAll, walk_eq h.1, walkAll_eq h.2, ← List.filterMap_append, ← initsOf_append]
    rfl

end

/-- The calls of a service that are routed are those among the initial values of its variables. -/
theorem routedCalls_eq (s : Service) :
    routedCalls m doc source s = (initsOf [s.outline]).filterMap (routedCall? m doc source) :=
  walk_eq s.outline_shaped

end Routing

/-! ### Where the functions of a package come from -/

theorem Model.activity?_eq_some {m : Model} {doc : DocId} {r : NameRef} {item : Item}
    {f : Function} (h : m.activity? doc r = some (item, f)) :
    m.package.member? item = some (.function f) := by
  unfold activity? Model.function? at h
  obtain ⟨h, -⟩ := Option.filter_eq_some_iff.mp h
  split at h
  · obtain ⟨g, hg, heq⟩ := Option.map_eq_some_iff.mp h
    obtain ⟨rfl, rfl⟩ := Prod.mk.inj heq
    unfold Package.function? at hg
    split at hg
    · next hmember =>
      obtain rfl := Option.some.inj hg
      exact hmember
    · simp at hg
  · simp at h

theorem Package.member?_mem {p : Package} {item : Item} {d : Member}
    (h : p.member? item = some d) : ∃ doc ∈ p.documents, d ∈ doc.tree.members := by
  obtain ⟨doc, hdoc, h⟩ := Option.bind_eq_some_iff.mp h
  obtain ⟨module, hmodule, hdoc⟩ := Option.bind_eq_some_iff.mp hdoc
  exact ⟨doc, List.mem_flatMap.mpr ⟨module, List.mem_of_getElem? hmodule,
    List.mem_of_getElem? hdoc⟩, List.mem_of_getElem? h⟩

/-- The members of a text that reads as a module are read somewhere in it. -/
theorem exists_readsMember {text : String} {tree : Module} (h : parseModule text = .ok tree)
    {d : Member} (hd : d ∈ tree.members) :
    ∃ c c' : Cursor, c.StandsIn text.toList ∧ ReadsMember ⟨"", text⟩ c d c' := by
  obtain ⟨ts, tail, c', htiling, hread⟩ := reads_of_parseModule h
  have hc := Cursor.standsIn_ofTiles (byteLength text.toList) htiling
  obtain ⟨c₁, himports, hmembers⟩ := hread.meets
  have hc₁ := hc.reaches (himports.reaches fun _ _ _ => ReadsImport.reaches)
  obtain ⟨c₂, c₃, hr, hread, -⟩ := hmembers.of_mem (fun _ _ _ h => h.reaches) hd
  exact ⟨c₂, c₃, hc₁.reaches hr, hread⟩

/-- The type that a function of a package returns is printed on one line. -/
theorem Package.IsRead.oneLine_returns {p : Package} (hp : p.IsRead) {item : Item} {f : Function}
    (h : p.member? item = some (.function f)) : ∀ t ∈ f.returns, OneLine t.print := by
  obtain ⟨doc, hdoc, hmem⟩ := member?_mem h
  obtain ⟨c, c', hc, hread⟩ := exists_readsMember (hp.document_eq hdoc).2 hmem
  intro t ht
  cases hread with
  | mk annotations modifiers decl =>
    cases decl with
    | function decl =>
      cases decl with
      | mk _ _ hpath _ list result _ =>
        have hat := (hc.reaches annotations.reaches).reaches modifiers.reaches
        have hat := ((hat.advance.advance.reaches hpath.reaches).advance.reaches list.reaches)
        cases result with
        | absent => simp at ht
        | present _ dropped type =>
          obtain rfl := Option.mem_some.mp ht
          exact type.oneLine (hat.advance.reaches dropped.reaches)

/-! ### The texts that are put in -/

namespace Routing

variable {m : Model} {d : Document} {via : String}

theorem oneLine_returnTypeAt {callee : NameRef} {activity : Function}
    (hcallee : OneLine callee.asWritten) (hreturns : ∀ t ∈ activity.returns, OneLine t.print) :
    OneLine (returnTypeAt callee activity).print := by
  unfold returnTypeAt
  cases hr : activity.returns with
  | none => exact (by decide : OneLine "()")
  | some t =>
    have ht := hreturns t (by simp [hr])
    obtain ⟨p, n, s⟩ := callee
    cases p with
    | none => exact ht
    | some p =>
      refine t.oneLine_qualify ?_ ht
      simp only [NameRef.asWritten, oneLine_append] at hcallee
      exact hcallee.1.1

/-- A routed call, as far as the text that is put in for it is concerned. -/
structure RoutedCall.Printable (r : RoutedCall) : Prop where
  callee : OneLine r.callee.asWritten
  returns : OneLine r.returns.print

theorem oneLine_table {rs : List RoutedCall} (h : ∀ r ∈ rs, r.Printable) :
    ∀ x ∈ activityTable rs, OneLine x.2.asWritten := by
  induction rs with
  | nil => simp [activityTable]
  | cons r rs ih =>
    intro x hx
    rw [activityTable] at hx
    rcases List.mem_cons.mp hx with rfl | hx
    · have := (h r (by simp)).callee
      obtain ⟨⟨p, n, s⟩, _, _, _⟩ := r
      cases p <;> exact this
    · exact ih (fun r hr => h r (by simp [hr])) x (List.mem_filter.mp hx).1

theorem oneLine_tagOfTable {table : List (String × NameRef)} (hvia : OneLine via)
    (h : ∀ x ∈ table, OneLine x.2.asWritten) : OneLine (tagOfTable via table).print := by
  have hfields : ∀ x ∈ printFields (table.map fun x => .string x.1 .synthetic (.name x.2)),
      OneLine x := by
    refine oneLine_fields fun f hf => ?_
    obtain ⟨x, hx, rfl⟩ := List.mem_map.mp hf
    have := h x hx
    simpa +decide [printFields, Expr.print, oneLine_quote] using this
  have htag : OneLine tableTag := by decide
  simp only [tagOfTable, Annotation.print, Expr.print, oneLine_append, oneLine_commas]
  simpa +decide [NameRef.asWritten, NameRef.synthetic, hvia, htag] using hfields

theorem oneLine_importOfInternal (hvia : OneLine via) :
    OneLine (({} : Options).importOfInternal via).print := by
  have hpath : OneLine (({} : Options).importOfInternal via).moduleName :=
    (by decide : OneLine (({} : Options).importOfInternal "").moduleName)
  simp only [Import.print, oneLine_append, hpath]
  simpa +decide [Options.importOfInternal] using hvia

/-! ### What services and documents contribute -/

/-- The text of the annotation that lists a table: the names, as literals, with their references. -/
def tableText (via : String) (table : List (String × NameRef)) : String :=
  "@" ++ via ++ ":Activities \x7b"
    ++ ", ".intercalate (table.map fun entry => quote entry.1 ++ ": " ++ entry.2.asWritten)
    ++ "\x7d"

theorem print_tagOfTable (via : String) (table : List (String × NameRef)) :
    (tagOfTable via table).print = tableText via table := by
  have hfields : printFields (table.map fun x => .string x.1 .synthetic (.name x.2))
      = table.map fun entry => quote entry.1 ++ ": " ++ entry.2.asWritten := by
    induction table with
    | nil => rfl
    | cons entry table ih => simp [printFields, ih, Expr.print]
  have hname : (NameRef.synthetic (some via) tableTag).asWritten = via ++ ":" ++ "Activities" := rfl
  have hopen : ":Activities \x7b" = ":" ++ ("Activities" ++ (" " ++ "\x7b")) := by decide
  simp only [tagOfTable, Annotation.print, Expr.print, hfields, hname, tableText, hopen,
    String.append_assoc]

/-- A service is routed if it is a workflow service that has calls to route: its annotation is put
in where it starts, and then come the edits of its calls. -/
theorem routeService?_eq_some {m : Model} {s : Service} {routing : ServiceRouting} :
    routeService? m d via s = some routing ↔
      m.isWorkflowService d.id s = true ∧ routedCalls m d.id d.source s ≠ [] ∧
        routing = ⟨.insertion s.span.start
            ((tagOfTable via (activityTable (routedCalls m d.id d.source s))).print ++ " ")
              :: (routedCalls m d.id d.source s).flatMap (·.edits via),
          activityTable (routedCalls m d.id d.source s)⟩ := by
  unfold routeService?
  by_cases hworkflow : m.isWorkflowService d.id s = true
  · by_cases hcalls : routedCalls m d.id d.source s = []
    · simp [hworkflow, hcalls]
    · simp only [hworkflow, hcalls, List.isEmpty_iff, if_true, if_false, Option.some.injEq, ne_eq,
        not_false_eq_true, true_and]
      exact eq_comm
  · simp [hworkflow]

/-- The edits of a document are those of its services, and the import behind them if one of the
services is routed and the import is not there. -/
theorem documentEdits_eq (m : Model) (d : Document) :
    let via := internalAlias m d
    let routed := (servicesOf d).filterMap (routeService? m d via)
    documentEdits m d =
      (routed.flatMap (·.edits) ++
        (if routed.isEmpty || m.imports d.id .internal then [] else [importEdit m d via]),
      distinct (routed.flatMap fun r => r.table.map (·.1))) := by
  intro via routed
  show (if routed.isEmpty then ([], []) else _) = _
  cases hempty : routed.isEmpty with
  | true =>
    rw [List.isEmpty_iff.mp hempty]
    rfl
  | false => rfl

/-! ### The edits of services and documents -/

theorem printable_routedCalls {p : Package} (hp : p.IsRead) {o : Options} {c c' : Cursor}
    {cs : List Char} {doc : DocId} {source : Source} {e : Expr} {r : RoutedCall}
    (hc : c.StandsIn cs) (hread : ReadsInitValue c e c')
    (h : routedCall? (Model.build p o) doc source e = some r) : r.Printable := by
  obtain ⟨args, span, item, activity, rfl, hactivity, hreturns, -⟩ := routedCall?_eq_some h
  obtain ⟨c₁, hcallee, -⟩ := hread.2.exists_callee rfl
  have hcallee : OneLine r.callee.asWritten := hcallee.oneLine hc.advance
  refine ⟨hcallee, ?_⟩
  rw [hreturns]
  exact oneLine_returnTypeAt hcallee (hp.oneLine_returns (Model.activity?_eq_some hactivity))

/-- The edits of the calls among some values are stacked where the values stand. -/
theorem stacked_calls {p : Package} (hp : p.IsRead) (o : Options) (doc : DocId) (source : Source)
    {c c' : Cursor} {es : List Expr} (hc : c.StandsIn source.text.toList) (hvia : OneLine via)
    (h : Meets ReadsInitValue c es c') :
    let rs := es.filterMap (routedCall? (Model.build p o) doc source)
    (∀ r ∈ rs, r.Printable) ∧
      Stacked source.text.toList c.passed c'.passed (rs.flatMap (·.edits via)) := by
  induction h with
  | done hr => exact ⟨by simp, .nil⟩
  | @item c c₁ c₂ c' e es hr first others ih =>
    have hc₁ := hc.reaches hr
    have hc₂ := hc₁.reaches first.reaches
    have hle₁ := hc.passed_le hr
    have hle₂ := hc₁.passed_le first.reaches
    have hle := hc₂.passed_le (others.reaches fun _ _ _ => ReadsInitValue.reaches)
    obtain ⟨hprintable, hstack⟩ := ih hc₂
    cases hcall : routedCall? (Model.build p o) doc source e with
    | none =>
      simp only [List.filterMap_cons, hcall]
      exact ⟨hprintable, hstack.mono (by omega) (Nat.le_refl _)⟩
    | some r =>
      have hr := printable_routedCalls hp hc₁ first hcall
      simp only [List.filterMap_cons, hcall, List.flatMap_cons]
      refine ⟨List.forall_mem_cons.mpr ⟨hr, hprintable⟩, ?_⟩
      exact ((stacked_edits hc₁ first hcall hvia hr.returns).mono hle₁ (Nat.le_refl _)).append
        hstack (by omega) hle

/-- The table of a service that is routed is put in where the service starts; the edits of its calls
are stacked behind that. -/
theorem edits_of_service {p : Package} (hp : p.IsRead) {o : Options} {c c' : Cursor} {s : Service}
    {routing : ServiceRouting} {source : Source} (hc : c.StandsIn d.source.text.toList)
    (hvia : OneLine via) (hread : ReadsPlainService source c s c')
    (h : routeService? (Model.build p o) d via s = some routing) :
    c.kind ≠ .endOfFile ∧ ∃ table calls lo,
      routing.edits = .insertion c.start ((tagOfTable via table).print ++ " ") :: calls ∧
      OneLine (tagOfTable via table).print ∧ c.start < lo ∧ lo ≤ c'.passed ∧
      Stacked d.source.text.toList lo c'.passed calls := by
  obtain ⟨as, ms, c₁, hr, hread⟩ := hread
  have hc₁ := hc.reaches hr
  obtain ⟨hprintable, hcalls⟩ := stacked_calls hp o d.id d.source hc₁.advance hvia
    hread.meets
  rw [← routedCalls_eq] at hprintable hcalls
  have hword : c₁.kind = .keyword .kwService := by cases hread; assumption
  have horigin : s.span.start = c.start := by cases hread; rfl
  -- The service starts in front of its word's end.
  obtain ⟨hkind, hle⟩ := hc.start_le hr (by simp [hword])
  have hbehind := (hc₁.tiled.span (by simp [hword])).2.2
  have hend := hc₁.advance.passed_le (hread.meets.reaches fun _ _ _ => ReadsInitValue.reaches)
  refine ⟨hkind, activityTable (routedCalls (Model.build p o) d.id d.source s), _,
    c₁.advance.passed, ?_, oneLine_tagOfTable hvia (oneLine_table hprintable), by omega, hend,
    hcalls⟩
  obtain ⟨-, -, rfl⟩ := routeService?_eq_some.mp h
  rw [horigin]

/-- The edits of a service are stacked where it stands. -/
theorem stacked_service {p : Package} (hp : p.IsRead) {o : Options} {c c' : Cursor} {s : Service}
    {routing : ServiceRouting} {source : Source} (hc : c.StandsIn d.source.text.toList)
    (hvia : OneLine via) (hread : ReadsPlainService source c s c')
    (h : routeService? (Model.build p o) d via s = some routing) :
    Stacked d.source.text.toList c.passed c'.passed routing.edits := by
  obtain ⟨hkind, table, calls, lo, hedits, htag, hlt, hend, hcalls⟩ :=
    edits_of_service hp hc hvia hread h
  obtain ⟨a, b, hcs, hcut⟩ := hc.cut_start hkind
  have hpassed := (hc.tiled.span hkind).1
  have hblank : OneLine " " := by decide
  rw [hedits, ← hcut]
  exact (Stacked.single hcs ((oneLine_append _ _).mpr ⟨htag, hblank⟩) (by omega) (by omega)).append
    hcalls (by omega) hend

theorem stacked_services {p : Package} (hp : p.IsRead) {o : Options} {c c' : Cursor}
    {ss : List Service} {source : Source} (hc : c.StandsIn d.source.text.toList)
    (hvia : OneLine via) (hread : Meets (ReadsPlainService source) c ss c') :
    Stacked d.source.text.toList c.passed c'.passed
      ((ss.filterMap (routeService? (Model.build p o) d via)).flatMap (·.edits)) := by
  induction hread with
  | done hr => exact .nil
  | @item c c₁ c₂ c' s ss hr first others ih =>
    have hc₁ := hc.reaches hr
    have hc₂ := hc₁.reaches first.reaches
    have hle₁ := hc.passed_le hr
    have hle₂ := hc₁.passed_le first.reaches
    have hle := hc₂.passed_le (others.reaches fun _ _ _ => ReadsPlainService.reaches)
    cases hroute : routeService? (Model.build p o) d via s with
    | none =>
      simp only [List.filterMap_cons, hroute]
      exact (ih hc₂).mono (by omega) (Nat.le_refl _)
    | some routing =>
      simp only [List.filterMap_cons, hroute, List.flatMap_cons]
      exact ((stacked_service hp hc₁ hvia first hroute).mono hle₁ (Nat.le_refl _)).append (ih hc₂)
        (by omega) hle

theorem servicesOf_eq (d : Document) : servicesOf d = d.tree.members.filterMap Member.service? := by
  unfold servicesOf
  congr 1

theorem meets_services {source : Source} {c c' : Cursor} {ds : List Member}
    (h : Meets (ReadsMember source) c ds c') :
    Meets (ReadsPlainService source) c (ds.filterMap Member.service?) c' := by
  induction h with
  | done hr => exact .done hr
  | @item _ _ _ _ d _ hr first _ ih =>
    have hfirst := (first.meets_services.trans ih).skip hr
    cases hs : d.service? <;> simpa [List.filterMap_cons, hs] using hfirst

/-- An import spans the tokens that are read for it. -/
theorem span_of_readsImport {c c' : Cursor} {i : Import} (h : ReadsImport c i c') :
    c.kind ≠ .endOfFile ∧ c.advance.Reaches c' ∧ i.span = c'.since c.start := by
  cases h with
  | mk word horg _ hparts hrename _ =>
    have hfurther := Repeats.reaches (fun _ _ _ => Gap.step_reaches)
      (fun _ _ _ => ReadsWord.reaches) hparts
    exact ⟨by simp [word], ((horg.reaches.step.trans hfurther).trans hrename.reaches).step, rfl⟩

theorem oneLine_boundName {c c' : Cursor} {cs : List Char} {i : Import} (hc : c.StandsIn cs)
    (h : ReadsImport c i c') : OneLine i.boundName := by
  cases h with
  | @mk c₁ c₂ _ org rename n parts word horg head further hrename closing =>
    have hc₁ := hc.advance.reaches horg.reaches
    have hmeets := Meets.of_items (R := ReadsWord) (fun _ _ _ => Gap.step_reaches) further
    have hc₂ := hc₁.advance.reaches (hmeets.reaches fun _ _ _ => ReadsWord.reaches)
    unfold Import.boundName
    cases hrename with
    | present _ name => exact hc₂.advance.oneLine_ident name
    | absent =>
      have hall : ∀ x ∈ (⟨n, c₁.span⟩ :: parts : List Ident), OneLine x.name := by
        intro x hx
        rcases List.mem_cons.mp hx with rfl | hx
        · exact hc₁.oneLine_word head
        · obtain ⟨c₃, c₄, hr, hword, -⟩ := hmeets.of_mem (fun _ _ _ => ReadsWord.reaches) hx
          exact (hc₁.advance.reaches hr).oneLine_word hword.1
      cases hlast : (⟨n, c₁.span⟩ :: parts : List Ident).getLast? with
      | none => simp at hlast
      | some x => exact hall x (List.mem_of_getLast? hlast)

/-- The prefix of the internal module is one that the document imports it by, or the usual one. -/
theorem oneLine_internalAlias {p : Package} {c c' : Cursor} {cs : List Char}
    (hc : c.StandsIn cs) (h : Meets ReadsImport c d.tree.imports c') :
    OneLine (internalAlias (Model.build p {}) d) := by
  unfold internalAlias
  cases hfind : (d.tree.imports.map Import.boundName).find? fun q =>
      (Model.build p {}).import? d.id q == some .internal with
  | none => exact (by decide : OneLine ({} : Options).internalAlias)
  | some q =>
    obtain ⟨i, hi, rfl⟩ := List.mem_map.mp (List.mem_of_find?_eq_some hfind)
    obtain ⟨c₁, c₂, hr, hread, -⟩ := h.of_mem (fun _ _ _ => ReadsImport.reaches) hi
    exact oneLine_boundName (hc.reaches hr) hread

/-- The import of the internal module is put in behind the imports. -/
theorem stacked_import {p : Package} {c c' : Cursor} (hc : c.StandsIn d.source.text.toList)
    (h : Meets ReadsImport c d.tree.imports c') (hvia : OneLine via) :
    Stacked d.source.text.toList 0 c'.passed [importEdit (Model.build p {}) d via] := by
  have himport := oneLine_importOfInternal hvia
  have hblank : OneLine " " := by decide
  unfold importEdit
  cases hlast : d.tree.imports.getLast? with
  | none =>
    refine Stacked.single (a := []) (b := d.source.text.toList) rfl ?_ (Nat.zero_le _) (Nat.zero_le _)
    exact (oneLine_append _ _).mpr ⟨himport, hblank⟩
  | some last =>
    obtain ⟨c₁, c₂, hr, hread, hr'⟩ := h.of_mem (fun _ _ _ => ReadsImport.reaches)
      (List.mem_of_getLast? hlast)
    have hc₁ := hc.reaches hr
    have hc₂ := hc₁.reaches hread.reaches
    obtain ⟨hkind, hreaches, hspan⟩ := span_of_readsImport hread
    have hstop : last.span.stop = c₂.passed := by
      have hstart := (hc₁.tiled.span hkind).2.2
      have hle := hc₁.advance.passed_le hreaches
      rw [hspan]
      exact max_eq_left (by omega)
    obtain ⟨a, b, hcs, hcut⟩ := hc₂.cut_passed
    have hle := hc₂.passed_le hr'
    simp only [hstop, ← hcut]
    refine Stacked.single hcs ?_ (Nat.zero_le _) (by omega)
    exact (oneLine_append _ _).mpr ⟨hblank, himport⟩

/-- The edits of a document are steady and clear of each other. -/
theorem stacked_document {p : Package} (hp : p.IsRead) (hd : d ∈ p.documents) :
    ∃ n, Stacked d.source.text.toList 0 n (documentEdits (Model.build p {}) d).1 := by
  obtain ⟨ts, tail, c', htiling, hread⟩ := reads_of_parseModule (hp.document_eq hd).2
  have hc := Cursor.standsIn_ofTiles (byteLength d.source.text.toList) htiling
  obtain ⟨c₁, himports, hmembers⟩ := hread.meets
  have hreaches := himports.reaches fun _ _ _ => ReadsImport.reaches
  have hc₁ := hc.reaches hreaches
  have hvia := oneLine_internalAlias (p := p) hc himports
  have himport := stacked_import (p := p) hc himports hvia
  have hservices := stacked_services hp (o := {}) hc₁ hvia (meets_services hmembers)
  have hle := hc₁.passed_le (hmembers.reaches fun _ _ _ => ReadsMember.reaches)
  refine ⟨c'.passed, ?_⟩
  simp only [documentEdits_eq, servicesOf_eq]
  split
  · simpa using hservices.mono (Nat.zero_le _) (Nat.le_refl _)
  · exact (himport.append hservices (Nat.zero_le _) hle).perm List.perm_append_comm

/-! ### The text of a routed document -/

/-- An edit replaces the reference of a call that is routed. -/
def ReplacesCallee (m : Model) (d : Document) (e : Edit) : Prop :=
  ∃ s ∈ servicesOf d, m.isWorkflowService d.id s = true ∧
    ∃ r ∈ routedCalls m d.id d.source s, e = ⟨r.callee.span, r.head (internalAlias m d)⟩

/-- An edit routes a service: it puts in the annotation with the table of the service, or the
dispatch function in the place of the reference of a call, or the name of the activity in front of
the arguments of one.  Annotation and function are reached by the prefix `via`. -/
inductive RoutesService (m : Model) (d : Document) (via : String) (s : Service) : Edit → Prop
  | table : RoutesService m d via s
      (.insertion s.span.start
        (tableText via (activityTable (routedCalls m d.id d.source s)) ++ " "))
  | callee {r : RoutedCall} (routed : r ∈ routedCalls m d.id d.source s) :
      RoutesService m d via s
        ⟨r.callee.span, "<" ++ r.returns.print ++ ">" ++ via ++ ":invokeActivity"⟩
  | firstArg {r : RoutedCall} (routed : r ∈ routedCalls m d.id d.source s) :
      RoutesService m d via s
        (.insertion r.argsStart (quote r.callee.asWritten ++ if r.hasArgs then ", " else ""))

theorem edits_of_routeService {m : Model} {s : Service} {routing : ServiceRouting}
    (h : routeService? m d via s = some routing) : m.isWorkflowService d.id s = true ∧
      routing.table ≠ [] ∧ ∀ e ∈ routing.edits, RoutesService m d via s e := by
  obtain ⟨hworkflow, hcalls, rfl⟩ := routeService?_eq_some.mp h
  refine ⟨hworkflow, ?_, fun e he => ?_⟩
  · cases hlist : routedCalls m d.id d.source s with
    | nil => exact absurd hlist hcalls
    | cons r rs => simp [activityTable]
  · rcases List.mem_cons.mp he with rfl | he
    · rw [print_tagOfTable]
      exact .table
    · obtain ⟨r, hr, he⟩ := List.mem_flatMap.mp he
      rw [RoutedCall.edits_eq] at he
      simp only [List.mem_cons, List.not_mem_nil, or_false] at he
      rcases he with rfl | rfl
      · exact .callee hr
      · exact .firstArg hr

/-- An edit of a document imports the internal module or routes a workflow service. -/
theorem edit_of_document {m : Model} {e : Edit} (he : e ∈ (documentEdits m d).1) :
    e = importEdit m d (internalAlias m d) ∨ ∃ s ∈ servicesOf d,
      m.isWorkflowService d.id s = true ∧ RoutesService m d (internalAlias m d) s e := by
  rw [documentEdits_eq] at he
  rcases List.mem_append.mp he with he | he
  · obtain ⟨routing, hrouting, he⟩ := List.mem_flatMap.mp he
    obtain ⟨s, hs, hroute⟩ := List.mem_filterMap.mp hrouting
    obtain ⟨hworkflow, -, hedits⟩ := edits_of_routeService hroute
    exact .inr ⟨s, hs, hworkflow, hedits e he⟩
  · split at he
    · exact absurd he List.not_mem_nil
    · exact .inl (List.mem_singleton.mp he)

theorem insertion_or_replacesCallee {m : Model} {e : Edit} (he : e ∈ (documentEdits m d).1) :
    e.span.start = e.span.stop ∨ ReplacesCallee m d e := by
  rcases edit_of_document he with rfl | ⟨s, hs, hworkflow, hroutes⟩
  · unfold importEdit
    cases d.tree.imports.getLast? <;> exact .inl rfl
  · cases hroutes with
    | table | firstArg => exact .inl rfl
    | callee hr => exact .inr ⟨s, hs, hworkflow, _, hr, by rw [RoutedCall.head_eq]⟩

/-- A document that names no activity has no edits. -/
theorem documentEdits_of_unchanged {m : Model} (h : (routeDocument m d).changed = false) :
    (documentEdits m d).1 = [] := by
  simp only [routeDocument, Bool.not_eq_false', List.isEmpty_iff, documentEdits_eq] at h
  have hnames := List.flatMap_eq_nil_iff.mp (distinct_eq_nil h)
  have hnone : (servicesOf d).filterMap (routeService? m d (internalAlias m d)) = [] := by
    rw [List.eq_nil_iff_forall_not_mem]
    intro routing hmem
    obtain ⟨s, hs, hroute⟩ := List.mem_filterMap.mp hmem
    exact (edits_of_routeService hroute).2.1 (List.map_eq_nil_iff.mp (hnames routing hmem))
  rw [documentEdits_eq, hnone]
  rfl

theorem text_of_unchanged {m : Model} (h : (routeDocument m d).changed = false) :
    (routeDocument m d).text = d.source.text := by
  rw [String.ext_iff]
  change (Edit.applyAll d.source.text (documentEdits m d).1).toList = d.source.text.toList
  rw [documentEdits_of_unchanged h]
  exact String.toList_ofList

/-- **A routed text keeps its layout.**  It is the source with patches made on it that are clear of
each other; a patch either replaces the reference of one routed call or only puts something in; no
newline is taken away or put in, so every kept piece, and every kept character, stays on its line;
and a text that is not said to be changed is not. -/
theorem routed_layout {p : Package} (hp : p.IsRead) (hd : d ∈ p.documents) :
    let m := Model.build p {}
    let source := d.source.text
    let routed := routeDocument m d
    ∃ ps tail,
      source.toList = Patch.before ps ++ tail ∧ routed.text.toList = Patch.after ps ++ tail ∧
      (Patch.edits 0 ps).Perm (documentEdits m d).1 ∧
      (Patch.edits 0 ps).Pairwise Edit.Clear ∧
      (∀ e ∈ Patch.edits 0 ps, e.span.start = e.span.stop ∨ ReplacesCallee m d e) ∧
      Patch.KeepsLines ps ∧
      (∀ qs rs, ps = qs ++ rs → (Patch.after qs).count '\n' = (Patch.before qs).count '\n') ∧
      (∀ x c y, source.toList = x ++ c :: y →
        (∀ e ∈ Patch.edits 0 ps, ¬ (e.span.start ≤ byteLength x ∧ byteLength x < e.span.stop)) →
        ∃ x' y', routed.text.toList = x' ++ c :: y' ∧ x'.count '\n' = x.count '\n') ∧
      routed.text.toList.count '\n' = source.toList.count '\n' ∧
      (routed.changed = false → routed.text = source) := by
  intro m source routed
  obtain ⟨n, hstack⟩ := stacked_document hp hd
  obtain ⟨ps, tail, hbefore, hafter, hperm⟩ :=
    Edit.applyAll_eq (fun e he => (hstack.steady e he).fits) hstack.clear
  have hafter : routed.text.toList = Patch.after ps ++ tail := hafter
  have hlines : Patch.KeepsLines ps :=
    Edit.keepsLines_of_steady [] hbefore fun e he => hstack.steady e (hperm.mem_iff.mp he)
  refine ⟨ps, tail, hbefore, hafter, hperm, (hstack.perm hperm).clear,
    fun e he => insertion_or_replacesCallee (hperm.mem_iff.mp he), hlines, ?_, ?_, ?_, ?_⟩
  · rintro qs rs rfl
    exact Patch.count_newline fun q hq => hlines q (List.mem_append_left rs hq)
  · intro x c y hsplit hkept
    rw [hafter]
    refine hlines.keeps_line 0 (hbefore ▸ hsplit) fun e he => ?_
    rw [Nat.zero_add]
    exact hkept e he
  · rw [hafter, show source.toList = _ from hbefore, List.count_append, List.count_append,
      Patch.count_newline hlines]
  · exact text_of_unchanged

/-- The call of the activity in a workflow service is routed, on the line it stands on. -/
theorem routed_layout_of_call : ∃ p d, p.IsRead ∧ d ∈ p.documents ∧
    (routeDocument (Model.build p {}) d).changed = true ∧
    (routeDocument (Model.build p {}) d).text.toList.count '\n'
      = d.source.text.toList.count '\n' := by
  let text := "import ballerina/workflow as w;\n@w:Activity function f() \x7b\x7d\n" ++
    "service on new w:Listener() \x7b function execute() \x7b () x =\n f(); \x7d \x7d"
  have hcheck : (match Package.ofSources "acme" "orders" [⟨"main.wf", text⟩] with
      | .ok p => p.documents.any fun d => (routeDocument (Model.build p {}) d).changed
      | .error _ => false) = true := by decide +kernel
  split at hcheck
  · next p hp =>
    obtain ⟨d, hd, hchanged⟩ := List.any_eq_true.mp hcheck
    have hread := Package.isRead_of_ofSources hp
    obtain ⟨_, _, -, -, -, -, -, -, -, -, hcount, -⟩ := routed_layout hread hd
    exact ⟨p, d, hread, hd, hchanged, hcount⟩
  · exact absurd hcheck (by simp)

end Routing

end Durable
