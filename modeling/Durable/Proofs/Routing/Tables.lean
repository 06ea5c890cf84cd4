/-
The tables of activities.

A service whose calls are routed is annotated with a table: for every name that its calls hand over,
the function that is called.  The table is made from the calls by how they are written, while which
activity a call is of was decided by what its reference denotes, and a local variable can hide the
function from some references of a service and not from others.  Still the table is right.  A call is
routed only if its reference denotes a function, and then that is what it denotes at module scope;
two references that are written alike have the same prefix and the same name, and at module scope
nothing else counts.  So one entry serves all calls of its name.
-/
import Durable.Proofs.Order
import Durable.Proofs.Routing.Imports

namespace Durable.Routing

open Text (Edit)

variable {p : Package} {o : Options} {m : Model} {d : Document} {s : Service} {via : String}

/-! ### The calls, the table and the edits of a service -/

/-- The calls of a service that are routed: none unless it is a workflow service. -/
def callsOf (m : Model) (d : Document) (s : Service) : List RoutedCall :=
  if m.isWorkflowService d.id s then routedCalls m d.id d.source s else []

/-- The activities that the calls of a service are of, by name. -/
def tableOf (m : Model) (d : Document) (s : Service) : List (String × NameRef) :=
  activityTable (callsOf m d s)

/-- The edits made on a service: none if no call is routed, and otherwise one annotation and the
edits of its calls. -/
def editsOf (m : Model) (d : Document) (via : String) (s : Service) : List Edit :=
  if callsOf m d s = [] then []
  else .insertion s.span.start (tableText via (tableOf m d s) ++ " ")
    :: (callsOf m d s).flatMap (·.edits via)

/-- A table lists the activities of some calls: it has their names, each once, in the order in which
the calls first hand them over, and the reference of an entry denotes at module scope the activity
that every call of its name is of. -/
structure Lists (m : Model) (doc : DocId) (table : List (String × NameRef))
    (calls : List RoutedCall) : Prop where
  names : FirstOccurrences (calls.map (·.name)) (table.map (·.1))
  denotes : ∀ entry ∈ table, ∃ found, m.resolveGlobal doc entry.2 = .function found.1 ∧
    ∀ c ∈ calls, c.name = entry.1 → m.activity? doc c.callee = some found

/-- Edits write a table and the calls it is made from into a service: nothing if there are no calls.
Otherwise an annotation is put in where the service starts, whose value maps the names of the table,
in order, to their references; and for every call the dispatch function takes the place of the
reference, and the name is put in, as a literal, in front of the arguments. -/
inductive Writes (via : String) (s : Service) (table : List (String × NameRef))
    (calls : List RoutedCall) : List Edit → Prop
  | idle (none : calls = []) : Writes via s table calls []
  | routed (some : calls ≠ []) {tag : Annotation} (name : tag.name.asWritten = via ++ ":Activities")
      (value : tag.value = .some (.mapping
        (table.map fun entry => .string entry.1 .synthetic (.name entry.2)) .synthetic)) :
      Writes via s table calls
        (.insertion s.span.start (tag.print ++ " ") :: calls.flatMap fun c =>
          [⟨c.callee.span, "<" ++ c.returns.print ++ ">" ++ via ++ ":invokeActivity"⟩,
            .insertion c.argsStart (Text.quote c.name ++ if c.hasArgs then ", " else "")])

/-! ### Tables as they are made -/

theorem names_activityTable (calls : List RoutedCall) :
    (activityTable calls).map (·.1) = distinct (calls.map (·.name)) := by
  induction calls with
  | nil => rfl
  | cons c cs ih =>
    rw [activityTable, List.map_cons, List.map_cons, distinct, ← ih, List.filter_map]
    rfl

/-- An entry is made from one of the calls. -/
theorem exists_call_of_mem {calls : List RoutedCall} {entry : String × NameRef}
    (h : entry ∈ activityTable calls) : ∃ c ∈ calls, c.name = entry.1 ∧
      entry.2 = .synthetic (c.callee.via.map (·.name)) c.callee.name.name := by
  induction calls with
  | nil => exact absurd h List.not_mem_nil
  | cons c cs ih =>
    rcases List.mem_cons.mp h with rfl | h
    · exact ⟨c, List.mem_cons_self, rfl, rfl⟩
    · obtain ⟨c', hc', hentry⟩ := ih (List.mem_filter.mp h).1
      exact ⟨c', List.mem_cons_of_mem c hc', hentry⟩

/-! ### What the entries denote -/

/-- A call that is routed is of an activity, and its reference denotes that at module scope. -/
theorem exists_activity {c : RoutedCall} (hp : p.IsRead) (hd : d ∈ p.documents)
    (hs : s ∈ servicesOf d) (hc : c ∈ callsOf (.build p o) d s) :
    c.callee.Plain ∧ ∃ found, (Model.build p o).activity? d.id c.callee = some found ∧
      (Model.build p o).resolveGlobal d.id c.callee = .function found.1 := by
  unfold callsOf at hc
  split at hc
  · obtain ⟨hmem, hplain⟩ := callee_of_routedCalls hp hd (mem_servicesOf.mp hs) hc
    rw [routedCalls_eq] at hc
    obtain ⟨e, -, hcall⟩ := List.mem_filterMap.mp hc
    obtain ⟨_, _, item, activity, -, hfound, -⟩ := routedCall?_eq_some hcall
    have hsymbol := Model.symbol_of_activity? hfound
    exact ⟨hplain, _, hfound, Model.resolveGlobal_of_symbol hp hd hmem hsymbol⟩
  · exact absurd hc List.not_mem_nil

/-- Calls of one name are of one activity. -/
theorem activity?_eq_of_name_eq {c c' : RoutedCall} (hp : p.IsRead) (hd : d ∈ p.documents)
    (hs : s ∈ servicesOf d) (hc : c ∈ callsOf (.build p o) d s)
    (hc' : c' ∈ callsOf (.build p o) d s) (hname : c'.name = c.name) :
    (Model.build p o).activity? d.id c'.callee = (Model.build p o).activity? d.id c.callee := by
  obtain ⟨hplain, found, hfound, hglobal⟩ := exists_activity hp hd hs hc
  obtain ⟨hplain', found', hfound', hglobal'⟩ := exists_activity hp hd hs hc'
  obtain ⟨hvia, hbase⟩ := NameRef.eq_of_asWritten_eq hplain' hplain hname
  have halike : (Model.build p o).resolveGlobal d.id c'.callee
      = (Model.build p o).resolveGlobal d.id c.callee :=
    (Model.Agree.refl _ _ _).resolveGlobal_eq hvia hbase
  apply Model.activity?_eq_of_symbol
  calc (Model.build p o).symbol d.id c'.callee
    _ = .function found'.1 := Model.symbol_of_activity? hfound'
    _ = .function found.1 := by rw [← hglobal', halike, hglobal]
    _ = (Model.build p o).symbol d.id c.callee := (Model.symbol_of_activity? hfound).symm

/-- The table of a service lists the activities of its calls. -/
theorem lists_tableOf (hp : p.IsRead) (hd : d ∈ p.documents) (hs : s ∈ servicesOf d) :
    Lists (.build p o) d.id (tableOf (.build p o) d s) (callsOf (.build p o) d s) := by
  refine ⟨?_, fun entry hentry => ?_⟩
  · rw [tableOf, names_activityTable]
    exact firstOccurrences_distinct _
  · obtain ⟨c, hc, hname, href⟩ := exists_call_of_mem hentry
    obtain ⟨-, found, hfound, hglobal⟩ := exists_activity hp hd hs hc
    have halike : (Model.build p o).resolveGlobal d.id entry.2
        = (Model.build p o).resolveGlobal d.id c.callee := by
      rw [href]
      refine (Model.Agree.refl _ _ _).resolveGlobal_eq ?_ rfl
      cases c.callee.via <;> rfl
    refine ⟨found, halike.trans hglobal, fun c' hc' hname' => ?_⟩
    rw [activity?_eq_of_name_eq hp hd hs hc hc' (hname'.trans hname.symm), hfound]

/-- What denotes a function at module scope still does among the imports of the routed document, if
these take no prefix from another. -/
theorem resolveGlobal_importsModel (hd : p.document? d.id = some d) (hkeeps : KeepsTargets p o d)
    {r : NameRef} {item : Item} (h : (Model.build p o).resolveGlobal d.id r = .function item) :
    (importsModel p o d).resolveGlobal d.id r = .function item := by
  have halike : r.LeadsAlike (.build p o) (importsModel p o d) d.id := by
    intro q hq
    -- The prefix of a reference to a function is one that the document imports.
    cases htarget : (Model.build p o).import? d.id q.name with
    | none => simp [Model.resolveGlobal, hq, htarget] at h
    | some target =>
      have hlisted : Model.targetIn p o d.tree.imports q.name = some target := by
        simpa [Model.import?, Model.build, hd] using htarget
      obtain ⟨i, hi, -⟩ := Option.map_eq_some_iff.mp hlisted
      have hbound : i.boundName = q.name := by simpa using List.find?_some hi
      have hmem : i ∈ d.tree.imports := List.mem_reverse.mp (List.mem_of_find?_eq_some hi)
      rw [← htarget, ← hbound]
      exact hkeeps i hmem
  exact halike.resolveGlobal_eq.trans h

/-! ### What is written -/

theorem writes_editsOf (m : Model) (d : Document) (via : String) (s : Service) :
    Writes via s (tableOf m d s) (callsOf m d s) (editsOf m d via s) := by
  unfold editsOf
  split
  · next hnone => exact .idle hnone
  · next hsome =>
    have hname : (tagOfTable via (tableOf m d s)).name.asWritten = via ++ ":Activities" :=
      String.append_assoc
    have hcalls : (fun c : RoutedCall => c.edits via) = _ := funext fun c => c.edits_eq via
    rw [← print_tagOfTable, hcalls]
    exact .routed hsome hname rfl

/-! ### Documents -/

theorem routeService?_eq : routeService? m d via s =
    if callsOf m d s = [] then none
    else some
      { edits := editsOf m d via s
        table := tableOf m d s } := by
  ext routing
  rw [routeService?_eq_some]
  by_cases hworkflow : m.isWorkflowService d.id s = true
  · by_cases hcalls : routedCalls m d.id d.source s = []
    · simp [callsOf, hworkflow, hcalls]
    · simp only [callsOf, editsOf, tableOf, hworkflow, hcalls, if_true, if_false, print_tagOfTable,
        Option.some.injEq, ne_eq, not_false_eq_true, true_and]
      exact eq_comm
  · simp [callsOf, hworkflow]

/-- A service whose calls are not routed adds nothing to the edits or the names of its document. -/
theorem flatMap_routeService? (via : String) (ss : List Service) :
    (ss.filterMap (routeService? m d via)).flatMap (·.edits) = ss.flatMap (editsOf m d via) ∧
    ((ss.filterMap (routeService? m d via)).flatMap fun r => r.table.map (·.1))
      = ss.flatMap fun s => (tableOf m d s).map (·.1) := by
  induction ss with
  | nil => exact ⟨rfl, rfl⟩
  | cons s ss ih =>
    obtain ⟨hedits, hnames⟩ := ih
    rw [List.filterMap_cons, routeService?_eq]
    by_cases hcalls : callsOf m d s = []
    · simp [hcalls, hedits, hnames, editsOf, tableOf, activityTable]
    · simp [hcalls, hedits, hnames]

theorem activities_eq : (routeDocument m d).activities =
    distinct ((servicesOf d).flatMap fun s => (tableOf m d s).map (·.1)) := by
  rw [← (flatMap_routeService? (internalAlias m d) (servicesOf d)).2]
  show (documentEdits m d).2 = _
  rw [documentEdits_eq]

theorem exists_documentEdits_eq : ∃ added, (documentEdits m d).1 =
      (servicesOf d).flatMap (editsOf m d (internalAlias m d)) ++ added ∧
    ∀ e ∈ added, e = importEdit m d (internalAlias m d) := by
  rw [← (flatMap_routeService? _ (servicesOf d)).1, documentEdits_eq]
  refine ⟨_, rfl, fun e he => ?_⟩
  split at he
  · exact absurd he List.not_mem_nil
  · exact List.mem_singleton.mp he

/-- **The tables of a document match its calls.**  The table of a service lists the activities of
the calls that are routed in it.  It is written into the annotation of the service, entry by entry,
and each of its names into the calls that it is of; a service without such calls is not annotated,
and nothing else is written but the import of the internal module.  The names that the document
reports are those of the tables, each once, in the order of the tables.  What the entries denote
they denote in the routed document too, if its imports keep their targets. -/
theorem tables_match_calls (hp : p.IsRead) (hd : d ∈ p.documents) :
    let m := Model.build p o
    let via := internalAlias m d
    (∀ s ∈ servicesOf d, Lists m d.id (tableOf m d s) (callsOf m d s)) ∧
    (∀ s ∈ servicesOf d, Writes via s (tableOf m d s) (callsOf m d s) (editsOf m d via s)) ∧
    (∃ added, (documentEdits m d).1 = (servicesOf d).flatMap (editsOf m d via) ++ added ∧
      ∀ e ∈ added, e = importEdit m d via) ∧
    FirstOccurrences ((servicesOf d).flatMap fun s => (tableOf m d s).map (·.1))
      (routeDocument m d).activities ∧
    (KeepsTargets p o d → ∀ s ∈ servicesOf d, ∀ entry ∈ tableOf m d s,
      (importsModel p o d).resolveGlobal d.id entry.2 = m.resolveGlobal d.id entry.2) := by
  intro m via
  refine ⟨fun s hs => lists_tableOf hp hd hs, fun s _ => writes_editsOf m d via s,
    exists_documentEdits_eq, ?_, ?_⟩
  · rw [activities_eq]
    exact firstOccurrences_distinct _
  · intro hkeeps s hs entry hentry
    obtain ⟨found, hglobal, -⟩ := (lists_tableOf hp hd hs).denotes entry hentry
    rw [hglobal]
    exact resolveGlobal_importsModel (hp.document_eq hd).1 hkeeps hglobal

/-- A workflow that calls two activities in turn, until a variable hides one of them. -/
def callsInTurn : Source where
  path := "main.wf"
  text := "import ballerina/workflow as w;"
    ++ "@w:Activity function f()\x7b\x7d @w:Activity function g()\x7b\x7d "
    ++ "service on new w:Listener()\x7bfunction h()\x7b()a=g();()f=f();()b=g();()c=f();\x7d\x7d"

/-- The last call of the workflow is of the variable; the other three share two entries. -/
theorem tables_match_callsInTurn : ∃ p d s, p.IsRead ∧ d ∈ p.documents ∧ s ∈ servicesOf d ∧
    (callsOf (.build p {}) d s).map (·.name) = ["g", "f", "g"] ∧
    (tableOf (.build p {}) d s).map (·.1) = ["g", "f"] ∧
    (routeDocument (.build p {}) d).activities = ["g", "f"] ∧
    Writes "workflow_internal" s (tableOf (.build p {}) d s) (callsOf (.build p {}) d s)
      (editsOf (.build p {}) d "workflow_internal" s) ∧
    ∀ entry ∈ tableOf (.build p {}) d s, ∃ found,
      (Model.build p {}).resolveGlobal d.id entry.2 = .function found.1 ∧
      ∀ c ∈ callsOf (.build p {}) d s, c.name = entry.1 →
        (Model.build p {}).activity? d.id c.callee = some found := by
  obtain ⟨p, hp, hcheck⟩ := Package.exists_of_any (show ((Package.ofSources "acme" "orders"
      [callsInTurn]).toOption.any fun p => p.documents.any fun d => (servicesOf d).any fun s =>
        (callsOf (.build p {}) d s).map (·.name) == ["g", "f", "g"] &&
          (tableOf (.build p {}) d s).map (·.1) == ["g", "f"] &&
          internalAlias (.build p {}) d == "workflow_internal" &&
          (routeDocument (.build p {}) d).activities == ["g", "f"]) = true by decide +kernel)
  obtain ⟨d, hd, hcheck⟩ := List.any_eq_true.mp hcheck
  obtain ⟨s, hs, hcheck⟩ := List.any_eq_true.mp hcheck
  simp only [Bool.and_eq_true, beq_iff_eq] at hcheck
  obtain ⟨⟨⟨hcalls, htable⟩, hvia⟩, hactivities⟩ := hcheck
  obtain ⟨hlists, hwrites, -⟩ := tables_match_calls hp hd
  rw [hvia] at hwrites
  exact ⟨p, d, s, hp, hd, hs, hcalls, htable, hactivities, hwrites s hs, (hlists s hs).denotes⟩

end Durable.Routing
