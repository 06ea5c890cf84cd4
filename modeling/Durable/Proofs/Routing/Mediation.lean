/-
Which activity calls go through the engine.

A check looks at every call in the body of a process and reports each that names an activity, so
where it reports no error there is none.  In a workflow service it reports no call at all.  There
the calls that initialise a local variable are routed, and these are exactly the calls that are:
every one of them has a parenthesis behind its reference for the activity's name to be put in.  A
call that stands in another expression of a service, or in a statement that declares nothing,
stays a plain call, and no finding says so.
-/
import Durable.Check
import Durable.Proofs.Routing.Layout

namespace Durable

open Text

/-! ### Calls in a tree -/

namespace Routing

/-- The reference by which an expression calls an activity, if it is such a call. -/
def activityCallee? (m : Model) (doc : DocId) : Expr → Option NameRef
  | .call callee _ _ => if (m.activity? doc callee).isSome then some callee else none
  | _ => none

/-- The references by which activities are called in an outline, wherever the calls stand. -/
def activityCalls (m : Model) (doc : DocId) (o : Outline) : List NameRef :=
  o.nodes.filterMap fun
    | .expr e => activityCallee? m doc e
    | _ => none

/-- The references by which activities are called to initialise the local variables of an outline,
in reading order. -/
def initialCalls (m : Model) (doc : DocId) (o : Outline) : List NameRef :=
  (initsOf [o]).filterMap (activityCallee? m doc)

theorem activityCallee?_eq_some {m : Model} {doc : DocId} {e : Expr} {r : NameRef} :
    activityCallee? m doc e = some r ↔
      (∃ as span, e = .call r as span) ∧ (m.activity? doc r).isSome = true := by
  cases e with
  | call callee as span =>
    simp only [activityCallee?]
    constructor
    · intro h
      split at h
      · next hactivity =>
        obtain rfl := Option.some.inj h
        exact ⟨⟨as, span, rfl⟩, hactivity⟩
      · simp at h
    · rintro ⟨⟨as, span, heq⟩, hactivity⟩
      obtain ⟨rfl, rfl, rfl⟩ := Expr.call.inj heq
      exact if_pos hactivity
  | _ => simp [activityCallee?]

theorem mem_activityCalls {m : Model} {doc : DocId} {o : Outline} {r : NameRef} :
    r ∈ activityCalls m doc o ↔
      (∃ as span, .expr (.call r as span) ∈ o.nodes) ∧ (m.activity? doc r).isSome = true := by
  unfold activityCalls
  rw [List.mem_filterMap]
  constructor
  · rintro ⟨n, hn, hr⟩
    cases n <;> simp only [reduceCtorEq] at hr
    obtain ⟨⟨as, span, rfl⟩, hactivity⟩ := activityCallee?_eq_some.mp hr
    exact ⟨⟨as, span, hn⟩, hactivity⟩
  · rintro ⟨⟨as, span, hn⟩, hactivity⟩
    exact ⟨_, hn, activityCallee?_eq_some.mpr ⟨⟨as, span, rfl⟩, hactivity⟩⟩

end Routing

/-! ### Processes -/

namespace Check

variable {p : Package} {o : Options} {d : Document}

/-- A check without errors has found nothing that is an error in any member. -/
theorem severity_of_clean (hclean : (check p o).isClean = true) (hd : d ∈ p.documents)
    {x : Member} (hx : x ∈ d.tree.members) {f : Finding}
    (hf : f ∈ memberFindings (Model.build p o) d.id x) : f.violation.severity ≠ .error := by
  have hnone : (diagnostics (Model.build p o)).hasErrors = false := by
    simpa [Outcome.isClean, check] using hclean
  intro herror
  have hmem : Diagnostic.ofFinding d.source f ∈ diagnostics (Model.build p o) := by
    refine (sortBy_perm _).mem_iff.mpr (List.mem_flatMap.mpr ⟨d, hd, ?_⟩)
    exact List.mem_map.mpr ⟨f, List.mem_flatMap.mpr ⟨x, hx, hf⟩, rfl⟩
  have hany := List.any_eq_false.mp hnone _ hmem
  exact hany (by simpa [Diagnostic.severity, Diagnostic.ofFinding] using herror)

/-- Where nothing is an error, a process calls no activity directly. -/
theorem activityCalls_process (hclean : (check p o).isClean = true) (hd : d ∈ p.documents)
    {f : Function} (hf : .function f ∈ d.tree.members)
    (hrole : (Model.build p o).role d.id f.annotations = .process) :
    Routing.activityCalls (Model.build p o) d.id f.body.outline = [] := by
  rw [List.eq_nil_iff_forall_not_mem]
  intro r hr
  obtain ⟨⟨as, span, hn⟩, hactivity⟩ := Routing.mem_activityCalls.mp hr
  have hdirect : ⟨.directCall r.asWritten, r.span⟩ ∈ Rule.directCalls (Model.build p o) d.id f :=
    List.mem_flatMap.mpr ⟨_, hn, by simp [Rule.directNode, hactivity]⟩
  have hfinding : ⟨.directCall r.asWritten, r.span⟩ ∈
      memberFindings (Model.build p o) d.id (.function f) := by
    simp only [memberFindings, functionFindings, hrole, List.mem_append]
    exact .inr hdirect
  exact severity_of_clean hclean hd hf hfinding rfl

end Check

/-! ### Workflow services -/

/-- The initial values in a service are those in the bodies of its methods. -/
theorem Service.initsOf_eq (s : Service) :
    initsOf [s.outline] = s.methods.flatMap fun f => initsOf [f.body.outline] := by
  have hmembers : ∀ ms : List ServiceMember, initsOf (ms.flatMap ServiceMember.outlines) =
      { s with members := ms : Service }.methods.flatMap fun f => initsOf [f.body.outline] := by
    intro ms
    induction ms with
    | nil => rfl
    | cons x ms ih =>
      cases x with
      | method f =>
        simp [Service.methods, ServiceMember.outlines, Function.outline, initsOf_params, Node.init?]
          at ih ⊢
        exact ih
      | field v =>
        simp [Service.methods, ServiceMember.outlines, VarDecl.parts, TypeDesc.outline, Node.init?]
          at ih ⊢
        exact ih
  simpa [Service.outline, initsOf_exprs, Node.init?] using hmembers s.members

namespace Routing

variable {m : Model} {d : Document} {doc : DocId} {source : Source} {s : Service}
  {c c' : Cursor} {e : Expr}

theorem mem_servicesOf : s ∈ servicesOf d ↔ .service s ∈ d.tree.members := by
  rw [servicesOf_eq, List.mem_filterMap]
  constructor
  · rintro ⟨x, hx, hservice⟩
    cases x <;> simp only [Member.service?, reduceCtorEq, Option.some.injEq] at hservice
    exact hservice ▸ hx
  · exact fun h => ⟨_, h, rfl⟩

/-- Where a parenthesis follows, one is found. -/
theorem isSome_behindParenthesis? {a rest : List Char} (hsource : source.text.toList = a ++ rest)
    (h : '(' ∈ rest) : (behindParenthesis? source (byteLength a)).isSome = true := by
  unfold behindParenthesis?
  rw [hsource, splitAtByte_append]
  simp [h]

/-- A parenthesis follows the reference of every call that is read. -/
theorem isSome_behindCallee {r : NameRef} {as : List Arg} {span : Span}
    (hc : c.StandsIn source.text.toList) (hread : Reads .expr c (.call r as span) c') :
    (behindParenthesis? source r.span.stop).isSome = true := by
  obtain ⟨c₁, hcallee, hopen, -⟩ := hread.exists_callee rfl
  obtain ⟨a, b, rest, hcs, hspan, -, -, -, hpassed⟩ := hcallee.piece hc
  obtain ⟨front, t, rest', hcs', hfront, hstarts, hkind, -⟩ :=
    (hc.reaches hcallee.reaches).token (by simp [hopen])
  have htext : t.text = ['('] := by
    rw [hopen] at hkind
    exact Spells.text_of_mark (hkind ▸ hstarts.spells)
  have hcut : (a ++ b) ++ rest = front ++ (t.blank ++ t.text ++ rest') := by
    rw [← hcs, hcs']
    simp
  obtain ⟨-, rfl⟩ := append_inj_of_byteLength hcut (hpassed.symm.trans hfront)
  rw [hspan, ← byteLength_append]
  exact isSome_behindParenthesis? hcs (by simp [htext])

/-- A value that is read is routed exactly if it is a call of an activity. -/
theorem callee_routedCall? (hc : c.StandsIn source.text.toList) (hread : Reads .expr c e c') :
    (routedCall? m doc source e).map (·.callee) = activityCallee? m doc e := by
  cases e with
  | call r as span =>
    obtain ⟨n, hn⟩ := Option.isSome_iff_exists.mp (isSome_behindCallee hc hread)
    cases hactivity : m.activity? doc r <;>
      simp [routedCall?, activityCallee?, hactivity, hn]
  | _ => rfl

/-- Of values that are read the calls of activities are routed. -/
theorem callees_of_meets {es : List Expr} (hc : c.StandsIn source.text.toList)
    (h : Meets ReadsInitValue c es c') :
    (es.filterMap (routedCall? m doc source)).map (·.callee)
      = es.filterMap (activityCallee? m doc) := by
  rw [List.map_filterMap]
  refine List.filterMap_congr fun e he => ?_
  obtain ⟨c₁, c₂, hr, ⟨-, hread⟩, -⟩ := h.of_mem (fun _ _ _ => ReadsInitValue.reaches) he
  exact callee_routedCall? (hc.reaches hr).advance hread

/-- The calls of a service that are routed are the activity calls that initialise the local variables
of its methods. -/
theorem callees_routedCalls {p : Package} (hp : p.IsRead) (hd : d ∈ p.documents)
    (hs : .service s ∈ d.tree.members) :
    (routedCalls m doc d.source s).map (·.callee) =
      s.methods.flatMap fun f => initialCalls m doc f.body.outline := by
  obtain ⟨c, c', hc, hread⟩ := exists_readsMember (hp.document_eq hd).2 hs
  cases hread with
  | mk annotations modifiers decl =>
    cases decl with
    | service decl =>
      have hat := ((hc.reaches annotations.reaches).reaches modifiers.reaches).advance
      rw [routedCalls_eq, callees_of_meets hat decl.meets, s.initsOf_eq, List.filterMap_flatMap]
      rfl

/-- The edits of every routed call of a workflow service are made on its document. -/
theorem edits_subset_documentEdits (hs : .service s ∈ d.tree.members)
    (hworkflow : m.isWorkflowService d.id s = true) {r : RoutedCall}
    (hr : r ∈ routedCalls m d.id d.source s) :
    r.edits (internalAlias m d) ⊆ (documentEdits m d).1 := by
  intro e he
  have hroute : routeService? m d (internalAlias m d) s = some _ :=
    routeService?_eq_some.mpr ⟨hworkflow, List.ne_nil_of_mem hr, rfl⟩
  have hmem := List.mem_filterMap.mpr ⟨s, mem_servicesOf.mpr hs, hroute⟩
  rw [documentEdits_eq]
  refine List.mem_append_left _ (List.mem_flatMap.mpr ⟨_, hmem, ?_⟩)
  exact List.mem_cons_of_mem _ (List.mem_flatMap.mpr ⟨r, hr, he⟩)

/-! ### Packages without errors -/

/-- **In a package without errors activities are called through the engine wherever they initialise a
variable of a workflow service, and nowhere in a process directly.**  The routed calls of a service
are, in reading order, the activity calls among the initial values of its methods; each is made by
the dispatch function, which is put in the place of the reference together with the type that the
activity returns, and is given the name of the activity. -/
theorem activityCalls_mediated {p : Package} {o : Options} (hp : p.IsRead)
    (hclean : (Check.check p o).isClean = true) (hd : d ∈ p.documents) :
    let m := Model.build p o
    (∀ f, .function f ∈ d.tree.members → m.role d.id f.annotations = .process →
      activityCalls m d.id f.body.outline = []) ∧
    (∀ s, .service s ∈ d.tree.members → m.isWorkflowService d.id s = true →
      (routedCalls m d.id d.source s).map (·.callee) =
          s.methods.flatMap (fun f => initialCalls m d.id f.body.outline) ∧
      ∀ r ∈ routedCalls m d.id d.source s,
        (∃ item activity, m.activity? d.id r.callee = some (item, activity) ∧
          r.returns = returnTypeAt r.callee activity) ∧
        [⟨r.callee.span, "<" ++ r.returns.print ++ ">" ++ internalAlias m d ++ ":invokeActivity"⟩,
          .insertion r.argsStart (quote r.callee.asWritten ++ if r.hasArgs then ", " else "")]
            ⊆ (documentEdits m d).1) ∧
    (Check.check p o).routed = some (routePackage m) := by
  intro m
  refine ⟨fun f hf hrole => Check.activityCalls_process hclean hd hf hrole,
    fun s hs hworkflow => ⟨callees_routedCalls hp hd hs, fun r hr => ⟨?_, ?_⟩⟩, ?_⟩
  · rw [routedCalls_eq] at hr
    obtain ⟨e, -, hcall⟩ := List.mem_filterMap.mp hr
    obtain ⟨_, _, item, activity, -, hactivity, hreturns, -⟩ := routedCall?_eq_some hcall
    exact ⟨item, activity, hactivity, hreturns⟩
  · rw [← RoutedCall.edits_eq]
    exact edits_subset_documentEdits hs hworkflow hr
  · have hnone : (Check.diagnostics m).hasErrors = false := by
      simpa [Check.Outcome.isClean, Check.check] using hclean
    simp [Check.check, m, hnone]

/-- A workflow that calls its activity twice, the second time inside an expression. -/
def callsTwice : Source where
  path := "main.wf"
  text := "import ballerina/workflow as w;\n"
    ++ "@w:Activity function f() returns int \x7b return 1; \x7d\n"
    ++ "service on new w:Listener() \x7b isolated remote function execute() returns error? \x7b "
    ++ "int x = f(); int y = 1 + f(); \x7d \x7d\n"

/-- The workflow has no errors, and of its two calls the first is routed and the second is not. -/
theorem callsTwice_routed : ∃ p d s f r, p.IsRead ∧ (Check.check p {}).isClean = true ∧
    d ∈ p.documents ∧ .service s ∈ d.tree.members ∧
    (Model.build p {}).isWorkflowService d.id s = true ∧ f ∈ s.methods ∧
    (routedCalls (Model.build p {}) d.id d.source s).length = 1 ∧
    r ∈ activityCalls (Model.build p {}) d.id f.body.outline ∧
    r ∉ (routedCalls (Model.build p {}) d.id d.source s).map (·.callee) := by
  have hcheck : ((Package.ofSources "acme" "orders" [callsTwice]).toOption.any fun p =>
      (Check.check p {}).isClean && p.documents.any fun d => (servicesOf d).any fun s =>
        (Model.build p {}).isWorkflowService d.id s && s.methods.any fun f =>
          let routed := (routedCalls (Model.build p {}) d.id d.source s).map (·.callee)
          routed.length == 1
            && (activityCalls (Model.build p {}) d.id f.body.outline).any fun r =>
              routed.all (·.span != r.span)) = true := by decide +kernel
  obtain ⟨p, hread, hcheck⟩ := Package.exists_of_any hcheck
  obtain ⟨hclean, hdocs⟩ := Bool.and_eq_true_iff.mp hcheck
  obtain ⟨d, hd, hservices⟩ := List.any_eq_true.mp hdocs
  obtain ⟨s, hs, hservice⟩ := List.any_eq_true.mp hservices
  obtain ⟨hworkflow, hmethods⟩ := Bool.and_eq_true_iff.mp hservice
  obtain ⟨f, hf, hcalls⟩ := List.any_eq_true.mp hmethods
  obtain ⟨hone, hcalls⟩ := Bool.and_eq_true_iff.mp hcalls
  obtain ⟨r, hr, hother⟩ := List.any_eq_true.mp hcalls
  refine ⟨p, d, s, f, r, hread, hclean, hd, mem_servicesOf.mp hs, hworkflow, hf,
    by simpa using hone, hr, fun hrouted => ?_⟩
  exact absurd (List.all_eq_true.mp hother r hrouted) (by simp)

/-- The first call of the workflow is routed because it initialises a variable. -/
theorem activityCalls_mediated_of_callsTwice : ∃ p d s, p.IsRead ∧
    (Check.check p {}).isClean = true ∧ d ∈ p.documents ∧ .service s ∈ d.tree.members ∧
    (Model.build p {}).isWorkflowService d.id s = true ∧
    (s.methods.flatMap fun f => initialCalls (Model.build p {}) d.id f.body.outline).length = 1 := by
  obtain ⟨p, d, s, f, r, hread, hclean, hd, hs, hworkflow, -, hone, -⟩ := callsTwice_routed
  have hcallees := ((activityCalls_mediated hread hclean hd).2.1 s hs hworkflow).1
  exact ⟨p, d, s, hread, hclean, hd, hs, hworkflow, by rw [← hcallees, List.length_map, hone]⟩

/-- The second call of the workflow is neither an error nor routed. -/
theorem not_all_activityCalls_mediated : ¬ ∀ (p : Package) (o : Options), p.IsRead →
    (Check.check p o).isClean = true → ∀ d ∈ p.documents, ∀ s, .service s ∈ d.tree.members →
    (Model.build p o).isWorkflowService d.id s = true → ∀ f ∈ s.methods,
    ∀ r ∈ activityCalls (Model.build p o) d.id f.body.outline,
      r ∈ (routedCalls (Model.build p o) d.id d.source s).map (·.callee) := by
  intro hall
  obtain ⟨p, d, s, f, r, hread, hclean, hd, hs, hworkflow, hf, -, hr, hother⟩ := callsTwice_routed
  exact hother (hall p {} hread hclean d hd s hs hworkflow f hf r hr)

end Routing

end Durable
