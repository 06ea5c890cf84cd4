/-
Packages that do not import the framework.

A role comes from an annotation and a workflow service from its listener.  An annotation is read
through its prefix; a listener may be reached through other listeners, variables and aliases of
types, across documents and in circles.  Every step of every way resolves a name by its prefix,
and the only prefix that leads to an item of the public module is that of an import which names
it.  Where there is no such import no way gets there, whatever the prefixes, the modules and the
types of the package are called, and an import of the internal module makes no difference.
-/
import Durable.Check
import Durable.Proofs.Package.Sources

namespace Durable

/-- An import names the public module of the framework. -/
def Import.NamesFramework (o : Options) (i : Import) : Prop :=
  i.org.map (·.name) = some o.frameworkOrg ∧ i.moduleName = o.frameworkModule

instance (o : Options) (i : Import) : Decidable (i.NamesFramework o) :=
  inferInstanceAs (Decidable (i.org.map (·.name) = some o.frameworkOrg ∧ _))

/-- No document of a package imports the public module of the framework. -/
def Package.LacksFramework (p : Package) (o : Options) : Prop :=
  ∀ d ∈ p.documents, ∀ i ∈ d.tree.imports, ¬ i.NamesFramework o

instance (p : Package) (o : Options) : Decidable (p.LacksFramework o) :=
  inferInstanceAs (Decidable (∀ d ∈ p.documents, ∀ i ∈ d.tree.imports, ¬ i.NamesFramework o))

/-- What only the public module of the framework declares. -/
def FrameworkItem.isPublic : FrameworkItem → Bool
  | process | activity | signal | query | context | listener => true
  | invokeActivity | activities | other => false

@[simp] theorem FrameworkItem.isPublic_ofInternal (name : String) :
    (ofInternal name).isPublic = false := by
  unfold ofInternal
  split <;> rfl

theorem importTarget_eq_framework {p : Package} {o : Options} {i : Import}
    (h : importTarget p o i = .framework) : i.NamesFramework o := by
  unfold importTarget at h
  dsimp only at h
  split at h
  · assumption
  · split at h
    · simp at h
    · -- What is left is a module of the package or one outside it.
      split at h <;> simp at h

theorem Package.document?_mem {p : Package} {doc : DocId} {d : Document}
    (h : p.document? doc = some d) : d ∈ p.documents := by
  obtain ⟨m, hm, hd⟩ := Option.bind_eq_some_iff.mp h
  exact List.mem_flatMap.mpr ⟨m, List.mem_of_getElem? hm, List.mem_of_getElem? hd⟩

namespace Model

variable {p : Package} {o : Options} {doc : DocId} {item : FrameworkItem}

/-! ### Names -/

theorem import?_ne_framework (h : p.LacksFramework o) (doc : DocId) (via : String) :
    (build p o).import? doc via ≠ some .framework := by
  intro himport
  unfold import? at himport
  split at himport
  · next d hd =>
    obtain ⟨i, hi, htarget⟩ := Option.map_eq_some_iff.mp himport
    have hmem : i ∈ d.tree.imports := List.mem_reverse.mp (List.mem_of_find?_eq_some hi)
    exact h d (Package.document?_mem hd) i hmem (importTarget_eq_framework htarget)
  · simp at himport

theorem isPublic_of_frameworkTag? (h : p.LacksFramework o) {r : NameRef}
    (htag : (build p o).frameworkTag? doc r = some item) : item.isPublic = false := by
  obtain ⟨via, -, htag⟩ := Option.bind_eq_some_iff.mp htag
  obtain ⟨target, htarget, htag⟩ := Option.bind_eq_some_iff.mp htag
  cases target with
  | framework => exact absurd htarget (import?_ne_framework h doc via.name)
  | internal =>
    obtain rfl := Option.some.inj htag
    exact FrameworkItem.isPublic_ofInternal _
  | module | external => simp at htag

theorem isPublic_of_resolveType (h : p.LacksFramework o) {r : NameRef}
    (htype : (build p o).resolveType doc r = .framework item) : item.isPublic = false := by
  have hlocal : ∀ index, (build p o).typeIn index r.name.name ≠ .framework item := by
    intro index
    unfold typeIn
    split
    · split <;> simp
    · simp
  unfold resolveType at htype
  split at htype
  · exact absurd htype (hlocal _)
  · next via _ =>
    split at htype
    · exact absurd htype (hlocal _)
    · next hvia => exact absurd hvia (import?_ne_framework h doc via.name)
    · obtain rfl := TypeTarget.framework.inj htype
      exact FrameworkItem.isPublic_ofInternal _
    · simp at htype
    · simp at htype

/-! ### Roles -/

/-- No annotation gives a role. -/
theorem role_eq_unmarked (h : p.LacksFramework o) (doc : DocId) (as : List Annotation) :
    (build p o).role doc as = .unmarked := by
  have hnone : as.findSome? (fun a => ((build p o).frameworkTag? doc a.name).bind roleOfItem?)
      = none := by
    refine List.findSome?_eq_none_iff.mpr fun a _ => ?_
    cases htag : (build p o).frameworkTag? doc a.name with
    | none => rfl
    | some item =>
      have hitem := isPublic_of_frameworkTag? h htag
      cases item <;> first | rfl | simp [FrameworkItem.isPublic] at hitem
  rw [role, hnone]
  rfl

theorem activity?_eq_none (h : p.LacksFramework o) (doc : DocId) (r : NameRef) :
    (build p o).activity? doc r = none := by
  simp [activity?, role_eq_unmarked h]

/-! ### Workflow services -/

/-- No type denotes an item of the public module, however long the chain of its aliases is. -/
theorem denotes_eq_false (h : p.LacksFramework o) (hitem : item.isPublic = true) (depth : Nat)
    (doc : DocId) (t : TypeDesc) : (build p o).denotes item depth doc t = false := by
  induction depth generalizing doc t with
  | zero => rfl
  | succ depth ih =>
    unfold denotes
    split
    · exact ih _ _
    · split
      · next found hfound =>
        have hinternal := isPublic_of_resolveType h hfound
        refine beq_eq_false_iff_ne.mpr fun heq => ?_
        rw [heq, hitem] at hinternal
        contradiction
      · exact ih _ _
      · rfl
      · rfl
    · rfl

/-- No expression gives the framework's listener, whatever it is that its name leads to. -/
theorem givesListener_eq_false (h : p.LacksFramework o) (depth : Nat) (doc : DocId) (e : Expr) :
    (build p o).givesListener depth doc e = false := by
  have htype : ∀ doc t, (build p o).isFrameworkType doc .listener t = false :=
    fun doc t => denotes_eq_false h rfl _ doc t
  induction depth generalizing doc e with
  | zero => rfl
  | succ depth ih =>
    unfold givesListener
    split
    · exact ih _ _
    · exact ih _ _
    · exact htype _ _
    · split
      · split
        · next d _ => cases d.type <;> simp [htype, ih]
        · rfl
      · split
        · next v _ => cases v.init <;> simp [htype, ih]
        · rfl
      · rfl
    · rfl

theorem isWorkflowService_eq_false (h : p.LacksFramework o) (doc : DocId) (s : Service) :
    (build p o).isWorkflowService doc s = false := by
  simp [isWorkflowService, givesListener_eq_false h]

/-! ### The package as a whole -/

theorem memberFindings_eq_nil (h : p.LacksFramework o) (doc : DocId) (x : Member) :
    Check.memberFindings (build p o) doc x = [] := by
  cases x with
  | function f => simp [Check.memberFindings, Check.functionFindings, role_eq_unmarked h]
  | service s => simp [Check.memberFindings, isWorkflowService_eq_false h]
  | _ => rfl

theorem documentEdits_eq_nil (h : p.LacksFramework o) (d : Document) :
    Routing.documentEdits (build p o) d = ([], []) := by
  simp [Routing.documentEdits, Routing.routeService?, isWorkflowService_eq_false h]

/-- **A package that does not import the framework has nothing to do with workflows.**  No
annotation in it gives a role, no reference in it is to an activity and no service in it is a
workflow service; nothing is found wrong with it, and routing leaves every document as it is. -/
theorem lacksFramework_inert (h : p.LacksFramework o) :
    (∀ doc as, (build p o).role doc as = .unmarked) ∧
    (∀ doc r, (build p o).activity? doc r = none) ∧
    (∀ doc s, (build p o).isWorkflowService doc s = false) ∧
    Check.analyze p o = [] ∧
    Routing.routePackage (build p o) =
      p.documents.map fun d => ⟨d.path, false, [], d.source.text⟩ := by
  refine ⟨role_eq_unmarked h, activity?_eq_none h, isWorkflowService_eq_false h, ?_, ?_⟩
  · have hdocuments : p.documents.flatMap (Check.documentDiagnostics (build p o)) = [] := by
      refine List.flatMap_eq_nil_iff.mpr fun d _ => ?_
      simp [Check.documentDiagnostics, memberFindings_eq_nil h]
    exact congrArg Diagnostics.sorted hdocuments
  · refine List.map_congr_left fun d _ => ?_
    simp [Routing.routeDocument, documentEdits_eq_nil h, Text.Edit.applyAll, sortBy]

/-- A package that takes the framework's names for its own: a module called `workflow` under the
prefix `workflow`, the internal module under another, a type called `Listener` that is an alias
of itself, and listeners that lead to each other. -/
def lookalikes : List Source :=
  [⟨"main.wf", "import orders.workflow;\n"
      ++ "import ballerina/workflow.internal as w;\n"
      ++ "import other/workflow as x;\n"
      ++ "listener a = b;\n"
      ++ "listener workflow:Listener b = a;\n"
      ++ "@workflow:Activity @w:Activity @x:Activity function f() returns int \x7b return 1; \x7d\n"
      ++ "service on a, new workflow:Listener(), new w:Listener(), new x:Listener() \x7b "
      ++ "remote function execute() \x7b int d = f(); \x7d \x7d\n"⟩,
    ⟨"modules/workflow/m.wf", "type Listener Loop;\ntype Loop Listener;\n"⟩]

/-- Nothing in it is taken for the framework's. -/
theorem lookalikes_inert : ∃ p : Package, p.IsRead ∧ p.LacksFramework {} ∧
    (p.documents.any fun d => !(Routing.servicesOf d).isEmpty) = true ∧ Check.analyze p {} = [] := by
  obtain ⟨p, hp, hcheck⟩ := Package.exists_of_any (show ((Package.ofSources "acme" "orders"
      lookalikes).toOption.any fun p => decide (p.LacksFramework {}) &&
        p.documents.any fun d => !(Routing.servicesOf d).isEmpty) = true by decide +kernel)
  obtain ⟨hlacks, hservices⟩ := Bool.and_eq_true_iff.mp hcheck
  have hlacks := of_decide_eq_true hlacks
  exact ⟨p, hp, hlacks, hservices, (lacksFramework_inert hlacks).2.2.2.1⟩

end Model

end Durable
