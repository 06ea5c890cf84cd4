/-
The import that a routed document gains.

A prefix stands for the last import under it, so an import behind the others takes its prefix from
the import that had it and leaves every other prefix alone.  What a document's names denote
depends on its imports only through the prefixes the names have; where these lead where they
led, every reference, type and annotation does too.
-/
import Durable.Check
import Durable.Proofs.Routing.Names

namespace Durable

/-! ### Other imports -/

/-- A document with other imports. -/
def Document.withImports (d : Document) (imports : List Import) : Document :=
  { d with tree := { d.tree with imports } }

/-- A package whose document at a place has other imports. -/
def Package.withImports (p : Package) (doc : DocId) (imports : List Import) : Package :=
  { p with modules := p.modules.map fun m => { m with documents := m.documents.map fun d =>
      if d.id = doc then (d.withImports imports) else d } }

section

variable {p : Package} {o : Options} {doc : DocId} {imports : List Import}

theorem Package.document?_withImports (id : DocId) :
    (p.withImports doc imports).document? id =
      (p.document? id).map fun d => if d.id = doc then d.withImports imports else d := by
  simp only [document?, withImports, List.getElem?_map, Option.bind_eq_bind]
  cases p.modules[id.module]? <;> simp

theorem Package.documents_withImports :
    (p.withImports doc imports).documents =
      p.documents.map fun d => if d.id = doc then d.withImports imports else d := by
  simp [documents, withImports, List.map_flatMap, List.flatMap_map]

theorem PackageModule.items_map (m : PackageModule) {f : Document → Document}
    (h : ∀ d, (f d).items = d.items) :
    items { m with documents := m.documents.map f } = m.items := by
  simp [items, List.flatMap_map, h]

theorem Document.items_withImports (d : Document) :
    (if d.id = doc then d.withImports imports else d).items = d.items := by
  split <;> rfl

theorem importTarget_withImports :
    importTarget (p.withImports doc imports) o = importTarget p o := by
  funext i
  simp [importTarget, Package.withImports, List.findIdx?_map, Function.comp_def]

/-- A module declares nothing for its parts. -/
theorem Outline.referencesOfParts_module (m m' : Module) (scope : List String) (os : List Outline) :
    referencesOfParts (.module m) scope os = referencesOfParts (.module m') scope os := by
  induction os with
  | nil => rfl
  | cons o os ih => simpa [referencesOfParts, Node.bindsBehind] using ih

theorem Document.references_withImports (d : Document) :
    (if d.id = doc then d.withImports imports else d).tree.outline.references []
      = d.tree.outline.references [] := by
  split
  · simp only [Document.withImports, Module.outline, Outline.references]
    rw [Outline.referencesOfParts_module]
    rfl
  · rfl

namespace Model

theorem valueIn_withImports (module : Nat) (name : String) :
    (build (p.withImports doc imports) o).valueIn module name
      = (build p o).valueIn module name := by
  simp only [valueIn, build, Package.withImports, List.getElem?_map]
  cases p.modules[module]? with
  | none => rfl
  | some m =>
    simp only [Option.map_some, PackageModule.lastNamed?]
    rw [m.items_map fun d => d.items_withImports]

theorem typeIn_withImports (module : Nat) (name : String) :
    (build (p.withImports doc imports) o).typeIn module name = (build p o).typeIn module name := by
  simp only [typeIn, build, Package.withImports, List.getElem?_map]
  cases p.modules[module]? with
  | none => rfl
  | some m =>
    simp only [Option.map_some, PackageModule.lastNamed?]
    rw [m.items_map fun d => d.items_withImports]

/-- A document that is not the one with other imports reads its prefixes as it did. -/
theorem import?_withImports_of_ne {id : DocId} {d : Document} (hd : p.document? id = some d)
    (hne : d.id ≠ doc) (via : String) :
    (build (p.withImports doc imports) o).import? id via = (build p o).import? id via := by
  simp only [import?, build, Package.document?_withImports, hd, Option.map_some, if_neg hne,
    targetIn, importTarget_withImports]

theorem import?_withImports {d : Document} (hd : p.document? d.id = some d) (via : String) :
    (build (p.withImports d.id imports) o).import? d.id via = targetIn p o imports via := by
  simp only [import?, build, Package.document?_withImports, hd, Option.map_some, if_true,
    Document.withImports, targetIn, importTarget_withImports]

end Model

/-! ### References under prefixes that lead where they led -/

/-- The prefix of a reference, if it has one, leads in one model where it leads in the other. -/
def NameRef.LeadsAlike (r : NameRef) (m m' : Model) (doc : DocId) : Prop :=
  ∀ via, r.via = some via → m'.import? doc via.name = m.import? doc via.name

namespace NameRef.LeadsAlike

variable {id : DocId} {r : NameRef}

theorem resolveGlobal_eq
    (h : r.LeadsAlike (.build p o) (.build (p.withImports doc imports) o) id) :
    (Model.build (p.withImports doc imports) o).resolveGlobal id r
      = (Model.build p o).resolveGlobal id r := by
  obtain ⟨via, name, span⟩ := r
  cases via with
  | none => exact Model.valueIn_withImports _ _
  | some via => simp only [Model.resolveGlobal, h via rfl, Model.valueIn_withImports]

theorem resolveType_eq
    (h : r.LeadsAlike (.build p o) (.build (p.withImports doc imports) o) id) :
    (Model.build (p.withImports doc imports) o).resolveType id r
      = (Model.build p o).resolveType id r := by
  obtain ⟨via, name, span⟩ := r
  cases via with
  | none => exact Model.typeIn_withImports _ _
  | some via => simp only [Model.resolveType, h via rfl, Model.typeIn_withImports]

theorem frameworkTag?_eq
    (h : r.LeadsAlike (.build p o) (.build (p.withImports doc imports) o) id) :
    (Model.build (p.withImports doc imports) o).frameworkTag? id r
      = (Model.build p o).frameworkTag? id r := by
  obtain ⟨via, name, span⟩ := r
  cases via with
  | none => rfl
  | some via => simp only [Model.frameworkTag?, Option.bind_eq_bind, Option.bind_some, h via rfl]

end NameRef.LeadsAlike

namespace Model

/-- The references of a package, each with its document and whether it is to a local name. -/
def references (p : Package) : List (DocId × NameRef × Bool) :=
  p.documents.flatMap fun d => (d.tree.outline.references []).map fun (r, isLocal) =>
    (d.id, r, isLocal)

/-- What the table of a model says of a reference. -/
def entry (m : Model) : DocId × NameRef × Bool → (DocId × Span) × Symbol
  | (doc, r, isLocal) => ((doc, r.span), if isLocal then .localName else m.resolveGlobal doc r)

theorem symbols_build : (build p o).symbols = (references p).reverse.map (build p o).entry := by
  simp only [build, references, List.map_reverse, List.map_flatMap, List.map_map]
  rfl

theorem references_withImports : references (p.withImports doc imports) = references p := by
  simp only [references, Package.documents_withImports, List.flatMap_map]
  refine List.flatMap_congr fun d _ => ?_
  have hid : (if d.id = doc then d.withImports imports else d).id = d.id := by split <;> rfl
  rw [d.references_withImports, hid]

/-- A reference of a document denotes what it did if its prefix leads where it led: the table has
one entry for its place. -/
theorem symbol_withImports (hp : p.IsRead) {d : Document} (hd : d ∈ p.documents) {r : NameRef}
    (hr : r ∈ refsOf [d.tree.outline])
    (h : r.LeadsAlike (build p o) (build (p.withImports doc imports) o) d.id) :
    (build (p.withImports doc imports) o).symbol d.id r = (build p o).symbol d.id r := by
  have hfind : ∀ m : Model, (((references p).reverse.map m.entry).find? (·.1 == (d.id, r.span)))
      = ((references p).reverse.find? fun x => (x.1, x.2.1.span) == (d.id, r.span)).map m.entry :=
    fun m => List.find?_map
  rw [symbol, symbol, symbols_build, symbols_build, references_withImports, hfind, hfind]
  cases hentry : (references p).reverse.find? fun x => (x.1, x.2.1.span) == (d.id, r.span) with
  | none => exact h.resolveGlobal_eq
  | some x =>
    obtain ⟨id, r', isLocal⟩ := x
    obtain ⟨rfl, hspan⟩ : id = d.id ∧ r'.span = r.span := by simpa using List.find?_some hentry
    have hmem := List.mem_reverse.mp (List.mem_of_find?_eq_some hentry)
    obtain ⟨d', hd', hmem⟩ := List.mem_flatMap.mp hmem
    obtain ⟨⟨r'', b⟩, href, heq⟩ := List.mem_map.mp hmem
    obtain ⟨hid, rfl, rfl⟩ : d'.id = d.id ∧ r'' = r' ∧ b = isLocal := by simpa using heq
    obtain rfl := hp.eq_of_id_eq hd' hd hid
    obtain rfl : r'' = r := List.inj_on_of_nodup_map (places_nodup (hp.document_eq hd).2)
      (Outline.mem_refsOf_of_references _ _ href) hr hspan
    simp only [Option.map_some, entry, h.resolveGlobal_eq]

end Model

end

/-! ### The import of the internal module -/

section

variable (p : Package) (o : Options) (via : String)

theorem moduleName_importOfInternal : (o.importOfInternal via).moduleName = o.internalModule := by
  have hparts : (o.importOfInternal via).moduleName.toList = o.internalModule.toList := by
    simp only [Options.importOfInternal, Import.moduleName, String.toList_intercalate,
      List.map_map, Function.comp_def, String.toList_ofList, List.map_id']
    exact List.intercalate_splitOn '.'
  exact String.toList_inj.mp hparts

theorem importTarget_importOfInternal (h : o.internalModule ≠ o.frameworkModule) :
    importTarget p o (o.importOfInternal via) = .internal := by
  have horg : (o.importOfInternal via).org.map (·.name) = some o.frameworkOrg := rfl
  simp only [importTarget, moduleName_importOfInternal, horg, h, and_false, if_false, true_and,
    if_true]

/-- The last import counts. -/
theorem Model.targetIn_append (imports : List Import) (i : Import) :
    targetIn p o (imports ++ [i]) via =
      if i.boundName = via then some (importTarget p o i) else targetIn p o imports via := by
  by_cases h : i.boundName = via <;> simp [targetIn, h]

end

namespace Routing

variable {p : Package} {o : Options} {d : Document}

/-- The imports of a document once it is routed: if it has calls to route and does not import the
internal module, that import comes behind the others. -/
def importsRouted (m : Model) (d : Document) : List Import :=
  if (routeDocument m d).changed && !m.imports d.id .internal then
    d.tree.imports ++ [m.options.importOfInternal (internalAlias m d)]
  else d.tree.imports

/-- The model of a package in which a document has the imports of its routing. -/
def importsModel (p : Package) (o : Options) (d : Document) : Model :=
  .build (p.withImports d.id (importsRouted (.build p o) d)) o

/-- Every prefix that a document imports stands for what it stood for. -/
def KeepsTargets (p : Package) (o : Options) (d : Document) : Prop :=
  ∀ i ∈ d.tree.imports,
    (importsModel p o d).import? d.id i.boundName = (Model.build p o).import? d.id i.boundName

theorem imports_iff (hd : p.document? d.id = some d) (target : ImportTarget) :
    (Model.build p o).imports d.id target = true ↔
      ∃ i ∈ d.tree.imports, (Model.build p o).import? d.id i.boundName = some target := by
  simp only [Model.imports, Model.build, hd, List.any_eq_true, beq_iff_eq]

theorem internalAlias_of_not_imports (hd : p.document? d.id = some d)
    (h : (Model.build p o).imports d.id .internal = false) :
    internalAlias (.build p o) d = o.internalAlias := by
  have hnone : (d.tree.imports.map Import.boundName).find? (fun via =>
      (Model.build p o).import? d.id via == some .internal) = none := by
    simp only [List.find?_eq_none, List.mem_map, beq_iff_eq, forall_exists_index, and_imp]
    rintro via i hi rfl htarget
    simp [(imports_iff hd .internal).mpr ⟨i, hi, htarget⟩] at h
  rw [internalAlias, hnone]
  rfl

/-- A routed document keeps its targets exactly if the import of the internal module was there, or
takes a prefix that was free. -/
theorem keepsTargets_iff (hd : p.document? d.id = some d)
    (hmodules : o.internalModule ≠ o.frameworkModule) :
    KeepsTargets p o d ↔ ((routeDocument (.build p o) d).changed = true →
      (Model.build p o).imports d.id .internal = true ∨
        ∀ i ∈ d.tree.imports, i.boundName ≠ o.internalAlias) := by
  have hbefore : ∀ via, (Model.build p o).import? d.id via = Model.targetIn p o d.tree.imports via :=
    fun via => by simp only [Model.import?, Model.build, hd]
  have hafter : ∀ via, (importsModel p o d).import? d.id via =
      Model.targetIn p o (importsRouted (.build p o) d) via := Model.import?_withImports hd
  by_cases hadded : ((routeDocument (.build p o) d).changed &&
      !(Model.build p o).imports d.id .internal) = true
  · have hrouted : importsRouted (.build p o) d = _ := if_pos hadded
    rw [Bool.and_eq_true, Bool.not_eq_true'] at hadded
    obtain ⟨hchanged, himports⟩ := hadded
    rw [internalAlias_of_not_imports hd himports] at hrouted
    have htarget : ∀ via, (importsModel p o d).import? d.id via =
        if o.internalAlias = via then some .internal
        else (Model.build p o).import? d.id via := by
      intro via
      rw [hafter, hrouted, Model.targetIn_append, hbefore]
      exact congrArg (fun t => if o.internalAlias = via then some t else _)
        (importTarget_importOfInternal p o _ hmodules)
    simp only [hchanged, himports, KeepsTargets, htarget, forall_const, Bool.false_eq_true, false_or]
    refine ⟨fun hkeeps i hi halias => ?_, fun hfree i hi => if_neg (hfree i hi).symm⟩
    -- The prefix would have stood for the internal module, which is not imported.
    have hinternal := hkeeps i hi
    rw [if_pos halias.symm] at hinternal
    rw [(imports_iff hd .internal).mpr ⟨i, hi, hinternal.symm⟩] at himports
    contradiction
  · have hrouted : importsRouted (.build p o) d = d.tree.imports := if_neg hadded
    refine ⟨fun _ hchanged => .inl (by simpa [hchanged] using hadded), fun _ i _ => ?_⟩
    rw [hafter, hrouted, hbefore]

/-- **The import of a routed document captures no name exactly if its prefix was free**, or it was
there before.  Then what the references, types and annotations of the package denoted under the
prefixes of the document, they denote. -/
theorem importsRouted_hygienic (hp : p.IsRead) (hd : d ∈ p.documents)
    (hmodules : o.internalModule ≠ o.frameworkModule) :
    (KeepsTargets p o d ↔ ((routeDocument (.build p o) d).changed = true →
      (Model.build p o).imports d.id .internal = true ∨
        ∀ i ∈ d.tree.imports, i.boundName ≠ o.internalAlias)) ∧
    (KeepsTargets p o d → ∀ d' ∈ p.documents, ∀ r ∈ refsOf [d'.tree.outline],
      (d'.id = d.id → ∀ via, r.via = some via → ∃ i ∈ d.tree.imports, i.boundName = via.name) →
      (importsModel p o d).symbol d'.id r = (Model.build p o).symbol d'.id r ∧
      (importsModel p o d).resolveType d'.id r = (Model.build p o).resolveType d'.id r ∧
      (importsModel p o d).frameworkTag? d'.id r = (Model.build p o).frameworkTag? d'.id r) := by
  have hplace := fun {d} hd => (hp.document_eq (d := d) hd).1
  refine ⟨keepsTargets_iff (hplace hd) hmodules, fun hkeeps d' hd' r hr hbound => ?_⟩
  have halike : r.LeadsAlike (.build p o) (importsModel p o d) d'.id := by
    intro via hvia
    by_cases hid : d'.id = d.id
    · obtain ⟨i, hi, hname⟩ := hbound hid via hvia
      rw [hid, ← hname]
      exact hkeeps i hi
    · exact Model.import?_withImports_of_ne (hplace hd') hid _
  exact ⟨Model.symbol_withImports hp hd' hr halike, halike.resolveType_eq,
    halike.frameworkTag?_eq⟩

/-- The import of a module with an activity takes a free prefix. -/
theorem importsRouted_hygienic_of_callsOwn : ∃ p d, p.IsRead ∧ d ∈ p.documents ∧
    (routeDocument (.build p {}) d).changed = true ∧ KeepsTargets p {} d := by
  obtain ⟨p, hp, hcheck⟩ := Package.exists_of_any (show ((Package.ofSources "acme" "orders"
      [callsOwn "main.wf"]).toOption.any fun p => p.documents.any fun d =>
        (routeDocument (.build p {}) d).changed &&
          d.tree.imports.all (·.boundName != "workflow_internal")) = true by decide +kernel)
  obtain ⟨d, hd, hcheck⟩ := List.any_eq_true.mp hcheck
  obtain ⟨hchanged, hfree⟩ := Bool.and_eq_true_iff.mp hcheck
  refine ⟨p, d, hp, hd, hchanged, (importsRouted_hygienic hp hd (by decide)).1.mpr fun _ => ?_⟩
  exact .inr fun i hi => by simpa using List.all_eq_true.mp hfree i hi

/-- A document that imports a module of its package under the prefix of the internal module. -/
def takesPrefix : List Source :=
  [⟨"main.wf", "import ballerina/workflow as w;\n"
      ++ "import orders.m as workflow_internal;\n"
      ++ "@w:Activity function f() \x7b \x7d\n"
      ++ "function g() \x7b workflow_internal:h(); \x7d\n"
      ++ "service on new w:Listener() \x7b isolated remote function execute() returns error? \x7b "
      ++ "() x = f(); \x7d \x7d\n"⟩,
    ⟨"modules/m/m.wf", "function h() \x7b \x7d\n"⟩]

/-- The import of a routed document can take a prefix from another. -/
theorem not_all_keepsTargets : ¬ ∀ p : Package, p.IsRead → (Check.check p {}).isClean = true →
    ∀ d ∈ p.documents, (routeDocument (.build p {}) d).changed = true → KeepsTargets p {} d := by
  intro hall
  obtain ⟨p, hp, hcheck⟩ := Package.exists_of_any (show ((Package.ofSources "acme" "orders"
      takesPrefix).toOption.any fun p => (Check.check p {}).isClean && p.documents.any fun d =>
        (routeDocument (.build p {}) d).changed && !(Model.build p {}).imports d.id .internal &&
          d.tree.imports.any (·.boundName == "workflow_internal")) = true by decide +kernel)
  obtain ⟨hclean, hcheck⟩ := Bool.and_eq_true_iff.mp hcheck
  obtain ⟨d, hd, hcheck⟩ := List.any_eq_true.mp hcheck
  simp only [Bool.and_eq_true, Bool.not_eq_true', List.any_eq_true, beq_iff_eq] at hcheck
  obtain ⟨⟨hchanged, himports⟩, i, hi, hname⟩ := hcheck
  have hkeeps := hall p hp hclean d hd hchanged
  rcases (keepsTargets_iff (hp.document_eq hd).1 (by decide)).mp hkeeps hchanged with h | hfree
  · rw [himports] at h
    contradiction
  · exact hfree i hi hname

end Routing

end Durable
