/-
What the judgement of types and annotations depends on.

A type is judged by the definitions its names lead to, and an annotation by what its prefix stands
for.  Names lead through the imports and the types of the documents of a package; its functions,
variables and services play no part, nor does the place of anything.  `Package.declared` is what is
left of a package then.  Packages in which that is the same judge the same types alike, so what is
found by such a judgement at one place does not depend on what else stands in the package.
-/
import Mathlib.Data.List.Basic
import Durable.Model.Types
import Durable.Proofs.Tree.Erase

namespace Durable

/-! ### What is left of a package -/

/-- The definition of a type, if the member is one. -/
def Member.typeDef? : Member → Option TypeDef
  | type d => some d
  | _ => none

/-- The imports and the types of a document, without their places. -/
def Document.declared (d : Document) : DocId × List Import × List TypeDef :=
  (d.id, d.tree.imports.map Import.erase,
    (d.tree.members.filterMap Member.typeDef?).map TypeDef.erase)

/-- The imports and the types of the documents of a module. -/
def PackageModule.declared (m : PackageModule) :
    ModuleName × List (DocId × List Import × List TypeDef) :=
  (m.id, m.documents.map Document.declared)

/-- The imports and the types of the documents of a package, module by module. -/
def Package.declared (p : Package) :
    String × List (ModuleName × List (DocId × List Import × List TypeDef)) :=
  (p.org, p.modules.map PackageModule.declared)

/-- What a type denotes, without places. -/
def TypeTarget.erase : TypeTarget → TypeTarget
  | defined doc d => defined doc d.erase
  | t => t

/-- The types of a module, with the documents that declare them. -/
def PackageModule.types (m : PackageModule) : List (DocId × TypeDef) :=
  m.documents.flatMap fun d => (d.tree.members.filterMap Member.typeDef?).map (d.id, ·)

/-! ### Imports -/

@[simp] theorem Import.moduleName_erase (i : Import) : i.erase.moduleName = i.moduleName := by
  simp [Import.erase, Import.moduleName, Function.comp_def]

@[simp] theorem Import.boundName_erase (i : Import) : i.erase.boundName = i.boundName := by
  obtain ⟨org, path, rename, span⟩ := i
  cases rename <;> simp [Import.erase, Import.boundName, Function.comp_def]

@[simp] theorem importTarget_erase (p : Package) (o : Options) (i : Import) :
    importTarget p o i.erase = importTarget p o i := by
  simp only [importTarget, Import.moduleName_erase]
  simp [Import.erase, Function.comp_def]

theorem Model.targetIn_erase (p : Package) (o : Options) (imports : List Import) (via : String) :
    targetIn p o (imports.map Import.erase) via = targetIn p o imports via := by
  simp [targetIn, ← List.map_reverse, List.find?_map, Function.comp_def]

section

variable {p p' : Package} {o : Options}

theorem importTarget_congr (h : p.declared = p'.declared) (i : Import) :
    importTarget p o i = importTarget p' o i := by
  obtain ⟨horg, hmodules⟩ := Prod.mk.inj h
  have hfind : ∀ q : Package, q.modules.findIdx? (·.id.name == i.moduleName) =
      (q.modules.map PackageModule.declared).findIdx? (·.1.name == i.moduleName) := by
    intro q
    rw [List.findIdx?_map]
    rfl
  simp only [importTarget, horg, hfind, hmodules]

theorem declared_document? (h : p.declared = p'.declared) (doc : DocId) :
    (p.document? doc).map Document.declared = (p'.document? doc).map Document.declared := by
  have hlookup : ∀ q : Package, (q.document? doc).map Document.declared =
      ((q.modules.map PackageModule.declared)[doc.module]?).bind (·.2[doc.document]?) := by
    intro q
    simp only [Package.document?, List.getElem?_map, Option.bind_eq_bind]
    cases q.modules[doc.module]? with
    | none => rfl
    | some m => simp [PackageModule.declared]
  rw [hlookup, hlookup, (Prod.mk.inj h).2]

namespace Model

/-- What a prefix stands for depends on the imports. -/
theorem import?_congr (h : p.declared = p'.declared) (doc : DocId) (via : String) :
    (build p o).import? doc via = (build p' o).import? doc via := by
  have hdocument := declared_document? h doc
  simp only [import?, build]
  cases hd : p.document? doc with
  | none =>
    cases hd' : p'.document? doc with
    | none => rfl
    | some d' => simp [hd, hd'] at hdocument
  | some d =>
    cases hd' : p'.document? doc with
    | none => simp [hd, hd'] at hdocument
    | some d' =>
      have himports : d.tree.imports.map Import.erase = d'.tree.imports.map Import.erase := by
        simp only [hd, hd', Option.map_some, Option.some.injEq] at hdocument
        exact (Prod.mk.inj (Prod.mk.inj hdocument).2).1
      simp only
      rw [← targetIn_erase, himports, targetIn_erase, targetIn, targetIn]
      exact congrArg (Option.map · _) (funext (importTarget_congr h))

/-! ### Types -/

end Model

theorem Document.types_items (d : Document) :
    (d.items.filterMap fun x => x.2.typeDef?.map (x.1.doc, ·)) =
      (d.tree.members.filterMap Member.typeDef?).map (d.id, ·) := by
  have hmembers := List.zipIdx_map_fst 0 d.tree.members
  rw [Document.items, List.mapIdx_eq_zipIdx_map, List.filterMap_map, List.map_filterMap]
  conv_rhs => rw [← hmembers, List.filterMap_map]
  rfl

theorem PackageModule.types_eq (m : PackageModule) :
    m.types = m.items.filterMap fun x => x.2.typeDef?.map (x.1.doc, ·) := by
  rw [types, items, List.filterMap_flatMap]
  exact List.flatMap_congr fun d _ => d.types_items.symm

namespace Model

/-- The last type of a module that goes by a name. -/
theorem typeIn_eq (m : Model) (module : Nat) (name : String) : m.typeIn module name =
    ((m.package.modules[module]?).bind fun pm =>
      pm.types.reverse.find? (·.2.name.name == name)).elim .unresolved fun x => .defined x.1 x.2 := by
  rw [typeIn]
  cases m.package.modules[module]? with
  | none => rfl
  | some pm =>
    have htest : (fun x : Item × Member => x.2.typeName? == some name) = fun x =>
        (x.2.typeDef?.map (x.1.doc, ·)).any (·.2.name.name == name) := by
      funext ⟨item, x⟩
      cases x <;> rfl
    simp only [Option.bind_some]
    rw [pm.types_eq, ← List.filterMap_reverse, List.find?_filterMap, ← htest,
      PackageModule.lastNamed?]
    cases pm.items.reverse.find? fun x => x.2.typeName? == some name with
    | none => rfl
    | some x =>
      obtain ⟨item, x⟩ := x
      cases x <;> rfl

theorem typeIn_congr (h : p.declared = p'.declared) (module : Nat) (name : String) :
    ((build p o).typeIn module name).erase = ((build p' o).typeIn module name).erase := by
  have hlookup : ∀ q : Package, ((build q o).typeIn module name).erase =
      (((q.modules.map PackageModule.declared)[module]?).bind fun pm =>
        (pm.2.flatMap fun d => d.2.2.map (d.1, ·)).reverse.find? (·.2.name.name == name)).elim
          .unresolved fun x => .defined x.1 x.2 := by
    intro q
    rw [typeIn_eq, List.getElem?_map, build]
    cases q.modules[module]? with
    | none => rfl
    | some pm =>
      have htypes : ((PackageModule.declared pm).2.flatMap fun d => d.2.2.map (d.1, ·)) =
          pm.types.map fun x => (x.1, x.2.erase) := by
        simp [PackageModule.declared, PackageModule.types, Document.declared, List.flatMap_map,
          List.map_flatMap, Function.comp_def]
      simp only [Option.bind_some, Option.map_some]
      rw [htypes, ← List.map_reverse, List.find?_map]
      have htest : ((fun x : DocId × TypeDef => x.2.name.name == name) ∘
          fun x : DocId × TypeDef => (x.1, x.2.erase)) = fun x => x.2.name.name == name := rfl
      rw [htest]
      cases pm.types.reverse.find? fun x => x.2.name.name == name <;> rfl
  rw [hlookup, hlookup, (Prod.mk.inj h).2]

/-- What the name of a type denotes depends on the imports and the types. -/
theorem resolveType_congr (h : p.declared = p'.declared) (doc : DocId) (r : NameRef) :
    ((build p o).resolveType doc r).erase = ((build p' o).resolveType doc r).erase := by
  unfold resolveType
  cases r.via with
  | none => exact typeIn_congr h _ _
  | some via =>
    simp only [import?_congr h]
    cases (build p' o).import? doc via.name with
    | none => rfl
    | some target =>
      cases target with
      | module index => exact typeIn_congr h _ _
      | _ => rfl

end Model

end

/-! ### Types at other places -/

namespace Model

variable {m m' : Model} {doc : DocId} {a : Admitted} {t t' : TypeDesc}

theorem resolveType_erase (m : Model) (doc : DocId) (r : NameRef) :
    m.resolveType doc r.erase = m.resolveType doc r := by
  obtain ⟨via, name, span⟩ := r
  cases via <;> rfl

/-- A type is judged without a look at its places. -/
theorem fits_erase (m : Model) (depth : Nat) (doc : DocId) (a : Admitted) (t : TypeDesc) :
    m.fits depth doc a t.erase = m.fits depth doc a t := by
  induction depth generalizing doc a t with
  | zero => rfl
  | succ depth ih =>
    cases t with
    | named r => simp only [TypeDesc.erase, fits, resolveType_erase]
    | singleton v s => cases v <;> rfl
    | paren t s | optional t s | array t s | map t s => simp only [TypeDesc.erase, fits, ih]
    | union ts s | intersection ts s => simp [fits, Function.comp_def, ih]
    | record closed fields rest s =>
      have hfield : ∀ f : RecordField, f.erase.type = f.type.erase := fun f => by cases f; rfl
      simp [fits, Function.comp_def, hfield, ih, Option.all_map]
    | _ => rfl

theorem fits_named (m : Model) (depth : Nat) (doc : DocId) (a : Admitted) (r : NameRef) :
    m.fits (depth + 1) doc a (.named r) =
      match (m.resolveType doc r).erase with
      | .defined doc d => m.fits depth doc a d.type
      | .framework _ => false
      | .external | .unresolved => true := by
  rw [fits]
  cases m.resolveType doc r with
  | defined doc d => exact (m.fits_erase depth doc a d.type).symm
  | _ => rfl

/-- A type is judged by what its names denote. -/
theorem fits_of_alike
    (h : ∀ doc r, (m.resolveType doc r).erase = (m'.resolveType doc r).erase) (depth : Nat) :
    m.fits depth = m'.fits depth := by
  induction depth with
  | zero => rfl
  | succ depth ih =>
    funext doc a t
    cases t with
    | named r => rw [fits_named, fits_named, h, ih]
    | singleton v s => cases v <;> rfl
    | _ => simp only [fits, ih]

/-! ### Packages that declare the same -/

section

variable {p p' : Package} {o : Options}

/-- **In packages with the same imports and types the same types stay within what is admitted**,
wherever they stand. -/
theorem isWithin_congr (h : p.declared = p'.declared) (ht : t.erase = t'.erase) :
    (build p o).isWithin doc a t = (build p' o).isWithin doc a t' := by
  have hfits := fits_of_alike (m := build p o) (resolveType_congr h) (typeDepth + 1)
  rw [isWithin, isWithin, hfits, ← fits_erase, ht, fits_erase]

/-- The same types, one by one. -/
theorem map_isWithin_congr (h : p.declared = p'.declared) {ts ts' : List TypeDesc}
    (hts : ts.map TypeDesc.erase = ts'.map TypeDesc.erase) :
    ts.map ((build p o).isWithin doc a) = ts'.map ((build p' o).isWithin doc a) := by
  induction ts generalizing ts' with
  | nil => rw [List.map_eq_nil_iff.mp hts.symm, List.map_nil, List.map_nil]
  | cons t ts ih =>
    obtain ⟨t', ts', rfl, ht, hts⟩ := List.map_eq_cons_iff.mp hts.symm
    rw [List.map_cons, List.map_cons, isWithin_congr h ht.symm, ih hts.symm]

theorem frameworkTag?_congr (h : p.declared = p'.declared) (r : NameRef) :
    (build p o).frameworkTag? doc r = (build p' o).frameworkTag? doc r := by
  unfold frameworkTag?
  simp only [import?_congr h]

theorem role_erase (m : Model) (doc : DocId) (as : List Annotation) :
    m.role doc (as.map Annotation.erase) = m.role doc as := by
  have htag : ∀ x : Annotation, m.frameworkTag? doc x.erase.name = m.frameworkTag? doc x.name := by
    rintro ⟨⟨via, name, span⟩, value, span'⟩
    cases via <;> rfl
  simp only [role, List.findSome?_map, Function.comp_def, htag]

/-- In packages with the same imports annotations give the same role, wherever they stand. -/
theorem role_congr (h : p.declared = p'.declared) {as as' : List Annotation}
    (has : as.map Annotation.erase = as'.map Annotation.erase) :
    (build p o).role doc as = (build p' o).role doc as' := by
  have hrole : (build p o).role doc as = (build p' o).role doc as := by
    simp only [role, frameworkTag?_congr h]
  rw [hrole, ← role_erase, has, role_erase]

end

end Model

end Durable
