/-
What the names of a package denote.

Names are resolved through the import table of the document they stand in, never by
comparing prefixes as text: a module that is imported under the prefix `workflow` is not
thereby the framework.  Where a name is declared twice, or a prefix imported twice, the
last one counts.

The model holds one table: for every reference in the package, by its place, what it
denotes.  References that were not read from the package are resolved at module scope.
-/
import Durable.Options
import Durable.Model.Symbol
import Durable.Model.Scope

namespace Durable

/-! ### Members -/

/-- The name under which a member is a value. -/
def Member.valueName? : Member → Option String
  | function d => some d.name.name
  | moduleVar d => some d.name.name
  | const d => some d.name.name
  | listener d => some d.name.name
  | service _ | type _ | annotationDecl _ => none

/-- The name under which a member is a type. -/
def Member.typeName? : Member → Option String
  | type d => some d.name.name
  | _ => none

/-- What a member denotes as a value. -/
def Member.symbol (item : Item) : Member → Symbol
  | function _ => .function item
  | moduleVar _ => .moduleVar item
  | const _ => .const item
  | listener _ => .listener item
  | service _ | type _ | annotationDecl _ => .unresolved

/-- The members of a document with their places in the package. -/
def Document.items (d : Document) : List (Item × Member) :=
  d.tree.members.mapIdx fun index m => (⟨d.id, index⟩, m)

/-- The members of a module, document by document. -/
def PackageModule.items (m : PackageModule) : List (Item × Member) :=
  m.documents.flatMap Document.items

/-- The last member of a module that goes by a name. -/
def PackageModule.lastNamed? (m : PackageModule) (nameOf : Member → Option String) (name : String) :
    Option (Item × Member) :=
  m.items.reverse.find? fun (_, d) => nameOf d == some name

namespace Package

/-- The member at a place. -/
def member? (p : Package) (item : Item) : Option Member := do
  (← p.document? item.doc).tree.members[item.index]?

/-- The function at a place. -/
def function? (p : Package) (item : Item) : Option Function :=
  match p.member? item with
  | some (.function f) => some f
  | _ => none

/-- The variable of a module at a place. -/
def moduleVar? (p : Package) (item : Item) : Option VarDecl :=
  match p.member? item with
  | some (.moduleVar v) => some v
  | _ => none

/-- The listener at a place. -/
def listener? (p : Package) (item : Item) : Option ValueDecl :=
  match p.member? item with
  | some (.listener d) => some d
  | _ => none

end Package

/-! ### Imports -/

/-- What an import stands for.  A module of the package can be imported with or without the package's
organization. -/
def importTarget (p : Package) (o : Options) (i : Import) : ImportTarget :=
  let org := i.org.map (·.name)
  let name := i.moduleName
  if org = some o.frameworkOrg ∧ name = o.frameworkModule then .framework
  else if org = some o.frameworkOrg ∧ name = o.internalModule then .internal
  else
    let own := if org = none ∨ org = some p.org then p.modules.findIdx? (·.id.name == name) else none
    match own with
    | some index => .module index
    | none => .external ⟨org.getD "", name⟩

/-- A package with what its references denote. -/
structure Model where
  package : Package
  options : Options
  /-- What the references denote, the last ones first. -/
  symbols : List ((DocId × Span) × Symbol)

namespace Model

/-- What a prefix stands for among the imports of a document. -/
def targetIn (p : Package) (o : Options) (imports : List Import) (via : String) :
    Option ImportTarget :=
  (imports.reverse.find? (·.boundName == via)).map (importTarget p o)

/-- What a prefix stands for in a document. -/
def import? (m : Model) (doc : DocId) (via : String) : Option ImportTarget :=
  match m.package.document? doc with
  | some d => targetIn m.package m.options d.tree.imports via
  | none => none

/-- Some prefix of a document stands for a target. -/
def imports (m : Model) (doc : DocId) (target : ImportTarget) : Bool :=
  match m.package.document? doc with
  | some d => d.tree.imports.any fun i => m.import? doc i.boundName == some target
  | none => false

/-! ### Resolving -/

/-- What a name denotes at the scope of a module. -/
def valueIn (m : Model) (module : Nat) (name : String) : Symbol :=
  match m.package.modules[module]? with
  | some pm =>
    match pm.lastNamed? Member.valueName? name with
    | some (item, d) => d.symbol item
    | none => .unresolved
  | none => .unresolved

/-- What a reference denotes at module scope. -/
def resolveGlobal (m : Model) (doc : DocId) (r : NameRef) : Symbol :=
  match r.via with
  | none => m.valueIn doc.module r.name.name
  | some p =>
    match m.import? doc p.name with
    | some (.module index) => m.valueIn index r.name.name
    | some .framework => .framework (.ofPublic r.name.name)
    | some .internal => .framework (.ofInternal r.name.name)
    | some (.external _) => .external
    | none => .unresolved

/-- What every reference of a document denotes, in reading order. -/
def documentSymbols (m : Model) (d : Document) : List ((DocId × Span) × Symbol) :=
  (d.tree.outline.references []).map fun (r, isLocal) =>
    ((d.id, r.span), if isLocal then .localName else m.resolveGlobal d.id r)

/-- The model of a package. -/
def build (p : Package) (o : Options) : Model :=
  let unresolved : Model := ⟨p, o, []⟩
  { unresolved with symbols := (p.documents.flatMap unresolved.documentSymbols).reverse }

/-- What a reference denotes as seen from a document. -/
def symbol (m : Model) (doc : DocId) (r : NameRef) : Symbol :=
  match m.symbols.find? (·.1 == (doc, r.span)) with
  | some (_, s) => s
  | none => m.resolveGlobal doc r

/-- The function that a reference denotes. -/
def function? (m : Model) (doc : DocId) (r : NameRef) : Option (Item × Function) :=
  match m.symbol doc r with
  | .function item => (m.package.function? item).map (item, ·)
  | _ => none

/-- What a name denotes as a type at the scope of a module. -/
def typeIn (m : Model) (module : Nat) (name : String) : TypeTarget :=
  match m.package.modules[module]? with
  | some pm =>
    match pm.lastNamed? Member.typeName? name with
    | some (item, .type d) => .defined item.doc d
    | _ => .unresolved
  | none => .unresolved

/-- What a reference to a type denotes as seen from a document. -/
def resolveType (m : Model) (doc : DocId) (r : NameRef) : TypeTarget :=
  match r.via with
  | none => m.typeIn doc.module r.name.name
  | some p =>
    match m.import? doc p.name with
    | some (.module index) => m.typeIn index r.name.name
    | some .framework => .framework (.ofPublic r.name.name)
    | some .internal => .framework (.ofInternal r.name.name)
    | some (.external _) => .external
    | none => .unresolved

/-! ### Roles -/

/-- What an annotation denotes in the framework. -/
def frameworkTag? (m : Model) (doc : DocId) (r : NameRef) : Option FrameworkItem := do
  let p ← r.via
  match ← m.import? doc p.name with
  | .framework => some (.ofPublic r.name.name)
  | .internal => some (.ofInternal r.name.name)
  | _ => none

/-- The role that an item of the framework gives to what is annotated with it. -/
def roleOfItem? : FrameworkItem → Option Role
  | .process => some .process
  | .activity => some .activity
  | .signal => some .signal
  | .query => some .query
  | _ => none

/-- The role that annotations give; the first one that gives any counts. -/
def role (m : Model) (doc : DocId) (annotations : List Annotation) : Role :=
  (annotations.findSome? fun a => (m.frameworkTag? doc a.name).bind roleOfItem?).getD .unmarked

/-- The activity that a reference denotes.  Its annotations are read in the document it is declared
in. -/
def activity? (m : Model) (doc : DocId) (r : NameRef) : Option (Item × Function) :=
  (m.function? doc r).filter fun (item, f) => m.role item.doc f.annotations == .activity

end Model

end Durable
