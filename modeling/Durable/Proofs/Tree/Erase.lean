/-
Trees without their places.

Two texts that differ only in layout are read as trees that differ only in spans.  `erase` puts
the synthetic span in place of every span of a tree, so that two trees say the same thing when
their erasures are equal.  The printer looks at no span, which is what `print_erase` says of each
kind of tree.
-/
import Durable.Tree.Printer

namespace Durable

/-! ### Erasing spans -/

/-- The name without its place. -/
def Ident.erase (n : Ident) : Ident := ⟨n.name, .synthetic⟩

@[simp] theorem Ident.name_erase (n : Ident) : n.erase.name = n.name := rfl

/-- The reference without its places. -/
def NameRef.erase (r : NameRef) : NameRef := ⟨r.via.map Ident.erase, r.name.erase, .synthetic⟩

mutual

/-- The type without its places. -/
@[simp] def TypeDesc.erase : TypeDesc → TypeDesc
  | .builtin b _ => .builtin b .synthetic
  | .nil _ => .nil .synthetic
  | .inferred _ => .inferred .synthetic
  | .named r => .named r.erase
  | .optional t _ => .optional t.erase .synthetic
  | .array t _ => .array t.erase .synthetic
  | .union ts _ => .union (eraseTypes ts) .synthetic
  | .intersection ts _ => .intersection (eraseTypes ts) .synthetic
  | .map t _ => .map t.erase .synthetic
  | .future t _ => .future (eraseType? t) .synthetic
  | .stream t u _ => .stream t.erase (eraseType? u) .synthetic
  | .anyFunction _ => .anyFunction .synthetic
  | .function params rest returns _ =>
    .function (eraseTypes params) (eraseType? rest) (eraseType? returns) .synthetic
  | .record closed fields rest _ =>
    .record closed (eraseRecordFields fields) (eraseType? rest) .synthetic
  | .singleton v _ => .singleton v .synthetic
  | .paren t _ => .paren t.erase .synthetic

/-- A type that may be there, without its places. -/
def eraseType? : Option TypeDesc → Option TypeDesc
  | none => none
  | some t => some t.erase

/-- Several types without their places. -/
def eraseTypes : List TypeDesc → List TypeDesc
  | [] => []
  | t :: ts => t.erase :: eraseTypes ts

/-- The field of a record type without its places. -/
@[simp] def RecordField.erase : RecordField → RecordField
  | .mk isReadonly t n isOptional default _ =>
    .mk isReadonly t.erase n.erase isOptional (eraseExpr? default) .synthetic

/-- The fields of a record type without their places. -/
def eraseRecordFields : List RecordField → List RecordField
  | [] => []
  | f :: fs => f.erase :: eraseRecordFields fs

/-- The expression without its places. -/
@[simp] def Expr.erase : Expr → Expr
  | .literal v _ => .literal v .synthetic
  | .name r => .name r.erase
  | .call r as _ => .call r.erase (eraseArgs as) .synthetic
  | .methodCall e n as _ => .methodCall e.erase n.erase (eraseArgs as) .synthetic
  | .remoteCall e n as _ => .remoteCall e.erase n.erase (eraseArgs as) .synthetic
  | .field e n _ => .field e.erase n.erase .synthetic
  | .index e p _ => .index e.erase p.erase .synthetic
  | .mapping fs _ => .mapping (eraseFields fs) .synthetic
  | .list es _ => .list (eraseExprs es) .synthetic
  | .unary op e _ => .unary op e.erase .synthetic
  | .binary op e f _ => .binary op e.erase f.erase .synthetic
  | .typeTest e t _ => .typeTest e.erase t.erase .synthetic
  | .conditional e f g _ => .conditional e.erase f.erase g.erase .synthetic
  | .cast t e _ => .cast t.erase e.erase .synthetic
  | .construct t as _ => .construct (eraseType? t) (eraseArgs as) .synthetic
  | .paren e _ => .paren e.erase .synthetic
  | .required _ => .required .synthetic

/-- An expression that may be there, without its places. -/
def eraseExpr? : Option Expr → Option Expr
  | none => none
  | some e => some e.erase

/-- Several expressions without their places. -/
def eraseExprs : List Expr → List Expr
  | [] => []
  | e :: es => e.erase :: eraseExprs es

/-- The argument without its places. -/
@[simp] def Arg.erase : Arg → Arg
  | .positional e => .positional e.erase
  | .named n e => .named n.erase e.erase
  | .rest e => .rest e.erase

/-- The arguments of a call without their places. -/
def eraseArgs : List Arg → List Arg
  | [] => []
  | a :: as => a.erase :: eraseArgs as

/-- The field of a mapping without its places. -/
@[simp] def MappingField.erase : MappingField → MappingField
  | .word n e => .word n.erase e.erase
  | .string key _ e => .string key .synthetic e.erase
  | .computed key e => .computed key.erase e.erase
  | .shorthand r => .shorthand r.erase
  | .spread e => .spread e.erase

/-- The fields of a mapping without their places. -/
def eraseFields : List MappingField → List MappingField
  | [] => []
  | f :: fs => f.erase :: eraseFields fs

end

@[simp] theorem eraseType?_eq (t : Option TypeDesc) : eraseType? t = t.map TypeDesc.erase := by
  cases t <;> rfl

@[simp] theorem eraseExpr?_eq (e : Option Expr) : eraseExpr? e = e.map Expr.erase := by
  cases e <;> rfl

@[simp] theorem eraseTypes_eq (ts : List TypeDesc) : eraseTypes ts = ts.map TypeDesc.erase := by
  induction ts <;> simp_all [eraseTypes]

@[simp] theorem eraseRecordFields_eq (fs : List RecordField) :
    eraseRecordFields fs = fs.map RecordField.erase := by
  induction fs <;> simp_all [eraseRecordFields]

@[simp] theorem eraseExprs_eq (es : List Expr) : eraseExprs es = es.map Expr.erase := by
  induction es <;> simp_all [eraseExprs]

@[simp] theorem eraseArgs_eq (as : List Arg) : eraseArgs as = as.map Arg.erase := by
  induction as <;> simp_all [eraseArgs]

@[simp] theorem eraseFields_eq (fs : List MappingField) :
    eraseFields fs = fs.map MappingField.erase := by
  induction fs <;> simp_all [eraseFields]

/-- The annotation without its places. -/
def Annotation.erase (a : Annotation) : Annotation :=
  ⟨a.name.erase, a.value.map Expr.erase, .synthetic⟩

/-- The declaration of a local variable without its places. -/
def LocalVar.erase (d : LocalVar) : LocalVar :=
  ⟨d.annotations.map Annotation.erase, d.isFinal, d.type.erase, d.name.erase,
    d.init.map Expr.erase⟩

mutual

/-- The statement without its places. -/
@[simp] def Stmt.erase : Stmt → Stmt
  | .localVar d _ => .localVar d.erase .synthetic
  | .assign e op f _ => .assign e.erase op f.erase .synthetic
  | .expr e _ => .expr e.erase .synthetic
  | .lock b _ => .lock b.erase .synthetic
  | .ifElse e b other _ => .ifElse e.erase b.erase (eraseStmt? other) .synthetic
  | .whileLoop e b _ => .whileLoop e.erase b.erase .synthetic
  | .foreach t n e b _ => .foreach t.erase n.erase e.erase b.erase .synthetic
  | .giveBack e _ => .giveBack (e.map Expr.erase) .synthetic
  | .attempt b _ => .attempt b.erase .synthetic
  | .attemptOnFail b t n h _ => .attemptOnFail b.erase t.erase n.erase h.erase .synthetic
  | .block b _ => .block b.erase .synthetic
  | .panic e _ => .panic e.erase .synthetic
  | .fail e _ => .fail e.erase .synthetic
  | .leave _ => .leave .synthetic
  | .again _ => .again .synthetic

/-- A statement that may be there, without its places. -/
def eraseStmt? : Option Stmt → Option Stmt
  | none => none
  | some s => some s.erase

/-- The block without its places. -/
@[simp] def Block.erase : Block → Block
  | .mk ss _ => .mk (eraseStmts ss) .synthetic

/-- Several statements without their places. -/
def eraseStmts : List Stmt → List Stmt
  | [] => []
  | s :: ss => s.erase :: eraseStmts ss

end

@[simp] theorem eraseStmt?_eq (s : Option Stmt) : eraseStmt? s = s.map Stmt.erase := by
  cases s <;> rfl

@[simp] theorem eraseStmts_eq (ss : List Stmt) : eraseStmts ss = ss.map Stmt.erase := by
  induction ss <;> simp_all [eraseStmts]

/-- Modifiers without their places. -/
def Modifiers.erase (ms : Modifiers) : Modifiers := ms.map fun q => (q.1, .synthetic)

/-- The parameter without its places. -/
def Param.erase (p : Param) : Param :=
  ⟨p.annotations.map Annotation.erase, p.kind, p.type.erase, p.name.erase,
    p.default.map Expr.erase, .synthetic⟩

/-- The function without its places. -/
def Function.erase (f : Function) : Function where
  annotations := f.annotations.map Annotation.erase
  modifiers := f.modifiers.erase
  name := f.name.erase
  resourcePath := f.resourcePath
  params := f.params.map Param.erase
  returns := f.returns.map TypeDesc.erase
  body := f.body.erase
  span := .synthetic

/-- The variable's declaration without its places. -/
def VarDecl.erase (v : VarDecl) : VarDecl where
  annotations := v.annotations.map Annotation.erase
  modifiers := v.modifiers.erase
  type := v.type.erase
  name := v.name.erase
  init := v.init.map Expr.erase
  span := .synthetic

/-- The constant or listener without its places. -/
def ValueDecl.erase (d : ValueDecl) : ValueDecl where
  annotations := d.annotations.map Annotation.erase
  modifiers := d.modifiers.erase
  type := d.type.map TypeDesc.erase
  name := d.name.erase
  value := d.value.erase
  span := .synthetic

/-- The type definition without its places. -/
def TypeDef.erase (d : TypeDef) : TypeDef where
  annotations := d.annotations.map Annotation.erase
  modifiers := d.modifiers.erase
  name := d.name.erase
  type := d.type.erase
  span := .synthetic

/-- The annotation's declaration without its places. -/
def AnnotationDecl.erase (d : AnnotationDecl) : AnnotationDecl where
  modifiers := d.modifiers.erase
  type := d.type.map TypeDesc.erase
  name := d.name.erase
  attachPoints := d.attachPoints
  span := .synthetic

/-- The member of a service without its places. -/
def ServiceMember.erase : ServiceMember → ServiceMember
  | method f => method f.erase
  | field v => field v.erase

/-- The service without its places. -/
def Service.erase (s : Service) : Service where
  annotations := s.annotations.map Annotation.erase
  modifiers := s.modifiers.erase
  type := s.type.map TypeDesc.erase
  basePath := s.basePath
  listeners := s.listeners.map Expr.erase
  members := s.members.map ServiceMember.erase
  keywordSpan := .synthetic
  span := .synthetic

/-- The member of a module without its places. -/
def Member.erase : Member → Member
  | function f => function f.erase
  | service s => service s.erase
  | moduleVar v => moduleVar v.erase
  | const d => const d.erase
  | type d => type d.erase
  | listener d => listener d.erase
  | annotationDecl d => annotationDecl d.erase

/-- The import without its places. -/
def Import.erase (i : Import) : Import :=
  ⟨i.org.map Ident.erase, i.path.map Ident.erase, i.rename.map Ident.erase, .synthetic⟩

/-- The module without its places. -/
def Module.erase (m : Module) : Module :=
  ⟨m.imports.map Import.erase, m.members.map Member.erase, .synthetic⟩

@[simp] theorem Modifiers.has_erase (ms : Modifiers) (q : Modifier) :
    ms.erase.has q = ms.has q := by
  simp [Modifiers.erase, Modifiers.has, Function.comp_def]

theorem Modifiers.has_of_erase {ms ms' : Modifiers} (h : ms'.erase = ms.erase) (q : Modifier) :
    ms'.has q = ms.has q := by
  rw [← ms'.has_erase, h, ms.has_erase]

/-! ### Printing looks at no span -/

@[simp] theorem NameRef.asWritten_erase (r : NameRef) : r.erase.asWritten = r.asWritten := by
  obtain ⟨p, n, s⟩ := r
  cases p <;> rfl

mutual

@[simp] theorem TypeDesc.print_erase : ∀ t : TypeDesc, t.erase.print = t.print
  | .builtin _ _ | .nil _ | .inferred _ | .anyFunction _ | .singleton _ _ => rfl
  | .named r => by simp [TypeDesc.print]
  | .optional t _ | .array t _ | .map t _ | .paren t _ => by
    simp [TypeDesc.print, t.print_erase]
  | .union ts _ | .intersection ts _ => by
    have := printTypes_erase ts
    simp_all [TypeDesc.print]
  | .future none _ => rfl
  | .future (some t) _ => by simp [TypeDesc.print, t.print_erase]
  | .stream t none _ => by simp [TypeDesc.print, t.print_erase]
  | .stream t (some u) _ => by
    simp [TypeDesc.print, t.print_erase, u.print_erase]
  | .function params rest returns _ => by
    have hparams := printTypes_erase params
    have hrest := print_eraseType? rest
    have hreturns := print_eraseType? returns
    cases rest <;> cases returns <;> simp_all [TypeDesc.print]
  | .record closed fields rest _ => by
    have hfields := printRecordFields_erase fields
    have hrest := print_eraseType? rest
    cases rest <;> simp_all [TypeDesc.print]

theorem print_eraseType? : ∀ t : Option TypeDesc, (eraseType? t).map (·.print) = t.map (·.print)
  | none => rfl
  | some t => congrArg some t.print_erase

theorem printTypes_erase : ∀ ts : List TypeDesc, printTypes (eraseTypes ts) = printTypes ts
  | [] => rfl
  | t :: ts => by simp only [eraseTypes, printTypes, t.print_erase, printTypes_erase ts]

theorem printRecordFields_erase : ∀ fs : List RecordField,
    printRecordFields (eraseRecordFields fs) = printRecordFields fs
  | [] => rfl
  | .mk _ t n _ none _ :: fs => by
    simp only [eraseRecordFields, RecordField.erase, eraseExpr?, printRecordFields, t.print_erase,
      printRecordFields_erase fs, Ident.erase]
  | .mk _ t n _ (some e) _ :: fs => by
    simp only [eraseRecordFields, RecordField.erase, eraseExpr?, printRecordFields, t.print_erase,
      e.print_erase, printRecordFields_erase fs, Ident.erase]

@[simp] theorem Expr.print_erase : ∀ e : Expr, e.erase.print = e.print
  | .literal _ _ | .required _ => rfl
  | .name r => by simp [Expr.print]
  | .call r as _ => by
    have := printArgs_erase as
    simp_all [Expr.print]
  | .methodCall e n as _ | .remoteCall e n as _ => by
    have := printArgs_erase as
    simp_all [Expr.print, e.print_erase]
  | .field e n _ => by simp [Expr.print, e.print_erase]
  | .index e p _ => by simp [Expr.print, e.print_erase, p.print_erase]
  | .mapping fs _ => by
    have := printFields_erase fs
    simp_all [Expr.print]
  | .list es _ => by
    have := printExprs_erase es
    simp_all [Expr.print]
  | .unary _ e _ | .paren e _ => by simp [Expr.print, e.print_erase]
  | .binary _ e f _ => by simp [Expr.print, e.print_erase, f.print_erase]
  | .typeTest e t _ | .cast t e _ => by
    simp [Expr.print, e.print_erase, t.print_erase]
  | .conditional e f g _ => by
    simp [Expr.print, e.print_erase, f.print_erase, g.print_erase]
  | .construct t as _ => by
    have hargs := printArgs_erase as
    have ht := print_eraseType? t
    cases t <;> simp_all [Expr.print]

theorem printExprs_erase : ∀ es : List Expr, printExprs (eraseExprs es) = printExprs es
  | [] => rfl
  | e :: es => by simp only [eraseExprs, printExprs, e.print_erase, printExprs_erase es]

theorem printArgs_erase : ∀ as : List Arg, printArgs (eraseArgs as) = printArgs as
  | [] => rfl
  | .positional e :: as | .named _ e :: as | .rest e :: as => by
    simp only [eraseArgs, Arg.erase, printArgs, e.print_erase, printArgs_erase as, Ident.erase]

theorem printFields_erase : ∀ fs : List MappingField, printFields (eraseFields fs) = printFields fs
  | [] => rfl
  | .word _ e :: fs | .string _ _ e :: fs | .spread e :: fs => by
    simp only [eraseFields, MappingField.erase, printFields, e.print_erase, printFields_erase fs,
      Ident.erase]
  | .computed k e :: fs => by
    simp only [eraseFields, MappingField.erase, printFields, k.print_erase, e.print_erase,
      printFields_erase fs]
  | .shorthand r :: fs => by
    simp only [eraseFields, MappingField.erase, printFields, NameRef.asWritten_erase,
      printFields_erase fs]

end

@[simp] theorem Annotation.print_erase (a : Annotation) : a.erase.print = a.print := by
  obtain ⟨r, value, s⟩ := a
  cases value <;> simp [ Annotation.erase, Annotation.print]

@[simp] theorem printAnnotations_erase (depth : Nat) (as : List Annotation) :
    printAnnotations depth (as.map Annotation.erase) = printAnnotations depth as := by
  simp [printAnnotations, Function.comp_def]

@[simp] theorem printInlineAnnotations_erase (as : List Annotation) :
    printInlineAnnotations (as.map Annotation.erase) = printInlineAnnotations as := by
  simp [printInlineAnnotations, Function.comp_def]

@[simp] theorem printModifiers_erase (ms : Modifiers) :
    printModifiers ms.erase = printModifiers ms := by
  simp [printModifiers, Modifiers.erase, Function.comp_def]

@[simp] theorem printInit_erase (e : Option Expr) :
    printInit (e.map Expr.erase) = printInit e := by
  cases e <;> simp [printInit]

@[simp] theorem LocalVar.print_erase (d : LocalVar) : d.erase.print = d.print := by
  obtain ⟨as, isFinal, t, n, init⟩ := d
  cases isFinal <;> simp [LocalVar.erase, LocalVar.print]

mutual

theorem Stmt.print_erase (depth : Nat) : ∀ s : Stmt, s.erase.print depth = s.print depth
  | .leave _ | .again _ => rfl
  | .localVar d _ => by simp [Stmt.print]
  | .assign _ _ _ _ | .expr _ _ | .panic _ _ | .fail _ _ => by simp [Stmt.print]
  | .lock b _ | .whileLoop _ b _ | .foreach _ _ _ b _ | .attempt b _ | .block b _ => by
    simp [Stmt.print, b.print_erase depth]
  | .ifElse _ b none _ => by simp [Stmt.print, b.print_erase depth]
  | .ifElse _ b (some s) _ => by
    simp [Stmt.print, b.print_erase depth, s.print_erase depth]
  | .giveBack none _ => rfl
  | .giveBack (some e) _ => by simp [Stmt.print]
  | .attemptOnFail b _ _ h _ => by
    simp [Stmt.print, b.print_erase depth, h.print_erase depth]

theorem Block.print_erase (depth : Nat) : ∀ b : Block, b.erase.print depth = b.print depth
  | .mk ss _ => by
    have := printStmts_erase (depth + 1) ss
    simp_all [Block.print]

theorem printStmts_erase (depth : Nat) : ∀ ss : List Stmt,
    printStmts depth (eraseStmts ss) = printStmts depth ss
  | [] => rfl
  | s :: ss => by
    simp only [eraseStmts, printStmts, s.print_erase depth, printStmts_erase depth ss]

end

@[simp] theorem Param.print_erase (p : Param) : p.erase.print = p.print := by
  obtain ⟨as, kind, t, n, default, s⟩ := p
  cases kind <;> simp [Param.erase, Param.print]

theorem Function.print_erase (depth : Nat) (f : Function) :
    f.erase.print depth = f.print depth := by
  obtain ⟨as, ms, n, path, params, returns, body, s⟩ := f
  cases returns <;>
    simp [Function.erase, Function.print, Block.print_erase, Function.comp_def]

theorem VarDecl.print_erase (depth : Nat) (v : VarDecl) : v.erase.print depth = v.print depth := by
  simp [VarDecl.erase, VarDecl.print]

@[simp] theorem printTypeBefore_erase (t : Option TypeDesc) :
    printTypeBefore (t.map TypeDesc.erase) = printTypeBefore t := by
  cases t <;> simp [printTypeBefore]

theorem ValueDecl.print_erase (word : Keyword) (d : ValueDecl) :
    d.erase.print word = d.print word := by
  simp [ValueDecl.erase, ValueDecl.print]

theorem TypeDef.print_erase (d : TypeDef) : d.erase.print = d.print := by
  simp [TypeDef.erase, TypeDef.print]

theorem AnnotationDecl.print_erase (d : AnnotationDecl) : d.erase.print = d.print := by
  simp [AnnotationDecl.erase, AnnotationDecl.print]

@[simp] theorem ServiceMember.print_erase (m : ServiceMember) : m.erase.print = m.print := by
  cases m
  · exact Function.print_erase 1 _
  · exact VarDecl.print_erase 1 _

theorem Service.print_erase (s : Service) : s.erase.print = s.print := by
  simp [Service.erase, Service.print, Function.comp_def]

@[simp] theorem Member.print_erase (m : Member) : m.erase.print = m.print := by
  cases m
  · exact Function.print_erase 0 _
  · exact Service.print_erase _
  · exact VarDecl.print_erase 0 _
  · exact ValueDecl.print_erase _ _
  · exact TypeDef.print_erase _
  · exact ValueDecl.print_erase _ _
  · exact AnnotationDecl.print_erase _

@[simp] theorem Import.print_erase (i : Import) : i.erase.print = i.print := by
  obtain ⟨org, path, rename, s⟩ := i
  cases org <;> cases rename <;>
    simp [Import.erase, Import.print, Import.moduleName, Function.comp_def]

/-- **A tree is printed the same without its places.** -/
theorem Module.print_erase (m : Module) : m.erase.print = m.print := by
  simp [Module.erase, Module.print, Function.comp_def]

/-- Modules that differ only in places are printed alike. -/
theorem Module.print_eq_of_erase_eq {m m' : Module} (h : m'.erase = m.erase) :
    m'.print = m.print := by
  rw [← m'.print_erase, h, m.print_erase]

end Durable
