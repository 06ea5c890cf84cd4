/-
The places in the forms of the syntax.

`Node.Holds` says what a tree is made of without saying how it is read: for every form of the
syntax, and for every part of it that is a node, one clause gives the name of the place at which the
part stands.  It leaves nothing out.  In particular the tag of an annotation and the name of a type
stand at places too, although no walk comes to them; these are the silent places.

`Node.places` lists the same places in reading order.  Three things tie it to the rest
(`Node.listing`): what stands at the listed places are the children of the node, which an outline
unfolds; no place is listed twice, so a form that repeats a part could not be listed; and what is
listed is what the clauses say but for the silent places, so a form that left out a part could not
be listed either.
-/
import Durable.Proofs.Tree.Positions

namespace Durable

/-! ### What stands where -/

/-- A place in a form of the syntax.  Annotations are attached to what they stand before. -/
inductive Slot where
  | attached (i : Nat) | param (i : Nat) | member (i : Nat) | listener (i : Nat) | stmt (i : Nat)
  | arg (i : Nat) | field (i : Nat) | item (i : Nat)
  /-- A place in one of several things that are not nodes themselves: members of a service, fields
  of a record type. -/
  | within (i : Nat) (slot : Slot)
  | tag | typeName | name | callee | shorthand
  | whole | type | returns | rest | completion | default | init | value | key | body | handler
  | condition | otherwise | items | target | position | receiver | operand | left | right | ifTrue
  | ifFalse | inner

/-- The place holds a name that is not that of a value: an annotation's tag or the name of a
type. -/
@[grind] def Slot.isSilent : Slot → Bool
  | tag | typeName => true
  | _ => false

/-- A node stands at a place in a field of a record type. -/
@[grind cases, grind intro] inductive RecordField.Holds (f : RecordField) : Slot → Node → Prop
  | type : Holds f .type (.type f.type)
  | default {e} (h : f.default = some e) : Holds f .default (.expr e)

/-- A node stands at a place in a type. -/
@[grind cases, grind intro] inductive TypeDesc.Holds : TypeDesc → Slot → Node → Prop
  | named (r) : Holds (.named r) .typeName (.ref r)
  | optional (t s) : Holds (.optional t s) .inner (.type t)
  | array (t s) : Holds (.array t s) .inner (.type t)
  | map (t s) : Holds (.map t s) .inner (.type t)
  | paren (t s) : Holds (.paren t s) .inner (.type t)
  | union {ts i t} (s) (h : ts[i]? = some t) : Holds (.union ts s) (.item i) (.type t)
  | intersection {ts i t} (s) (h : ts[i]? = some t) : Holds (.intersection ts s) (.item i) (.type t)
  | future (t s) : Holds (.future (some t) s) .inner (.type t)
  | streamed (t done s) : Holds (.stream t done s) .inner (.type t)
  | completion (t done s) : Holds (.stream t (some done) s) .completion (.type done)
  | param {ts i t} (rest returns s) (h : ts[i]? = some t) :
      Holds (.function ts rest returns s) (.param i) (.type t)
  | restParam (ts t returns s) : Holds (.function ts (some t) returns s) .rest (.type t)
  | returns (ts rest t s) : Holds (.function ts rest (some t) s) .returns (.type t)
  | field {fs i f slot n} (closed rest s) (h : fs[i]? = some f) (hn : f.Holds slot n) :
      Holds (.record closed fs rest s) (.within i slot) n
  | restFields (closed fs t s) : Holds (.record closed fs (some t) s) .rest (.type t)

/-- A node stands at a place in an expression. -/
@[grind cases, grind intro] inductive Expr.Holds : Expr → Slot → Node → Prop
  | name (r) : Holds (.name r) .name (.ref r)
  | callee (r args s) : Holds (.call r args s) .callee (.ref r)
  | arg {args i a} (r s) (h : args[i]? = some a) : Holds (.call r args s) (.arg i) (.arg a)
  | receiver (e method args s) : Holds (.methodCall e method args s) .receiver (.expr e)
  | methodArg {args i a} (e method s) (h : args[i]? = some a) :
      Holds (.methodCall e method args s) (.arg i) (.arg a)
  | remoteReceiver (e method args s) : Holds (.remoteCall e method args s) .receiver (.expr e)
  | remoteArg {args i a} (e method s) (h : args[i]? = some a) :
      Holds (.remoteCall e method args s) (.arg i) (.arg a)
  | accessed (e word s) : Holds (.field e word s) .target (.expr e)
  | indexed (e p s) : Holds (.index e p s) .target (.expr e)
  | position (e p s) : Holds (.index e p s) .position (.expr p)
  | field {fs i f} (s) (h : fs[i]? = some f) : Holds (.mapping fs s) (.field i) (.field f)
  | item {es i e} (s) (h : es[i]? = some e) : Holds (.list es s) (.item i) (.expr e)
  | operand (op e s) : Holds (.unary op e s) .operand (.expr e)
  | left (op l r s) : Holds (.binary op l r s) .left (.expr l)
  | right (op l r s) : Holds (.binary op l r s) .right (.expr r)
  | tested (e t s) : Holds (.typeTest e t s) .operand (.expr e)
  | testedType (e t s) : Holds (.typeTest e t s) .type (.type t)
  | condition (c t f s) : Holds (.conditional c t f s) .condition (.expr c)
  | ifTrue (c t f s) : Holds (.conditional c t f s) .ifTrue (.expr t)
  | ifFalse (c t f s) : Holds (.conditional c t f s) .ifFalse (.expr f)
  | castType (t e s) : Holds (.cast t e s) .type (.type t)
  | casted (t e s) : Holds (.cast t e s) .operand (.expr e)
  | constructed (t args s) : Holds (.construct (some t) args s) .type (.type t)
  | constructArg {args i a} (t s) (h : args[i]? = some a) :
      Holds (.construct t args s) (.arg i) (.arg a)
  | paren (e s) : Holds (.paren e s) .inner (.expr e)

/-- A node stands at a place in a field of a mapping. -/
@[grind cases, grind intro] inductive MappingField.Holds : MappingField → Slot → Node → Prop
  | word (key e) : Holds (.word key e) .value (.expr e)
  | string (key s e) : Holds (.string key s e) .value (.expr e)
  | key (key e) : Holds (.computed key e) .key (.expr key)
  | keyed (key e) : Holds (.computed key e) .value (.expr e)
  | shorthand (r) : Holds (.shorthand r) .shorthand (.ref r)
  | spread (e) : Holds (.spread e) .value (.expr e)

/-- A node stands at a place in the declaration of a local variable. -/
@[grind cases, grind intro] inductive LocalVar.Holds (d : LocalVar) : Slot → Node → Prop
  | attached {i a} (h : d.annotations[i]? = some a) : Holds d (.attached i) (.annotationTag a)
  | type : Holds d .type (.type d.type)
  | init {e} (h : d.init = some e) : Holds d .init (.expr e)

/-- A node stands at a place in a statement. -/
@[grind cases, grind intro] inductive Stmt.Holds : Stmt → Slot → Node → Prop
  | localVar (d s) : Holds (.localVar d s) .whole (.localVar d)
  | target (t op v s) : Holds (.assign t op v s) .target (.expr t)
  | assigned (t op v s) : Holds (.assign t op v s) .value (.expr v)
  | expr (e s) : Holds (.expr e s) .value (.expr e)
  | panic (e s) : Holds (.panic e s) .value (.expr e)
  | fail (e s) : Holds (.fail e s) .value (.expr e)
  | giveBack (e s) : Holds (.giveBack (some e) s) .value (.expr e)
  | lock (b s) : Holds (.lock b s) .body (.block b)
  | block (b s) : Holds (.block b s) .body (.block b)
  | attempt (b s) : Holds (.attempt b s) .body (.block b)
  | condition (e b other s) : Holds (.ifElse e b other s) .condition (.expr e)
  | ifTrue (e b other s) : Holds (.ifElse e b other s) .body (.block b)
  | otherwise (e b other s) : Holds (.ifElse e b (some other) s) .otherwise (.stmt other)
  | loopCondition (e b s) : Holds (.whileLoop e b s) .condition (.expr e)
  | loopBody (e b s) : Holds (.whileLoop e b s) .body (.block b)
  | itemType (t name e b s) : Holds (.foreach t name e b s) .type (.type t)
  | items (t name e b s) : Holds (.foreach t name e b s) .items (.expr e)
  | foreachBody (t name e b s) : Holds (.foreach t name e b s) .body (.block b)
  | attempted (b t name h s) : Holds (.attemptOnFail b t name h s) .body (.block b)
  | errorType (b t name h s) : Holds (.attemptOnFail b t name h s) .type (.type t)
  | handler (b t name h s) : Holds (.attemptOnFail b t name h s) .handler (.block h)

/-- A node stands at a place in the declaration of a variable. -/
@[grind cases, grind intro] inductive VarDecl.Holds (v : VarDecl) : Slot → Node → Prop
  | attached {i a} (h : v.annotations[i]? = some a) : Holds v (.attached i) (.annotationTag a)
  | type : Holds v .type (.type v.type)
  | init {e} (h : v.init = some e) : Holds v .init (.expr e)

/-- A node stands at a place in the declaration of a constant or a listener. -/
@[grind cases, grind intro] inductive ValueDecl.Holds (d : ValueDecl) : Slot → Node → Prop
  | attached {i a} (h : d.annotations[i]? = some a) : Holds d (.attached i) (.annotationTag a)
  | type {t} (h : d.type = some t) : Holds d .type (.type t)
  | value : Holds d .value (.expr d.value)

/-- A node stands at a place in a member of a service. -/
@[grind cases, grind intro] inductive ServiceMember.Holds : ServiceMember → Slot → Node → Prop
  | method (f) : Holds (.method f) .whole (.function f)
  | field {v slot n} (h : v.Holds slot n) : Holds (.field v) slot n

/-- A node stands at a place in a member of a module. -/
@[grind cases, grind intro] inductive Member.Holds : Member → Slot → Node → Prop
  | function (f) : Holds (.function f) .whole (.function f)
  | service (s) : Holds (.service s) .whole (.service s)
  | moduleVar {v slot n} (h : v.Holds slot n) : Holds (.moduleVar v) slot n
  | const {d slot n} (h : d.Holds slot n) : Holds (.const d) slot n
  | listener {d slot n} (h : d.Holds slot n) : Holds (.listener d) slot n
  | attachedToType {d i a} (h : d.annotations[i]? = some a) :
      Holds (.type d) (.attached i) (.annotationTag a)
  | type (d) : Holds (.type d) .type (.type d.type)
  | annotationDecl {d t} (h : d.type = some t) : Holds (.annotationDecl d) .type (.type t)

namespace Node

/-- A node stands at a place in another. -/
@[grind cases, grind intro] inductive Holds : Node → Slot → Node → Prop
  | moduleMember {m i x} (h : m.members[i]? = some x) : Holds (.module m) (.member i) (.member x)
  | member {x slot n} (h : x.Holds slot n) : Holds (.member x) slot n
  | attachedToFunction {f i a} (h : f.annotations[i]? = some a) :
      Holds (.function f) (.attached i) (.annotationTag a)
  | param {f i p} (h : f.params[i]? = some p) : Holds (.function f) (.param i) (.param p)
  | returns {f t} (h : f.returns = some t) : Holds (.function f) .returns (.type t)
  | body (f) : Holds (.function f) .body (.block f.body)
  | attachedToService {s i a} (h : s.annotations[i]? = some a) :
      Holds (.service s) (.attached i) (.annotationTag a)
  | serviceType {s t} (h : s.type = some t) : Holds (.service s) .type (.type t)
  | listener {s i e} (h : s.listeners[i]? = some e) : Holds (.service s) (.listener i) (.expr e)
  | serviceMember {s i x slot n} (h : s.members[i]? = some x) (hn : x.Holds slot n) :
      Holds (.service s) (.within i slot) n
  | tag (a) : Holds (.annotationTag a) .tag (.ref a.name)
  | annotationValue {a e} (h : a.value = some e) : Holds (.annotationTag a) .value (.expr e)
  | attachedToParam {p i a} (h : p.annotations[i]? = some a) :
      Holds (.param p) (.attached i) (.annotationTag a)
  | paramType (p) : Holds (.param p) .type (.type p.type)
  | paramDefault {p e} (h : p.default = some e) : Holds (.param p) .default (.expr e)
  | type {t slot n} (h : t.Holds slot n) : Holds (.type t) slot n
  | stmts {b i s} (h : b.stmts[i]? = some s) : Holds (.block b) (.stmt i) (.stmt s)
  | stmt {s slot n} (h : s.Holds slot n) : Holds (.stmt s) slot n
  | localVar {d slot n} (h : d.Holds slot n) : Holds (.localVar d) slot n
  | expr {e slot n} (h : e.Holds slot n) : Holds (.expr e) slot n
  | arg (a) : Holds (.arg a) .value (.expr a.value)
  | field {f slot n} (h : f.Holds slot n) : Holds (.field f) slot n

end Node

/-! ### Lists of places -/

section

variable {α : Type}

/-- Things at places that are counted. -/
def counted (slot : Nat → Slot) (node : α → Node) (as : List α) : List (Slot × Node) :=
  as.zipIdx.map fun x => (slot x.2, node x.1)

/-- A thing at a place that may be empty. -/
def possibly (slot : Slot) (node : α → Node) (a : Option α) : List (Slot × Node) :=
  (a.map fun a => (slot, node a)).toList

/-- The places in things that are counted. -/
def nested (places : α → List (Slot × Node)) (as : List α) : List (Slot × Node) :=
  as.zipIdx.flatMap fun x => (places x.1).map fun y => (.within x.2 y.1, y.2)

variable {slot : Nat → Slot} {place s : Slot} {node : α → Node} {n : Node}
  {places : α → List (Slot × Node)}

@[simp] theorem map_snd_counted (as : List α) :
    (counted slot node as).map (·.2) = as.map node := by
  rw [counted, List.map_map]
  conv => rhs; rw [← List.zipIdx_map_fst 0 as, List.map_map]
  rfl

@[simp] theorem map_snd_possibly (a : Option α) :
    (possibly place node a).map (·.2) = (a.map node).toList := by
  cases a <;> rfl

@[simp] theorem map_snd_nested (as : List α) :
    (nested places as).map (·.2) = as.flatMap fun a => (places a).map (·.2) := by
  rw [nested, List.map_flatMap]
  conv => rhs; rw [← List.zipIdx_map_fst 0 as, List.flatMap_map]
  simp only [List.map_map]
  rfl

@[simp, grind =] theorem mem_counted {as : List α} :
    (s, n) ∈ counted slot node as ↔ ∃ i a, as[i]? = some a ∧ s = slot i ∧ n = node a := by
  simp only [counted, List.mem_map, Prod.exists, List.mk_mem_zipIdx_iff_getElem?, Prod.mk.injEq]
  grind

@[simp, grind =] theorem mem_possibly {a : Option α} :
    (s, n) ∈ possibly place node a ↔ ∃ b, a = some b ∧ s = place ∧ n = node b := by
  cases a <;> simp [possibly]

@[simp, grind =] theorem mem_nested {as : List α} : (s, n) ∈ nested places as ↔
    ∃ i a t, as[i]? = some a ∧ (t, n) ∈ places a ∧ s = .within i t := by
  simp only [nested, List.mem_flatMap, List.mem_map, Prod.exists, List.mk_mem_zipIdx_iff_getElem?,
    Prod.mk.injEq]
  grind

/-- No place is listed twice. -/
def Distinct (places : List (Slot × Node)) : Prop := places.Pairwise fun x y => x.1 ≠ y.1

theorem pairwise_zipIdx (as : List α) : as.zipIdx.Pairwise fun x y => x.2 ≠ y.2 := by
  rw [← List.pairwise_map (R := (· ≠ ·)), List.zipIdx_map_snd]
  exact List.nodup_range' ..

@[simp] theorem distinct_counted (hslot : ∀ i j, slot i = slot j → i = j) (as : List α) :
    Distinct (counted slot node as) := by
  rw [Distinct, counted, List.pairwise_map]
  exact (pairwise_zipIdx as).imp fun hne heq => hne (hslot _ _ heq)

@[simp] theorem distinct_possibly (a : Option α) : Distinct (possibly place node a) := by
  cases a <;> simp [Distinct, possibly]

@[simp] theorem distinct_nested {as : List α} (h : ∀ a ∈ as, Distinct (places a)) :
    Distinct (nested places as) := by
  rw [Distinct, nested, List.pairwise_flatMap]
  constructor
  · intro x hx
    rw [List.pairwise_map]
    exact (h x.1 (List.fst_mem_of_mem_zipIdx hx)).imp fun hne heq => hne (Slot.within.inj heq).2
  · refine (pairwise_zipIdx as).imp fun hne x hx y hy heq => ?_
    obtain ⟨x', -, rfl⟩ := List.mem_map.mp hx
    obtain ⟨y', -, rfl⟩ := List.mem_map.mp hy
    exact hne (Slot.within.inj heq).1

@[simp] theorem distinct_nil : Distinct [] := .nil

@[simp] theorem distinct_cons {xs : List (Slot × Node)} :
    Distinct ((s, n) :: xs) ↔ (∀ n', (s, n') ∉ xs) ∧ Distinct xs := by
  rw [Distinct, List.pairwise_cons, Prod.forall]
  refine and_congr_left' ⟨fun h n' hn' => h s n' hn' rfl, ?_⟩
  rintro h _ n' hn' rfl
  exact h n' hn'

@[simp] theorem distinct_append {xs ys : List (Slot × Node)} : Distinct (xs ++ ys) ↔
    Distinct xs ∧ Distinct ys ∧ ∀ s n n', (s, n) ∈ xs → (s, n') ∉ ys := by
  rw [Distinct, List.pairwise_append]
  refine and_congr_right' (and_congr_right' ⟨fun h s n n' hx hy => h _ hx _ hy rfl, ?_⟩)
  rintro h ⟨s, n⟩ hx ⟨s', n'⟩ hy rfl
  exact h s n n' hx hy

/-- A place stands in a list of distinct places once. -/
theorem Distinct.eq_of_getElem? {xs : List (Slot × Node)} (h : Distinct xs) {i j : Nat} {n' : Node}
    (hi : xs[i]? = some (s, n)) (hj : xs[j]? = some (s, n')) : i = j := by
  have hnodup : (xs.map (·.1)).Nodup := List.pairwise_map.mpr h
  have hlt : i < (xs.map (·.1)).length := by
    rw [List.length_map]
    exact (List.getElem?_eq_some_iff.mp hi).1
  refine (List.getElem?_inj hlt hnodup).mp ?_
  rw [List.getElem?_map, List.getElem?_map, hi, hj]
  rfl

end

/-! ### What is listed of each form -/

/-- Places are listed in reading order, each once, with all that stands there but the names that are
not those of values. -/
structure Listing (holds : Slot → Node → Prop) (children : List Node)
    (places : List (Slot × Node)) : Prop where
  nodes : places.map (·.2) = children
  distinct : Distinct places
  exact : ∀ slot n, (slot, n) ∈ places ↔ holds slot n ∧ slot.isSilent = false

/-- The places in a field of a record type. -/
def RecordField.places (f : RecordField) : List (Slot × Node) :=
  (.type, .type f.type) :: possibly .default .expr f.default

theorem RecordField.listing (f : RecordField) :
    Listing f.Holds (.type f.type :: (f.default.map .expr).toList) f.places where
  nodes := by simp [places]
  distinct := by simp [places]
  exact slot n := by grind [places]

/-- The places in a type. -/
def TypeDesc.places : TypeDesc → List (Slot × Node)
  | .builtin _ _ | .nil _ | .inferred _ | .named _ | .anyFunction _ | .singleton _ _ => []
  | .optional t _ | .array t _ | .map t _ | .paren t _ => [(.inner, .type t)]
  | .union ts _ | .intersection ts _ => counted .item .type ts
  | .future inner _ => possibly .inner .type inner
  | .stream item completion _ => (.inner, .type item) :: possibly .completion .type completion
  | .function params rest returns _ =>
    counted .param .type params ++ possibly .rest .type rest ++ possibly .returns .type returns
  | .record _ fields rest _ => nested RecordField.places fields ++ possibly .rest .type rest

theorem TypeDesc.listing (t : TypeDesc) : Listing t.Holds t.children t.places where
  nodes := by cases t <;> simp [places, children, (RecordField.listing _).nodes]
  distinct := by cases t <;> simp +contextual [places, (RecordField.listing _).distinct]
  exact slot n := by
    have hfield := fun f : RecordField => f.listing.exact
    -- What is listed is read off the form, what the clauses say off the clause.
    constructor
    · intro h
      cases t <;> grind [places]
    · rintro ⟨h, hslot⟩
      cases h <;> grind [places]

/-- The places in an expression. -/
def Expr.places : Expr → List (Slot × Node)
  | .literal _ _ | .required _ => []
  | .name r => [(.name, .ref r)]
  | .call callee args _ => (.callee, .ref callee) :: counted .arg .arg args
  | .methodCall receiver _ args _ | .remoteCall receiver _ args _ =>
    (.receiver, .expr receiver) :: counted .arg .arg args
  | .field target _ _ => [(.target, .expr target)]
  | .index target position _ => [(.target, .expr target), (.position, .expr position)]
  | .mapping fields _ => counted .field .field fields
  | .list items _ => counted .item .expr items
  | .unary _ operand _ => [(.operand, .expr operand)]
  | .binary _ left right _ => [(.left, .expr left), (.right, .expr right)]
  | .typeTest operand type _ => [(.operand, .expr operand), (.type, .type type)]
  | .conditional condition ifTrue ifFalse _ =>
    [(.condition, .expr condition), (.ifTrue, .expr ifTrue), (.ifFalse, .expr ifFalse)]
  | .cast type operand _ => [(.type, .type type), (.operand, .expr operand)]
  | .construct type args _ => possibly .type .type type ++ counted .arg .arg args
  | .paren inner _ => [(.inner, .expr inner)]

theorem Expr.listing (e : Expr) : Listing e.Holds e.children e.places where
  nodes := by cases e <;> simp [places, children]
  distinct := by cases e <;> simp +contextual [places]
  exact slot n := by
    constructor
    · intro h
      cases e <;> grind [places]
    · rintro ⟨h, hslot⟩
      cases h <;> grind [places]

/-- The places in a field of a mapping. -/
def MappingField.places : MappingField → List (Slot × Node)
  | .word _ value | .string _ _ value | .spread value => [(.value, .expr value)]
  | .computed key value => [(.key, .expr key), (.value, .expr value)]
  | .shorthand r => [(.shorthand, .ref r)]

theorem MappingField.listing (f : MappingField) : Listing f.Holds f.children f.places where
  nodes := by cases f <;> simp [places, children]
  distinct := by cases f <;> simp [places]
  exact slot n := by cases f <;> grind [places]

/-- The places in the declaration of a local variable. -/
def LocalVar.places (d : LocalVar) : List (Slot × Node) :=
  counted .attached .annotationTag d.annotations
    ++ (.type, .type d.type) :: possibly .init .expr d.init

theorem LocalVar.listing (d : LocalVar) : Listing d.Holds d.children d.places where
  nodes := by simp [places, children]
  distinct := by simp +contextual [places]
  exact slot n := by grind [places]

/-- The places in a statement. -/
def Stmt.places : Stmt → List (Slot × Node)
  | .localVar d _ => [(.whole, .localVar d)]
  | .assign target _ value _ => [(.target, .expr target), (.value, .expr value)]
  | .expr e _ | .panic e _ | .fail e _ => [(.value, .expr e)]
  | .giveBack e _ => possibly .value .expr e
  | .lock body _ | .block body _ | .attempt body _ => [(.body, .block body)]
  | .ifElse condition body otherwise _ =>
    (.condition, .expr condition) :: (.body, .block body) :: possibly .otherwise .stmt otherwise
  | .whileLoop condition body _ => [(.condition, .expr condition), (.body, .block body)]
  | .foreach type _ items body _ =>
    [(.type, .type type), (.items, .expr items), (.body, .block body)]
  | .attemptOnFail body type _ handler _ =>
    [(.body, .block body), (.type, .type type), (.handler, .block handler)]
  | .leave _ | .again _ => []

theorem Stmt.listing (s : Stmt) : Listing s.Holds s.children s.places where
  nodes := by cases s <;> simp [places, children]
  distinct := by cases s <;> simp +contextual [places]
  exact slot n := by
    constructor
    · intro h
      cases s <;> grind [places]
    · rintro ⟨h, hslot⟩
      cases h <;> grind [places]

/-- The places in the declaration of a variable. -/
def VarDecl.places (v : VarDecl) : List (Slot × Node) :=
  counted .attached .annotationTag v.annotations
    ++ (.type, .type v.type) :: possibly .init .expr v.init

theorem VarDecl.listing (v : VarDecl) : Listing v.Holds v.children v.places where
  nodes := by simp [places, children]
  distinct := by simp +contextual [places]
  exact slot n := by grind [places]

/-- The places in the declaration of a constant or a listener. -/
def ValueDecl.places (d : ValueDecl) : List (Slot × Node) :=
  counted .attached .annotationTag d.annotations ++ possibly .type .type d.type
    ++ [(.value, .expr d.value)]

theorem ValueDecl.listing (d : ValueDecl) : Listing d.Holds d.children d.places where
  nodes := by simp [places, children]
  distinct := by simp +contextual [places]
  exact slot n := by grind [places]

/-- The places in a member of a service. -/
def ServiceMember.places : ServiceMember → List (Slot × Node)
  | .method f => [(.whole, .function f)]
  | .field v => v.places

theorem ServiceMember.listing (x : ServiceMember) : Listing x.Holds x.children x.places where
  nodes := by cases x <;> simp [places, children, (VarDecl.listing _).nodes]
  distinct := by cases x <;> simp [places, (VarDecl.listing _).distinct]
  exact slot n := by
    have hfield := fun v : VarDecl => v.listing.exact
    cases x <;> grind [places]

/-- The places in a member of a module. -/
def Member.places : Member → List (Slot × Node)
  | .function f => [(.whole, .function f)]
  | .service s => [(.whole, .service s)]
  | .moduleVar v => v.places
  | .const d | .listener d => d.places
  | .type d => counted .attached .annotationTag d.annotations ++ [(.type, .type d.type)]
  | .annotationDecl d => possibly .type .type d.type

theorem Member.listing (x : Member) : Listing x.Holds x.children x.places where
  nodes := by
    cases x <;> simp [places, children, (VarDecl.listing _).nodes, (ValueDecl.listing _).nodes]
  distinct := by
    cases x <;>
      simp +contextual [places, (VarDecl.listing _).distinct, (ValueDecl.listing _).distinct]
  exact slot n := by
    have hvar := fun v : VarDecl => v.listing.exact
    have hvalue := fun d : ValueDecl => d.listing.exact
    cases x <;> grind [places]

namespace Node

/-- The places in a node. -/
def places : Node → List (Slot × Node)
  | .module m => counted .member .member m.members
  | .member x => x.places
  | .function f =>
    counted .attached .annotationTag f.annotations ++ counted .param .param f.params
      ++ possibly .returns .type f.returns ++ [(.body, .block f.body)]
  | .service s =>
    counted .attached .annotationTag s.annotations ++ possibly .type .type s.type
      ++ counted .listener .expr s.listeners ++ nested ServiceMember.places s.members
  | .annotationTag a => possibly .value .expr a.value
  | .param p =>
    counted .attached .annotationTag p.annotations
      ++ (.type, .type p.type) :: possibly .default .expr p.default
  | .type t => t.places
  | .block b => counted .stmt .stmt b.stmts
  | .stmt s => s.places
  | .localVar d => d.places
  | .expr e => e.places
  | .arg a => [(.value, .expr a.value)]
  | .field f => f.places
  | .ref _ => []

/-- **The children of a node are what stands at its places**, each place once, but for the names
that are not those of values. -/
theorem listing (n : Node) : Listing n.Holds n.children n.places where
  nodes := by
    cases n <;> simp [places, children, (Member.listing _).nodes, (ServiceMember.listing _).nodes,
      (TypeDesc.listing _).nodes, (Stmt.listing _).nodes, (LocalVar.listing _).nodes,
      (Expr.listing _).nodes, (MappingField.listing _).nodes]
  distinct := by
    cases n <;> simp +contextual [places, (Member.listing _).distinct,
      (ServiceMember.listing _).distinct, (TypeDesc.listing _).distinct,
      (Stmt.listing _).distinct, (LocalVar.listing _).distinct, (Expr.listing _).distinct,
      (MappingField.listing _).distinct]
  exact slot k := by
    have hmember := fun x : Member => x.listing.exact
    have hserviceMember := fun x : ServiceMember => x.listing.exact
    have htype := fun t : TypeDesc => t.listing.exact
    have hstmt := fun s : Stmt => s.listing.exact
    have hlocal := fun d : LocalVar => d.listing.exact
    have hexpr := fun e : Expr => e.listing.exact
    have hfield := fun f : MappingField => f.listing.exact
    cases n <;> grind [places]

end Node

end Durable
