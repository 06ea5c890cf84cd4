/-
The type that a routed call is cast to.

The type that an activity returns is written where the activity is declared, and the cast stands
where it is called.  On the way the names without a prefix gain the prefix that the activity is
called by: it leads to the module of the activity, so they denote what they denoted.  The other
names stay as they are, those with a prefix of their own and those in the defaults of record
fields.  So the cast means what was declared exactly if each of these denotes the same from both
documents.

`Model.resolveType` does not tell types from outside the package apart.  The places where types are
looked up do, and what is said here is said of both.
-/
import Durable.Proofs.Routing.Names

namespace Durable

/-! ### The names of a type -/

/-- What a node adds to the names of types, and whether its parts stand in a default. -/
def namedType (inDefault : Bool) : Node → List (NameRef × Bool) × Option Bool
  | .type (.named r) => ([(r, inDefault)], some inDefault)
  | .expr _ => ([], some true)
  | _ => ([], some inDefault)

/-- The names of types in a type, at every depth, each with whether it stands in the default of a
record field. -/
def TypeDesc.names (t : TypeDesc) : List (NameRef × Bool) := t.outline.walk namedType false

/-- A name of a type taken through a prefix, unless it stands in a default. -/
def qualifyName (via : String) : NameRef × Bool → NameRef × Bool
  | (r, true) => (r, true)
  | (r, false) => (r.qualify via, false)

mutual

/-- All that stands below a default stands in it. -/
theorem Outline.inDefault_of_walk : ∀ (o : Outline) {x : NameRef × Bool},
    x ∈ o.walk namedType true → x.2 = true
  | .mk n parts, x, hx => by
    have hparts : ∀ {y}, y ∈ walkAll namedType true parts → y.2 = true :=
      inDefault_of_walkAll parts
    cases n with
    | type t =>
      cases t with
      | named r =>
        rcases List.mem_cons.mp hx with rfl | hx
        · rfl
        · exact hparts hx
      | _ => exact hparts hx
    | _ => exact hparts hx

theorem Outline.inDefault_of_walkAll : ∀ (os : List Outline) {x : NameRef × Bool},
    x ∈ walkAll namedType true os → x.2 = true
  | [], _, hx => absurd hx List.not_mem_nil
  | o :: os, _, hx => by
    rw [walkAll, List.mem_append] at hx
    exact hx.elim o.inDefault_of_walk (inDefault_of_walkAll os)

end

/-- The names in a default are left alone. -/
theorem Expr.map_qualifyName (via : String) (e : Expr) :
    (e.outline.walk namedType false).map (qualifyName via) = e.outline.walk namedType false := by
  -- An expression enters a default, wherever it stands itself.
  have hwalk : e.outline.walk namedType false = Outline.walkAll namedType true e.parts := rfl
  rw [hwalk]
  refine List.map_congr_left (fun x hx => ?_) |>.trans (List.map_id _)
  obtain ⟨r, inDefault⟩ := x
  obtain rfl : inDefault = true := Outline.inDefault_of_walkAll _ hx
  rfl

namespace TypeDesc

open Outline (walkAll)

/-- The names of a type that is not a name itself are those of its parts. -/
theorem names_eq {t : TypeDesc} (h : ∀ r, t ≠ .named r) :
    t.names = walkAll namedType false t.parts := by
  cases t with
  | named r => exact absurd rfl (h r)
  | _ => rfl

@[simp] theorem walkAll_nil : walkAll namedType false [] = [] := rfl

@[simp] theorem walkAll_type (t : TypeDesc) (os : List Outline) :
    walkAll namedType false (.mk (.type t) t.parts :: os)
      = t.names ++ walkAll namedType false os := rfl

theorem walkAll_expr (e : Expr) (os : List Outline) :
    walkAll namedType false (.mk (.expr e) e.parts :: os)
      = e.outline.walk namedType false ++ walkAll namedType false os := rfl

@[simp] theorem walkAll_append (os os' : List Outline) :
    walkAll namedType false (os ++ os')
      = walkAll namedType false os ++ walkAll namedType false os' := by
  induction os with
  | nil => rfl
  | cons o os ih => rw [List.cons_append, walkAll, walkAll, ih, List.append_assoc]

mutual

/-- Through a prefix a type has the names it had, each taken through the prefix. -/
theorem names_qualify (via : String) : ∀ t : TypeDesc,
    (t.qualify via).names = t.names.map (qualifyName via)
  | .builtin _ _ | .nil _ | .inferred _ | .named _ | .anyFunction _ | .singleton _ _
  | .future none _ => rfl
  | .optional t _ | .array t _ | .map t _ | .paren t _ | .future (some t) _
  | .stream t none _ => by
    have ht := t.names_qualify via
    show (t.qualify via).names ++ [] = (t.names ++ []).map (qualifyName via)
    rw [ht, List.append_nil, List.append_nil]
  | .union ts _ | .intersection ts _ => walkAll_qualifyTypes via ts
  | .stream item (some done) _ => by
    have hitem := item.names_qualify via
    have hdone := done.names_qualify via
    show (item.qualify via).names ++ ((done.qualify via).names ++ [])
      = (item.names ++ (done.names ++ [])).map (qualifyName via)
    rw [hitem, hdone, List.map_append, List.append_nil, List.append_nil]
  | .function params rest returns _ => by
    have hparams := walkAll_qualifyTypes via params
    cases rest with
    | none => cases returns with
      | none => simp [qualify, names_eq, parts, hparams]
      | some t => simp [qualify, names_eq, parts, hparams, t.names_qualify via]
    | some u => cases returns with
      | none => simp [qualify, names_eq, parts, hparams, u.names_qualify via]
      | some t =>
        simp [qualify, names_eq, parts, hparams, u.names_qualify via, t.names_qualify via]
  | .record _ fields rest _ => by
    have hfields := walkAll_qualifyFields via fields
    cases rest with
    | none => simp [qualify, names_eq, parts, hfields]
    | some t => simp [qualify, names_eq, parts, hfields, t.names_qualify via]

theorem walkAll_qualifyTypes (via : String) : ∀ ts : List TypeDesc,
    walkAll namedType false (typeOutlines (qualifyTypes via ts))
      = (walkAll namedType false (typeOutlines ts)).map (qualifyName via)
  | [] => rfl
  | t :: ts => by
    rw [qualifyTypes, typeOutlines, typeOutlines, walkAll_type, walkAll_type, List.map_append,
      t.names_qualify via, walkAll_qualifyTypes via ts]

theorem walkAll_qualifyFields (via : String) : ∀ fields : List RecordField,
    walkAll namedType false (recordFieldOutlines (qualifyFields via fields))
      = (walkAll namedType false (recordFieldOutlines fields)).map (qualifyName via)
  | [] => rfl
  | .mk _ t _ _ none _ :: fields => by
    rw [qualifyFields, recordFieldOutlines, recordFieldOutlines, walkAll_type, walkAll_type,
      List.map_append, t.names_qualify via, walkAll_qualifyFields via fields]
  | .mk _ t _ _ (some e) _ :: fields => by
    rw [qualifyFields, recordFieldOutlines, recordFieldOutlines, walkAll_type, walkAll_type,
      walkAll_expr, walkAll_expr, List.map_append, List.map_append, e.map_qualifyName via,
      t.names_qualify via, walkAll_qualifyFields via fields]

end

end TypeDesc

/-! ### Names that are read from two documents -/

/-- A name of a type is left as it is: it has a prefix of its own, or stands in a default. -/
def isKept : NameRef × Bool → Bool
  | (r, inDefault) => r.via.isSome || inDefault

/-- Two types have equally many names, and from two documents these denote the same, one by one. -/
def TypeDesc.ReadAlike {α : Type} (denotes : DocId → NameRef → α) (doc doc' : DocId)
    (t t' : TypeDesc) : Prop :=
  t.names.map (fun x => denotes doc x.1) = t'.names.map (fun x => denotes doc' x.1)

namespace TypeDesc

variable {α : Type} {denotes : DocId → NameRef → α} {doc doc' : DocId}

/-- A type reads alike from two documents if its kept names do, given that the others do. -/
theorem readAlike_self (h : ∀ r, r.via = none → denotes doc r = denotes doc' r) (t : TypeDesc) :
    ReadAlike denotes doc doc' t t ↔
      ∀ x ∈ t.names, isKept x = true → denotes doc x.1 = denotes doc' x.1 := by
  rw [ReadAlike, List.map_inj_left]
  refine ⟨fun hall x hx _ => hall x hx, fun hkept x hx => ?_⟩
  cases hvia : x.1.via with
  | none => exact h x.1 hvia
  | some q => exact hkept x hx (by simp [isKept, hvia])

/-- Through a prefix a type reads alike from two documents if its kept names do, given that the
others do once they have the prefix. -/
theorem readAlike_qualify {via : String}
    (h : ∀ r, r.via = none → denotes doc (r.qualify via) = denotes doc' r) (t : TypeDesc) :
    ReadAlike denotes doc doc' (t.qualify via) t ↔
      ∀ x ∈ t.names, isKept x = true → denotes doc x.1 = denotes doc' x.1 := by
  rw [ReadAlike, names_qualify, List.map_map, List.map_inj_left]
  refine forall₂_congr fun x _ => ?_
  obtain ⟨r, inDefault⟩ := x
  cases inDefault with
  | true => simp [isKept, qualifyName]
  | false =>
    cases hvia : r.via with
    | none => simp [isKept, qualifyName, hvia, h r hvia]
    | some q =>
      have hr : r.qualify via = r := by simp [NameRef.qualify, hvia]
      simp [isKept, qualifyName, hvia, hr]

end TypeDesc

/-! ### Where names are looked up -/

theorem Package.IsRead.module_eq {p : Package} (hp : p.IsRead) {i : Nat} {pm : PackageModule}
    (hpm : p.modules[i]? = some pm) {d : Document} (hd : d ∈ pm.documents) : d.id.module = i := by
  obtain ⟨read, -, submodules, hmodules⟩ := hp.modules_eq
  rw [hmodules, List.getElem?_mapIdx] at hpm
  obtain ⟨sub, -, rfl⟩ := Option.map_eq_some_iff.mp hpm
  obtain ⟨j, hj, rfl⟩ := List.mem_mapIdx.mp hd
  rfl

namespace Model

variable {p : Package} {o : Options} {m : Model} {doc doc' : DocId} {r r' : NameRef}

/-- Where a name is looked up as seen from a document, and by which name. -/
def place (m : Model) (doc : DocId) (r : NameRef) : Option ImportTarget × String :=
  (match r.via with
    | none => some (.module doc.module)
    | some q => m.import? doc q.name,
  r.name.name)

/-- Names that are looked up alike denote one type. -/
theorem resolveType_eq_of_place_eq (h : m.place doc r = m.place doc' r') :
    m.resolveType doc r = m.resolveType doc' r' := by
  have hplace : ∀ doc r, m.resolveType doc r =
      match m.place doc r with
      | (some (.module index), name) => m.typeIn index name
      | (some .framework, name) => .framework (.ofPublic name)
      | (some .internal, name) => .framework (.ofInternal name)
      | (some (.external _), _) => .external
      | (none, _) => .unresolved := by
    intro doc r
    obtain ⟨via, name, span⟩ := r
    cases via with
    | none => rfl
    | some q =>
      simp only [resolveType, place]
      split <;> next heq => rw [heq]
  rw [hplace, hplace, h]

theorem module_of_valueIn (hp : p.IsRead) {i : Nat} {name : String} {item : Item}
    (h : (build p o).valueIn i name = .function item) : item.doc.module = i := by
  unfold valueIn at h
  split at h
  · next pm hpm =>
    split at h
    · next item' x hfound =>
      obtain ⟨d, hd, hx⟩ := List.mem_flatMap.mp (List.mem_reverse.mp (List.mem_of_find?_eq_some hfound))
      obtain ⟨j, hj, heq⟩ := List.mem_mapIdx.mp hx
      obtain ⟨rfl, rfl⟩ := Prod.mk.inj heq
      have hmodule := hp.module_eq hpm hd
      cases hmember : d.tree.members[j] with
      | function f =>
        rw [hmember] at h
        obtain rfl := Symbol.function.inj h
        exact hmodule
      | _ =>
        rw [hmember] at h
        cases h
    · cases h
  · cases h

/-- A function is looked up in the module of the document that declares it. -/
theorem place_of_resolveGlobal (hp : p.IsRead) {item : Item}
    (h : (build p o).resolveGlobal doc r = .function item) :
    (build p o).place doc r = (some (.module item.doc.module), r.name.name) := by
  obtain ⟨via, name, span⟩ := r
  cases via with
  | none =>
    have hmodule := module_of_valueIn hp h
    simp only [place, hmodule]
  | some q =>
    simp only [resolveGlobal] at h
    split at h
    · next index himport =>
      have hmodule := module_of_valueIn hp h
      simp only [place, himport, hmodule]
    all_goals cases h

end Model

/-! ### The casts of routed calls -/

namespace Routing

variable {p : Package} {o : Options} {d : Document} {s : Service} {c : RoutedCall}

/-- The cast of a call of an activity reads like the type that the activity returns if the kept
names of that type do, whichever way of telling types apart knows types by where they are looked
up. -/
theorem readAlike_returnTypeAt {α : Type} {denotes : DocId → NameRef → α} {m : Model}
    {doc : DocId} {callee : NameRef} {item : Item} {f : Function} {t : TypeDesc}
    (hcallee : m.place doc callee = (some (.module item.doc.module), callee.name.name))
    (hdenotes : ∀ {doc doc' r r'}, m.place doc r = m.place doc' r' → denotes doc r = denotes doc' r')
    (hreturns : f.returns = some t) :
    (returnTypeAt callee f).ReadAlike denotes doc item.doc t ↔
      ∀ x ∈ t.names, isKept x = true → denotes doc x.1 = denotes item.doc x.1 := by
  obtain ⟨htarget, -⟩ := Prod.mk.inj hcallee
  cases hvia : callee.via with
  | none =>
    rw [hvia] at htarget
    have hself : returnTypeAt callee f = t := by rw [returnTypeAt, hreturns, hvia]
    rw [hself]
    refine TypeDesc.readAlike_self (fun r hr => hdenotes ?_) t
    simp only [Model.place, hr, htarget]
  | some q =>
    rw [hvia] at htarget
    have hqualify : returnTypeAt callee f = t.qualify q.name := by
      rw [returnTypeAt, hreturns, hvia]
    rw [hqualify]
    refine TypeDesc.readAlike_qualify (fun r hr => hdenotes ?_) t
    simp only [Model.place, NameRef.qualify, hr, htarget]

/-- **The cast of a routed call means the type that the activity returns exactly if the names that
are left as they are mean the same at the call**: those with a prefix and those in defaults.  This
is so of the types that the names denote, and of where these are looked up. -/
theorem castType_exact (hp : p.IsRead) (hd : d ∈ p.documents) (hs : .service s ∈ d.tree.members)
    (hc : c ∈ routedCalls (.build p o) d.id d.source s) :
    ∃ item f, (Model.build p o).activity? d.id c.callee = some (item, f) ∧
      (f.returns = none → c.returns = .nil .synthetic) ∧
      ∀ t, f.returns = some t →
        (c.returns.ReadAlike (Model.build p o).resolveType d.id item.doc t ↔
          ∀ x ∈ t.names, isKept x = true →
            (Model.build p o).resolveType d.id x.1 = (Model.build p o).resolveType item.doc x.1) ∧
        (c.returns.ReadAlike (Model.build p o).place d.id item.doc t ↔
          ∀ x ∈ t.names, isKept x = true →
            (Model.build p o).place d.id x.1 = (Model.build p o).place item.doc x.1) := by
  obtain ⟨hmem, -⟩ := callee_of_routedCalls hp hd hs hc
  rw [routedCalls_eq] at hc
  obtain ⟨e, -, hcall⟩ := List.mem_filterMap.mp hc
  obtain ⟨_, _, item, f, -, hactivity, hcast, -⟩ := routedCall?_eq_some hcall
  have hsymbol := Model.symbol_of_activity? hactivity
  have hplace := Model.place_of_resolveGlobal hp (Model.resolveGlobal_of_symbol hp hd hmem hsymbol)
  refine ⟨item, f, hactivity, fun hnone => ?_, fun t ht => ?_⟩
  · rw [hcast, returnTypeAt, hnone]
  · rw [hcast]
    exact ⟨readAlike_returnTypeAt hplace Model.resolveType_eq_of_place_eq ht,
      readAlike_returnTypeAt hplace id ht⟩

/-- Calls of two activities.  One returns a type through the prefix `a`, which leads to another module
where it is called; the other returns a type of its own module, or one through the prefix `b`, which
leads to one module from both documents. -/
def callsAcross : List Source :=
  [⟨"main.wf", "import ballerina/workflow as w;import orders.m;import orders.b;import orders.b as a;"
      ++ "service on new w:Listener() \x7b isolated remote function execute() returns error? \x7b "
      ++ "int x = m:f(); int|string y = m:g(); \x7d \x7d"⟩,
    ⟨"modules/m/m.wf", "import ballerina/workflow as w;import orders.a;import orders.b;type U int;"
      ++ "@w:Activity function f() returns a:T \x7b return 1; \x7d "
      ++ "@w:Activity function g() returns U|b:T \x7b return 1; \x7d"⟩,
    ⟨"modules/a/a.wf", "type T int;"⟩,
    ⟨"modules/b/b.wf", "type T string;"⟩]

theorem callsAcross_routed : ∃ p d s a b i f t j g u, p.IsRead ∧
    (Check.check p {}).isClean = true ∧ d ∈ p.documents ∧ .service s ∈ d.tree.members ∧
    a ∈ routedCalls (Model.build p {}) d.id d.source s ∧
    b ∈ routedCalls (Model.build p {}) d.id d.source s ∧
    (Model.build p {}).activity? d.id a.callee = some (i, f) ∧ f.returns = some t ∧
    (Model.build p {}).activity? d.id b.callee = some (j, g) ∧ g.returns = some u ∧
    a.returns.names.map (fun x => ((Model.build p {}).resolveType d.id x.1).describe) ≠
      t.names.map (fun x => ((Model.build p {}).resolveType i.doc x.1).describe) ∧
    u.names.map isKept = [false, true] ∧
    ∀ x ∈ u.names, isKept x = true →
      (Model.build p {}).place d.id x.1 = (Model.build p {}).place j.doc x.1 := by
  have hcheck : ((Package.ofSources "acme" "orders" callsAcross).toOption.any fun p =>
      (Check.check p {}).isClean && p.documents.any fun d => (servicesOf d).any fun s =>
        (routedCalls (Model.build p {}) d.id d.source s).any fun a =>
        (routedCalls (Model.build p {}) d.id d.source s).any fun b =>
        ((Model.build p {}).activity? d.id a.callee).any fun x => x.2.returns.any fun t =>
        ((Model.build p {}).activity? d.id b.callee).any fun y => y.2.returns.any fun u =>
          a.returns.names.map (fun r => ((Model.build p {}).resolveType d.id r.1).describe) !=
            t.names.map (fun r => ((Model.build p {}).resolveType x.1.doc r.1).describe) &&
          u.names.map isKept == [false, true] && u.names.all fun r => !isKept r ||
            (Model.build p {}).place d.id r.1 == (Model.build p {}).place y.1.doc r.1) = true := by
    decide +kernel
  obtain ⟨p, hp, hcheck⟩ := Package.exists_of_any hcheck
  obtain ⟨hclean, hcheck⟩ := Bool.and_eq_true_iff.mp hcheck
  obtain ⟨d, hd, hcheck⟩ := List.any_eq_true.mp hcheck
  obtain ⟨s, hs, hcheck⟩ := List.any_eq_true.mp hcheck
  obtain ⟨a, ha, hcheck⟩ := List.any_eq_true.mp hcheck
  obtain ⟨b, hb, hcheck⟩ := List.any_eq_true.mp hcheck
  obtain ⟨⟨i, f⟩, hf, hcheck⟩ := (Option.any_eq_true _ _).mp hcheck
  obtain ⟨t, ht, hcheck⟩ := (Option.any_eq_true _ _).mp hcheck
  obtain ⟨⟨j, g⟩, hg, hcheck⟩ := (Option.any_eq_true _ _).mp hcheck
  obtain ⟨u, hu, hcheck⟩ := (Option.any_eq_true _ _).mp hcheck
  simp only [Bool.and_eq_true, bne_iff_ne, beq_iff_eq, List.all_eq_true, Bool.or_eq_true,
    Bool.not_eq_true'] at hcheck
  obtain ⟨⟨hother, hnames⟩, hkept⟩ := hcheck
  refine ⟨p, d, s, a, b, i, f, t, j, g, u, hp, hclean, hd, mem_servicesOf.mp hs, ha, hb, hf, ht, hg,
    hu, hother, hnames, fun x hx hisKept => ?_⟩
  exact (hkept x hx).resolve_left (by simp [hisKept])

/-- Where the prefix of a returned type leads to one module from both documents, the cast means what
was declared. -/
theorem castType_exact_of_callsAcross : ∃ p d s c item f t, p.IsRead ∧ d ∈ p.documents ∧
    .service s ∈ d.tree.members ∧ c ∈ routedCalls (Model.build p {}) d.id d.source s ∧
    (Model.build p {}).activity? d.id c.callee = some (item, f) ∧ f.returns = some t ∧
    t.names.map isKept = [false, true] ∧
    c.returns.ReadAlike (Model.build p {}).place d.id item.doc t := by
  obtain ⟨p, d, s, -, b, -, -, -, j, g, u, hp, -, hd, hs, -, hb, -, -, hg, hu, -, hnames, hkept⟩ :=
    callsAcross_routed
  obtain ⟨item, f, hf, -, hexact⟩ := castType_exact hp hd hs hb
  obtain ⟨rfl, rfl⟩ : item = j ∧ f = g := by simpa [hg, eq_comm] using hf
  exact ⟨p, d, s, b, item, f, u, hp, hd, hs, hb, hf, hu, hnames, (hexact u hu).2.mpr hkept⟩

/-- A name with a prefix of its own can denote another type where the activity is called. -/
theorem not_all_castType_exact : ¬ ∀ p : Package, p.IsRead → (Check.check p {}).isClean = true →
    ∀ d ∈ p.documents, ∀ s, .service s ∈ d.tree.members →
    ∀ c ∈ routedCalls (Model.build p {}) d.id d.source s, ∀ item f t,
      (Model.build p {}).activity? d.id c.callee = some (item, f) → f.returns = some t →
      c.returns.ReadAlike (Model.build p {}).resolveType d.id item.doc t := by
  intro hall
  obtain ⟨p, d, s, a, -, i, f, t, -, -, -, hp, hclean, hd, hs, ha, -, hf, ht, -, -, hother, -⟩ :=
    callsAcross_routed
  have halike := hall p hp hclean d hd s hs a ha i f t hf ht
  have hdescribe := congrArg (List.map TypeTarget.describe) halike
  rw [List.map_map, List.map_map] at hdescribe
  exact hother hdescribe

end Routing

end Durable
