/-
Types judged without a limit.

`Model.Admits` says which types stay within what is admitted, by the structure of types alone: it
follows names to their definitions as often as it takes.  The judgement that is carried out takes
`typeDepth` steps at most, and what it has not seen by then it accepts.  So it never refuses a type
that `Admits` holds of, and the two agree on types that end within so many steps.

Among those, no type is accepted that has a component of another kind in it, however far inside: a
function, a stream, a future, a handle, or what may be any of these.  An intersection has it in it
if each of its members does.

Wherever the judgement stops, it accepts no less where more is admitted: what is admitted of a
component is either what is admitted of the whole or plain data, whatever the whole may be.
-/
import Durable.Model.Types
import Durable.Proofs.Package.Sources

namespace Durable

/-! ### The judgement without a limit -/

/-- A type stays within what is admitted.  What a name leads to out of the package is taken to. -/
inductive Model.Admits (m : Model) : DocId → Admitted → TypeDesc → Prop
  | builtin {doc : DocId} {a : Admitted} {b : BuiltinType} {s : Span}
      (fits : a.fitsBuiltin b = true) : Admits m doc a (.builtin b s)
  | nil {doc : DocId} {a : Admitted} {s : Span} (nil : a.nil = true) : Admits m doc a (.nil s)
  | nilValue {doc : DocId} {a : Admitted} {s : Span} (nil : a.nil = true) :
      Admits m doc a (.singleton .nil s)
  | value {doc : DocId} {a : Admitted} {v : Literal} {s : Span} (notNil : v ≠ .nil)
      (anydata : a.anydata = true) : Admits m doc a (.singleton v s)
  | inferred {doc : DocId} {a : Admitted} {s : Span} : Admits m doc a (.inferred s)
  | paren {doc : DocId} {a : Admitted} {t : TypeDesc} {s : Span} (inner : Admits m doc a t) :
      Admits m doc a (.paren t s)
  | optional {doc : DocId} {a : Admitted} {t : TypeDesc} {s : Span} (nil : a.nil = true)
      (inner : Admits m doc a t) : Admits m doc a (.optional t s)
  | array {doc : DocId} {a : Admitted} {t : TypeDesc} {s : Span} (anydata : a.anydata = true)
      (inner : Admits m doc .plain t) : Admits m doc a (.array t s)
  | map {doc : DocId} {a : Admitted} {t : TypeDesc} {s : Span} (anydata : a.anydata = true)
      (inner : Admits m doc .plain t) : Admits m doc a (.map t s)
  | union {doc : DocId} {a : Admitted} {ts : List TypeDesc} {s : Span}
      (members : ∀ t ∈ ts, Admits m doc a t) : Admits m doc a (.union ts s)
  | intersection {doc : DocId} {a : Admitted} {ts : List TypeDesc} {s : Span} {t : TypeDesc}
      (isMember : t ∈ ts) (member : Admits m doc a t) : Admits m doc a (.intersection ts s)
  | record {doc : DocId} {a : Admitted} {closed : Bool} {fs : List RecordField}
      {rest : Option TypeDesc} {s : Span} (anydata : a.anydata = true)
      (fields : ∀ f ∈ fs, Admits m doc .plain f.type)
      (others : ∀ t ∈ rest, Admits m doc .plain t) : Admits m doc a (.record closed fs rest s)
  | defined {doc doc' : DocId} {a : Admitted} {r : NameRef} {d : TypeDef}
      (leads : m.resolveType doc r = .defined doc' d) (definition : Admits m doc' a d.type) :
      Admits m doc a (.named r)
  | external {doc : DocId} {a : Admitted} {r : NameRef} (leads : m.resolveType doc r = .external) :
      Admits m doc a (.named r)
  | unresolved {doc : DocId} {a : Admitted} {r : NameRef}
      (leads : m.resolveType doc r = .unresolved) : Admits m doc a (.named r)

namespace Model

variable {m : Model} {doc : DocId} {a : Admitted} {t : TypeDesc}

/-- What is admitted is accepted, however few steps are taken. -/
theorem Admits.fits (h : m.Admits doc a t) (depth : Nat) : m.fits depth doc a t = true := by
  induction depth generalizing doc a t with
  | zero => rfl
  | succ depth ih =>
    cases h with
    | builtin hb | nil hb | nilValue hb => exact hb
    | inferred => rfl
    | value notNil anydata =>
      rw [Model.fits]
      · exact anydata
      · exact notNil
    | paren inner => exact ih inner
    | optional hb inner | array hb inner | map hb inner =>
      rw [Model.fits, hb, ih inner]
      rfl
    | union members => exact List.all_eq_true.mpr fun t ht => ih (members t ht)
    | intersection isMember member => exact List.any_eq_true.mpr ⟨_, isMember, ih member⟩
    | @record _ _ closed fs rest s anydata fields others =>
      have hfields : fs.all (fun f => m.fits depth doc .plain f.type) = true :=
        List.all_eq_true.mpr fun f hf => ih (fields f hf)
      have hrest : rest.all (m.fits depth doc .plain) = true := by
        cases rest with
        | none => rfl
        | some t => exact ih (others t rfl)
      rw [Model.fits, anydata, hfields, hrest]
      rfl
    | defined leads definition =>
      rw [Model.fits, leads]
      exact ih definition
    | external leads | unresolved leads => rw [Model.fits, leads]

/-! ### Types that end within some steps -/

/-- The types one step into a type: its components, or the definition of its name.  Futures, streams
and functions are judged as they stand. -/
def components (m : Model) (doc : DocId) : TypeDesc → List (DocId × TypeDesc)
  | .paren t _ | .optional t _ | .array t _ | .map t _ => [(doc, t)]
  | .union ts _ | .intersection ts _ => ts.map (doc, ·)
  | .record _ fields rest _ => fields.map (doc, ·.type) ++ rest.toList.map (doc, ·)
  | .named r =>
    match m.resolveType doc r with
    | .defined doc d => [(doc, d.type)]
    | .framework _ | .external | .unresolved => []
  | .builtin _ _ | .nil _ | .inferred _ | .singleton _ _ | .future _ _ | .stream _ _ _
  | .anyFunction _ | .function _ _ _ _ => []

/-- No more than some steps lead into a type. -/
def endsWithin (m : Model) : (steps : Nat) → DocId → TypeDesc → Bool
  | 0, doc, t => (m.components doc t).isEmpty
  | steps + 1, doc, t => (m.components doc t).all fun (doc, t) => m.endsWithin steps doc t

/-- If the judgement is right one step into a type, it is right about the type. -/
theorem admits_of_fits_succ {depth : Nat}
    (hcomponents : ∀ x ∈ m.components doc t, ∀ a, m.fits depth x.1 a x.2 = true →
      m.Admits x.1 a x.2) (h : m.fits (depth + 1) doc a t = true) : m.Admits doc a t := by
  cases t with
  | builtin b s => exact .builtin h
  | nil s => exact .nil h
  | inferred s => exact .inferred
  | singleton v s =>
    by_cases hv : v = .nil
    · subst hv
      exact .nilValue h
    · rw [Model.fits] at h
      · exact .value hv h
      · exact hv
  | paren u s => exact .paren (hcomponents (doc, u) (List.mem_singleton_self _) a h)
  | optional u s =>
    obtain ⟨hnil, hinner⟩ := Bool.and_eq_true_iff.mp h
    exact .optional hnil (hcomponents (doc, u) (List.mem_singleton_self _) a hinner)
  | array u s =>
    obtain ⟨hdata, hinner⟩ := Bool.and_eq_true_iff.mp h
    exact .array hdata (hcomponents (doc, u) (List.mem_singleton_self _) .plain hinner)
  | map u s =>
    obtain ⟨hdata, hinner⟩ := Bool.and_eq_true_iff.mp h
    exact .map hdata (hcomponents (doc, u) (List.mem_singleton_self _) .plain hinner)
  | union ts s =>
    refine .union fun u hu => hcomponents (doc, u) (List.mem_map_of_mem hu) a ?_
    exact List.all_eq_true.mp h u hu
  | intersection ts s =>
    obtain ⟨u, hu, hmember⟩ := List.any_eq_true.mp h
    exact .intersection hu (hcomponents (doc, u) (List.mem_map_of_mem hu) a hmember)
  | record closed fs rest s =>
    obtain ⟨hfields, hrest⟩ := Bool.and_eq_true_iff.mp h
    obtain ⟨hdata, hfields⟩ := Bool.and_eq_true_iff.mp hfields
    refine .record hdata (fun f hf => ?_) (fun u hu => ?_)
    · refine hcomponents (doc, f.type) (List.mem_append_left _ (List.mem_map_of_mem hf)) .plain ?_
      exact List.all_eq_true.mp hfields f hf
    · obtain rfl : rest = some u := hu
      exact hcomponents (doc, u) (List.mem_append_right _ (List.mem_singleton_self _)) .plain hrest
  | future | stream | anyFunction | function => contradiction
  | named r =>
    rw [Model.fits] at h
    cases hleads : m.resolveType doc r with
    | defined doc' d =>
      rw [hleads] at h
      refine .defined hleads (hcomponents (doc', d.type) ?_ a h)
      rw [components, hleads]
      exact List.mem_singleton_self _
    | framework item =>
      rw [hleads] at h
      contradiction
    | external => exact .external hleads
    | unresolved => exact .unresolved hleads

/-- What is accepted is admitted, if enough steps are taken to see all of it. -/
theorem admits_of_fits {steps : Nat} (hends : m.endsWithin steps doc t = true)
    (h : m.fits (steps + 1) doc a t = true) : m.Admits doc a t := by
  induction steps generalizing doc a t with
  | zero =>
    refine admits_of_fits_succ (fun x hx => ?_) h
    rw [List.isEmpty_iff.mp hends] at hx
    exact absurd hx List.not_mem_nil
  | succ steps ih =>
    exact admits_of_fits_succ (fun x hx _ => ih (List.all_eq_true.mp hends x hx)) h

theorem isWithin_iff (hends : m.endsWithin typeDepth doc t = true) :
    m.isWithin doc a t = true ↔ m.Admits doc a t :=
  ⟨admits_of_fits hends, fun h => h.fits _⟩

/-! ### What no admitted type has in it -/

end Model

/-- A type of values that are neither data nor errors: functions, streams, futures, handles, and
what may be anything. -/
def TypeDesc.isOpaque : TypeDesc → Bool
  | .function _ _ _ _ | .anyFunction _ | .stream _ _ _ | .future _ _ => true
  | .builtin .handle _ | .builtin .any _ => true
  | _ => false

/-- Somewhere inside a type is an opaque one; of an intersection, inside each of its members. -/
inductive Model.HidesOpaque (m : Model) : DocId → TypeDesc → Prop
  | self {doc : DocId} {t : TypeDesc} (isOpaque : t.isOpaque = true) : HidesOpaque m doc t
  | component {doc : DocId} {t : TypeDesc} {x : DocId × TypeDesc}
      (notIntersection : ∀ ts s, t ≠ .intersection ts s) (isComponent : x ∈ m.components doc t)
      (inside : HidesOpaque m x.1 x.2) : HidesOpaque m doc t
  | members {doc : DocId} {ts : List TypeDesc} {s : Span}
      (inside : ∀ t ∈ ts, HidesOpaque m doc t) : HidesOpaque m doc (.intersection ts s)

namespace Model

variable {m : Model} {doc : DocId} {a : Admitted} {t : TypeDesc}

/-- The components of an admitted type are admitted, unless it is an intersection. -/
theorem Admits.component (h : m.Admits doc a t) (hne : ∀ ts s, t ≠ .intersection ts s)
    {x : DocId × TypeDesc} (hx : x ∈ m.components doc t) : ∃ a', m.Admits x.1 a' x.2 := by
  cases h with
  | builtin | nil | nilValue | value | inferred => exact absurd hx List.not_mem_nil
  | paren inner | optional _ inner | array _ inner | map _ inner =>
    rw [List.mem_singleton.mp hx]
    exact ⟨_, inner⟩
  | union members =>
    obtain ⟨u, hu, rfl⟩ := List.mem_map.mp hx
    exact ⟨_, members u hu⟩
  | intersection => exact absurd rfl (hne _ _)
  | record _ fields others =>
    rcases List.mem_append.mp hx with hx | hx
    · obtain ⟨f, hf, rfl⟩ := List.mem_map.mp hx
      exact ⟨_, fields f hf⟩
    · obtain ⟨u, hu, rfl⟩ := List.mem_map.mp hx
      exact ⟨_, others u (Option.mem_toList.mp hu)⟩
  | defined leads definition =>
    rw [components, leads] at hx
    rw [List.mem_singleton.mp hx]
    exact ⟨_, definition⟩
  | external leads | unresolved leads =>
    rw [components, leads] at hx
    exact absurd hx List.not_mem_nil

theorem HidesOpaque.not_admits (h : m.HidesOpaque doc t) : ¬ m.Admits doc a t := by
  induction h generalizing a with
  | self isOpaque =>
    intro hadmits
    cases hadmits with
    | @builtin _ _ b s fits => cases b <;> contradiction
    | _ => contradiction
  | component notIntersection isComponent _ ih =>
    intro hadmits
    obtain ⟨a', hinside⟩ := hadmits.component notIntersection isComponent
    exact ih hinside
  | members _ ih =>
    intro hadmits
    cases hadmits with
    | intersection isMember member => exact ih _ isMember member

/-- **Types that end within the steps that are taken are judged exactly**, and none of those that
are accepted has an opaque component.  Of other types as well all are accepted that should be. -/
theorem isWithin_exact (m : Model) (doc : DocId) (t : TypeDesc) :
    (∀ a, m.Admits doc a t → m.isWithin doc a t = true) ∧
    (m.endsWithin typeDepth doc t = true →
      (m.isAnydata doc t = true ↔ m.Admits doc .plain t) ∧
      (m.isAnydataOrError doc t = true ↔ m.Admits doc .plainOrError t) ∧
      (m.isErrorOrNil doc t = true ↔ m.Admits doc .errorOrNil t) ∧
      (m.HidesOpaque doc t → m.isAnydata doc t = false ∧ m.isAnydataOrError doc t = false ∧
        m.isErrorOrNil doc t = false)) := by
  refine ⟨fun a hadmits => hadmits.fits _, fun hends => ?_⟩
  refine ⟨isWithin_iff hends, isWithin_iff hends, isWithin_iff hends, fun hhides => ?_⟩
  have hrefused : ∀ a, m.isWithin doc a t = false := by
    intro a
    rw [← Bool.not_eq_true, isWithin_iff hends]
    exact hhides.not_admits
  exact ⟨hrefused _, hrefused _, hrefused _⟩

/-- A module with a type of plain data and one that holds a function, both through another module. -/
def twoModules : List Source :=
  [⟨"main.wf", "import orders.m;\n"
      ++ "type Order record \x7b| string id; m:Lines? lines; |\x7d;\n"
      ++ "type Job record \x7b| Order order; m:Done[] done; |\x7d;\n"⟩,
    ⟨"modules/m/m.wf", "type Lines (int|float)[];\n"
      ++ "type Done readonly & function () returns int;\n"⟩]

theorem twoModules_exact : ∃ p d, p.IsRead ∧ d ∈ p.documents ∧
    (build p {}).endsWithin typeDepth d.id (.named (.synthetic none "Order")) = true ∧
    (build p {}).Admits d.id .plain (.named (.synthetic none "Order")) ∧
    (build p {}).endsWithin typeDepth d.id (.named (.synthetic none "Job")) = true ∧
    ¬ (build p {}).Admits d.id .plainOrError (.named (.synthetic none "Job")) := by
  obtain ⟨p, hp, hcheck⟩ := Package.exists_of_any (show ((Package.ofSources "acme" "orders"
      twoModules).toOption.any fun p => p.documents.any fun d =>
        let order := TypeDesc.named (.synthetic none "Order")
        let job := TypeDesc.named (.synthetic none "Job")
        (build p {}).endsWithin typeDepth d.id order && (build p {}).isAnydata d.id order &&
          (build p {}).endsWithin typeDepth d.id job && !(build p {}).isAnydataOrError d.id job)
      = true by decide +kernel)
  obtain ⟨d, hd, hcheck⟩ := List.any_eq_true.mp hcheck
  simp only [Bool.and_eq_true, Bool.not_eq_true'] at hcheck
  obtain ⟨⟨⟨horder, hplain⟩, hjob⟩, hrefused⟩ := hcheck
  refine ⟨p, d, hp, hd, horder, ((isWithin_exact _ _ _).2 horder).1.mp hplain, hjob, ?_⟩
  rw [← ((isWithin_exact _ _ _).2 hjob).2.1, hrefused]
  exact Bool.false_ne_true

/-- A chain of names to `any` that is one step too long. -/
def longChain : List Source :=
  [⟨"a.wf", "type a any;type b a;type c b;type d c;type e d;"
      ++ "type f e;type g f;type h g;type i h;"⟩,
    ⟨"b.wf", "type j i;type k j;type l k;type m l;"
      ++ "type n m;type o n;type p o;type q p;"⟩,
    ⟨"c.wf", "type r q;type s r;type t s;type u t;"
      ++ "type v u;type w v;type x w;type y x;"⟩,
    ⟨"d.wf", "type z y;type A z;type B A;type C B;"
      ++ "type D C;type E D;type F E;type G F;"⟩]

/-- A type that ends and is not admitted, but is accepted. -/
theorem longChain_accepted : ∃ p d, p.IsRead ∧ d ∈ p.documents ∧
    (build p {}).endsWithin 33 d.id (.named (.synthetic none "G")) = true ∧
    (build p {}).isAnydata d.id (.named (.synthetic none "G")) = true ∧
    ¬ (build p {}).Admits d.id .plain (.named (.synthetic none "G")) := by
  obtain ⟨p, hp, hcheck⟩ := Package.exists_of_any (show ((Package.ofSources "acme" "orders"
      longChain).toOption.any fun p => p.documents.any fun d =>
        let last := TypeDesc.named (.synthetic none "G")
        (build p {}).endsWithin 33 d.id last && (build p {}).isAnydata d.id last &&
          !(build p {}).fits 34 d.id .plain last) = true by decide +kernel)
  obtain ⟨d, hd, hcheck⟩ := List.any_eq_true.mp hcheck
  simp only [Bool.and_eq_true, Bool.not_eq_true'] at hcheck
  obtain ⟨⟨hends, haccepted⟩, hrefused⟩ := hcheck
  refine ⟨p, d, hp, hd, hends, haccepted, fun hadmits => ?_⟩
  -- With one step more the end of the chain is seen.
  rw [hadmits.fits 34] at hrefused
  contradiction

/-- A type can end, be accepted and hold anything, if it ends too far away; and an accepted
intersection can have an opaque member. -/
theorem not_all_isWithin_exact :
    (¬ ∀ p : Package, p.IsRead → ∀ d ∈ p.documents, ∀ t,
      (∃ steps, (build p {}).endsWithin steps d.id t = true) →
        ((build p {}).isAnydata d.id t = true ↔ (build p {}).Admits d.id .plain t)) ∧
    ¬ ∀ p : Package, p.IsRead → ∀ d ∈ p.documents, ∀ t, (build p {}).isAnydata d.id t = true →
      ∀ x ∈ (build p {}).components d.id t, x.2.isOpaque = false := by
  obtain ⟨p, d, hp, hd, hends, haccepted, hrefused⟩ := longChain_accepted
  constructor
  · intro hexact
    exact hrefused ((hexact p hp d hd _ ⟨33, hends⟩).mp haccepted)
  · intro hnone
    let handle := TypeDesc.builtin .handle .synthetic
    let both := TypeDesc.intersection [.builtin .int .synthetic, handle] .synthetic
    have hmember : (d.id, handle) ∈ (build p {}).components d.id both :=
      List.mem_cons_of_mem _ (List.mem_singleton_self _)
    exact Bool.noConfusion (hnone p hp d hd both rfl _ hmember)

end Model

/-! ### Admitting more -/

/-- What is admitted on one side is admitted on the other. -/
structure Admitted.Within (a b : Admitted) : Prop where
  anydata : a.anydata = true → b.anydata = true
  error : a.error = true → b.error = true
  nil : a.nil = true → b.nil = true

namespace Admitted

theorem plain_within : Within plain plainOrError := ⟨id, fun _ => rfl, id⟩

theorem errorOrNil_within : Within errorOrNil plainOrError := ⟨fun _ => rfl, id, id⟩

theorem Within.fitsBuiltin {a b : Admitted} (h : a.Within b) {t : BuiltinType}
    (hfits : a.fitsBuiltin t = true) : b.fitsBuiltin t = true := by
  cases t with
  | int | float | decimal | string | boolean | byte | anydata | json | xml => exact h.anydata hfits
  | error => exact h.error hfits
  | never => rfl
  | any | readonly | handle | typedesc => contradiction

end Admitted

namespace Model

variable {m : Model} {doc : DocId} {a b : Admitted} {t : TypeDesc}

/-- Where more is admitted no type is refused that was accepted, however few steps are taken. -/
theorem fits_mono (hab : a.Within b) {depth : Nat} (h : m.fits depth doc a t = true) :
    m.fits depth doc b t = true := by
  -- Names lead to other documents, so the induction is on the steps and not on the type.
  induction depth generalizing doc t with
  | zero => rfl
  | succ depth ih =>
    cases t with
    | builtin c s => exact hab.fitsBuiltin h
    | nil s => exact hab.nil h
    | inferred s => rfl
    | singleton v s =>
      cases v with
      | nil => exact hab.nil h
      | _ => exact hab.anydata h
    | paren u s => exact ih h
    | optional u s =>
      obtain ⟨hnil, hinner⟩ := Bool.and_eq_true_iff.mp h
      exact Bool.and_eq_true_iff.mpr ⟨hab.nil hnil, ih hinner⟩
    | array u s | map u s =>
      obtain ⟨hdata, hinner⟩ := Bool.and_eq_true_iff.mp h
      exact Bool.and_eq_true_iff.mpr ⟨hab.anydata hdata, hinner⟩
    | union ts s =>
      rw [Model.fits, List.all_eq_true] at h ⊢
      intro u hu
      exact ih (h u hu)
    | intersection ts s =>
      rw [Model.fits, List.any_eq_true] at h ⊢
      obtain ⟨u, hu, hmember⟩ := h
      exact ⟨u, hu, ih hmember⟩
    | record closed fs rest s =>
      rw [Model.fits, Bool.and_assoc, Bool.and_eq_true_iff] at h ⊢
      exact ⟨hab.anydata h.1, h.2⟩
    | future | stream | anyFunction | function => contradiction
    | named r =>
      rw [Model.fits] at h ⊢
      cases hleads : m.resolveType doc r with
      | defined doc' d =>
        rw [hleads] at h
        exact ih h
      | framework item =>
        rw [hleads] at h
        contradiction
      | external | unresolved => rfl

/-- **The judgements on types are ordered**: plain data is plain data or an error, and so is an
error or nothing.  This holds of every type, also where names lead round in circles or out of the package,
and wherever the limit of the steps falls. -/
theorem isAnydataOrError_of_narrower (m : Model) (doc : DocId) (t : TypeDesc) :
    (m.isAnydata doc t = true → m.isAnydataOrError doc t = true) ∧
      (m.isErrorOrNil doc t = true → m.isAnydataOrError doc t = true) :=
  ⟨fits_mono Admitted.plain_within, fits_mono Admitted.errorOrNil_within⟩

/-- Types that name each other, one that names itself, and one that leads out of the package by way
of another module. -/
def circularTypes : List Source :=
  [⟨"main.wf", "import orders.m;\n"
      ++ "type Tree record \x7b| Forest children; m:Far note; |\x7d;\n"
      ++ "type Forest Tree[];\n"
      ++ "type Loop Loop|error?;\n"⟩,
    ⟨"modules/m/m.wf", "import other/lib;\ntype Far lib:Text;\n"⟩]

theorem circularTypes_ordered : ∃ p d, p.IsRead ∧ d ∈ p.documents ∧
    (build p {}).isAnydata d.id (.named (.synthetic none "Tree")) = true ∧
    (build p {}).isAnydataOrError d.id (.named (.synthetic none "Tree")) = true ∧
    (build p {}).isErrorOrNil d.id (.named (.synthetic none "Loop")) = true ∧
    (build p {}).isAnydata d.id (.named (.synthetic none "Loop")) = false ∧
    (build p {}).isAnydataOrError d.id (.named (.synthetic none "Loop")) = true := by
  obtain ⟨p, hp, hcheck⟩ := Package.exists_of_any (show ((Package.ofSources "acme" "orders"
      circularTypes).toOption.any fun p => p.documents.any fun d =>
        let tree := TypeDesc.named (.synthetic none "Tree")
        let loop := TypeDesc.named (.synthetic none "Loop")
        (build p {}).isAnydata d.id tree && (build p {}).isErrorOrNil d.id loop &&
          !(build p {}).isAnydata d.id loop) = true by decide +kernel)
  obtain ⟨d, hd, hcheck⟩ := List.any_eq_true.mp hcheck
  simp only [Bool.and_eq_true, Bool.not_eq_true'] at hcheck
  obtain ⟨⟨htree, hloop⟩, hdata⟩ := hcheck
  exact ⟨p, d, hp, hd, htree, (isAnydataOrError_of_narrower _ _ _).1 htree, hloop, hdata,
    (isAnydataOrError_of_narrower _ _ _).2 hloop⟩

end Model

end Durable
