/-
What is reported of a body.

A walk over a body carries along whether a critical section is open and where the word `var` of the
declaration around it stands.  It passes nothing over, so what it finds at a position depends only
on the node there and on what is around it.  A section is open at a position exactly if a `lock`
stands on the way there (`inLock_circumstances`): after a section, and between the end of an inner
one and the end of the one around it, the walk is again where it was before.  Declarations are not
nested at all, since they are made of annotations, types and expressions; so the word `var` is that
of the one declaration on the way, if its type is that word (`inferredType_circumstances`).

The findings about critical sections are therefore one for every reference that stands below a
`lock` and denotes a variable of a module that may change.  What it denotes is said by the
declarations around it in the whole document, and the type of the variable is judged in the document
that declares it.  The findings about inferred types are one for every call of an activity inside a
declaration with such a type, at the word `var`.
-/
import Durable.Rule.Body
import Durable.Proofs.Grammar.Occurrences
import Durable.Proofs.Rule.CallSite

namespace Durable

open Model (build LocalAt)

variable {p : Package} {o : Options} {d : Document} {way path : List Nat} {f : Function}

/-! ### Critical sections around a position -/

/-- A position inside a node is in a critical section of the node: a `lock` stands on the way to
it. -/
def Node.InLock (n : Node) (path : List Nat) : Prop :=
  ∃ above below body span, path = above ++ below ∧ below ≠ [] ∧
    n.at? above = some (.stmt (.lock body span))

theorem Node.inLock_iff {n : Node} :
    n.InLock path ↔ ∃ body span, n.Around path (.stmt (.lock body span)) := by
  constructor
  · rintro ⟨above, below, body, span, hlock⟩
    exact ⟨body, span, above, below, hlock⟩
  · rintro ⟨body, span, above, below, hlock⟩
    exact ⟨above, below, body, span, hlock⟩

theorem Node.inLock_cons {n c : Node} {i : Nat} (hc : n.children[i]? = some c) :
    n.InLock (i :: path) ↔ (∃ body span, n = .stmt (.lock body span)) ∨ c.InLock path := by
  simp only [inLock_iff, around_cons hc, exists_or]

/-! ### Inferred types around a position -/

/-- A position inside a node is in the declaration of a local variable whose type is the word `var`,
which stands at a place. -/
def Node.InInferred (n : Node) (path : List Nat) (place : Span) : Prop :=
  ∃ d, n.Around path (.localVar d) ∧ d.type = .inferred place

theorem Node.not_inInferred_nil (n : Node) (place : Span) : ¬ n.InInferred [] place :=
  fun ⟨_, haround, _⟩ => n.not_around_nil _ haround

theorem Node.inInferred_cons {n c : Node} {i : Nat} {place : Span}
    (hc : n.children[i]? = some c) : n.InInferred (i :: path) place ↔
      (∃ d, n = .localVar d ∧ d.type = .inferred place) ∨ c.InInferred path place := by
  simp only [InInferred, around_cons hc, or_and_right, exists_or]

/-- Nothing in an annotation, a type or an expression is in a declaration there. -/
theorem Node.not_around_localVar {n : Node} (h : n.isPlain = true) (d : LocalVar) :
    ¬ n.Around path (.localVar d) := by
  intro haround
  obtain ⟨above, hd⟩ := haround.at?
  exact Bool.false_ne_true (isPlain_of_at? h hd)

namespace Rule

/-- What is around the parts of a node of a body. -/
def Surroundings.inside (around : Surroundings) : Node → Surroundings
  | .stmt (.lock _ _) => { around with inLock := true }
  | .localVar d =>
    { around with inferredType := if d.type.isInferred then some d.type.span else none }
  | _ => around

theorem bodyNode_eq (m : Model) (doc : DocId) (around : Surroundings) (n : Node) :
    bodyNode m doc around n = ((bodyNode m doc around n).1, some (around.inside n)) := by
  cases n with
  | stmt s => cases s <;> rfl
  | expr e =>
    cases e with
    | call callee args span =>
      rw [bodyNode]
      split <;> rfl
    | _ => rfl
  | _ => rfl

theorem inLock_inside (around : Surroundings) (n : Node) : (around.inside n).inLock = true ↔
    around.inLock = true ∨ ∃ body span, n = .stmt (.lock body span) := by
  cases n with
  | stmt s => cases s <;> simp [Surroundings.inside]
  | _ => simp [Surroundings.inside]

/-- A walk finds a critical section open where one was open at its start or stands on the way. -/
theorem inLock_circumstances {n k : Node} (around : Surroundings) (h : n.at? path = some k) :
    (n.circumstances Surroundings.inside around path).inLock = true ↔
      around.inLock = true ∨ n.InLock path := by
  induction path generalizing n around with
  | nil => simp [Node.circumstances, Node.inLock_iff, n.not_around_nil]
  | cons i path ih =>
    obtain ⟨c, hc, hk⟩ := Node.at?_cons.mp h
    rw [Node.circumstances, hc, Node.inLock_cons hc, ← or_assoc, ← inLock_inside]
    exact ih (around.inside n) hk

theorem inside_of_isPlain (around : Surroundings) {n : Node} (h : n.isPlain = true) :
    around.inside n = around := by
  cases n <;> first | rfl | simp [Node.isPlain] at h

theorem circumstances_of_isPlain {n k : Node} (around : Surroundings) (h : n.isPlain = true)
    (hk : n.at? path = some k) : n.circumstances Surroundings.inside around path = around := by
  induction path generalizing n with
  | nil => rfl
  | cons i path ih =>
    obtain ⟨c, hc, hk⟩ := Node.at?_cons.mp hk
    rw [Node.circumstances, hc, inside_of_isPlain around h]
    exact ih (Node.isPlain_of_mem_children h (List.mem_of_getElem? hc)) hk

theorem inferredType_inside_localVar (around : Surroundings) (d : LocalVar) {place : Span} :
    (around.inside (.localVar d)).inferredType = some place ↔ d.type = .inferred place := by
  obtain ⟨_, _, t, _, _⟩ := d
  cases t <;> simp [Surroundings.inside, TypeDesc.isInferred, TypeDesc.span]

theorem inferredType_inside (around : Surroundings) {n : Node} (h : ∀ d, n ≠ .localVar d) :
    (around.inside n).inferredType = around.inferredType := by
  cases n with
  | stmt s => cases s <;> rfl
  | localVar d => exact absurd rfl (h d)
  | _ => rfl

/-- The inferred type that a walk knows of at a position is that of the declaration on the way
there, and the one it knew of at its start if there is no declaration. -/
theorem inferredType_circumstances {n k : Node} {place : Span} (around : Surroundings)
    (h : n.at? path = some k) :
    (n.circumstances Surroundings.inside around path).inferredType = some place ↔
      n.InInferred path place ∨
        (∀ d, ¬ n.Around path (.localVar d)) ∧ around.inferredType = some place := by
  induction path generalizing n around with
  | nil => simp [Node.circumstances, n.not_inInferred_nil, n.not_around_nil]
  | cons i path ih =>
    obtain ⟨c, hc, hk⟩ := Node.at?_cons.mp h
    simp only [Node.circumstances, hc, Node.inInferred_cons hc, Node.around_cons hc]
    by_cases hdecl : ∃ d, n = .localVar d
    · -- What the walk takes from the declaration is kept: there is no other declaration below it.
      obtain ⟨d, rfl⟩ := hdecl
      have hplain := LocalVar.isPlain_of_mem_children (List.mem_of_getElem? hc)
      have hnone : ¬ c.InInferred path place :=
        fun ⟨d', haround, _⟩ => Node.not_around_localVar hplain d' haround
      rw [circumstances_of_isPlain _ hplain hk, inferredType_inside_localVar]
      constructor
      · exact fun htype => .inl (.inl ⟨d, rfl, htype⟩)
      · rintro ((⟨d', heq, htype⟩ | hin) | ⟨houtside, -⟩)
        · exact (Node.localVar.inj heq) ▸ htype
        · exact absurd hin hnone
        · exact absurd (.inl rfl) (houtside d)
    · have hother : ∀ d, n ≠ .localVar d := not_exists.mp hdecl
      rw [ih (around.inside n) hk, inferredType_inside around hother]
      simp [hother]

/-- What is found in a body is found at its positions, one after another. -/
theorem bodyFindings_eq (m : Model) (doc : DocId) (f : Function) : bodyFindings m doc f =
    (Node.block f.body).outline.positions.flatMap fun x =>
      (bodyNode m doc
        ((Node.block f.body).circumstances Surroundings.inside ⟨false, none⟩ x.1) x.2).1 :=
  Outline.walk_eq_flatMap (bodyNode_eq m doc) _ _ _ rfl

/-! ### Variables that may change -/

/-- A symbol is a variable of a module that is isolated and may change: it is not configured, and
not both final and of a type that is read-only where the variable is declared. -/
def IsMutableGlobal (m : Model) (s : Symbol) : Prop :=
  ∃ item v, s = .moduleVar item ∧ m.package.moduleVar? item = some v ∧
    v.modifiers.has .isolated = true ∧ v.modifiers.has .configurable = false ∧
    ¬ (v.modifiers.has .final = true ∧ m.isReadonly item.doc v.type = true)

theorem isGuardedMutable_iff {m : Model} {item : Item} {v : VarDecl} :
    isGuardedMutable m item v = true ↔
      v.modifiers.has .isolated = true ∧ v.modifiers.has .configurable = false ∧
      ¬ (v.modifiers.has .final = true ∧ m.isReadonly item.doc v.type = true) := by
  simp [isGuardedMutable, and_assoc, imp_iff_not_or]

/-- The variable of a module that a symbol is. -/
def moduleVar? (m : Model) : Symbol → Option (Item × VarDecl)
  | .moduleVar item => (m.package.moduleVar? item).map (item, ·)
  | _ => none

theorem isMutableGlobal_iff {m : Model} {s : Symbol} : IsMutableGlobal m s ↔
    ((moduleVar? m s).any fun x => isGuardedMutable m x.1 x.2) = true := by
  rw [Option.any_eq_true]
  constructor
  · rintro ⟨item, v, rfl, hv, hguarded⟩
    exact ⟨(item, v), by rw [moduleVar?, hv, Option.map_some], isGuardedMutable_iff.mpr hguarded⟩
  · rintro ⟨x, hx, hguarded⟩
    unfold moduleVar? at hx
    split at hx
    · next item =>
      obtain ⟨v, hv, rfl⟩ := Option.map_eq_some_iff.mp hx
      exact ⟨item, v, rfl, hv, isGuardedMutable_iff.mp hguarded⟩
    · simp at hx

instance (m : Model) (s : Symbol) : Decidable (IsMutableGlobal m s) :=
  decidable_of_iff _ isMutableGlobal_iff.symm

theorem lockedReference_eq (m : Model) (doc : DocId) (r : NameRef) : lockedReference m doc r =
    if IsMutableGlobal m (m.symbol doc r) then [⟨.mutableInLock r.asWritten, r.span⟩] else [] := by
  have hany : lockedReference m doc r =
      if ((moduleVar? m (m.symbol doc r)).any fun x => isGuardedMutable m x.1 x.2) = true then
        [⟨.mutableInLock r.asWritten, r.span⟩] else [] := by
    rw [lockedReference]
    cases m.symbol doc r with
    | moduleVar item =>
      cases hv : m.package.moduleVar? item <;> simp [moduleVar?, hv]
    | _ => rfl
  exact hany.trans (if_congr isMutableGlobal_iff.symm rfl rfl)

/-! ### References in critical sections -/

/-- The reference that a node is, if it denotes a variable of a module that may change. -/
def mutableRef? (m : Model) (doc : DocId) : Node → Option NameRef
  | .ref r => if IsMutableGlobal m (m.symbol doc r) then some r else none
  | _ => none

theorem mutableRef?_eq_some {m : Model} {doc : DocId} {n : Node} {r : NameRef} :
    mutableRef? m doc n = some r ↔ n = .ref r ∧ IsMutableGlobal m (m.symbol doc r) := by
  constructor
  · intro h
    unfold mutableRef? at h
    split at h
    · next r' =>
      split at h
      · next hmutable =>
        obtain rfl := Option.some.inj h
        exact ⟨rfl, hmutable⟩
      · simp at h
    · simp at h
  · rintro ⟨rfl, hmutable⟩
    exact if_pos hmutable

/-- Of a node only a reference in a critical section is found to break the rule about these. -/
theorem filter_bodyNode (m : Model) (doc : DocId) (around : Surroundings) (n : Node) :
    (bodyNode m doc around n).1.filter (·.violation.number == 108) =
      if around.inLock = true then
        (mutableRef? m doc n).elim [] fun r => [⟨.mutableInLock r.asWritten, r.span⟩]
      else [] := by
  cases n with
  | ref r =>
    rw [bodyNode, lockedReference_eq, mutableRef?]
    by_cases hmutable : IsMutableGlobal m (m.symbol doc r)
    · rw [if_pos hmutable, if_pos hmutable]
      cases around.inLock <;> rfl
    · rw [if_neg hmutable, if_neg hmutable]
      cases around.inLock <;> rfl
  | expr e =>
    cases e with
    | call callee args span =>
      rw [bodyNode]
      split <;> exact (ite_self _).symm
    | _ => exact (ite_self _).symm
  | stmt s => cases s <;> exact (ite_self _).symm
  | _ => exact (ite_self _).symm

open Classical in
/-- The findings about critical sections are those of the references that stand below a `lock`. -/
theorem filter_bodyFindings (m : Model) (doc : DocId) (f : Function) :
    (bodyFindings m doc f).filter (·.violation.number == 108) =
      (Node.block f.body).outline.positions.flatMap fun x =>
        (if (Node.block f.body).InLock x.1 then mutableRef? m doc x.2 else none).elim []
          fun r => [⟨.mutableInLock r.asWritten, r.span⟩] := by
  rw [bodyFindings_eq, List.filter_flatMap]
  refine List.flatMap_congr fun x hx => ?_
  have hopen := inLock_circumstances ⟨false, none⟩ (Node.mem_positions.mp hx)
  rw [filter_bodyNode]
  by_cases hlock : (Node.block f.body).InLock x.1
  · rw [if_pos (hopen.mpr (.inr hlock)), if_pos hlock]
  · rw [if_neg fun h => hlock ((hopen.mp h).resolve_left Bool.false_ne_true), if_neg hlock]
    rfl

/-- A reference that denotes a local name denotes no variable of a module. -/
theorem isMutableGlobal_symbol_iff (hp : p.IsRead) (hd : d ∈ p.documents) {r : NameRef}
    (hr : (Node.module d.tree).at? path = some (.ref r)) :
    IsMutableGlobal (build p o) ((build p o).symbol d.id r) ↔
      ¬ LocalAt d path r ∧ IsMutableGlobal (build p o) ((build p o).resolveGlobal d.id r) := by
  rw [Model.symbol_eq_ite hp hd hr]
  by_cases hlocal : LocalAt d path r
  · simp [hlocal, IsMutableGlobal]
  · simp [hlocal]

/-- **The rule about critical sections is exact.**  The findings about critical sections are one for
every reference in the body that has a `lock` among what it stands in and that no local name stands
in front of and that denotes, in its module, a variable that may change; each lies at the reference,
and they are in the order of the positions of the references. -/
theorem mutableInLock_exact (hp : p.IsRead) (hd : d ∈ p.documents)
    (hf : (Node.module d.tree).at? way = some (.function f)) :
    ∃ found : List (List Nat × NameRef),
      Enumerates (fun path r => (Node.block f.body).at? path = some (.ref r) ∧
        (Node.block f.body).InLock path ∧ ¬ LocalAt d (way ++ f.bodyAt :: path) r ∧
        IsMutableGlobal (build p o) ((build p o).resolveGlobal d.id r)) found ∧
      (bodyFindings (build p o) d.id f).filter (·.violation.number == 108) =
        found.map fun x => ⟨.mutableInLock x.2.asWritten, x.2.span⟩ := by
  classical
  obtain ⟨found, hfound, hreport⟩ := (Node.block f.body).exists_enumerates
    (fun path n =>
      if (Node.block f.body).InLock path then mutableRef? (build p o) d.id n else none)
    fun r => [(⟨.mutableInLock r.asWritten, r.span⟩ : Finding)]
  refine ⟨found, hfound.congr fun path r => ?_, ?_⟩
  · have hsymbol : (Node.block f.body).at? path = some (.ref r) →
        (IsMutableGlobal (build p o) ((build p o).symbol d.id r) ↔
          ¬ LocalAt d (way ++ f.bodyAt :: path) r ∧
            IsMutableGlobal (build p o) ((build p o).resolveGlobal d.id r)) :=
      fun hr => isMutableGlobal_symbol_iff hp hd ((Node.at?_bodyAt hf path).trans hr)
    constructor
    · rintro ⟨n, hn, hlocked⟩
      obtain ⟨hlock, hfind⟩ := Option.ite_none_right_eq_some.mp hlocked
      obtain ⟨rfl, hmutable⟩ := mutableRef?_eq_some.mp hfind
      exact ⟨hn, hlock, (hsymbol hn).mp hmutable⟩
    · rintro ⟨hn, hlock, hmutable⟩
      refine ⟨.ref r, hn, ?_⟩
      rw [if_pos hlock]
      exact mutableRef?_eq_some.mpr ⟨rfl, (hsymbol hn).mpr hmutable⟩
  · rw [filter_bodyFindings, List.map_eq_flatMap]
    exact hreport

/-- A body that writes a variable of the module before, in, between and behind critical sections,
and in one of them a local variable of its name. -/
def locksTwice : Source where
  path := "main.wf"
  text := "isolated int x = 0;\n"
    ++ "function f() \x7b x = 1; lock \x7b x = 2; lock \x7b x = 3; \x7d x = 4; "
    ++ "\x7b int x = 5; x = 6; \x7d \x7d x = 7; \x7d\n"

/-- The rule about critical sections is broken in both sections and between their ends. -/
theorem locksTwice_reported : ∃ p d f, p.IsRead ∧ d ∈ p.documents ∧
    (Node.module d.tree).at? [1, 0] = some (.function f) ∧
    ∃ found : List (List Nat × NameRef), found.length = 3 ∧
      Enumerates (fun path r => (Node.block f.body).at? path = some (.ref r) ∧
        (Node.block f.body).InLock path ∧ ¬ LocalAt d ([1, 0] ++ f.bodyAt :: path) r ∧
        IsMutableGlobal (build p {}) ((build p {}).resolveGlobal d.id r)) found := by
  obtain ⟨p, d, f, hp, hd, hf, hcheck⟩ := Package.exists_function_of_any
    (show ((Package.ofSources "acme" "orders" [locksTwice]).toOption.any fun p =>
      p.documents.any fun d => (((Node.module d.tree).at? [1, 0]).bind Node.function?).any fun f =>
        ((bodyFindings (build p {}) d.id f).filter (·.violation.number == 108)).length == 3) = true
      by decide +kernel)
  obtain ⟨found, hfound, hlocked⟩ := mutableInLock_exact (o := {}) hp hd hf
  refine ⟨p, d, f, hp, hd, hf, found, ?_, hfound⟩
  rw [hlocked, List.length_map] at hcheck
  exact eq_of_beq hcheck

/-! ### Results of activities -/

/-- Of a node only a call of an activity where a type is inferred is found to break the rule about
these. -/
theorem filter_bodyNode_call (m : Model) (doc : DocId) (around : Surroundings) (n : Node) :
    (bodyNode m doc around n).1.filter (·.violation.number == 109) =
      ((activityCall? m doc n).bind fun _ => around.inferredType).elim []
        fun place => [⟨.activityBoundToVar, place⟩] := by
  cases n with
  | ref r =>
    rw [bodyNode, lockedReference_eq]
    split
    · split <;> rfl
    · rfl
  | expr e =>
    cases e with
    | call callee args span =>
      rw [bodyNode, activityCall?, Routing.activityCallee?]
      cases around.inferredType with
      | none => simp
      | some place => cases m.activity? doc callee <;> rfl
    | _ => rfl
  | stmt s => cases s <;> rfl
  | _ => rfl

/-- The findings about inferred types are those of the calls of activities. -/
theorem filter_bodyFindings_call (m : Model) (doc : DocId) (f : Function) :
    (bodyFindings m doc f).filter (·.violation.number == 109) =
      (Node.block f.body).outline.positions.flatMap fun x =>
        ((activityCall? m doc x.2).bind fun _ => ((Node.block f.body).circumstances
          Surroundings.inside ⟨false, none⟩ x.1).inferredType).elim []
            fun place => [⟨.activityBoundToVar, place⟩] := by
  rw [bodyFindings_eq, List.filter_flatMap]
  exact List.flatMap_congr fun x _ => filter_bodyNode_call m doc _ x.2

/-- At a position of the body of a function stands a call of what is an activity there. -/
def ActivityCallAt (m : Model) (d : Document) (way : List Nat) (f : Function) (path : List Nat) :
    Prop :=
  ∃ r, CalleeAt f.body path r ∧ ∃ activity,
    m.ActivityAt d (way ++ f.bodyAt :: (path ++ [0])) r activity

theorem isSome_activityCall?_iff (hp : p.IsRead) (hd : d ∈ p.documents)
    (hf : (Node.module d.tree).at? way = some (.function f)) {n : Node}
    (hn : (Node.block f.body).at? path = some n) :
    (∃ r, activityCall? (build p o) d.id n = some r) ↔ ActivityCallAt (build p o) d way f path := by
  refine exists_congr fun r => ?_
  constructor
  · intro hcall
    cases n <;> simp only [activityCall?, reduceCtorEq] at hcall
    obtain ⟨⟨args, span, rfl⟩, hactivity⟩ := Routing.activityCallee?_eq_some.mp hcall
    have hcallee : CalleeAt f.body path r := ⟨args, span, hn⟩
    exact ⟨hcallee, (isSome_activity?_callee hp hd hf hcallee).mp hactivity⟩
  · rintro ⟨hcallee, hactivity⟩
    have hsome := (isSome_activity?_callee hp hd hf hcallee).mpr hactivity
    obtain ⟨args, span, hcall⟩ := hcallee
    obtain rfl := Option.some.inj (hn.symm.trans hcall)
    exact Routing.activityCallee?_eq_some.mpr ⟨⟨args, span, rfl⟩, hsome⟩

/-- The place of an inferred type in the body of a function is that of a word `var`. -/
theorem slice_of_inInferred (hp : p.IsRead) (hd : d ∈ p.documents)
    (hf : (Node.module d.tree).at? way = some (.function f)) {place : Span}
    (h : (Node.block f.body).InInferred path place) : d.source.slice place = "var" := by
  obtain ⟨decl, haround, htype⟩ := h
  obtain ⟨above, hdecl⟩ := haround.at?
  have hmem : Node.type (.inferred place) ∈ (Node.localVar decl).children :=
    List.mem_append_right _ (htype ▸ List.mem_cons_self)
  obtain ⟨i, hi⟩ := List.getElem?_of_mem hmem
  have hplace : (Node.module d.tree).at? (way ++ f.bodyAt :: (above ++ [i])) =
      some (.type (.inferred place)) := by
    rw [Node.at?_bodyAt hf, Node.at?_append_of_eq hdecl]
    exact Node.at?_cons.mpr ⟨_, hi, rfl⟩
  exact parseModule_slice_inferred (Package.IsRead.document_eq hp hd).2 hplace

/-- **The rule about inferred types is exact.**  The findings about inferred types are one for every
call in the body, at any depth, of what is an activity there that is inside the declaration of a
local variable whose type is the word `var` itself; each lies at that word, and they are in the
order of the positions of the calls. -/
theorem activityBoundToVar_exact (hp : p.IsRead) (hd : d ∈ p.documents)
    (hf : (Node.module d.tree).at? way = some (.function f)) :
    ∃ found : List (List Nat × Span),
      Enumerates (fun path place => ActivityCallAt (build p o) d way f path ∧
        (Node.block f.body).InInferred path place) found ∧
      (∀ x ∈ found, d.source.slice x.2 = "var") ∧
      (bodyFindings (build p o) d.id f).filter (·.violation.number == 109) =
        found.map fun x => ⟨.activityBoundToVar, x.2⟩ := by
  obtain ⟨found, hfound, hreport⟩ := (Node.block f.body).exists_enumerates
    (fun path n => (activityCall? (build p o) d.id n).bind fun _ =>
      ((Node.block f.body).circumstances Surroundings.inside ⟨false, none⟩ path).inferredType)
    fun place => [(⟨.activityBoundToVar, place⟩ : Finding)]
  have hexact : Enumerates (fun path place => ActivityCallAt (build p o) d way f path ∧
      (Node.block f.body).InInferred path place) found := by
    refine hfound.congr fun path place => ?_
    have htype : ∀ {n}, (Node.block f.body).at? path = some n →
        (((Node.block f.body).circumstances Surroundings.inside ⟨false, none⟩ path).inferredType
          = some place ↔ (Node.block f.body).InInferred path place) :=
      fun hn => (inferredType_circumstances _ hn).trans (by simp)
    constructor
    · rintro ⟨n, hn, hboth⟩
      obtain ⟨r, hcall, hplace⟩ := Option.bind_eq_some_iff.mp hboth
      exact ⟨(isSome_activityCall?_iff hp hd hf hn).mp ⟨r, hcall⟩, (htype hn).mp hplace⟩
    · rintro ⟨hcall, hplace⟩
      obtain ⟨_, ⟨_, _, hn⟩, -⟩ := id hcall
      obtain ⟨r, hcall⟩ := (isSome_activityCall?_iff hp hd hf hn).mpr hcall
      exact ⟨_, hn, Option.bind_eq_some_iff.mpr ⟨r, hcall, (htype hn).mpr hplace⟩⟩
  refine ⟨found, hexact, fun x hx => ?_, ?_⟩
  · exact slice_of_inInferred hp hd hf ((hexact.exact x.1 x.2).mp hx).2
  · rw [filter_bodyFindings_call, List.map_eq_flatMap]
    exact hreport

/-- A process that calls an activity in three declarations, of which two have an inferred type and
the third only one that contains the word; the first calls it twice. -/
def infersTwice : Source where
  path := "main.wf"
  text := "import ballerina/workflow;\n"
    ++ "@workflow:Activity function fetch(int id) returns int \x7b return id; \x7d\n"
    ++ "function run() \x7b var a = fetch(fetch(1)); lock \x7b var b = (fetch(2)); \x7d "
    ++ "var? c = fetch(3); a = fetch(4); \x7d\n"

/-- Three calls are reported: the two of one declaration, and the one in the critical section. -/
theorem infersTwice_reported : ∃ p d f, p.IsRead ∧ d ∈ p.documents ∧
    (Node.module d.tree).at? [1, 0] = some (.function f) ∧
    ∃ found : List (List Nat × Span), found.length = 3 ∧
      Enumerates (fun path place => ActivityCallAt (build p {}) d [1, 0] f path ∧
        (Node.block f.body).InInferred path place) found := by
  obtain ⟨p, d, f, hp, hd, hf, hcheck⟩ := Package.exists_function_of_any
    (show ((Package.ofSources "acme" "orders" [infersTwice]).toOption.any fun p =>
      p.documents.any fun d => (((Node.module d.tree).at? [1, 0]).bind Node.function?).any fun f =>
        ((bodyFindings (build p {}) d.id f).filter (·.violation.number == 109)).length == 3) = true
      by decide +kernel)
  obtain ⟨found, hfound, -, hbound⟩ := activityBoundToVar_exact (o := {}) hp hd hf
  refine ⟨p, d, f, hp, hd, hf, found, ?_, hfound⟩
  rw [hbound, List.length_map] at hcheck
  exact eq_of_beq hcheck

end Rule

end Durable
