/-
Which calls of activities are reported.

The rules for calls look at every node of a body, so what they report is said by positions.  A call
past the context is reported at the position of every call of an activity, and at no other.  A call
through the context has one of five outcomes, by what its first argument names and by what its
second one is; `DispatchOutcome` lists them without saying how they are found, and what is reported
is their concatenation over all such calls in reading order.

What a callee denotes is said by the declarations around the position where it stands, in the
document as a whole: the body is what stands behind the last index of its function, so the position
of a call in the document is the way to the function, that index, and the position in the body.
-/
import Durable.Rule.CallSite
import Durable.Proofs.Model.Scoping
import Durable.Proofs.Package.Canonical
import Durable.Proofs.Routing.Mediation

namespace Durable

open Model (build)

variable {p : Package} {o : Options} {d : Document} {way path : List Nat} {f : Function}

namespace Rule

/-! ### Calls past the context -/

/-- The reference by which a node calls an activity, if it is such a call. -/
def activityCall? (m : Model) (doc : DocId) : Node → Option NameRef
  | .expr e => Routing.activityCallee? m doc e
  | _ => none

theorem directNode_eq (m : Model) (doc : DocId) (n : Node) : directNode m doc n =
    (activityCall? m doc n).elim [] fun r => [⟨.directCall r.asWritten, r.span⟩] := by
  cases n with
  | expr e =>
    cases e with
    | call callee args span =>
      rw [directNode, activityCall?, Routing.activityCallee?]
      by_cases h : (m.activity? doc callee).isSome = true
      · rw [if_pos h, if_pos h, Option.elim_some]
      · rw [if_neg h, if_neg h, Option.elim_none]
    | _ => rfl
  | _ => rfl

/-- A reference stands at a position of a body as the callee of a call. -/
def CalleeAt (body : Block) (path : List Nat) (r : NameRef) : Prop :=
  ∃ args span, (Node.block body).at? path = some (.expr (.call r args span))

/-- What the table of symbols says of a callee is what the declarations around it say. -/
theorem isSome_activity?_callee (hp : p.IsRead) (hd : d ∈ p.documents)
    (hf : (Node.module d.tree).at? way = some (.function f)) {r : NameRef}
    (hr : CalleeAt f.body path r) : ((build p o).activity? d.id r).isSome = true ↔
      ∃ activity, (build p o).ActivityAt d (way ++ f.bodyAt :: (path ++ [0])) r activity := by
  obtain ⟨args, span, hcall⟩ := hr
  refine Model.isSome_activity?_iff hp hd ?_
  rw [Node.at?_bodyAt hf, Node.at?_append_of_eq hcall]
  rfl

/-- **The calls past the context are reported exactly.**  One finding for every call in the body, at
any depth, whose callee is the name of an activity where it stands; each lies at the callee, and
they are in the order of the positions of the calls. -/
theorem directCalls_exact (hp : p.IsRead) (hd : d ∈ p.documents)
    (hf : (Node.module d.tree).at? way = some (.function f)) :
    ∃ found : List (List Nat × NameRef),
      Enumerates (fun path r => CalleeAt f.body path r ∧ ∃ activity,
        (build p o).ActivityAt d (way ++ f.bodyAt :: (path ++ [0])) r activity) found ∧
      directCalls (build p o) d.id f =
        found.map fun x => ⟨.directCall x.2.asWritten, x.2.span⟩ := by
  obtain ⟨found, hfound, hreport⟩ :=
    (Node.block f.body).exists_enumerates_nodes (directNode_eq (build p o) d.id)
  refine ⟨found, hfound.congr fun path r => ?_, hreport.trans List.map_eq_flatMap.symm⟩
  constructor
  · rintro ⟨n, hn, hcall⟩
    cases n <;> simp only [activityCall?, reduceCtorEq] at hcall
    obtain ⟨⟨args, span, rfl⟩, hactivity⟩ := Routing.activityCallee?_eq_some.mp hcall
    have hcallee : CalleeAt f.body path r := ⟨args, span, hn⟩
    exact ⟨hcallee, (isSome_activity?_callee hp hd hf hcallee).mp hactivity⟩
  · rintro ⟨hcallee, hactivity⟩
    obtain ⟨args, span, hn⟩ := hcallee
    refine ⟨_, hn, Routing.activityCallee?_eq_some.mpr ⟨⟨args, span, rfl⟩, ?_⟩⟩
    exact (isSome_activity?_callee hp hd hf ⟨args, span, hn⟩).mpr hactivity

/-- A process that calls an activity in the argument of a call of it, in a critical section, and
once more where the name of the activity is that of a variable. -/
def callsPast : Source where
  path := "main.wf"
  text := "import ballerina/workflow;\n"
    ++ "@workflow:Activity function fetch(int id) returns int \x7b return id; \x7d\n"
    ++ "function run() \x7b int a = fetch(fetch(1)); lock \x7b a = fetch(2); \x7d "
    ++ "int fetch = 3; a = fetch(4); \x7d\n"

/-- Three calls of the process are calls of the activity. -/
theorem callsPast_reported : ∃ p d f, p.IsRead ∧ d ∈ p.documents ∧
    (Node.module d.tree).at? [1, 0] = some (.function f) ∧
    ∃ found : List (List Nat × NameRef), found.length = 3 ∧
      Enumerates (fun path r => CalleeAt f.body path r ∧ ∃ activity,
        (build p {}).ActivityAt d ([1, 0] ++ f.bodyAt :: (path ++ [0])) r activity) found := by
  obtain ⟨p, d, f, hp, hd, hf, hcheck⟩ := Package.exists_function_of_any
    (show ((Package.ofSources "acme" "orders" [callsPast]).toOption.any fun p =>
      p.documents.any fun d => (((Node.module d.tree).at? [1, 0]).bind Node.function?).any fun f =>
        (directCalls (build p {}) d.id f).length == 3) = true by decide +kernel)
  obtain ⟨found, hfound, hcalls⟩ := directCalls_exact (o := {}) hp hd hf
  refine ⟨p, d, f, hp, hd, hf, found, ?_, hfound⟩
  simpa [hcalls] using hcheck

/-! ### Calls through the context -/

/-- A call through the context that passes its first argument by position. -/
structure DispatchCall where
  /-- The word that names the method. -/
  method : Ident
  target : Expr
  /-- The arguments behind the target. -/
  others : List Arg

/-- A call stands at a position of a body and is one through the context. -/
def DispatchedAt (o : Options) (body : Block) (path : List Nat) (c : DispatchCall) : Prop :=
  (∃ receiver span, (Node.block body).at? path =
    some (.expr (.remoteCall receiver c.method (.positional c.target :: c.others) span))) ∧
  c.method.name = o.dispatchMethod

/-- An expression at a position of a document is the name of an activity, in parentheses or not. -/
def NamesActivityAt (m : Model) (d : Document) (path : List Nat) (e : Expr) (activity : Function) :
    Prop :=
  ∃ r below, e.unparenthesized = .name r ∧ (Node.expr e).at? below = some (.ref r) ∧
    m.ActivityAt d (path ++ below) r activity

/-- The required parameters of an activity that the fields of a mapping do not supply, as far as all
their keys are known. -/
def missingParams (activity : Function) (fields : List MappingField) : List Param :=
  if ∀ x ∈ fields, x.staticKey?.isSome = true then
    activity.params.filter fun q =>
      q.kind = .required ∧ ∀ x ∈ fields, x.staticKey? ≠ some q.name.name
  else []

/-- Some keys are those known of the fields of a mapping that no parameter of an activity has, each
once, in the order in which they first occur. -/
structure UnknownKeys (activity : Function) (fields : List MappingField) (keys : List String) :
    Prop where
  exact : ∀ k, k ∈ keys ↔
    (∃ x ∈ fields, x.staticKey? = some k) ∧ ∀ q ∈ activity.params, q.name.name ≠ k
  ordered : keys.Pairwise fun k k' =>
    fields.findIdx (·.staticKey? == some k) < fields.findIdx (·.staticKey? == some k')

/-- What a call through the context at a position of a document comes to.  Its target stands at
`[1, 0]` in it: behind the receiver, in the first argument. -/
inductive DispatchOutcome (m : Model) (d : Document) (path : List Nat) (c : DispatchCall) :
    List Finding → Prop
  | notActivity :
    (∀ activity, ¬ NamesActivityAt m d (path ++ [1, 0]) c.target activity) →
    DispatchOutcome m d path c [⟨.targetNotActivity c.target.print, c.method.span⟩]
  | noArguments {activity : Function} :
    NamesActivityAt m d (path ++ [1, 0]) c.target activity → c.others = [] →
    DispatchOutcome m d path c []
  | restParams {activity : Function} :
    NamesActivityAt m d (path ++ [1, 0]) c.target activity → c.others ≠ [] →
    (∃ q ∈ activity.params, q.kind = .rest) →
    DispatchOutcome m d path c [⟨.restParams c.target.print, c.target.span⟩]
  | unchecked {activity : Function} {args : Arg} {more : List Arg} :
    NamesActivityAt m d (path ++ [1, 0]) c.target activity → c.others = args :: more →
    (∀ q ∈ activity.params, q.kind ≠ .rest) →
    (∀ e fields span, args = .positional e → e.unparenthesized ≠ .mapping fields span) →
    DispatchOutcome m d path c [⟨.uncheckedArguments, args.value.span⟩]
  | checked {activity : Function} {e : Expr} {more : List Arg} {fields : List MappingField}
      {span : Span} {keys : List String} :
    NamesActivityAt m d (path ++ [1, 0]) c.target activity → c.others = .positional e :: more →
    (∀ q ∈ activity.params, q.kind ≠ .rest) →
    e.unparenthesized = .mapping fields span → UnknownKeys activity fields keys →
    DispatchOutcome m d path c
      (((missingParams activity fields).map fun q =>
          ⟨.missingArgument c.target.print q.name.name, e.span⟩)
        ++ keys.map fun k => ⟨.unknownArgument c.target.print k, e.span⟩)

/-- The name that an expression is in parentheses stands somewhere in the expression. -/
theorem exists_at?_of_unparenthesized {e : Expr} {r : NameRef} (h : e.unparenthesized = .name r) :
    ∃ below, (Node.expr e).at? below = some (.ref r) := by
  fun_induction Expr.unparenthesized e with
  | case1 inner span ih =>
    obtain ⟨below, hbelow⟩ := ih h
    exact ⟨0 :: below, Node.at?_cons.mpr ⟨.expr inner, rfl, hbelow⟩⟩
  | case2 e hparen =>
    subst h
    exact ⟨[0], rfl⟩

theorem namedActivity?_eq_some_iff (hp : p.IsRead) (hd : d ∈ p.documents) {e : Expr}
    (he : (Node.module d.tree).at? path = some (.expr e)) {activity : Function} :
    namedActivity? (build p o) d.id e = some activity ↔
      NamesActivityAt (build p o) d path e activity := by
  have hname : ∀ {r below}, (Node.expr e).at? below = some (.ref r) →
      (((build p o).activity? d.id r).map (·.2) = some activity ↔
        (build p o).ActivityAt d (path ++ below) r activity) := by
    intro r below hr
    exact Model.map_activity?_eq_some_iff hp hd (by rw [Node.at?_append_of_eq he, hr])
  constructor
  · intro h
    unfold namedActivity? at h
    split at h
    · next r hr =>
      obtain ⟨below, hbelow⟩ := exists_at?_of_unparenthesized hr
      exact ⟨r, below, hr, hbelow, (hname hbelow).mp h⟩
    · simp at h
  · rintro ⟨r, below, hr, hbelow, hactivity⟩
    rw [namedActivity?, hr]
    exact (hname hbelow).mpr hactivity

theorem mappingFields?_eq_some {args : Arg} {fields : List MappingField} :
    mappingFields? args = some fields ↔
      ∃ e span, args = .positional e ∧ e.unparenthesized = .mapping fields span := by
  cases args with
  | positional e =>
    rw [mappingFields?]
    cases h : e.unparenthesized <;> simp [h]
  | _ => simp [mappingFields?]

/-! ### Keys in the order of first occurrence -/

/-- The keys without a parameter that the rule finds. -/
theorem unknownKeys_distinct (activity : Function) (fields : List MappingField) :
    UnknownKeys activity fields ((distinct (fields.filterMap (·.staticKey?))).filter fun k =>
      !(activity.params.map (·.name.name)).contains k) := by
  refine ⟨fun k => ?_, (pairwise_distinct_filterMap _ fields).filter _⟩
  rw [List.mem_filter, mem_distinct, List.mem_filterMap]
  simp

/-- There is one list of the keys without a parameter. -/
theorem UnknownKeys.unique {activity : Function} {fields : List MappingField}
    {keys keys' : List String} (h : UnknownKeys activity fields keys)
    (h' : UnknownKeys activity fields keys') : keys = keys' := by
  have hnodup : ∀ {ks}, UnknownKeys activity fields ks → ks.Nodup := fun hks =>
    hks.ordered.imp fun hlt => by rintro rfl; exact absurd hlt (Nat.lt_irrefl _)
  have hperm : keys.Perm keys' := (List.perm_ext_iff_of_nodup (hnodup h) (hnodup h')).mpr
    fun k => (h.exact k).trans (h'.exact k).symm
  exact hperm.eq_of_pairwise (fun k k' _ _ hlt hlt' => absurd hlt (Nat.lt_asymm hlt'))
    h.ordered h'.ordered

theorem argumentNames_eq (name : String) (activity : Function) (span : Span)
    (fields : List MappingField) {keys : List String} (hkeys : UnknownKeys activity fields keys) :
    argumentNames name activity span fields =
      ((missingParams activity fields).map fun q => ⟨.missingArgument name q.name.name, span⟩)
        ++ keys.map fun k => ⟨.unknownArgument name k, span⟩ := by
  rw [hkeys.unique (unknownKeys_distinct activity fields), argumentNames, missingParams]
  have hparams : activity.params.filter (fun q => q.kind == .required &&
        !(distinct (fields.filterMap (·.staticKey?))).contains q.name.name) =
      activity.params.filter fun q =>
        q.kind = .required ∧ ∀ x ∈ fields, x.staticKey? ≠ some q.name.name := by
    refine List.filter_congr fun q _ => ?_
    rw [Bool.eq_iff_iff]
    simp [mem_distinct]
  by_cases hall : ∀ x ∈ fields, x.staticKey?.isSome = true
  · rw [if_pos hall, if_pos (List.all_eq_true.mpr hall), hparams]
  · rw [if_neg hall, if_neg fun h => hall (List.all_eq_true.mp h)]
    rfl

/-! ### What a call through the context comes to -/

/-- What the rule finds wrong with a call through the context. -/
def DispatchCall.findings (m : Model) (doc : DocId) (c : DispatchCall) : List Finding :=
  dispatchedCall m doc c.method (.positional c.target :: c.others)

section

variable {c : DispatchCall} {activity : Function} {args : Arg}

theorem findings_of_notActivity {m : Model} {doc : DocId}
    (h : namedActivity? m doc c.target = none) :
    c.findings m doc = [⟨.targetNotActivity c.target.print, c.method.span⟩] := by
  rw [DispatchCall.findings, dispatchedCall, h]

theorem findings_of_activity {m : Model} {doc : DocId}
    (h : namedActivity? m doc c.target = some activity) :
    c.findings m doc = (c.others.head?.map (activityArguments activity c.target)).getD [] := by
  rw [DispatchCall.findings, dispatchedCall, h]
  cases c.others <;> rfl

theorem activityArguments_of_rest (target : Expr) (args : Arg)
    (h : ∃ q ∈ activity.params, q.kind = .rest) :
    activityArguments activity target args = [⟨.restParams target.print, target.span⟩] := by
  rw [activityArguments, if_pos]
  simpa using h

theorem activityArguments_of_unchecked (target : Expr)
    (hrest : ∀ q ∈ activity.params, q.kind ≠ .rest)
    (h : ∀ e fields span, args = .positional e → e.unparenthesized ≠ .mapping fields span) :
    activityArguments activity target args = [⟨.uncheckedArguments, args.value.span⟩] := by
  have hnone : mappingFields? args = none := by
    refine Option.eq_none_iff_forall_ne_some.mpr fun fields hf => ?_
    obtain ⟨e, span, heq, hfields⟩ := mappingFields?_eq_some.mp hf
    exact h e fields span heq hfields
  rw [activityArguments, if_neg (by simpa using hrest), hnone]

theorem activityArguments_of_mapping (target : Expr) {e : Expr} {fields : List MappingField}
    {span : Span} {keys : List String} (hrest : ∀ q ∈ activity.params, q.kind ≠ .rest)
    (h : e.unparenthesized = .mapping fields span) (hkeys : UnknownKeys activity fields keys) :
    activityArguments activity target (.positional e) =
      ((missingParams activity fields).map fun q =>
          ⟨.missingArgument target.print q.name.name, e.span⟩)
        ++ keys.map fun k => ⟨.unknownArgument target.print k, e.span⟩ := by
  rw [activityArguments, if_neg (by simpa using hrest),
    mappingFields?_eq_some.mpr ⟨e, span, rfl, h⟩]
  exact argumentNames_eq target.print activity e.span fields hkeys

variable {place : List Nat}

theorem DispatchOutcome.eq_findings (hp : p.IsRead) (hd : d ∈ p.documents)
    (hplace : (Node.module d.tree).at? (place ++ [1, 0]) = some (.expr c.target))
    {fs : List Finding} (h : DispatchOutcome (build p o) d place c fs) :
    fs = c.findings (build p o) d.id := by
  have hnamed : ∀ {activity}, NamesActivityAt (build p o) d (place ++ [1, 0]) c.target activity →
      namedActivity? (build p o) d.id c.target = some activity :=
    (namedActivity?_eq_some_iff hp hd hplace).mpr
  cases h with
  | notActivity hnone =>
    refine (findings_of_notActivity (Option.eq_none_iff_forall_ne_some.mpr fun a ha => ?_)).symm
    exact hnone a ((namedActivity?_eq_some_iff hp hd hplace).mp ha)
  | noArguments hactivity hothers =>
    rw [findings_of_activity (hnamed hactivity), hothers]
    rfl
  | restParams hactivity hothers hrest =>
    obtain ⟨args, more, hothers⟩ := List.exists_cons_of_ne_nil hothers
    rw [findings_of_activity (hnamed hactivity), hothers]
    exact (activityArguments_of_rest c.target args hrest).symm
  | unchecked hactivity hothers hrest hmapping =>
    rw [findings_of_activity (hnamed hactivity), hothers]
    exact (activityArguments_of_unchecked c.target hrest hmapping).symm
  | checked hactivity hothers hrest hfields hkeys =>
    rw [findings_of_activity (hnamed hactivity), hothers]
    exact (activityArguments_of_mapping c.target hrest hfields hkeys).symm

theorem dispatchOutcome_findings (hp : p.IsRead) (hd : d ∈ p.documents)
    (hplace : (Node.module d.tree).at? (place ++ [1, 0]) = some (.expr c.target)) :
    DispatchOutcome (build p o) d place c (c.findings (build p o) d.id) := by
  cases hnamed : namedActivity? (build p o) d.id c.target with
  | none =>
    rw [findings_of_notActivity hnamed]
    refine .notActivity fun activity h => ?_
    rw [(namedActivity?_eq_some_iff hp hd hplace).mpr h] at hnamed
    exact Option.some_ne_none activity hnamed
  | some activity =>
    have hactivity := (namedActivity?_eq_some_iff hp hd hplace).mp hnamed
    rw [findings_of_activity hnamed]
    cases hothers : c.others with
    | nil => exact .noArguments hactivity hothers
    | cons args more =>
      show DispatchOutcome _ _ _ _ (activityArguments activity c.target args)
      by_cases hrest : ∃ q ∈ activity.params, q.kind = .rest
      · rw [activityArguments_of_rest c.target args hrest]
        exact .restParams hactivity (by simp [hothers]) hrest
      have hrest : ∀ q ∈ activity.params, q.kind ≠ .rest := fun q hq h => hrest ⟨q, hq, h⟩
      by_cases hmapping : ∃ e fields span, args = .positional e ∧
          e.unparenthesized = .mapping fields span
      · obtain ⟨e, fields, span, rfl, hfields⟩ := hmapping
        have hkeys := unknownKeys_distinct activity fields
        rw [activityArguments_of_mapping c.target hrest hfields hkeys]
        exact .checked hactivity hothers hrest hfields hkeys
      · have hmapping : ∀ e fields span, args = .positional e →
            e.unparenthesized ≠ .mapping fields span :=
          fun e fields span heq h => hmapping ⟨e, fields, span, heq, h⟩
        rw [activityArguments_of_unchecked c.target hrest hmapping]
        exact .unchecked hactivity hothers hrest hmapping

end

/-- The call through the context that a node is, if its first argument is passed by position. -/
def dispatch? (o : Options) : Node → Option DispatchCall
  | .expr (.remoteCall _ method (.positional target :: others) _) =>
    if method.name = o.dispatchMethod then some ⟨method, target, others⟩ else none
  | _ => none

theorem dispatch?_eq_some {n : Node} {c : DispatchCall} : dispatch? o n = some c ↔
    (∃ receiver span,
      n = .expr (.remoteCall receiver c.method (.positional c.target :: c.others) span)) ∧
      c.method.name = o.dispatchMethod := by
  constructor
  · intro h
    unfold dispatch? at h
    split at h
    · next receiver method target others span =>
      split at h
      · next hmethod =>
        obtain rfl := Option.some.inj h
        exact ⟨⟨receiver, span, rfl⟩, hmethod⟩
      · simp at h
    · simp at h
  · rintro ⟨⟨receiver, span, rfl⟩, hmethod⟩
    rw [dispatch?, if_pos hmethod]

theorem dispatchedNode_eq (m : Model) (doc : DocId) (n : Node) : dispatchedNode m doc n =
    (dispatch? m.options n).elim [] fun c => c.findings m doc := by
  cases n with
  | expr e =>
    cases e with
    | remoteCall receiver method args span =>
      rw [dispatchedNode]
      by_cases hmethod : method.name = m.options.dispatchMethod
      · rw [if_pos hmethod]
        cases args with
        | nil => rfl
        | cons first others =>
          cases first with
          | positional target =>
            rw [dispatch?, if_pos hmethod]
            rfl
          | _ => rfl
      · rw [if_neg hmethod]
        cases hcall : dispatch? m.options (.expr (.remoteCall receiver method args span)) with
        | none => rfl
        | some c =>
          obtain ⟨⟨receiver', span', heq⟩, hmethod'⟩ := dispatch?_eq_some.mp hcall
          obtain ⟨rfl, rfl, rfl, rfl⟩ := Expr.remoteCall.inj (Node.expr.inj heq)
          exact absurd hmethod' hmethod
    | _ => rfl
  | _ => rfl

/-- **The calls through the context are checked exactly.**  Every such call in the body, at any
depth, has one outcome, and what is reported are the findings of these outcomes, in the order of the
positions of the calls. -/
theorem dispatchedCalls_exact (hp : p.IsRead) (hd : d ∈ p.documents)
    (hf : (Node.module d.tree).at? way = some (.function f)) :
    ∃ (found : List (List Nat × DispatchCall)) (report : DispatchCall → List Finding),
      Enumerates (DispatchedAt o f.body) found ∧
      (∀ x ∈ found, ∀ fs,
        DispatchOutcome (build p o) d (way ++ f.bodyAt :: x.1) x.2 fs ↔ fs = report x.2) ∧
      dispatchedCalls (build p o) d.id f = found.flatMap fun x => report x.2 := by
  obtain ⟨found, hfound, hreport⟩ :=
    (Node.block f.body).exists_enumerates_nodes (dispatchedNode_eq (build p o) d.id)
  have hexact : Enumerates (DispatchedAt o f.body) found := hfound.congr fun path c => by
    constructor
    · rintro ⟨n, hn, hcall⟩
      obtain ⟨⟨receiver, span, rfl⟩, hmethod⟩ := dispatch?_eq_some.mp hcall
      exact ⟨⟨receiver, span, hn⟩, hmethod⟩
    · rintro ⟨⟨receiver, span, hn⟩, hmethod⟩
      exact ⟨_, hn, dispatch?_eq_some.mpr ⟨⟨receiver, span, rfl⟩, hmethod⟩⟩
  refine ⟨found, fun c => c.findings (build p o) d.id, hexact, fun x hx fs => ?_, hreport⟩
  obtain ⟨⟨receiver, span, hcall⟩, -⟩ := (hexact.exact x.1 x.2).mp hx
  have hplace : (Node.module d.tree).at? (way ++ f.bodyAt :: x.1 ++ [1, 0]) =
      some (.expr x.2.target) := by
    rw [List.append_assoc, List.cons_append, Node.at?_bodyAt hf, Node.at?_append_of_eq hcall]
    rfl
  constructor
  · exact fun h => h.eq_findings hp hd hplace
  · rintro rfl
    exact dispatchOutcome_findings hp hd hplace

/-- A process whose calls through the context have different outcomes, one of them in the arguments
of another. -/
def callsThrough : Source where
  path := "main.wf"
  text := "import ballerina/workflow as w;\n"
    ++ "@w:Activity function f(int i) \x7b \x7d\n"
    ++ "function run() \x7b c->callActivity((f), x); "
    ++ "c->callActivity(f, \x7bu: c->callActivity(x), v: 2, u: 3\x7d); \x7d\n"

/-- What the calls of the process come to, in order. -/
theorem callsThrough_reported : ∃ p d f, p.IsRead ∧ d ∈ p.documents ∧
    (Node.module d.tree).at? [1, 0] = some (.function f) ∧
    ∃ (found : List (List Nat × DispatchCall)) (report : DispatchCall → List Finding),
      Enumerates (DispatchedAt {} f.body) found ∧
      (∀ x ∈ found, ∀ fs,
        DispatchOutcome (build p {}) d ([1, 0] ++ f.bodyAt :: x.1) x.2 fs ↔ fs = report x.2) ∧
      (found.flatMap fun x => report x.2).map (·.violation) =
        [.uncheckedArguments, .missingArgument "f" "i", .unknownArgument "f" "u",
          .unknownArgument "f" "v", .targetNotActivity "x"] := by
  obtain ⟨p, d, f, hp, hd, hf, hcheck⟩ := Package.exists_function_of_any
    (show ((Package.ofSources "acme" "orders" [callsThrough]).toOption.any fun p =>
      p.documents.any fun d => (((Node.module d.tree).at? [1, 0]).bind Node.function?).any fun f =>
        (dispatchedCalls (build p {}) d.id f).map (·.violation) ==
          [.uncheckedArguments, .missingArgument "f" "i", .unknownArgument "f" "u",
            .unknownArgument "f" "v", .targetNotActivity "x"]) = true by decide +kernel)
  obtain ⟨found, report, hfound, houtcome, hcalls⟩ := dispatchedCalls_exact (o := {}) hp hd hf
  refine ⟨p, d, f, hp, hd, hf, found, report, hfound, houtcome, ?_⟩
  rw [← hcalls]
  exact eq_of_beq hcheck

end Rule

end Durable
