/-
Names resolve by lexical scope.

`Outline.Binds o path name` says, without any list of visible names, that `name` is declared
locally at a position of a tree: a path is the way from the root to the position, and every
declaration binds the paths that lead to where it is visible.  The walk that the model makes,
with its scopes opened and closed, finds exactly these names, by induction on the path.

What a reference denotes is then looked up by its place.  That this is unambiguous is the
second half: references of one text stand in different places, because the parser reads
them from different parts of it, and different documents have different identities.
Positions of the outline of a document are positions of its syntax, so the same is said at the end
of references that are found there.
-/
import Mathlib.Data.List.Nodup
import Durable.Model.Basic
import Durable.Proofs.Grammar.Places
import Durable.Proofs.Package.Sources
import Durable.Proofs.Tree.Nodes
import Durable.Proofs.Tree.Positions

namespace Durable

namespace Outline

/-! ### Positions -/

/-- The part of an outline at the end of a path of indexes. -/
def at? : Outline → List Nat → Option Outline
  | o, [] => some o
  | .mk _ parts, i :: path =>
    match parts[i]? with
    | some o => o.at? path
    | none => none

/-- A name is declared locally for what stands at a position of an outline. -/
inductive Binds : Outline → List Nat → String → Prop
  /-- A service is `self` for all that stands in it. -/
  | self {s : Service} {parts : List Outline} {i : Nat} {path : List Nat} :
      Binds (.mk (.service s) parts) (i :: path) "self"
  /-- A parameter is visible in all parts of its function behind it: the parameters that follow,
  the return type and the body. -/
  | param {f : Function} {p : Param} {parts ps : List Outline} {i j : Nat} {path : List Nat}
      (declared : parts[j]? = some (.mk (.param p) ps)) (behind : j < i) :
      Binds (.mk (.function f) parts) (i :: path) p.name.name
  /-- A local variable is visible in the statements of its block behind its declaration. -/
  | localVar {b : Block} {d : LocalVar} {s : Span} {parts ps : List Outline} {i j : Nat}
      {path : List Nat} (declared : parts[j]? = some (.mk (.stmt (.localVar d s)) ps))
      (behind : j < i) : Binds (.mk (.block b) parts) (i :: path) d.name.name
  /-- The variable of a loop is visible in its body, which is its third part. -/
  | loop {t : TypeDesc} {n : Ident} {e : Expr} {b : Block} {s : Span} {parts : List Outline}
      {path : List Nat} : Binds (.mk (.stmt (.foreach t n e b s)) parts) (2 :: path) n.name
  /-- The variable of an error handler is visible in the handler, which is the third part. -/
  | handler {b h : Block} {t : TypeDesc} {n : Ident} {s : Span} {parts : List Outline}
      {path : List Nat} : Binds (.mk (.stmt (.attemptOnFail b t n h s)) parts) (2 :: path) n.name
  /-- What is visible in a part of a node is visible there. -/
  | inside {n : Node} {parts : List Outline} {o : Outline} {i : Nat} {path : List Nat}
      {name : String} (part : parts[i]? = some o) (deeper : Binds o path name) :
      Binds (.mk n parts) (i :: path) name

end Outline

open Outline

/-! ### What the walk finds -/

namespace Outline

/-- The names visible behind some parts of a node. -/
def scopeBehind (parent : Node) (scope : List String) : List Outline → List String
  | [] => scope
  | o :: os => scopeBehind parent ((parent.bindsBehind o.node).toList ++ scope) os

theorem mem_scopeBehind {parent : Node} {scope : List String} {os : List Outline} {name : String} :
    name ∈ scopeBehind parent scope os ↔
      name ∈ scope ∨ ∃ o ∈ os, parent.bindsBehind o.node = some name := by
  induction os generalizing scope with
  | nil => simp [scopeBehind]
  | cons o os ih => simp [scopeBehind, ih, or_assoc, or_left_comm]

/-- What a position inside a node sees: what the node declares inside or in front of the part the
position is in, and what is declared in that part. -/
theorem binds_cons {n : Node} {parts : List Outline} {o : Outline} {i : Nat} {path : List Nat}
    {name : String} (hshape : (mk n parts).Shaped) (ho : parts[i]? = some o) :
    Binds (.mk n parts) (i :: path) name ↔
      name ∈ n.bindsInside ∨ (∃ o' ∈ parts.take i, n.bindsBehind o'.node = some name)
        ∨ Binds o path name := by
  have front : ∀ {j o'}, parts[j]? = some o' → j < i → o' ∈ parts.take i := by
    intro j o' hj hlt
    exact List.mem_of_getElem? (by rw [List.getElem?_take_of_lt hlt]; exact hj)
  constructor
  · intro h
    cases h with
    | self => exact .inl (by simp [Node.bindsInside])
    | param hp hlt => exact .inr (.inl ⟨_, front hp hlt, rfl⟩)
    | localVar hd hlt => exact .inr (.inl ⟨_, front hd hlt, rfl⟩)
    | @loop t n e b s =>
      have hparts := hshape.1 _ rfl
      refine .inr (.inl ⟨e.outline, ?_, rfl⟩)
      rw [hparts]
      simp [Stmt.parts]
    | @handler b h t n s =>
      have hparts := hshape.1 _ rfl
      refine .inr (.inl ⟨t.outline, ?_, rfl⟩)
      rw [hparts]
      simp [Stmt.parts]
    | inside ho' deeper =>
      rw [ho] at ho'
      obtain rfl := Option.some.inj ho'
      exact .inr (.inr deeper)
  · rintro (hself | ⟨o', ho', hname⟩ | hdeeper)
    · cases n <;> simp only [Node.bindsInside, List.not_mem_nil] at hself
      obtain rfl := List.mem_singleton.mp hself
      exact .self
    · obtain ⟨j, hj, hget⟩ := List.getElem_of_mem ho'
      rw [List.length_take] at hj
      rw [List.getElem_take] at hget
      have hlt : j < i := by omega
      have ho' : parts[j]? = some o' := by rw [List.getElem?_eq_getElem (by omega), hget]
      obtain ⟨m, ps⟩ := o'
      unfold Node.bindsBehind at hname
      split at hname
      · next f p hnode =>
        obtain rfl := Option.some.inj hname
        obtain rfl : m = .param p := hnode
        exact .param ho' hlt
      · next b d s hnode =>
        obtain rfl := Option.some.inj hname
        obtain rfl : m = .stmt (.localVar d s) := hnode
        exact .localVar ho' hlt
      · next t x e b s f hnode =>
        obtain rfl := Option.some.inj hname
        obtain rfl : m = .expr f := hnode
        -- The loop's parts are its type, its items and its body; only the items are an expression.
        have hparts := hshape.1 _ rfl
        rw [hparts] at ho ho'
        have hj : j = 1 := by
          rcases j with _ | _ | _ | j
          · simp [Stmt.parts, TypeDesc.outline] at ho'
          · rfl
          · simp [Stmt.parts] at ho'
          · simp [Stmt.parts] at ho'
        have hi : i = 2 := by
          have := (List.getElem?_eq_some_iff.mp ho).1
          simp only [Stmt.parts, List.length_cons, List.length_nil] at this
          omega
        subst hi
        exact .loop
      · next b t x h s u hnode =>
        obtain rfl := Option.some.inj hname
        obtain rfl : m = .type u := hnode
        -- The parts are the block, the variable's type and the handler.
        have hparts := hshape.1 _ rfl
        rw [hparts] at ho ho'
        have hj : j = 1 := by
          rcases j with _ | _ | _ | j
          · simp [Stmt.parts] at ho'
          · rfl
          · simp [Stmt.parts] at ho'
          · simp [Stmt.parts] at ho'
        have hi : i = 2 := by
          have := (List.getElem?_eq_some_iff.mp ho).1
          simp only [Stmt.parts, List.length_cons, List.length_nil] at this
          omega
        subst hi
        exact .handler
      · simp at hname
    · exact .inside ho hdeeper

/-- The names visible to a position inside a node, those visible to the node included. -/
theorem visible_cons {n : Node} {parts : List Outline} {o : Outline} {i : Nat} {path : List Nat}
    {scope : List String} {name : String} (hshape : (mk n parts).Shaped)
    (ho : parts[i]? = some o) :
    (name ∈ scopeBehind n (n.bindsInside ++ scope) (parts.take i) ∨ Binds o path name) ↔
      name ∈ scope ∨ Binds (.mk n parts) (i :: path) name := by
  rw [mem_scopeBehind, binds_cons hshape ho, List.mem_append]
  constructor
  · rintro (((hself | hscope) | hfront) | hdeeper)
    · exact .inr (.inl hself)
    · exact .inl hscope
    · exact .inr (.inr (.inl hfront))
    · exact .inr (.inr (.inr hdeeper))
  · rintro (hscope | hself | hfront | hdeeper)
    · exact .inl (.inl (.inr hscope))
    · exact .inl (.inl (.inl hself))
    · exact .inl (.inr hfront)
    · exact .inr hdeeper

theorem isLocalIn_iff (r : NameRef) (scope : List String) :
    r.isLocalIn scope = true ↔ r.via = none ∧ r.name.name ∈ scope := by
  simp [NameRef.isLocalIn]

theorem not_binds_nil {o : Outline} {name : String} : ¬ Binds o [] name := by
  intro h
  cases h

mutual

theorem mem_references {r : NameRef} {b : Bool} : ∀ (o : Outline) (scope : List String), o.Shaped →
    ((r, b) ∈ o.references scope ↔ ∃ path ps, o.at? path = some (.mk (.ref r) ps) ∧
      (b = true ↔ r.via = none ∧ (r.name.name ∈ scope ∨ Binds o path r.name.name)))
  | .mk n parts, scope, hshape => by
    have hparts := mem_referencesOfParts (r := r) (b := b) parts n (n.bindsInside ++ scope)
      hshape.2.2
    -- A position inside the node sees what its part sees.
    have hinside : (r, b) ∈ referencesOfParts n (n.bindsInside ++ scope) parts ↔
        ∃ i path ps, (mk n parts).at? (i :: path) = some (.mk (.ref r) ps) ∧
          (b = true ↔ r.via = none ∧
            (r.name.name ∈ scope ∨ Binds (.mk n parts) (i :: path) r.name.name)) := by
      rw [hparts]
      constructor
      · rintro ⟨i, o, path, ps, ho, hat, hb⟩
        refine ⟨i, path, ps, by simp [at?, ho, hat], hb.trans ?_⟩
        rw [visible_cons hshape ho]
      · rintro ⟨i, path, ps, hat, hb⟩
        rw [at?] at hat
        cases ho : parts[i]? with
        | none => simp [ho] at hat
        | some o =>
          simp only [ho] at hat
          refine ⟨i, o, path, ps, ho, hat, hb.trans ?_⟩
          rw [visible_cons hshape ho]
    constructor
    · intro h
      unfold references at h
      rcases List.mem_append.mp h with h | h
      · cases n <;> simp only [List.not_mem_nil] at h
        obtain ⟨rfl, rfl⟩ := Prod.mk.inj (List.mem_singleton.mp h)
        exact ⟨[], parts, rfl, by simp [isLocalIn_iff, not_binds_nil]⟩
      · obtain ⟨i, path, ps, hat, hb⟩ := hinside.mp h
        exact ⟨i :: path, ps, hat, hb⟩
    · rintro ⟨path, ps, hat, hb⟩
      unfold references
      rw [List.mem_append]
      cases path with
      | nil =>
        obtain ⟨rfl, rfl⟩ := Outline.mk.inj (Option.some.inj hat)
        refine .inl (List.mem_singleton.mpr ?_)
        rw [Prod.mk.injEq]
        refine ⟨rfl, ?_⟩
        rw [Bool.eq_iff_iff, hb, isLocalIn_iff]
        simp [not_binds_nil]
      | cons i path => exact .inr (hinside.mpr ⟨i, path, ps, hat, hb⟩)

theorem mem_referencesOfParts {r : NameRef} {b : Bool} : ∀ (os : List Outline) (parent : Node)
    (scope : List String), ShapedAll os →
    ((r, b) ∈ referencesOfParts parent scope os ↔ ∃ i o path ps, os[i]? = some o ∧
      o.at? path = some (.mk (.ref r) ps) ∧
      (b = true ↔ r.via = none ∧ (r.name.name ∈ scopeBehind parent scope (os.take i)
        ∨ Binds o path r.name.name)))
  | [], parent, scope, _ => by simp [referencesOfParts]
  | o :: os, parent, scope, hshape => by
    rw [referencesOfParts, List.mem_append, mem_references o scope hshape.1,
      mem_referencesOfParts os parent _ hshape.2]
    constructor
    · rintro (⟨path, ps, hat, hb⟩ | ⟨i, o', path, ps, ho, hat, hb⟩)
      · exact ⟨0, o, path, ps, rfl, hat, hb⟩
      · exact ⟨i + 1, o', path, ps, ho, hat, hb⟩
    · rintro ⟨i, o', path, ps, ho, hat, hb⟩
      cases i with
      | zero =>
        obtain rfl := Option.some.inj ho
        exact .inl ⟨path, ps, hat, hb⟩
      | succ i => exact .inr ⟨i, o', path, ps, ho, hat, hb⟩

end

/-! ### Places -/

theorem at?_cons {n : Node} {parts : List Outline} {i : Nat} {path : List Nat} {o : Outline} :
    (mk n parts).at? (i :: path) = some o ↔ ∃ o', parts[i]? = some o' ∧ o'.at? path = some o := by
  rw [at?]
  cases parts[i]? <;> simp

/-- The places of the references of a node: its own and those of its parts. -/
theorem placesOf_mk (n : Node) (parts : List Outline) :
    placesOf [mk n parts] =
      (n.ref?.map (·.span)).toList ++ parts.flatMap fun o => placesOf [o] := by
  have hparts : placesOf parts = parts.flatMap fun o => placesOf [o] := by
    simpa using placesOf_flatMap (fun o => [o]) parts
  rw [← hparts]
  unfold placesOf
  rw [refsOf_cons]
  cases n.ref? <;> simp

theorem mem_placesOf_of_at? {o : Outline} {path : List Nat} {r : NameRef} {ps : List Outline}
    (h : o.at? path = some (.mk (.ref r) ps)) : r.span ∈ placesOf [o] := by
  induction path generalizing o with
  | nil =>
    obtain rfl := Option.some.inj h
    rw [placesOf_mk]
    simp [Node.ref?]
  | cons i path ih =>
    obtain ⟨n, parts⟩ := o
    obtain ⟨o', hi, h⟩ := at?_cons.mp h
    rw [placesOf_mk, List.mem_append, List.mem_flatMap]
    exact .inr ⟨o', List.mem_of_getElem? hi, ih h⟩

/-- Where all references of a tree have places of their own, a place belongs to one position. -/
theorem eq_of_span_eq {o : Outline} {path path' : List Nat} {r r' : NameRef}
    {ps ps' : List Outline} (hnodup : (placesOf [o]).Nodup)
    (h : o.at? path = some (.mk (.ref r) ps)) (h' : o.at? path' = some (.mk (.ref r') ps'))
    (hspan : r.span = r'.span) : path = path' := by
  -- A reference does not share its place with one in its own parts.
  have separate : ∀ {r : NameRef} {parts ps : List Outline} {i : Nat} {q : List Nat} {r' : NameRef},
      (placesOf [mk (.ref r) parts]).Nodup →
      (mk (.ref r) parts).at? (i :: q) = some (.mk (.ref r') ps) → r.span ≠ r'.span := by
    intro r parts ps i q r' hnodup h hspan
    obtain ⟨o', hi, h⟩ := at?_cons.mp h
    rw [placesOf_mk] at hnodup
    refine (List.nodup_cons.mp hnodup).1 (List.mem_flatMap.mpr ⟨o', List.mem_of_getElem? hi, ?_⟩)
    change r.span ∈ placesOf [o']
    rw [hspan]
    exact mem_placesOf_of_at? h
  induction path generalizing o path' with
  | nil =>
    obtain rfl := Option.some.inj h
    cases path' with
    | nil => rfl
    | cons i q => exact absurd hspan (separate hnodup h')
  | cons i path ih =>
    cases path' with
    | nil =>
      obtain rfl := Option.some.inj h'
      exact absurd hspan.symm (separate hnodup h)
    | cons j path' =>
      obtain ⟨n, parts⟩ := o
      obtain ⟨a, hi, h⟩ := at?_cons.mp h
      obtain ⟨b, hj, h'⟩ := at?_cons.mp h'
      rw [placesOf_mk] at hnodup
      have hparts := List.nodup_flatMap.mp (List.nodup_append.mp hnodup).2.1
      obtain ⟨hi', hai⟩ := List.getElem?_eq_some_iff.mp hi
      obtain ⟨hj', hbj⟩ := List.getElem?_eq_some_iff.mp hj
      have hapart := List.pairwise_iff_getElem.mp hparts.2
      have hmem := mem_placesOf_of_at? h
      have hmem' := mem_placesOf_of_at? h'
      rw [← hspan] at hmem'
      have hij : i = j := by
        rcases Nat.lt_trichotomy i j with hlt | heq | hlt
        · have := hapart i j hi' hj' hlt
          rw [hai, hbj] at this
          exact absurd hmem' (this hmem)
        · exact heq
        · have := hapart j i hj' hi' hlt
          rw [hai, hbj] at this
          exact absurd hmem (this hmem')
      subst hij
      obtain rfl : a = b := Option.some.inj (hi.symm.trans hj)
      rw [ih (hparts.1 a (List.mem_of_getElem? hi)) h h']

end Outline

/-- The references of a text that reads as a module have places of their own. -/
theorem places_nodup {text : String} {m : Module} (h : parseModule text = .ok m) :
    (placesOf [m.outline]).Nodup := by
  obtain ⟨ts, tail, c', htiling, hread⟩ := reads_of_parseModule h
  exact (hread.covers ⟨ts, htiling.text_ne_nil, rfl⟩).2.2.nodup

/-! ### What a reference denotes -/

namespace Model

variable {p : Package} {o : Options} {d : Document} {path : List Nat} {r : NameRef}
  {ps : List Outline}

/-- What stands at a position of a document is a reference to a local name. -/
def LocalAt (d : Document) (path : List Nat) (r : NameRef) : Prop :=
  r.via = none ∧ Binds d.tree.outline path r.name.name

theorem resolveGlobal_ne_localName (m : Model) (doc : DocId) (r : NameRef) :
    m.resolveGlobal doc r ≠ .localName := by
  have hvalue : ∀ module name, m.valueIn module name ≠ .localName := by
    intro module name
    unfold valueIn
    split
    · split
      · next d _ => cases d <;> simp [Member.symbol]
      · simp
    · simp
  unfold resolveGlobal
  split
  · exact hvalue _ _
  · split <;> first | exact hvalue _ _ | simp

/-- The table holds, for every reference of a document, what it is by its position. -/
theorem mem_documentSymbols {key : DocId × Span} {s : Symbol} :
    (key, s) ∈ documentSymbols ⟨p, o, []⟩ d ↔ ∃ path r ps b,
      d.tree.outline.at? path = some (.mk (.ref r) ps) ∧ key = (d.id, r.span) ∧
        (b = true ↔ LocalAt d path r) ∧
        s = if b = true then .localName else (build p o).resolveGlobal d.id r := by
  have hshape := d.tree.outline_shaped
  unfold documentSymbols LocalAt
  rw [List.mem_map]
  constructor
  · rintro ⟨⟨r, b⟩, hmem, heq⟩
    obtain ⟨path, ps, hat, hb⟩ := (mem_references _ _ hshape).mp hmem
    obtain ⟨rfl, rfl⟩ := Prod.mk.inj heq
    exact ⟨path, r, ps, b, hat, rfl, by simpa using hb, rfl⟩
  · rintro ⟨path, r, ps, b, hat, rfl, hb, rfl⟩
    exact ⟨(r, b), (mem_references _ _ hshape).mpr ⟨path, ps, hat, by simpa using hb⟩, rfl⟩

/-- **A reference denotes what its name is bound to where it stands**: the local name exactly when
one is declared there and the reference has no prefix, and otherwise what it denotes at module
scope.  No other reference of the document has its place. -/
theorem symbol_eq_lexical (hp : p.IsRead) (hd : d ∈ p.documents)
    (hr : d.tree.outline.at? path = some (.mk (.ref r) ps)) :
    ((build p o).symbol d.id r = .localName ↔ LocalAt d path r) ∧
      (¬ LocalAt d path r → (build p o).symbol d.id r = (build p o).resolveGlobal d.id r) ∧
      ∀ path' r' ps', d.tree.outline.at? path' = some (.mk (.ref r') ps') → r'.span = r.span →
        path' = path := by
  have hnodup := places_nodup (hp.document_eq hd).2
  have hunique : ∀ path' r' ps', d.tree.outline.at? path' = some (.mk (.ref r') ps') →
      r'.span = r.span → path' = path :=
    fun path' r' ps' h hspan => eq_of_span_eq hnodup h hr hspan
  -- What the table answers is the entry of this very position.
  have hentry : ∃ b, (b = true ↔ LocalAt d path r) ∧ (build p o).symbol d.id r =
      if b = true then .localName else (build p o).resolveGlobal d.id r := by
    unfold symbol
    cases hfind : (build p o).symbols.find? (·.1 == (d.id, r.span)) with
    | none =>
      classical
      have hmem : ((d.id, r.span), if decide (LocalAt d path r) = true then Symbol.localName
          else (build p o).resolveGlobal d.id r) ∈ (build p o).symbols :=
        List.mem_reverse.mpr <| List.mem_flatMap.mpr ⟨d, hd,
          mem_documentSymbols.mpr ⟨path, r, ps, _, hr, rfl, by simp, rfl⟩⟩
      exact absurd (List.find?_eq_none.mp hfind _ hmem) (by simp)
    | some found =>
      obtain ⟨key, s⟩ := found
      obtain rfl : key = (d.id, r.span) := by simpa using List.find?_some hfind
      have hfound := List.mem_of_find?_eq_some hfind
      obtain ⟨d', hd', hfound⟩ := List.mem_flatMap.mp (List.mem_reverse.mp hfound)
      obtain ⟨path', r', ps', b, hat, hkey, hb, rfl⟩ := mem_documentSymbols.mp hfound
      obtain ⟨hid, hspan⟩ := Prod.mk.inj hkey
      obtain rfl := hp.eq_of_id_eq hd hd' hid
      obtain rfl := hunique path' r' ps' hat hspan.symm
      rw [hr] at hat
      obtain ⟨hnode, -⟩ := Outline.mk.inj (Option.some.inj hat)
      obtain rfl := Node.ref.inj hnode
      exact ⟨b, hb, rfl⟩
  obtain ⟨b, hb, hsymbol⟩ := hentry
  refine ⟨?_, ?_, hunique⟩
  · rw [hsymbol, ← hb]
    cases b <;> simp [resolveGlobal_ne_localName]
  · intro hlocal
    rw [hsymbol, if_neg (fun h => hlocal (hb.mp h))]

/-- A parameter is bound in the body of its function, also where a variable of the module has its
name. -/
theorem param_shadows_moduleVar : ∃ p d r ps,
    p.IsRead ∧ d ∈ p.documents ∧
      d.tree.outline.at? [1, 0, 1, 0, 0, 1, 0, 0] = some (.mk (.ref r) ps) ∧
      (build p {}).symbol d.id r = .localName ∧
      LocalAt d [1, 0, 1, 0, 0, 1, 0, 0] r := by
  let sources : List Source := [⟨"main.wf", "int x = 0; function f(int x) { g(x); }"⟩]
  have hcheck : ((Package.ofSources "acme" "orders" sources).toOption.any fun p =>
      p.documents.any fun d =>
        (d.tree.outline.at? [1, 0, 1, 0, 0, 1, 0, 0]).any fun o =>
          o.node.ref?.any fun r => (build p {}).symbol d.id r == .localName) = true := by
    decide +kernel
  obtain ⟨p, hread, hcheck⟩ := Package.exists_of_any hcheck
  obtain ⟨d, hd, hcheck⟩ := List.any_eq_true.mp hcheck
  obtain ⟨⟨n, ps⟩, hat, hcheck⟩ := (Option.any_eq_true _ _).mp hcheck
  obtain ⟨r, hnode, hsymbol⟩ := (Option.any_eq_true _ _).mp hcheck
  obtain rfl : n = .ref r := Node.ref?_eq_some.mp hnode
  have hsymbol := eq_of_beq hsymbol
  exact ⟨p, d, r, ps, hread, hd, hat, hsymbol, (symbol_eq_lexical hread hd hat).1.mp hsymbol⟩

end Model

/-! ### References by where they stand in the syntax -/

/-- The function that a node is. -/
def Node.function? : Node → Option Function
  | .function f => some f
  | _ => none

theorem Node.function?_eq_some {n : Node} {f : Function} :
    n.function? = some f ↔ n = .function f := by
  cases n <;> simp [Node.function?]

/-- A package that can be read from sources, and a function in it, that pass a test. -/
theorem Package.exists_function_of_any {org name : String} {sources : List Source} {way : List Nat}
    {test : Package → Document → Function → Bool}
    (h : ((ofSources org name sources).toOption.any fun p => p.documents.any fun d =>
      (((Node.module d.tree).at? way).bind Node.function?).any (test p d)) = true) :
    ∃ p d f, p.IsRead ∧ d ∈ p.documents ∧ (Node.module d.tree).at? way = some (.function f) ∧
      test p d f = true := by
  obtain ⟨p, hp, hdocs⟩ := exists_of_any h
  obtain ⟨d, hd, hfunction⟩ := List.any_eq_true.mp hdocs
  obtain ⟨f, hf, htest⟩ := (Option.any_eq_true _ _).mp hfunction
  obtain ⟨n, hn, hnode⟩ := Option.bind_eq_some_iff.mp hf
  obtain rfl := Node.function?_eq_some.mp hnode
  exact ⟨p, d, f, hp, hd, hn, htest⟩

/-- The outline of a node has at every position the outline of what stands there. -/
theorem Node.outline_at? (n : Node) (path : List Nat) :
    n.outline.at? path = (n.at? path).map Node.outline := by
  induction path generalizing n with
  | nil => rw [Outline.at?, at?, Option.map_some]
  | cons i path ih =>
    rw [n.outline_eq, Outline.at?, List.getElem?_map, at?]
    cases n.children[i]? with
    | none => rfl
    | some c => exact ih c

namespace Model

variable {p : Package} {o : Options} {d : Document} {path : List Nat} {r : NameRef}

/-- A reference denotes what the table says of its place, if it says one thing. -/
theorem symbol_of_entries {m : Model} {doc : DocId} {s : Symbol}
    (hmem : ((doc, r.span), s) ∈ m.symbols)
    (hone : ∀ s', ((doc, r.span), s') ∈ m.symbols → s' = s) : m.symbol doc r = s := by
  unfold symbol
  cases hfind : m.symbols.find? (·.1 == (doc, r.span)) with
  | none => exact absurd (List.find?_eq_none.mp hfind _ hmem) (by simp)
  | some found =>
    obtain ⟨key, s'⟩ := found
    obtain rfl : key = (doc, r.span) := by simpa using List.find?_some hfind
    exact hone s' (List.mem_of_find?_eq_some hfind)

open Classical in
/-- A reference of the syntax of a document denotes the local name that is bound where it stands,
and what it denotes at module scope if there is none. -/
theorem symbol_eq_ite (hp : p.IsRead) (hd : d ∈ p.documents)
    (hr : (Node.module d.tree).at? path = some (.ref r)) : (build p o).symbol d.id r =
      if LocalAt d path r then .localName else (build p o).resolveGlobal d.id r := by
  have hat : d.tree.outline.at? path = some (.mk (.ref r) []) := by
    have h := (Node.module d.tree).outline_at? path
    rw [hr] at h
    exact h
  have hentries : ∀ {key s}, (key, s) ∈ (build p o).symbols ↔
      ∃ d' ∈ p.documents, (key, s) ∈ documentSymbols ⟨p, o, []⟩ d' := by
    intro key s
    exact List.mem_reverse.trans List.mem_flatMap
  refine symbol_of_entries (hentries.mpr ⟨d, hd, mem_documentSymbols.mpr ?_⟩) fun s' hs' => ?_
  · exact ⟨path, r, [], decide (LocalAt d path r), hat, rfl, by simp, by simp⟩
  · obtain ⟨d', hd', hentry⟩ := hentries.mp hs'
    obtain ⟨path', r', ps', b, hat', hkey, hb, rfl⟩ := mem_documentSymbols.mp hentry
    obtain ⟨hid, hspan⟩ := Prod.mk.inj hkey
    obtain rfl := hp.eq_of_id_eq hd hd' hid
    obtain rfl := Outline.eq_of_span_eq (places_nodup (hp.document_eq hd).2) hat hat' hspan
    rw [hat] at hat'
    obtain ⟨hnode, -⟩ := Outline.mk.inj (Option.some.inj hat')
    obtain rfl := Node.ref.inj hnode
    simp only [hb]

/-- By the declarations around it, a reference at a position of a document denotes an activity: no
local name stands in front of it, and in its module it is the name of a function that is annotated
as an activity in the document it is declared in. -/
def ActivityAt (m : Model) (d : Document) (path : List Nat) (r : NameRef) (f : Function) : Prop :=
  ¬ LocalAt d path r ∧ ∃ item, m.resolveGlobal d.id r = .function item ∧
    m.package.function? item = some f ∧ m.role item.doc f.annotations = .activity

theorem map_activity?_eq_some_iff (hp : p.IsRead) (hd : d ∈ p.documents)
    (hr : (Node.module d.tree).at? path = some (.ref r)) {f : Function} :
    ((build p o).activity? d.id r).map (·.2) = some f ↔ (build p o).ActivityAt d path r f := by
  have hsymbol := symbol_eq_ite (o := o) hp hd hr
  unfold activity? function? ActivityAt
  by_cases hlocal : LocalAt d path r
  · rw [if_pos hlocal] at hsymbol
    simp [hsymbol, hlocal]
  · rw [if_neg hlocal] at hsymbol
    rw [hsymbol]
    cases (build p o).resolveGlobal d.id r with
    | function item =>
      constructor
      · intro h
        obtain ⟨x, hx, rfl⟩ := Option.map_eq_some_iff.mp h
        obtain ⟨hx, hrole⟩ := Option.filter_eq_some_iff.mp hx
        obtain ⟨f', hf', rfl⟩ := Option.map_eq_some_iff.mp hx
        exact ⟨hlocal, item, rfl, hf', eq_of_beq hrole⟩
      · rintro ⟨-, item', heq, hf', hrole⟩
        obtain rfl := Symbol.function.inj heq
        simp [hf', hrole]
    | _ => simp

theorem isSome_activity?_iff (hp : p.IsRead) (hd : d ∈ p.documents)
    (hr : (Node.module d.tree).at? path = some (.ref r)) :
    ((build p o).activity? d.id r).isSome = true ↔ ∃ f, (build p o).ActivityAt d path r f := by
  rw [← Option.isSome_map (f := (·.2)), Option.isSome_iff_exists]
  exact exists_congr fun f => map_activity?_eq_some_iff hp hd hr

end Model

end Durable
