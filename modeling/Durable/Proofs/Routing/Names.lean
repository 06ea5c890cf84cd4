/-
What the names of routed activities denote.

A routed call hands over the name of its activity as the reference was written.  Nothing is lost in
writing it: the literal reads back as the name, and the name splits at its colon, because no word of
a source text has one.  So calls that hand over one name were made by references that are written
alike, and where documents understand those alike the calls are of one activity.  `Agree` says when
they do: for a reference without a prefix when both stand in one module, for one with a prefix when
both import the same thing by it.  Any two calls of one document agree; documents that do not agree
can hand over one name for two activities.
-/
import Durable.Proofs.Model.Scoping
import Durable.Proofs.Routing.Mediation

namespace Durable

open Text

/-! ### Names as they are written -/

namespace Text

/-- A literal stands for one value. -/
theorem quote_injective : Function.Injective quote := by
  intro a b h
  have hescape : ∀ s : String, scanQuoted (escape s.toList ++ ['"'])
      = .closed s.toList (escape s.toList ++ ['"']) [] :=
    fun s => Lexer.scanQuoted_escape s.toList []
  have hread : escape a.toList ++ ['"'] = escape b.toList ++ ['"'] := by
    simpa [quote] using congrArg String.toList h
  have hscan := hescape a
  rw [hread, hescape b, QuotedScan.closed.injEq] at hscan
  exact String.ext hscan.1.symm

end Text

/-- The text of a word is made of the characters of words. -/
theorem Spells.wordChars {k : TokenKind} {text : List Char} (h : Spells k text) {n : String}
    (hn : k.word? = some n) : ∀ d ∈ n.toList, isWordChar d = true := by
  cases h with
  | @word c cs _ others =>
    rcases Lexer.classifyWord_cases (c :: cs) with ⟨k, hk, htext⟩ | hk
    · rw [hk] at hn
      obtain rfl := Option.some.inj hn
      simpa [htext] using others
    · rw [hk] at hn
      obtain rfl := Option.some.inj hn
      simpa using others
  | quotedName word =>
    obtain rfl := Option.some.inj hn
    simpa using word
  | @number _ isFloat _ => cases isFloat <;> simp [Lexer.numberKind, TokenKind.word?] at hn
  | string | mark => simp [TokenKind.word?] at hn

variable {c c' : Cursor} {cs : List Char}

theorem Cursor.StandsIn.colon_not_mem (h : c.StandsIn cs) {n : String}
    (hn : c.kind.word? = some n) : ':' ∉ n.toList := by
  have hkind : c.kind ≠ .endOfFile := fun heq => by simp [heq, TokenKind.word?] at hn
  obtain ⟨_, t, _, -, -, hs, hkind, -⟩ := h.token hkind
  rw [hkind] at hn
  exact fun hmem => absurd (hs.spells.wordChars hn _ hmem) (by decide)

/-- There is no colon in the parts of a reference. -/
structure NameRef.Plain (r : NameRef) : Prop where
  via : ∀ q ∈ r.via, ':' ∉ q.name.toList
  name : ':' ∉ r.name.name.toList

theorem ReadsCallee.plain {r : NameRef} (h : ReadsCallee c r c') (hc : c.StandsIn cs) :
    r.Plain := by
  cases h with
  | error word => exact ⟨by simp [NameRef.simple], (by decide : ':' ∉ Keyword.kwError.text.toList)⟩
  | name ref =>
    cases ref with
    | qualified _ hvia hname =>
      refine ⟨?_, hc.advance.advance.colon_not_mem (by simp [hname, TokenKind.word?])⟩
      simpa using hc.colon_not_mem hvia
    | simple _ hname =>
      refine ⟨by simp [NameRef.simple], hc.colon_not_mem (n := _) ?_⟩
      rw [hname]
      rfl

/-- A text splits at its first colon in one way. -/
theorem eq_of_append_colon {a b a' b' : List Char} (ha : ':' ∉ a) (ha' : ':' ∉ a')
    (h : a ++ ':' :: b = a' ++ ':' :: b') : a = a' ∧ b = b' := by
  have htake : ∀ {x y : List Char}, ':' ∉ x → (x ++ ':' :: y).takeWhile (· != ':') = x := by
    intro x y hx
    refine takeWhile_append_run (fun d hd => ?_) (headFails_cons.mpr (by simp))
    simp only [bne_iff_ne, ne_eq]
    rintro rfl
    exact hx hd
  have heq : a = a' := by rw [← htake (y := b) ha, h, htake ha']
  subst heq
  simpa using h

/-- References that are written alike have the same prefix and the same name. -/
theorem NameRef.eq_of_asWritten_eq {r r' : NameRef} (hr : r.Plain) (hr' : r'.Plain)
    (h : r.asWritten = r'.asWritten) :
    r.via.map (·.name) = r'.via.map (·.name) ∧ r.name.name = r'.name.name := by
  obtain ⟨via, name, span⟩ := r
  obtain ⟨via', name', span'⟩ := r'
  have htext := congrArg String.toList h
  cases via with
  | none =>
    cases via' with
    | none => exact ⟨rfl, h⟩
    | some q' =>
      -- Only one of the two has a colon.
      simp only [asWritten, String.toList_append] at htext
      exact absurd (by rw [htext]; simp) hr.name
  | some q =>
    cases via' with
    | none =>
      simp only [asWritten, String.toList_append] at htext
      exact absurd (by rw [← htext]; simp) hr'.name
    | some q' =>
      simp only [asWritten, String.toList_append, List.append_assoc] at htext
      obtain ⟨hq, hn⟩ := eq_of_append_colon (hr.via q rfl) (hr'.via q' rfl) htext
      exact ⟨congrArg some (String.ext hq), String.ext hn⟩

/-! ### The references of initial values -/

/-- The references in the initial values of some outlines are among their references. -/
def InitsWithin (os : List Outline) : Prop := ∀ e ∈ initsOf os, refsOf e.parts ⊆ refsOf os

namespace InitsWithin

theorem nil : InitsWithin [] := by simp [InitsWithin]

theorem append {os os' : List Outline} (h : InitsWithin os) (h' : InitsWithin os') :
    InitsWithin (os ++ os') := by
  intro e he
  rw [initsOf_append] at he
  rw [refsOf_append]
  rcases List.mem_append.mp he with he | he
  · exact List.subset_append_of_subset_left _ (h e he)
  · exact List.subset_append_of_subset_right _ (h' e he)

/-- A node that initialises nothing adds no initial value. -/
theorem node {n : Node} {ps : List Outline} (hn : n.init? = none) (h : InitsWithin ps) :
    InitsWithin [.mk n ps] := by
  intro e he
  simp only [initsOf_cons, hn, Option.toList_none, List.nil_append, initsOf_nil,
    List.append_nil] at he
  have := h e he
  simp only [refsOf_cons, refsOf_nil, List.append_nil]
  exact List.subset_append_of_subset_right _ this

theorem cons {o : Outline} {os : List Outline} (h : InitsWithin [o]) (h' : InitsWithin os) :
    InitsWithin (o :: os) := h.append h'

theorem flatMap {α : Type} {f : α → List Outline} {as : List α}
    (h : ∀ a ∈ as, InitsWithin (f a)) : InitsWithin (as.flatMap f) := by
  induction as with
  | nil => exact nil
  | cons a as ih =>
    rw [List.flatMap_cons]
    exact (h a (by simp)).append (ih fun b hb => h b (by simp [hb]))

theorem of_plain {os : List Outline} (h : Outline.PlainAll os) : InitsWithin os := by
  intro e he
  rw [h.initsOf_eq] at he
  simp at he

theorem expr (e : Expr) : InitsWithin [e.outline] := of_plain (by simp [e.outline_plain])

theorem type (t : TypeDesc) : InitsWithin [t.outline] := of_plain (by simp [t.outline_plain])

theorem localVar (d : LocalVar) : InitsWithin [d.outline] := by
  intro e he
  rw [d.initsOf_eq, Option.mem_toList] at he
  obtain ⟨as, final, type, name, init⟩ := d
  obtain rfl : init = some e := he
  intro r hr
  simp only [LocalVar.outline, optionalExpr, Option.map_some, Option.toList_some, Expr.outline,
    refsOf_cons, refsOf_nil, List.append_nil, refsOf_append, List.mem_append]
  rw [refsOf_cons_eq]
  simp [Node.ref?, hr]

end InitsWithin

mutual

theorem Stmt.parts_initsWithin : ∀ s : Stmt, InitsWithin s.parts
  | .localVar d _ => .localVar d
  | .assign e _ f _ => .cons (.expr e) (.expr f)
  | .expr e _ | .panic e _ | .fail e _ | .giveBack (some e) _ => .expr e
  | .lock b _ | .block b _ | .attempt b _ => .node rfl b.parts_initsWithin
  | .ifElse e b none _ | .whileLoop e b _ => .cons (.expr e) (.node rfl b.parts_initsWithin)
  | .ifElse e b (some s) _ =>
    .cons (.expr e) (.cons (.node rfl b.parts_initsWithin) (.node rfl s.parts_initsWithin))
  | .foreach t _ e b _ => .cons (.type t) (.cons (.expr e) (.node rfl b.parts_initsWithin))
  | .attemptOnFail b t _ h _ =>
    .cons (.node rfl b.parts_initsWithin) (.cons (.type t) (.node rfl h.parts_initsWithin))
  | .giveBack none _ | .leave _ | .again _ => .nil

theorem Block.parts_initsWithin : ∀ b : Block, InitsWithin b.parts
  | .mk ss _ => by simpa [Block.parts] using stmtOutlines_initsWithin ss

theorem stmtOutlines_initsWithin : ∀ ss : List Stmt, InitsWithin (stmtOutlines ss)
  | [] => .nil
  | s :: ss => .cons (.node rfl s.parts_initsWithin) (stmtOutlines_initsWithin ss)

end

theorem Function.outline_initsWithin (f : Function) : InitsWithin [f.outline] := by
  have hparams : InitsWithin (f.params.map Param.outline) := by
    intro e he
    rw [initsOf_params] at he
    simp at he
  exact .node rfl ((((InitsWithin.of_plain (annotations_plain _)).append hparams).append
    (.of_plain (optionalType_plain _))).append (.node rfl f.body.parts_initsWithin))

/-- The references in the initial values of a service are among its references. -/
theorem Service.outline_initsWithin (s : Service) : InitsWithin [s.outline] := by
  have hlisteners : InitsWithin (s.listeners.map Expr.outline) := by
    intro e he
    rw [initsOf_exprs] at he
    simp at he
  have hmembers : InitsWithin (s.members.flatMap ServiceMember.outlines) := by
    refine .flatMap fun x _ => ?_
    cases x with
    | method f => exact f.outline_initsWithin
    | field v =>
      refine .of_plain ?_
      simp [ServiceMember.outlines, VarDecl.parts, annotations_plain, TypeDesc.outline_plain,
        optionalExpr_plain]
  exact .node rfl ((((InitsWithin.of_plain (annotations_plain _)).append
    (.of_plain (optionalType_plain _))).append hlisteners).append hmembers)

/-- The references of a service are references of its document. -/
theorem Document.refs_subset {d : Document} {s : Service} (hs : .service s ∈ d.tree.members) :
    refsOf [s.outline] ⊆ refsOf [d.tree.outline] := by
  intro r hr
  have hmember : r ∈ refsOf [(Member.service s).outline] := by
    simpa [Member.outline, Node.ref?] using hr
  simp only [Module.outline, refsOf_cons, refsOf_nil, List.append_nil, List.mem_append, refsOf_map]
  exact .inr (List.mem_flatMap.mpr ⟨_, hs, hmember⟩)

/-! ### What a function is found by -/

namespace Outline

mutual

theorem mem_refsOf_of_references {r : NameRef} {b : Bool} : ∀ (o : Outline) (scope : List String),
    (r, b) ∈ o.references scope → r ∈ refsOf [o]
  | .mk n parts, scope, h => by
    unfold references at h
    rw [List.mem_append] at h
    rw [refsOf_cons, refsOf_nil, List.append_nil, List.mem_append]
    rcases h with h | h
    · cases n with
      | ref r' =>
        obtain ⟨rfl, -⟩ := Prod.mk.inj (List.mem_singleton.mp h)
        exact .inl (by simp [Node.ref?])
      | _ => exact absurd h List.not_mem_nil
    · exact .inr (mem_refsOf_of_referencesOfParts parts _ _ h)

theorem mem_refsOf_of_referencesOfParts {r : NameRef} {b : Bool} : ∀ (os : List Outline)
    (parent : Node) (scope : List String),
    (r, b) ∈ referencesOfParts parent scope os → r ∈ refsOf os
  | [], _, _, h => by simp [referencesOfParts] at h
  | o :: os, parent, scope, h => by
    rw [referencesOfParts, List.mem_append] at h
    rw [refsOf_cons_eq, List.mem_append]
    exact h.imp (mem_refsOf_of_references o scope) (mem_refsOf_of_referencesOfParts os parent _)

end

end Outline

namespace Model

variable {p : Package} {o : Options} {d d' : Document} {r r' : NameRef}

/-- A reference of a document that denotes a function denotes it at module scope. -/
theorem resolveGlobal_of_symbol (hp : p.IsRead) (hd : d ∈ p.documents)
    (hr : r ∈ refsOf [d.tree.outline]) {item : Item}
    (h : (build p o).symbol d.id r = .function item) :
    (build p o).resolveGlobal d.id r = .function item := by
  unfold symbol at h
  cases hfind : (build p o).symbols.find? (·.1 == (d.id, r.span)) with
  | none => simpa [hfind] using h
  | some found =>
    obtain ⟨key, s⟩ := found
    obtain rfl : s = .function item := by simpa [hfind] using h
    obtain rfl : key = (d.id, r.span) := by simpa using List.find?_some hfind
    have hfound := List.mem_reverse.mp (List.mem_of_find?_eq_some hfind)
    obtain ⟨d', hd', hentry⟩ := List.mem_flatMap.mp hfound
    obtain ⟨⟨r', b⟩, href, heq⟩ := List.mem_map.mp hentry
    obtain ⟨hkey, hsymbol⟩ := Prod.mk.inj heq
    obtain ⟨hid, hspan⟩ := Prod.mk.inj hkey
    obtain rfl := hp.eq_of_id_eq hd' hd hid
    -- The entry is that of the reference itself, because its place is its own.
    obtain rfl : r' = r := List.inj_on_of_nodup_map (places_nodup (hp.document_eq hd).2)
      (Outline.mem_refsOf_of_references _ _ href) hr hspan
    split at hsymbol
    · simp at hsymbol
    · exact hsymbol

/-- Two documents understand a reference alike. -/
def Agree (m : Model) (doc doc' : DocId) (r : NameRef) : Prop :=
  match r.via with
  | none => doc.module = doc'.module
  | some q => m.import? doc q.name = m.import? doc' q.name

/-- A document agrees with itself. -/
theorem Agree.refl (m : Model) (doc : DocId) (r : NameRef) : m.Agree doc doc r := by
  unfold Agree
  split <;> rfl

/-- References with one prefix and one name denote the same at module scope where documents agree. -/
theorem Agree.resolveGlobal_eq {m : Model} {doc doc' : DocId} (h : m.Agree doc doc' r)
    (hvia : r.via.map (·.name) = r'.via.map (·.name)) (hname : r.name.name = r'.name.name) :
    m.resolveGlobal doc r = m.resolveGlobal doc' r' := by
  obtain ⟨via, name, span⟩ := r
  obtain ⟨via', name', span'⟩ := r'
  cases via with
  | none =>
    cases via' with
    | none =>
      simp only [Agree] at h
      simp only [resolveGlobal, h, show name.name = name'.name from hname]
    | some q' => simp at hvia
  | some q =>
    cases via' with
    | none => simp at hvia
    | some q' =>
      have hq : q.name = q'.name := Option.some.inj hvia
      simp only [Agree, hq] at h
      simp only [resolveGlobal, hq, h, show name.name = name'.name from hname]

/-- An activity is found by the symbol of its reference alone. -/
theorem activity?_eq_of_symbol {m : Model} {doc doc' : DocId}
    (h : m.symbol doc r = m.symbol doc' r') : m.activity? doc r = m.activity? doc' r' := by
  simp only [activity?, function?, h]

theorem symbol_of_activity? {m : Model} {doc : DocId} {found : Item × Function}
    (h : m.activity? doc r = some found) : m.symbol doc r = .function found.1 := by
  unfold activity? function? at h
  obtain ⟨h, -⟩ := Option.filter_eq_some_iff.mp h
  split at h
  · next item hsymbol =>
    obtain ⟨f, -, rfl⟩ := Option.map_eq_some_iff.mp h
    exact hsymbol
  · simp at h

end Model

/-! ### Names of routed calls -/

namespace Routing

variable {p : Package} {o : Options} {d d' : Document} {s s' : Service} {c c' : RoutedCall}

/-- The reference of a routed call is one of its document's, and has no colon in its parts. -/
theorem callee_of_routedCalls {m : Model} {doc : DocId} (hp : p.IsRead) (hd : d ∈ p.documents)
    (hs : .service s ∈ d.tree.members) (hc : c ∈ routedCalls m doc d.source s) :
    c.callee ∈ refsOf [d.tree.outline] ∧ c.callee.Plain := by
  rw [routedCalls_eq] at hc
  obtain ⟨e, he, hcall⟩ := List.mem_filterMap.mp hc
  obtain ⟨args, span, _, _, rfl, -⟩ := routedCall?_eq_some hcall
  constructor
  · refine Document.refs_subset hs (s.outline_initsWithin _ he ?_)
    simp [Expr.parts, NameRef.outline, Node.ref?]
  · obtain ⟨c₁, c₂, hc₁, hread⟩ := exists_readsMember (hp.document_eq hd).2 hs
    cases hread with
    | mk annotations modifiers decl =>
      cases decl with
      | service decl =>
        have hat := ((hc₁.reaches annotations.reaches).reaches modifiers.reaches).advance
        obtain ⟨c₃, c₄, hr, ⟨-, hread⟩, -⟩ :=
          decl.meets.of_mem (fun _ _ _ => ReadsInitValue.reaches) he
        obtain ⟨c₅, hcallee, -⟩ := hread.exists_callee rfl
        exact hcallee.plain (hat.reaches hr).advance

/-- **Calls that hand over one name are of one activity** where their documents understand the name
alike, as any document does by itself. -/
theorem activity_eq_of_literal_eq (hp : p.IsRead) (hd : d ∈ p.documents) (hd' : d' ∈ p.documents)
    (hs : .service s ∈ d.tree.members) (hs' : .service s' ∈ d'.tree.members)
    (hc : c ∈ routedCalls (Model.build p o) d.id d.source s)
    (hc' : c' ∈ routedCalls (Model.build p o) d'.id d'.source s')
    (hliteral : Text.quote c.name = Text.quote c'.name)
    (hagree : d.id = d'.id ∨ (Model.build p o).Agree d.id d'.id c.callee) :
    ∃ found, (Model.build p o).activity? d.id c.callee = some found ∧
      (Model.build p o).activity? d'.id c'.callee = some found := by
  have hactivity : ∀ {d : Document} {s : Service} {c : RoutedCall},
      c ∈ routedCalls (Model.build p o) d.id d.source s →
      ∃ found, (Model.build p o).activity? d.id c.callee = some found := by
    intro d s c hc
    rw [routedCalls_eq] at hc
    obtain ⟨e, -, hcall⟩ := List.mem_filterMap.mp hc
    obtain ⟨_, _, item, activity, -, hfound, -⟩ := routedCall?_eq_some hcall
    exact ⟨_, hfound⟩
  obtain ⟨found, hfound⟩ := hactivity hc
  obtain ⟨found', hfound'⟩ := hactivity hc'
  obtain ⟨hmem, hplain⟩ := callee_of_routedCalls hp hd hs hc
  obtain ⟨hmem', hplain'⟩ := callee_of_routedCalls hp hd' hs' hc'
  obtain ⟨hvia, hname⟩ := NameRef.eq_of_asWritten_eq hplain hplain' (quote_injective hliteral)
  have hagree : (Model.build p o).Agree d.id d'.id c.callee := by
    rcases hagree with hid | hagree
    · rw [hid]
      exact .refl _ _ _
    · exact hagree
  have hsymbol := Model.symbol_of_activity? hfound
  have hsymbol' := Model.symbol_of_activity? hfound'
  -- Both references denote at module scope what they denote.
  have hglobal := Model.resolveGlobal_of_symbol hp hd hmem hsymbol
  have hglobal' := Model.resolveGlobal_of_symbol hp hd' hmem' hsymbol'
  have heq : (Model.build p o).symbol d.id c.callee = (Model.build p o).symbol d'.id c'.callee := by
    rw [hsymbol, hsymbol', ← hglobal, ← hglobal', hagree.resolveGlobal_eq hvia hname]
  exact ⟨found, hfound, by rw [← Model.activity?_eq_of_symbol heq, hfound]⟩

/-- A module whose workflow calls an activity of its own twice. -/
def callsOwn (path : String) : Source where
  path
  text := "import ballerina/workflow as w;\n"
    ++ "@w:Activity function f() \x7b \x7d\n"
    ++ "service on new w:Listener() \x7b isolated remote function execute() returns error? \x7b "
    ++ "() x = f(); () y = f(); \x7d \x7d\n"

/-- Two modules that each have such an activity hand over one name, for two activities. -/
theorem callsOwn_routed : ∃ p d d' s s' a b c, p.IsRead ∧ (Check.check p {}).isClean = true ∧
    d ∈ p.documents ∧ d' ∈ p.documents ∧ .service s ∈ d.tree.members ∧
    .service s' ∈ d'.tree.members ∧
    a ∈ routedCalls (Model.build p {}) d.id d.source s ∧
    b ∈ routedCalls (Model.build p {}) d.id d.source s ∧
    c ∈ routedCalls (Model.build p {}) d'.id d'.source s' ∧
    a.callee.span ≠ b.callee.span ∧ a.name = b.name ∧ a.name = c.name ∧
    (Model.build p {}).activity? d.id a.callee ≠ (Model.build p {}).activity? d'.id c.callee := by
  have hcheck : ((Package.ofSources "acme" "orders"
      [callsOwn "main.wf", callsOwn "modules/m/m.wf"]).toOption.any fun p =>
      (Check.check p {}).isClean && p.documents.any fun d => p.documents.any fun d' =>
        (servicesOf d).any fun s => (servicesOf d').any fun s' =>
        (routedCalls (Model.build p {}) d.id d.source s).any fun a =>
        (routedCalls (Model.build p {}) d.id d.source s).any fun b =>
        (routedCalls (Model.build p {}) d'.id d'.source s').any fun c =>
          a.callee.span != b.callee.span && a.name == b.name && a.name == c.name &&
            ((Model.build p {}).activity? d.id a.callee).map (·.1) !=
              ((Model.build p {}).activity? d'.id c.callee).map (·.1)) = true := by decide +kernel
  obtain ⟨p, hread, hcheck⟩ := Package.exists_of_any hcheck
  obtain ⟨hclean, hcheck⟩ := Bool.and_eq_true_iff.mp hcheck
  obtain ⟨d, hd, hcheck⟩ := List.any_eq_true.mp hcheck
  obtain ⟨d', hd', hcheck⟩ := List.any_eq_true.mp hcheck
  obtain ⟨s, hs, hcheck⟩ := List.any_eq_true.mp hcheck
  obtain ⟨s', hs', hcheck⟩ := List.any_eq_true.mp hcheck
  obtain ⟨a, ha, hcheck⟩ := List.any_eq_true.mp hcheck
  obtain ⟨b, hb, hcheck⟩ := List.any_eq_true.mp hcheck
  obtain ⟨c, hc, hcheck⟩ := List.any_eq_true.mp hcheck
  simp only [Bool.and_eq_true, bne_iff_ne, beq_iff_eq] at hcheck
  obtain ⟨⟨⟨hspan, hab⟩, hac⟩, hother⟩ := hcheck
  exact ⟨p, d, d', s, s', a, b, c, hread, hclean, hd, hd', mem_servicesOf.mp hs,
    mem_servicesOf.mp hs', ha, hb, hc, hspan, hab, hac, fun heq => hother (by rw [heq])⟩

/-- The two calls of one module are of one activity. -/
theorem activity_eq_of_callsOwn : ∃ p d s a b, p.IsRead ∧ d ∈ p.documents ∧
    .service s ∈ d.tree.members ∧ a ∈ routedCalls (Model.build p {}) d.id d.source s ∧
    b ∈ routedCalls (Model.build p {}) d.id d.source s ∧ a.callee.span ≠ b.callee.span ∧
    ∃ found, (Model.build p {}).activity? d.id a.callee = some found ∧
      (Model.build p {}).activity? d.id b.callee = some found := by
  obtain ⟨p, d, -, s, -, a, b, -, hread, -, hd, -, hs, -, ha, hb, -, hspan, hab, -⟩ :=
    callsOwn_routed
  exact ⟨p, d, s, a, b, hread, hd, hs, ha, hb, hspan,
    activity_eq_of_literal_eq hread hd hd hs hs ha hb (congrArg Text.quote hab) (.inl rfl)⟩

/-- Calls in documents of two modules can hand over one name for two activities. -/
theorem not_all_activity_eq_of_literal_eq : ¬ ∀ (p : Package) (o : Options), p.IsRead →
    (Check.check p o).isClean = true → ∀ d ∈ p.documents, ∀ d' ∈ p.documents,
    ∀ s, .service s ∈ d.tree.members → ∀ s', .service s' ∈ d'.tree.members →
    ∀ c ∈ routedCalls (Model.build p o) d.id d.source s,
    ∀ c' ∈ routedCalls (Model.build p o) d'.id d'.source s',
      Text.quote c.name = Text.quote c'.name →
        (Model.build p o).activity? d.id c.callee = (Model.build p o).activity? d'.id c'.callee := by
  intro hall
  obtain ⟨p, d, d', s, s', a, -, c, hread, hclean, hd, hd', hs, hs', ha, -, hc, -, -, hac, hother⟩ :=
    callsOwn_routed
  exact hother (hall p {} hread hclean d hd d' hd' s hs s' hs' a ha c hc (congrArg Text.quote hac))

end Routing

end Durable
