/-
Where the parts of a tree stand in the text.

`Covers c c' spans` says that reading from `c` to `c'` passed over `spans`: each is a place in
the part of the text that was read, none is empty, and no two overlap.  It composes the way
cursors do, so the induction over the grammar only has to say which parts of a production
contribute which spans.  The spans of interest here are those of references; that they are
disjoint is what makes a table keyed by place unambiguous.
-/
import Mathlib.Data.List.Flatten
import Mathlib.Data.List.Perm.Subperm
import Durable.Tree.Outline
import Durable.Proofs.Token.Tiling
import Durable.Proofs.Grammar.Members

namespace Durable

/-! ### Spans in a part of a text -/

/-- Two spans have no byte in common. -/
def Span.Apart (a b : Span) : Prop := a.stop ≤ b.start ∨ b.stop ≤ a.start

theorem Span.Apart.symm {a b : Span} (h : a.Apart b) : b.Apart a := Or.symm h

/-- Spans lie between two offsets, none is empty, and no two overlap. -/
structure Spread (lo hi : Nat) (spans : List Span) : Prop where
  within : ∀ s ∈ spans, lo ≤ s.start ∧ s.start < s.stop ∧ s.stop ≤ hi
  apart : spans.Pairwise Span.Apart

namespace Spread

variable {lo mid hi : Nat} {as bs : List Span}

theorem nil : Spread lo hi [] := ⟨by simp, .nil⟩

theorem mono {lo' hi' : Nat} (h : Spread lo hi as) (hlo : lo' ≤ lo) (hhi : hi ≤ hi') :
    Spread lo' hi' as := by
  refine ⟨fun s hs => ?_, h.apart⟩
  obtain ⟨h₁, h₂, h₃⟩ := h.within s hs
  exact ⟨by omega, h₂, by omega⟩

theorem append (ha : Spread lo mid as) (hb : Spread mid hi bs) (hlo : lo ≤ mid) (hhi : mid ≤ hi) :
    Spread lo hi (as ++ bs) := by
  have ha' := ha.mono (Nat.le_refl lo) hhi
  have hb' := hb.mono hlo (Nat.le_refl hi)
  refine ⟨fun s hs => ?_, List.pairwise_append.mpr ⟨ha.apart, hb.apart, fun a hin b hin' => ?_⟩⟩
  · rcases List.mem_append.mp hs with hs | hs
    · exact ha'.within s hs
    · exact hb'.within s hs
  · obtain ⟨-, -, h₁⟩ := ha.within a hin
    obtain ⟨h₂, -, -⟩ := hb.within b hin'
    exact .inl (by omega)

/-- Dropping and reordering spans keeps them spread. -/
theorem subperm (h : Spread lo hi as) (hsub : bs.Subperm as) : Spread lo hi bs := by
  obtain ⟨cs, hperm, hsub⟩ := hsub
  refine ⟨fun s hs => h.within s (hsub.subset (hperm.mem_iff.mpr hs)), ?_⟩
  exact hperm.pairwise (h.apart.sublist hsub) fun hab => hab.symm

/-- Spans that are spread are all different. -/
theorem nodup (h : Spread lo hi as) : as.Nodup := by
  refine h.apart.imp_of_mem fun {a b} ha _ hab heq => ?_
  obtain ⟨-, h₁, -⟩ := h.within a ha
  subst heq
  rcases hab with hab | hab <;> omega

end Spread

/-! ### Cursors over tiles -/

namespace Cursor

/-- The tokens before a cursor are tiles with a text, placed one after another. -/
def Tiled (c : Cursor) : Prop :=
  ∃ ts, (∀ t ∈ ts, t.text ≠ []) ∧ c.rest = Tile.tokens c.passed ts

variable {c c₁ c₂ : Cursor}

theorem Tiled.advance (h : c.Tiled) : c.advance.Tiled := by
  obtain ⟨ts, hts, hrest⟩ := h
  cases ts with
  | nil => exact ⟨[], by simp, by simp_all [Cursor.advance, Tile.tokens]⟩
  | cons t ts =>
    refine ⟨ts, fun u hu => hts u (by simp [hu]), ?_⟩
    simp [Cursor.advance, hrest, Tile.tokens]

/-- The next token stands behind what was passed, is not empty, and ends where the cursor behind
it starts. -/
theorem Tiled.span (h : c.Tiled) (hc : c.kind ≠ .endOfFile) :
    c.passed ≤ c.start ∧ c.span = ⟨c.start, c.advance.passed⟩ ∧ c.start < c.advance.passed := by
  obtain ⟨ts, hts, hrest⟩ := h
  cases ts with
  | nil => exact absurd hrest (rest_ne_nil hc)
  | cons t ts =>
    have hpos : 0 < Text.byteLength t.text := Text.byteLength_pos (hts t (by simp))
    simp only [Tile.tokens] at hrest
    simp only [Cursor.start, Cursor.span, tokenAt, Cursor.advance, hrest,
      List.getElem?_cons_zero, Option.getD_some]
    exact ⟨by omega, trivial, by omega⟩

theorem Tiled.passed_le_advance (h : c.Tiled) : c.passed ≤ c.advance.passed := by
  by_cases hc : c.kind = .endOfFile
  · obtain ⟨ts, hts, hrest⟩ := h
    cases ts with
    | nil => simp_all [Cursor.advance, Tile.tokens]
    | cons t ts =>
      simp only [Tile.tokens] at hrest
      simp only [Cursor.advance, hrest]
      omega
  · obtain ⟨h₁, -, h₂⟩ := h.span hc
    omega

/-- Reading from a cursor to another passed over some spans. -/
def Covers (c c' : Cursor) (spans : List Span) : Prop :=
  c.Tiled → c'.Tiled ∧ c.passed ≤ c'.passed ∧ Spread c.passed c'.passed spans

namespace Covers

variable {as bs : List Span}

theorem refl : c.Covers c [] := fun h => ⟨h, Nat.le_refl _, .nil⟩

theorem trans (h : c.Covers c₁ as) (h' : c₁.Covers c₂ bs) : c.Covers c₂ (as ++ bs) := by
  intro hc
  obtain ⟨hc₁, hle, hs⟩ := h hc
  obtain ⟨hc₂, hle', hs'⟩ := h' hc₁
  exact ⟨hc₂, by omega, hs.append hs' hle hle'⟩

theorem skip (h : c.Covers c₁ as) (hr : c₁.Reaches c₂) : c.Covers c₂ as := by
  intro hc
  obtain ⟨hc₁, hle, hs⟩ := h hc
  have hle' : c₁.Tiled ∧ c.passed ≤ c₁.passed ∧ Spread c.passed c₁.passed as := ⟨hc₁, hle, hs⟩
  clear hc₁ hle hs
  induction hr with
  | refl => exact hle'
  | step _ ih =>
    obtain ⟨hc₁, hle, hs⟩ := ih
    have := hc₁.passed_le_advance
    exact ⟨hc₁.advance, by omega, hs.mono (Nat.le_refl _) this⟩

theorem step (h : c.Covers c₁ as) : c.Covers c₁.advance as := h.skip Reaches.refl.step

theorem pass (h : c.Covers c₁ as) (k : TokenKind) : c.Covers (c₁.pass k) as :=
  h.skip (Reaches.refl.pass k)

theorem passName (h : c.Covers c₁ as) : c.Covers c₁.passName as := h.skip Reaches.refl.passName

theorem ite (h : c.Covers c₁ as) {b : Bool} : c.Covers (if b then c₁.advance else c₁) as :=
  h.skip Reaches.refl.ite

theorem of_reaches (h : c.Reaches c₁) : c.Covers c₁ [] := refl.skip h

theorem subperm (h : c.Covers c₁ as) (hsub : bs.Subperm as) : c.Covers c₁ bs := by
  intro hc
  obtain ⟨hc₁, hle, hs⟩ := h hc
  exact ⟨hc₁, hle, hs.subperm hsub⟩

/-- A token covers its own place. -/
theorem token (hc : c.kind ≠ .endOfFile) : c.Covers c.advance [c.span] := by
  intro h
  obtain ⟨h₁, h₂, h₃⟩ := h.span hc
  refine ⟨h.advance, by omega, ?_, List.pairwise_singleton _ _⟩
  rintro s hs
  rw [List.mem_singleton.mp hs, h₂]
  exact ⟨h₁, h₃, Nat.le_refl _⟩

/-- So does whatever was read from a token on. -/
theorem since (hc : c.kind ≠ .endOfFile) (hr : c.advance.Reaches c₁) :
    c.Covers c₁ [c₁.since c.start] := by
  intro h
  obtain ⟨h₁, -, h₃⟩ := h.span hc
  obtain ⟨hc₁, hle, -⟩ := of_reaches hr h.advance
  refine ⟨hc₁, by omega, ?_, List.pairwise_singleton _ _⟩
  rintro s hs
  rw [List.mem_singleton.mp hs]
  exact ⟨h₁, Nat.lt_of_lt_of_le h₃ (Nat.le_trans hle (Nat.le_max_left _ _)),
    Nat.max_le.mpr ⟨Nat.le_refl _, by omega⟩⟩

end Covers

end Cursor

/-! ### The references of a tree -/

/-- The reference that a node is, if it is one. -/
def Node.ref? : Node → Option NameRef
  | .ref r => some r
  | _ => none

theorem Node.ref?_eq_some {n : Node} {r : NameRef} : n.ref? = some r ↔ n = .ref r := by
  cases n <;> simp [Node.ref?]

/-- The references among the nodes of some outlines, in reading order. -/
def refsOf (os : List Outline) : List NameRef := (Outline.nodesOfAll os).filterMap Node.ref?

@[simp] theorem refsOf_nil : refsOf [] = [] := rfl

@[simp] theorem refsOf_cons (n : Node) (ps os : List Outline) :
    refsOf (.mk n ps :: os) = n.ref?.toList ++ refsOf ps ++ refsOf os := by
  unfold refsOf
  rw [Outline.nodesOfAll, Outline.nodes]
  cases h : n.ref? <;> simp [h]

theorem refsOf_cons_eq (o : Outline) (os : List Outline) :
    refsOf (o :: os) = refsOf [o] ++ refsOf os := by
  cases o
  simp

@[simp] theorem refsOf_append (os os' : List Outline) :
    refsOf (os ++ os') = refsOf os ++ refsOf os' := by
  induction os with
  | nil => rfl
  | cons o os ih => rw [List.cons_append, refsOf_cons_eq, ih, refsOf_cons_eq o os, List.append_assoc]

theorem refsOf_map {α : Type} (f : α → Outline) (as : List α) :
    refsOf (as.map f) = as.flatMap fun a => refsOf [f a] := by
  induction as with
  | nil => rfl
  | cons a as ih => rw [List.map_cons, refsOf_cons_eq, ih, List.flatMap_cons]

theorem refsOf_types (ts : List TypeDesc) :
    refsOf (typeOutlines ts) = ts.flatMap fun t => refsOf t.parts := by
  induction ts with
  | nil => rfl
  | cons t ts ih => simp [typeOutlines, ih, Node.ref?]

/-- The references in a field of a record type. -/
def fieldTypeRefs : RecordField → List NameRef
  | .mk _ t _ _ default _ => refsOf t.parts ++ default.toList.flatMap fun e => refsOf e.parts

theorem refsOf_recordFields (fs : List RecordField) :
    refsOf (recordFieldOutlines fs) = fs.flatMap fieldTypeRefs := by
  induction fs with
  | nil => rfl
  | cons f fs ih =>
    obtain ⟨_, _, _, _, _ | _, _⟩ := f <;> simp [recordFieldOutlines, fieldTypeRefs, ih, Node.ref?]

theorem refsOf_exprs (es : List Expr) :
    refsOf (exprOutlines es) = es.flatMap fun e => refsOf e.parts := by
  induction es with
  | nil => rfl
  | cons e es ih => simp [exprOutlines, ih, Node.ref?]

theorem refsOf_args (as : List Arg) :
    refsOf (argOutlines as) = as.flatMap fun a => refsOf a.value.parts := by
  induction as with
  | nil => rfl
  | cons a as ih => cases a <;> simp [argOutlines, ih, Arg.value, Node.ref?]

/-- The references in a field of a mapping. -/
def fieldRefs : MappingField → List NameRef
  | .word _ e | .string _ _ e | .spread e => refsOf e.parts
  | .computed key e => refsOf key.parts ++ refsOf e.parts
  | .shorthand r => [r]

theorem refsOf_fields (fs : List MappingField) :
    refsOf (fieldOutlines fs) = fs.flatMap fieldRefs := by
  induction fs with
  | nil => rfl
  | cons f fs ih =>
    cases f <;> simp [fieldOutlines, fieldRefs, ih, NameRef.outline, Node.ref?]

/-- The references in what a symbol reads. -/
@[simp] def Sym.refs : (s : Sym) → s.Result → List NameRef
  | type, t | intersection, t | suffixed, t | suffixing, t | plainType, t | typeArgument, t =>
    refsOf t.parts
  | typeParam, p => refsOf p.2.parts
  | recordItem, .inl f => fieldTypeRefs f
  | recordItem, .inr t => refsOf t.parts
  | expr, e | binary _, e | joining _, e | unary, e | accessed, e | accessing, e | primary, e
  | mapping, e => refsOf e.parts
  | arg, a => refsOf a.value.parts
  | mappingField, f => fieldRefs f
  | tag, a => refsOf [a.outline]
  | param, p => refsOf [p.outline]
  | localVar, d => refsOf [d.outline]
  | many _ s, as | separated _ s, as | commaList _ s, as => as.flatMap s.refs
  | behind _ s, a | given _ s, a => a.toList.flatMap s.refs

/-- The places of the references in what a symbol reads. -/
def Sym.places (s : Sym) (t : s.Result) : List Span := (s.refs t).map (·.span)

theorem ReadsName.covers {c c' : Cursor} {r : NameRef} (h : ReadsName c r c') :
    c.Covers c' [r.span] := by
  cases h with
  | qualified hat hvia hname =>
    exact .since (TokenKind.ne_endOfFile_of_word? hvia) Cursor.Reaches.refl.step.step
  | simple hat hname => exact .token (by simp [hname])

theorem toList_getLast?_sublist {α : Type} (as : List α) : as.getLast?.toList.Sublist as := by
  cases h : as.getLast? with
  | none => simp
  | some a => simpa using List.mem_of_getLast? h

/-- What two selections keep of a list, of the second one only the last, is among the list. -/
theorem subperm_of_selections {α β γ : Type} (as : List α) (p : α → Option β) (q : α → Option γ)
    (f : β → List NameRef) (g : γ → List NameRef) (k : α → List NameRef)
    (hk : ∀ a, k a = (p a).toList.flatMap f ++ (q a).toList.flatMap g) :
    ((as.filterMap p).flatMap f ++ (as.filterMap q).getLast?.toList.flatMap g).Subperm
      (as.flatMap k) := by
  have hperm : ((as.filterMap p).flatMap f ++ (as.filterMap q).flatMap g).Perm (as.flatMap k) := by
    refine List.perm_iff_count.mpr fun s => ?_
    induction as with
    | nil => rfl
    | cons a as ih =>
      simp only [List.count_append] at ih
      cases hp : p a <;> cases hq : q a <;> simp [hk, hp, hq] <;> omega
  have hlast := (toList_getLast?_sublist (as.filterMap q)).flatMap g
  exact ((List.Sublist.refl ((as.filterMap p).flatMap f)).append hlast).subperm.trans hperm.subperm

theorem subperm_spans {as bs : List NameRef} (h : as.Subperm bs) :
    (as.map fun r => r.span).Subperm (bs.map fun r => r.span) := by
  obtain ⟨cs, hperm, hsub⟩ := h
  exact ⟨cs.map _, hperm.map _, hsub.map _⟩

/-- The parameters of a function type are among those that were read. -/
theorem subperm_params (params : List (Bool × TypeDesc)) (f : TypeDesc → List NameRef) :
    ((fixedParams params).flatMap f ++ (restParam params).toList.flatMap f).Subperm
      (params.flatMap fun p => f p.2) := by
  refine subperm_of_selections params _ _ f f _ fun ⟨isRest, t⟩ => ?_
  cases isRest <;> simp

/-- The fields of a record type are among the items that were read. -/
theorem subperm_items (items : List (RecordField ⊕ TypeDesc))
    (k : RecordField ⊕ TypeDesc → List NameRef) :
    ((listedFields items).flatMap (fun x => k (.inl x))
        ++ (unlistedFields items).toList.flatMap (fun t => k (.inr t))).Subperm
      (items.flatMap k) := by
  refine subperm_of_selections items _ _ _ _ _ fun item => ?_
  cases item <;> simp

open Cursor (Covers Reaches) in
/-- **The references of what is read stand in the text that was read, no two in one place.** -/
theorem Reads.covers {s : Sym} {c c' : Cursor} {t : s.Result} (h : Reads s c t c') :
    c.Covers c' (s.places t) := by
  induction h with
  | oneMember _ ih | onePart _ ih => simpa [Sym.places, Sym.refs] using ih
  | union _ ih | intersection _ ih =>
    simpa [Sym.places, Sym.refs, TypeDesc.parts, typeOutlines, refsOf_types, Node.ref?] using ih
  | suffixed _ _ ih | plain _ ih | condition _ _ ih | operand _ ih | binary _ _ ih | bare _ ih
  | accessed _ _ ih | primary _ ih | mapping _ ih => exact ih
  | optional _ _ ih => simpa [Sym.places, Sym.refs, TypeDesc.parts, Node.ref?] using ih.step
  | array _ _ _ ih => simpa [Sym.places, Sym.refs, TypeDesc.parts, Node.ref?] using ih.step.step
  | typeArgument _ _ _ ih => exact (Covers.refl.step.trans ih).step
  | parenType _ _ _ ih =>
    simpa [Sym.places, Sym.refs, TypeDesc.parts, Node.ref?]
      using (Covers.refl.step.trans ih).step
  | paren _ _ _ ih =>
    simpa [Sym.places, Sym.refs, Expr.parts, Node.ref?] using (Covers.refl.step.trans ih).step
  | builtin | inferred | anyFunction | singleton =>
    simpa [Sym.places, Sym.refs, TypeDesc.parts] using Covers.refl.step
  | literal => simpa [Sym.places, Sym.refs, Expr.parts] using Covers.refl.step
  | noItems => simpa [Sym.places, Sym.refs] using Covers.refl.step
  | shorthand hkey _ =>
    simpa [Sym.places, Sym.refs, fieldRefs, NameRef.simple] using Covers.token (TokenKind.ne_endOfFile_of_word? hkey)
  | typeName _ href =>
    simpa [Sym.places, Sym.refs, TypeDesc.parts] using Covers.of_reaches href.reaches
  | name _ href =>
    simpa [Sym.places, Sym.refs, Expr.parts, NameRef.outline, Node.ref?] using href.covers
  | mapType _ _ ih =>
    simpa [Sym.places, Sym.refs, TypeDesc.parts, Node.ref?] using Covers.refl.step.trans ih
  | @future _ _ t _ _ ih =>
    cases t <;> simpa [Sym.places, Sym.refs, TypeDesc.parts, Node.ref?]
      using Covers.refl.step.trans ih
  | @stream _ _ _ _ u _ _ _ _ _ ih₁ ih₂ =>
    cases u <;> simpa [Sym.places, Sym.refs, TypeDesc.parts, Node.ref?]
      using ((Covers.refl.step.step.trans ih₁).trans ih₂).step
  | @functionType _ _ _ params returns _ _ _ _ ih₁ ih₂ =>
    have hparams := ih₁.subperm (subperm_spans (subperm_params params fun t => refsOf t.parts))
    have hall := (Covers.refl.step.step.trans hparams).trans ih₂
    cases hrest : Durable.restParam params <;> cases returns <;>
      simpa [Sym.places, Sym.refs, TypeDesc.parts, refsOf_types, Node.ref?, hrest] using hall
  | @record _ _ _ items _ _ _ ih =>
    have hitems := ih.subperm (subperm_spans (subperm_items items Sym.recordItem.refs))
    have hall := Covers.refl.step.step.trans hitems
    cases hrest : unlistedFields items <;>
      simpa [Sym.places, Sym.refs, TypeDesc.parts, refsOf_recordFields, Node.ref?, hrest] using hall
  | nilType => simpa [Sym.places, Sym.refs, TypeDesc.parts] using Covers.refl.step.step
  | nilValue => simpa [Sym.places, Sym.refs, Expr.parts] using Covers.refl.step.step
  | typeParam _ ih => exact (ih.pass _).passName
  | @recordField _ _ _ _ _ default _ _ _ _ _ ih₁ ih₂ =>
    cases default <;> simpa [Sym.places, Sym.refs, fieldTypeRefs]
      using (((Covers.refl.ite.trans ih₁).step.pass _).trans ih₂).step
  | recordRest _ _ _ ih =>
    simpa [Sym.places, Sym.refs] using (Covers.refl.ite.trans ih).step.step
  | conditional _ _ _ _ _ ih₁ ih₂ ih₃ =>
    simpa [Sym.places, Sym.refs, Expr.parts, Node.ref?] using ((ih₁.step.trans ih₂).step).trans ih₃
  | operator _ _ _ _ ih₁ ih₂ | typeTest _ _ _ _ ih₁ ih₂ =>
    simpa [Sym.places, Sym.refs, Expr.parts, Node.ref?] using ih₁.step.trans ih₂
  | unary _ _ ih =>
    simpa [Sym.places, Sym.refs, Expr.parts, Node.ref?] using Covers.refl.step.trans ih
  | cast _ _ ih₁ ih₂ =>
    simpa [Sym.places, Sym.refs, Expr.parts, Node.ref?] using ih₁.trans ih₂
  | field _ _ _ _ ih => simpa [Sym.places, Sym.refs, Expr.parts, Node.ref?] using ih.step.step
  | methodCall _ _ _ _ _ ih₁ ih₂ | remoteCall _ _ _ _ _ ih₁ ih₂ =>
    simpa [Sym.places, Sym.refs, Expr.parts, Node.ref?, refsOf_args]
      using ih₁.step.step.step.trans ih₂
  | index _ _ _ _ ih₁ ih₂ =>
    simpa [Sym.places, Sym.refs, Expr.parts, Node.ref?] using (ih₁.step.trans ih₂).step
  | list _ _ ih =>
    simpa [Sym.places, Sym.refs, Expr.parts, refsOf_exprs] using Covers.refl.step.trans ih
  | @construct _ _ _ t as _ _ _ ih₁ ih₂ =>
    cases t <;> cases as <;> simpa [Sym.places, Sym.refs, Expr.parts, Node.ref?, refsOf_args]
      using (Covers.refl.step.trans ih₁).trans ih₂
  | errorCall hword _ _ ih =>
    simpa [Sym.places, Sym.refs, Expr.parts, NameRef.outline, NameRef.simple, Node.ref?, refsOf_args]
      using (Covers.token (by simp [hword])).step.trans ih
  | call _ href _ _ ih =>
    simpa [Sym.places, Sym.refs, Expr.parts, NameRef.outline, Node.ref?, refsOf_args]
      using href.covers.step.trans ih
  | restArg _ _ ih =>
    simpa [Sym.places, Sym.refs, Arg.value] using Covers.refl.step.trans ih
  | namedArg _ _ _ ih =>
    simpa [Sym.places, Sym.refs, Arg.value] using Covers.refl.step.step.trans ih
  | positional _ _ ih => simpa [Sym.places, Sym.refs, Arg.value] using ih
  | spread _ _ ih =>
    simpa [Sym.places, Sym.refs, fieldRefs] using Covers.refl.step.trans ih
  | stringField _ _ _ ih | wordField _ _ _ ih =>
    simpa [Sym.places, Sym.refs, fieldRefs] using Covers.refl.step.step.trans ih
  | computedField _ _ _ _ _ ih₁ ih₂ =>
    simpa [Sym.places, Sym.refs, fieldRefs]
      using (Covers.refl.step.trans ih₁).step.step.trans ih₂
  | fields _ _ ih =>
    simpa [Sym.places, Sym.refs, Expr.parts, refsOf_fields] using Covers.refl.step.trans ih
  | @tag _ _ _ _ value _ href _ ih =>
    cases value <;> simpa [Sym.places, Sym.refs, Annotation.outline, optionalExpr, Expr.outline, Node.ref?]
      using (Covers.of_reaches (Reaches.refl.step.trans href.reaches)).trans ih
  | restParam _ _ _ _ ih₁ ih₂ =>
    simpa [Sym.places, Sym.refs, Param.outline, TypeDesc.outline, optionalExpr, Node.ref?, refsOf_map]
      using (ih₁.trans ih₂).step.step
  | @param _ _ _ _ _ _ _ default _ _ _ _ ih₁ ih₂ ih₃ =>
    cases default <;> simpa [Sym.places, Sym.refs, Param.outline, TypeDesc.outline, Expr.outline, optionalExpr,
      Node.ref?, refsOf_map] using (ih₁.trans ih₂).step.trans ih₃
  | @localVar _ _ _ _ _ _ _ init _ _ _ _ _ ih₁ ih₂ ih₃ =>
    cases init <;> simpa [Sym.places, Sym.refs, LocalVar.outline, TypeDesc.outline, Expr.outline, optionalExpr,
      Node.ref?, refsOf_map] using (((ih₁.pass _).trans ih₂).step.trans ih₃).step
  | stop hstep => simpa [Sym.places, Sym.refs] using Covers.of_reaches (Gap.step_reaches hstep)
  | more hstep _ _ ih₁ ih₂ =>
    simpa [Sym.places, Sym.refs]
      using ((Covers.of_reaches (Gap.step_reaches hstep)).trans ih₁).trans ih₂
  | separated _ _ ih₁ ih₂ | items _ _ _ ih₁ ih₂ =>
    simpa [Sym.places, Sym.refs] using ih₁.trans ih₂
  | absent | missing => simpa [Sym.places, Sym.refs] using Covers.refl
  | present _ _ ih => simpa [Sym.places, Sym.refs] using Covers.refl.step.trans ih
  | found _ _ ih => simpa [Sym.places, Sym.refs] using ih

/-! ### Statements and members -/

/-- The places of the references in some outlines. -/
def placesOf (os : List Outline) : List Span := (refsOf os).map (·.span)

@[simp] theorem placesOf_append (os os' : List Outline) :
    placesOf (os ++ os') = placesOf os ++ placesOf os' := by
  simp [placesOf]

/-- The outlines of the parts of what a symbol of statements reads. -/
def StmtSym.outlines : (s : StmtSym) → s.Result → List Outline
  | stmt, s | ifElse, s => s.parts
  | block, b => b.parts
  | stmts, ss => stmtOutlines ss
  | otherwise, s => (s.map Stmt.parts).getD []

section

variable {c c' : Cursor}

open Cursor (Covers Reaches)

theorem ReadsStmt.covers {s : StmtSym} {t : s.Result} (h : ReadsStmt s c t c') :
    c.Covers c' (placesOf (s.outlines t)) := by
  induction h with
  | localVar h =>
    simpa [StmtSym.outlines, Stmt.parts, Sym.places, Sym.refs, placesOf] using h.covers
  | assign _ he _ hf =>
    simpa [StmtSym.outlines, Stmt.parts, Sym.places, Sym.refs, placesOf, Expr.outline, Node.ref?]
      using (he.covers.step.trans hf.covers).step
  | expr _ he =>
    simpa [StmtSym.outlines, Stmt.parts, Sym.places, Sym.refs, placesOf, Expr.outline, Node.ref?]
      using he.covers.step
  | lock _ _ ih =>
    simpa [StmtSym.outlines, Stmt.parts, placesOf, Node.ref?] using Covers.refl.step.trans ih
  | ifElse _ ih => exact ih
  | whileLoop _ he _ ih =>
    simpa [StmtSym.outlines, Stmt.parts, Sym.places, Sym.refs, placesOf, Expr.outline, Node.ref?]
      using (Covers.refl.step.trans he.covers).trans ih
  | foreach _ ht _ _ he _ ih =>
    simpa [StmtSym.outlines, Stmt.parts, Sym.places, Sym.refs, placesOf, Expr.outline,
      TypeDesc.outline, Node.ref?]
      using (((Covers.refl.step.trans ht.covers).step.step).trans he.covers).trans ih
  | @giveBack _ _ e _ he =>
    cases e <;> simpa [StmtSym.outlines, Stmt.parts, Sym.places, Sym.refs, placesOf, Expr.outline,
      Node.ref?] using (Covers.refl.step.trans he.covers).step
  | attempt _ _ _ ih =>
    simpa [StmtSym.outlines, Stmt.parts, placesOf, Node.ref?] using Covers.refl.step.trans ih
  | attemptOnFail _ _ _ _ ht _ _ ih₁ ih₂ =>
    simpa [StmtSym.outlines, Stmt.parts, Sym.places, Sym.refs, placesOf, TypeDesc.outline,
      Node.ref?] using (((Covers.refl.step.trans ih₁).step.step).trans ht.covers).step.trans ih₂
  | blockStmt _ ih => simpa [StmtSym.outlines, Stmt.parts, placesOf, Node.ref?] using ih
  | panic _ he | fail _ he =>
    simpa [StmtSym.outlines, Stmt.parts, Sym.places, Sym.refs, placesOf, Expr.outline, Node.ref?]
      using (Covers.refl.step.trans he.covers).step
  | leave | again => simpa [StmtSym.outlines, Stmt.parts, placesOf] using Covers.refl.step.step
  | block _ _ ih => simpa [StmtSym.outlines, Block.parts, placesOf] using Covers.refl.step.trans ih
  | noStmts => simpa [StmtSym.outlines, stmtOutlines, placesOf] using Covers.refl.step
  | stmts _ _ _ _ ih₁ ih₂ =>
    simpa [StmtSym.outlines, stmtOutlines, placesOf, Node.ref?] using ih₁.trans ih₂
  | @condition _ _ _ _ _ _ other _ he _ _ ih₁ ih₂ =>
    cases other <;> simpa [StmtSym.outlines, Stmt.parts, Sym.places, Sym.refs, placesOf,
      Expr.outline, Node.ref?] using ((Covers.refl.step.trans he.covers).trans ih₁).trans ih₂
  | noElse => simpa [StmtSym.outlines, placesOf] using Covers.refl
  | elseIf _ _ ih => simpa [StmtSym.outlines] using Covers.refl.step.trans ih
  | elseBlock _ _ ih =>
    simpa [StmtSym.outlines, Stmt.parts, placesOf, Node.ref?] using Covers.refl.step.trans ih

/-- What the items of a repetition cover, the repetition covers. -/
theorem Repeats.covers {α : Type} {step : Cursor → Option (Bool × Cursor)}
    {R : Cursor → α → Cursor → Prop} {f : α → List Span}
    (hstep : ∀ c b c', step c = some (b, c') → c.Reaches c')
    (hR : ∀ c a c', R c a c' → c.Covers c' (f a)) {as : List α} (h : Repeats step R c as c') :
    c.Covers c' (as.flatMap f) := by
  induction h with
  | stop h => exact .of_reaches (hstep _ _ _ h)
  | more h first _ ih =>
    rw [List.flatMap_cons]
    exact ((Covers.of_reaches (hstep _ _ _ h)).trans (hR _ _ _ first)).trans ih

/-- What reads no reference is only passed over. -/
theorem Repeats.reaches {α : Type} {step : Cursor → Option (Bool × Cursor)}
    {R : Cursor → α → Cursor → Prop} (hstep : ∀ c b c', step c = some (b, c') → c.Reaches c')
    (hR : ∀ c a c', R c a c' → c.Reaches c') {as : List α} (h : Repeats step R c as c') :
    c.Reaches c' := by
  induction h with
  | stop h => exact hstep _ _ _ h
  | more h first _ ih => exact ((hstep _ _ _ h).trans (hR _ _ _ first)).trans ih

/-- Every item of a repetition was read somewhere behind its start. -/
theorem Repeats.reached {α : Type} {step : Cursor → Option (Bool × Cursor)}
    {R : Cursor → α → Cursor → Prop} (hstep : ∀ {c b c'}, step c = some (b, c') → c.Reaches c')
    (hR : ∀ {c a c'}, R c a c' → c.Reaches c') {as : List α} (h : Repeats step R c as c') {a : α}
    (ha : a ∈ as) : ∃ d d', c.Reaches d ∧ R d a d' := by
  induction h with
  | stop => simp at ha
  | more h first _ ih =>
    rcases List.mem_cons.mp ha with rfl | ha
    · exact ⟨_, _, hstep h, first⟩
    · obtain ⟨d, d', hr, hread⟩ := ih ha
      exact ⟨d, d', ((hstep h).trans (hR first)).trans hr, hread⟩

theorem ReadsWord.reaches {x : Ident} (h : ReadsWord c x c') : c.Reaches c' := by
  obtain ⟨-, -, rfl⟩ := h
  exact Reaches.refl.step

theorem ReadsModifiers.reaches {ms : Modifiers} (h : ReadsModifiers c ms c') : c.Reaches c' := by
  refine Repeats.reaches (fun _ _ _ hstep => ?_) (fun _ _ _ hq => ?_) h
  · simp only [modifierStep, Option.some.injEq, Prod.mk.injEq] at hstep
    rw [← hstep.2]
    exact .refl
  · obtain ⟨-, -, rfl⟩ := hq
    exact Reaches.refl.step

theorem PassesPath.reaches {depth : Nat} (h : PassesPath depth c c') : c.Reaches c' := by
  induction h with
  | stop => exact .refl
  | pass _ _ _ ih => exact Reaches.refl.step.trans ih

theorem PassesBase.reaches (h : PassesBase c c') : c.Reaches c' := by
  induction h with
  | stop => exact .refl
  | pass _ _ _ ih => exact Reaches.refl.step.trans ih

theorem ReadsResourcePath.reaches {source : Source} {b : Bool} {path : Option String}
    (h : ReadsResourcePath source b c path c') : c.Reaches c' := by
  cases h with
  | plain => exact .refl
  | empty h => exact h.reaches
  | path h => exact h.reaches

theorem ReadsBasePath.reaches {source : Source} {path : Option String}
    (h : ReadsBasePath source c path c') : c.Reaches c' := by
  cases h with
  | slash _ h => exact h.reaches
  | string => exact Reaches.refl.step
  | absent => exact .refl

theorem ReadsOrg.reaches {org : Option Ident} (h : ReadsOrg c org c') : c.Reaches c' := by
  cases h with
  | absent => exact .refl
  | present => exact Reaches.refl.step.step

theorem ReadsRename.reaches {r : Option Ident} (h : ReadsRename c r c') : c.Reaches c' := by
  cases h with
  | absent => exact .refl
  | present => exact Reaches.refl.step.step

theorem ReadsImport.reaches {i : Import} (h : ReadsImport c i c') : c.Reaches c' := by
  cases h with
  | mk _ horg _ hparts hrename _ =>
    have hfurther := Repeats.reaches (fun _ _ _ => Gap.step_reaches) (fun _ _ _ => ReadsWord.reaches) hparts
    exact (((Reaches.refl.step.trans horg.reaches).step.trans hfurther).trans hrename.reaches).step

theorem ReadsPoint.reaches {p : String} (h : ReadsPoint c p c') : c.Reaches c' := by
  cases h with
  | mk list =>
    refine Repeats.reaches (fun _ _ _ hstep => ?_) (fun _ _ _ => ReadsWord.reaches) list
    simp only [pointStep, Option.some.injEq, Prod.mk.injEq] at hstep
    rw [← hstep.2]
    exact .refl

theorem ReadsPoints.reaches {ps : List String} (h : ReadsPoints c ps c') : c.Reaches c' := by
  cases h with
  | absent => exact .refl
  | present _ first others =>
    exact (Reaches.refl.step.trans first.reaches).trans
      (Repeats.reaches (fun _ _ _ => Gap.step_reaches) (fun _ _ _ => ReadsPoint.reaches) others)

theorem ReadsReturns.covers {t : Option TypeDesc} (h : ReadsReturns c t c') :
    c.Covers c' (placesOf (optionalType t)) := by
  cases h with
  | absent => exact .refl
  | present _ dropped type =>
    simpa [placesOf, optionalType, TypeDesc.outline, Node.ref?, Sym.places, Sym.refs]
      using (Covers.of_reaches (Reaches.refl.step.trans dropped.reaches)).trans type.covers

theorem ReadsTypeBefore.covers {absent : TokenKind → Bool} {t : Option TypeDesc}
    (h : ReadsTypeBefore absent c t c') : c.Covers c' (placesOf (optionalType t)) := by
  cases h with
  | missing => exact .refl
  | found _ type =>
    simpa [placesOf, optionalType, TypeDesc.outline, Node.ref?, Sym.places, Sym.refs]
      using type.covers

theorem ReadsInit.covers {configurable : Bool} {e : Option Expr}
    (h : ReadsInit configurable c e c') : c.Covers c' (placesOf (optionalExpr e)) := by
  cases h with
  | written value =>
    cases e <;> simpa [placesOf, optionalExpr, Expr.outline, Node.ref?, Sym.places, Sym.refs]
      using value.covers
  | required =>
    simpa [placesOf, optionalExpr, Expr.outline, Expr.parts, Node.ref?] using Covers.refl.step.step

variable {c₀ : Cursor} {source : Source} {origin : Nat} {as : List Annotation} {ms : Modifiers}

/-- What stands behind annotations is covered together with them. -/
theorem ReadsFunction.covers {f : Function} (h : ReadsFunction source origin as ms c f c')
    (h₀ : c₀.Covers c (placesOf (as.map Annotation.outline))) :
    c₀.Covers c' (placesOf [f.outline]) := by
  cases h with
  | mk _ _ hpath _ list result hbody =>
    have hparams := (h₀.step.step.skip hpath.reaches).step.trans list.covers
    simpa [placesOf, Function.outline, Block.outline, Node.ref?, Sym.places, Sym.refs, refsOf_map,
      StmtSym.outlines] using (hparams.trans result.covers).trans hbody.covers

theorem ReadsVarDecl.covers {configurable : Bool} {v : VarDecl}
    (h : ReadsVarDecl origin as ms configurable c v c')
    (h₀ : c₀.Covers c (placesOf (as.map Annotation.outline))) :
    c₀.Covers c' (placesOf v.parts) := by
  cases h with
  | mk type _ value _ =>
    simpa [placesOf, VarDecl.parts, TypeDesc.outline, Node.ref?, Sym.places, Sym.refs]
      using ((h₀.trans type.covers).step.trans value.covers).step

theorem ReadsValueDecl.covers {d : ValueDecl} (h : ReadsValueDecl origin as ms c d c')
    (h₀ : c₀.Covers c (placesOf (as.map Annotation.outline))) :
    c₀.Covers c' (placesOf d.parts) := by
  cases h with
  | mk type _ _ value _ =>
    simpa [placesOf, ValueDecl.parts, Expr.outline, Node.ref?, Sym.places, Sym.refs]
      using ((h₀.step.trans type.covers).step.step.trans value.covers).step

theorem Reads.covers_annotations (h : Reads .annotations c as c') :
    c.Covers c' (placesOf (as.map Annotation.outline)) := by
  simpa [placesOf, Sym.places, Sym.refs, refsOf_map] using h.covers

theorem ReadsServiceMember.covers {d : ServiceMember} (h : ReadsServiceMember source c d c') :
    c.Covers c' (placesOf d.outlines) := by
  cases h with
  | method annotations modifiers decl =>
    exact decl.covers (annotations.covers_annotations.skip modifiers.reaches)
  | field annotations modifiers _ decl =>
    exact decl.covers (annotations.covers_annotations.skip modifiers.reaches)

theorem closingStep_reaches {b : Bool} (h : StmtGrammar.closingStep c = some (b, c')) :
    c.Reaches c' := by
  cases b with
  | true =>
    obtain ⟨-, rfl⟩ := StmtGrammar.closingStep_stop h
    exact Reaches.refl.step
  | false =>
    obtain ⟨-, -, rfl⟩ := StmtGrammar.closingStep_more h
    exact .refl

theorem placesOf_flatMap {α : Type} (f : α → List Outline) (as : List α) :
    placesOf (as.flatMap f) = as.flatMap fun a => placesOf (f a) := by
  induction as with
  | nil => rfl
  | cons a as ih => simp [ih]

theorem ReadsService.covers {d : Service} (h : ReadsService source origin as ms c d c')
    (h₀ : c₀.Covers c (placesOf (as.map Annotation.outline))) :
    c₀.Covers c' (placesOf [d.outline]) := by
  cases h with
  | @mk _ _ _ _ t _ _ _ word type hpath on listeners opening list =>
    have hmembers := Repeats.covers (R := ReadsServiceMember source)
      (fun _ _ _ => closingStep_reaches) (fun _ _ _ => ReadsServiceMember.covers) list
    have hlisteners := ((h₀.step.trans type.covers).skip hpath.reaches).step.trans listeners.covers
    rw [← placesOf_flatMap] at hmembers
    cases t <;> simpa [placesOf, Service.outline, optionalType, TypeDesc.outline, Expr.outline,
      Node.ref?, Sym.places, Sym.refs, refsOf_map] using hlisteners.step.trans hmembers

theorem ReadsDecl.covers {d : Member} (h : ReadsDecl source origin as ms c d c')
    (h₀ : c₀.Covers c (placesOf (as.map Annotation.outline))) :
    c₀.Covers c' (placesOf [d.outline]) := by
  cases h with
  | function decl => simpa [placesOf, Member.outline, Node.ref?] using decl.covers h₀
  | service decl => simpa [placesOf, Member.outline, Node.ref?] using decl.covers h₀
  | const _ decl | listener _ decl | moduleVar _ decl =>
    simpa [placesOf, Member.outline, Node.ref?] using decl.covers h₀
  | type _ decl =>
    cases decl with
    | mk _ type _ =>
      simpa [placesOf, Member.outline, TypeDesc.outline, Node.ref?, Sym.places, Sym.refs]
        using (h₀.step.step.trans type.covers).step
  | annotationDecl _ decl =>
    cases decl with
    | mk type _ hpoints _ =>
      have hnone : c₀.Covers c [] := h₀.subperm (List.nil_subperm)
      simpa [placesOf, Member.outline, Node.ref?]
        using ((hnone.step.trans type.covers).step.skip hpoints.reaches).step

theorem ReadsMember.covers {d : Member} (h : ReadsMember source c d c') :
    c.Covers c' (placesOf [d.outline]) := by
  cases h with
  | mk annotations modifiers decl =>
    exact decl.covers (annotations.covers_annotations.skip modifiers.reaches)

theorem memberStep_reaches {b : Bool} (h : memberStep c = some (b, c')) : c.Reaches c' := by
  simp only [memberStep, Option.some.injEq, Prod.mk.injEq] at h
  rw [← h.2]
  exact .refl

/-- **The references of a module stand in its text, no two in one place.** -/
theorem ReadsModule.covers {d : Module} (h : ReadsModule source c d c') :
    c.Covers c' (placesOf [d.outline]) := by
  cases h with
  | mk imports members =>
    have himports := Repeats.reaches (fun _ _ _ => Gap.step_reaches)
      (fun _ _ _ => ReadsImport.reaches) imports
    have hmembers := Repeats.covers (R := ReadsMember source)
      (fun _ _ _ => memberStep_reaches) (fun _ _ _ => ReadsMember.covers) members
    simpa [placesOf, Module.outline, Node.ref?, refsOf_map, List.map_flatMap]
      using (Covers.of_reaches himports).trans hmembers

end

end Durable
