/-
The grammar of members and modules, as relations, and the parser's soundness for them.

These productions do not recurse into each other, so each is a relation of its own.  They are
relative to the source text, because the paths of services and resource methods are kept as
slices of it; `ReadsPath` says which tokens such a slice covers.
-/
import Durable.Proofs.Token.Tiling
import Durable.Proofs.Grammar.Statements

namespace Durable

open Durable.Parser

/-! ### Imports and modifiers -/

/-- The parts of a module's name behind the first one. -/
abbrev ReadsWord (c : Cursor) (x : Ident) (c' : Cursor) : Prop :=
  c.kind.word? = some x.name ∧ c.span = x.span ∧ c.advance = c'

/-- The organization of an import, and where its module's name starts. -/
inductive ReadsOrg : Cursor → Option Ident → Cursor → Prop
  | absent {c : Cursor} (alone : c.advance.kind ≠ .mark .slash) : ReadsOrg c none c
  | present {c : Cursor} {o : String} (word : c.kind.word? = some o)
      (slash : c.advance.kind = .mark .slash) :
      ReadsOrg c (some ⟨o, c.span⟩) c.advance.advance

/-- The prefix that an import asks for. -/
inductive ReadsRename : Cursor → Option Ident → Cursor → Prop
  | absent {c : Cursor} (other : c.kind ≠ .keyword .kwAs) : ReadsRename c none c
  | present {c : Cursor} {n : String} (word : c.kind = .keyword .kwAs)
      (name : c.advance.kind = .ident n) :
      ReadsRename c (some ⟨n, c.advance.span⟩) c.advance.advance

/-- An import, through its semicolon. -/
inductive ReadsImport : Cursor → Import → Cursor → Prop
  | mk {c c₁ c₂ c₃ : Cursor} {org rename : Option Ident} {n : String} {parts : List Ident}
      (word : c.kind = .keyword .kwImport) (horg : ReadsOrg c.advance org c₁)
      (head : c₁.kind.word? = some n)
      (further : Repeats (Gap.between .dot).step ReadsWord c₁.advance parts c₂)
      (hrename : ReadsRename c₂ rename c₃) (closing : c₃.kind = .mark .semicolon) :
      ReadsImport c ⟨org, ⟨n, c₁.span⟩ :: parts, rename, c₃.advance.since c.start⟩ c₃.advance

/-- Whether another modifier follows. -/
def modifierStep (c : Cursor) : Option (Bool × Cursor) :=
  some ((MemberGrammar.modifier? c.kind).isNone, c)

/-- A modifier. -/
abbrev ReadsModifier (c : Cursor) (q : Modifier × Span) (c' : Cursor) : Prop :=
  c.kind = .keyword q.1.keyword ∧ c.span = q.2 ∧ c.advance = c'

/-- The modifiers before a declaration. -/
abbrev ReadsModifiers : Cursor → Modifiers → Cursor → Prop := Repeats modifierStep ReadsModifier

/-! ### Functions -/

/-- The number of open brackets behind a token of a resource path. -/
def bracketDepth (depth : Nat) : TokenKind → Nat
  | .mark .openBracket => depth + 1
  | .mark .closeBracket => depth - 1
  | _ => depth

/-- The tokens of a resource path, up to the first parenthesis outside brackets. -/
inductive PassesPath : Nat → Cursor → Cursor → Prop
  | stop {c : Cursor} (opening : c.kind = .mark .openParen) : PassesPath 0 c c
  | pass {depth : Nat} {c c' : Cursor} (inside : depth = 0 → c.kind ≠ .mark .openParen)
      (open' : c.kind ≠ .endOfFile)
      (more : PassesPath (bracketDepth depth c.kind) c.advance c') : PassesPath depth c c'

/-- The path of a resource method; other methods have none. -/
inductive ReadsResourcePath (source : Source) : Bool → Cursor → Option String → Cursor → Prop
  | plain {c : Cursor} : ReadsResourcePath source false c none c
  | empty {c c₁ : Cursor} (passes : PassesPath 0 c c₁) (short : c₁.passed ≤ c.start) :
      ReadsResourcePath source true c none c₁
  | path {c c₁ : Cursor} (passes : PassesPath 0 c c₁) (long : c.start < c₁.passed) :
      ReadsResourcePath source true c (some (source.slice ⟨c.start, c₁.passed⟩)) c₁

/-- The type a function returns; annotations on it are passed over. -/
inductive ReadsReturns : Cursor → Option TypeDesc → Cursor → Prop
  | absent {c : Cursor} (other : c.kind ≠ .keyword .kwReturns) : ReadsReturns c none c
  | present {c c₁ c₂ : Cursor} {as : List Annotation} {t : TypeDesc}
      (word : c.kind = .keyword .kwReturns) (dropped : Reads .annotations c.advance as c₁)
      (type : Reads .type c₁ t c₂) : ReadsReturns c (some t) c₂

variable (source : Source) (origin : Nat) (as : List Annotation) (ms : Modifiers)

/-- A function behind its annotations and modifiers, which started at `origin`. -/
inductive ReadsFunction : Cursor → Function → Cursor → Prop
  | mk {c c₁ c₂ c₃ c₄ : Cursor} {n : String} {path : Option String} {params : List Param}
      {returns : Option TypeDesc} {body : Block} (word : c.kind = .keyword .kwFunction)
      (name : c.advance.kind.word? = some n)
      (hpath : ReadsResourcePath source (ms.has .resource) c.advance.advance path c₁)
      (opening : c₁.kind = .mark .openParen)
      (list : Reads (.commaList .closeParen .param) c₁.advance params c₂)
      (result : ReadsReturns c₂ returns c₃) (hbody : ReadsStmt .block c₃ body c₄) :
      ReadsFunction c
        ⟨as, ms, ⟨n, c.advance.span⟩, path, params, returns, body, c₄.since origin⟩ c₄

/-! ### Variables, constants and types -/

/-- The initial value of a variable; that of a module's variable may be left to its
configuration. -/
inductive ReadsInit : Bool → Cursor → Option Expr → Cursor → Prop
  | written {configurable : Bool} {c c₁ : Cursor} {e : Option Expr}
      (value : Reads (.behind (.mark .assign) .expr) c e c₁) : ReadsInit configurable c e c₁
  | required {c : Cursor} (sign : c.kind = .mark .assign)
      (question : c.advance.kind = .mark .question)
      (closing : c.advance.advance.kind = .mark .semicolon) :
      ReadsInit true c (some (.required c.advance.span)) c.advance.advance

/-- The declaration of a variable behind its modifiers. -/
inductive ReadsVarDecl (configurable : Bool) : Cursor → VarDecl → Cursor → Prop
  | mk {c c₁ c₂ : Cursor} {t : TypeDesc} {n : String} {init : Option Expr}
      (type : Reads .type c t c₁) (name : c₁.kind = .ident n)
      (value : ReadsInit configurable c₁.advance init c₂) (closing : c₂.kind = .mark .semicolon) :
      ReadsVarDecl configurable c
        ⟨as, ms, t, ⟨n, c₁.span⟩, init, c₂.advance.since origin⟩ c₂.advance

/-- A type that is there only if the token behind the next one is no sign of its absence. -/
inductive ReadsTypeBefore (absent : TokenKind → Bool) : Cursor → Option TypeDesc → Cursor → Prop
  | missing {c : Cursor} (sign : absent (c.kindAt 1) = true) : ReadsTypeBefore absent c none c
  | found {c c₁ : Cursor} {t : TypeDesc} (other : absent (c.kindAt 1) = false)
      (type : Reads .type c t c₁) : ReadsTypeBefore absent c (some t) c₁

/-- A constant or a listener behind its word. -/
inductive ReadsValueDecl : Cursor → ValueDecl → Cursor → Prop
  | mk {c c₁ c₂ : Cursor} {t : Option TypeDesc} {n : String} {e : Expr}
      (type : ReadsTypeBefore (· == .mark .assign) c.advance t c₁) (name : c₁.kind = .ident n)
      (sign : c₁.advance.kind = .mark .assign) (value : Reads .expr c₁.advance.advance e c₂)
      (closing : c₂.kind = .mark .semicolon) :
      ReadsValueDecl c ⟨as, ms, t, ⟨n, c₁.span⟩, e, c₂.advance.since origin⟩ c₂.advance

/-- A type definition, from the word `type` on. -/
inductive ReadsTypeDef : Cursor → TypeDef → Cursor → Prop
  | mk {c c₁ : Cursor} {t : TypeDesc} {n : String} (name : c.advance.kind = .ident n)
      (type : Reads .type c.advance.advance t c₁) (closing : c₁.kind = .mark .semicolon) :
      ReadsTypeDef c ⟨as, ms, ⟨n, c.advance.span⟩, t, c₁.advance.since origin⟩ c₁.advance

/-- Whether another word of an attach point follows. -/
def pointStep (c : Cursor) : Option (Bool × Cursor) :=
  some (c.kind == .mark .comma || c.kind == .mark .semicolon, c)

/-- One attach point: the words up to a comma or a semicolon. -/
inductive ReadsPoint : Cursor → String → Cursor → Prop
  | mk {c c₁ : Cursor} {words : List Ident} (list : Repeats pointStep ReadsWord c words c₁) :
      ReadsPoint c (" ".intercalate (words.map (·.name))) c₁

/-- The kinds of declaration that an annotation may be attached to. -/
inductive ReadsPoints : Cursor → List String → Cursor → Prop
  | absent {c : Cursor} (other : c.kind ≠ .keyword .kwOn) : ReadsPoints c [] c
  | present {c c₁ c₂ : Cursor} {p : String} {ps : List String} (word : c.kind = .keyword .kwOn)
      (first : ReadsPoint c.advance p c₁)
      (others : Repeats (Gap.between .comma).step ReadsPoint c₁ ps c₂) :
      ReadsPoints c (p :: ps) c₂

/-- The declaration of an annotation, from the word `annotation` on. -/
inductive ReadsAnnotationDecl : Cursor → AnnotationDecl → Cursor → Prop
  | mk {c c₁ c₂ : Cursor} {t : Option TypeDesc} {n : String} {points : List String}
      (type : ReadsTypeBefore (fun k => k == .keyword .kwOn || k == .mark .semicolon)
        c.advance t c₁)
      (name : c₁.kind = .ident n) (hpoints : ReadsPoints c₁.advance points c₂)
      (closing : c₂.kind = .mark .semicolon) :
      ReadsAnnotationDecl c ⟨ms, t, ⟨n, c₁.span⟩, points, c₂.advance.since origin⟩ c₂.advance

/-! ### Services -/

/-- The tokens of a service's path, up to the word `on`. -/
inductive PassesBase : Cursor → Cursor → Prop
  | stop {c : Cursor} (word : c.kind = .keyword .kwOn) : PassesBase c c
  | pass {c c' : Cursor} (other : c.kind ≠ .keyword .kwOn) (open' : c.kind ≠ .endOfFile)
      (more : PassesBase c.advance c') : PassesBase c c'

/-- The path of a service: from a slash up to the word `on`, or a string literal. -/
inductive ReadsBasePath : Cursor → Option String → Cursor → Prop
  | slash {c c₁ : Cursor} (opening : c.kind = .mark .slash) (passes : PassesBase c c₁) :
      ReadsBasePath c (some (source.slice ⟨c.start, c₁.passed⟩)) c₁
  | string {c : Cursor} {v : String} (word : c.kind = .string v) :
      ReadsBasePath c (some (source.slice c.span)) c.advance
  | absent {c : Cursor} (slash : c.kind ≠ .mark .slash) (string : ∀ v, c.kind ≠ .string v) :
      ReadsBasePath c none c

/-- A member of a service. -/
inductive ReadsServiceMember : Cursor → ServiceMember → Cursor → Prop
  | method {c c₁ c₂ c₃ : Cursor} {as : List Annotation} {ms : Modifiers} {f : Function}
      (annotations : Reads .annotations c as c₁) (modifiers : ReadsModifiers c₁ ms c₂)
      (decl : ReadsFunction source c₁.start as ms c₂ f c₃) :
      ReadsServiceMember c (.method f) c₃
  | field {c c₁ c₂ c₃ : Cursor} {as : List Annotation} {ms : Modifiers} {v : VarDecl}
      (annotations : Reads .annotations c as c₁) (modifiers : ReadsModifiers c₁ ms c₂)
      (other : c₂.kind ≠ .keyword .kwFunction)
      (decl : ReadsVarDecl c₁.start as ms false c₂ v c₃) : ReadsServiceMember c (.field v) c₃

/-- A token that the type of a service may start with. -/
def startsServiceType (k : TokenKind) : Bool := k.isIdent || k == .mark .openParen

/-- A service behind its annotations and modifiers. -/
inductive ReadsService : Cursor → Service → Cursor → Prop
  | mk {c c₁ c₂ c₃ c₄ : Cursor} {t : Option TypeDesc} {path : Option String} {ls : List Expr}
      {members : List ServiceMember} (word : c.kind = .keyword .kwService)
      (type : Reads (.given startsServiceType .type) c.advance t c₁)
      (hpath : ReadsBasePath source c₁ path c₂) (on : c₂.kind = .keyword .kwOn)
      (listeners : Reads (.separated .comma .expr) c₂.advance ls c₃)
      (opening : c₃.kind = .mark .openBrace)
      (list : Repeats StmtGrammar.closingStep (ReadsServiceMember source) c₃.advance members c₄) :
      ReadsService c ⟨as, ms, t, path, ls, members, c.span, c₄.since origin⟩ c₄

/-! ### Modules -/

/-- A word that announces a member of a module. -/
def announcesMember (k : TokenKind) : Bool :=
  k == .keyword .kwFunction || k == .keyword .kwService || k == .keyword .kwConst
    || k == .keyword .kwType || k == .keyword .kwListener || k == .keyword .kwAnnotate

/-- What a member of a module is, behind its annotations and modifiers. -/
inductive ReadsDecl : Cursor → Member → Cursor → Prop
  | function {c c₁ : Cursor} {f : Function} (decl : ReadsFunction source origin as ms c f c₁) :
      ReadsDecl c (.function f) c₁
  | service {c c₁ : Cursor} {s : Service} (decl : ReadsService source origin as ms c s c₁) :
      ReadsDecl c (.service s) c₁
  | const {c c₁ : Cursor} {d : ValueDecl} (word : c.kind = .keyword .kwConst)
      (decl : ReadsValueDecl origin as ms c d c₁) : ReadsDecl c (.const d) c₁
  | type {c c₁ : Cursor} {d : TypeDef} (word : c.kind = .keyword .kwType)
      (decl : ReadsTypeDef origin as ms c d c₁) : ReadsDecl c (.type d) c₁
  | listener {c c₁ : Cursor} {d : ValueDecl} (word : c.kind = .keyword .kwListener)
      (decl : ReadsValueDecl origin as ms c d c₁) : ReadsDecl c (.listener d) c₁
  | annotationDecl {c c₁ : Cursor} {d : AnnotationDecl} (word : c.kind = .keyword .kwAnnotate)
      (decl : ReadsAnnotationDecl origin ms c d c₁) : ReadsDecl c (.annotationDecl d) c₁
  | moduleVar {c c₁ : Cursor} {v : VarDecl} (other : announcesMember c.kind = false)
      (decl : ReadsVarDecl origin as ms true c v c₁) : ReadsDecl c (.moduleVar v) c₁

/-- A member of a module. -/
inductive ReadsMember : Cursor → Member → Cursor → Prop
  | mk {c c₁ c₂ c₃ : Cursor} {as : List Annotation} {ms : Modifiers} {d : Member}
      (annotations : Reads .annotations c as c₁) (modifiers : ReadsModifiers c₁ ms c₂)
      (decl : ReadsDecl source c₁.start as ms c₂ d c₃) : ReadsMember c d c₃

/-- Whether another import follows. -/
abbrev importStep : Cursor → Option (Bool × Cursor) :=
  (Gap.startedBy (.keyword .kwImport)).step

theorem ReadsImport.step {c c' : Cursor} {i : Import} (h : ReadsImport c i c') :
    importStep c = some (false, c) := by
  cases h with
  | mk word => simp [Gap.step, word]

/-- Whether another member of a module follows. -/
def memberStep (c : Cursor) : Option (Bool × Cursor) := some (c.kind == .endOfFile, c)

/-- A module: its imports, then its members, up to the end of the text. -/
inductive ReadsModule : Cursor → Module → Cursor → Prop
  | mk {c c₁ c₂ : Cursor} {is : List Import} {ds : List Member}
      (imports : Repeats importStep ReadsImport c is c₁)
      (members : Repeats memberStep (ReadsMember source) c₁ ds c₂) :
      ReadsModule c ⟨is, ds, ⟨0, source.size⟩⟩ c₂

/-! ### The parser is sound -/

/-- The parsers that members are made of read only what the relations allow. -/
structure MemberGrammar.Sound (m : MemberGrammar) : Prop where
  exprs : m.exprs.Sound
  stmts : m.stmts.Sound

namespace MemberGrammar

variable {m : MemberGrammar} {c c' : Cursor}

theorem furtherParts_sound {parts : List Ident} (h : furtherParts c = .ok (parts, c')) :
    Repeats (Gap.between .dot).step ReadsWord c parts c' :=
  repeats_of_many (R := ReadsWord) (Gap.between_steps .dot) (fun h => memberName_eq_ok.mp h) h

theorem importDecl_sound {i : Import} (h : importDecl c = .ok (i, c')) : ReadsImport c i c' := by
  simp only [importDecl, ite_bind_eq, bind_eq_ok, start_eq_ok, expect_eq_ok, memberName_eq_ok,
    accept_eq_ok, since_eq_ok, pure_eq_ok] at h
  obtain ⟨_, _, ⟨rfl, rfl⟩, _, _, ⟨hword, -, rfl⟩, ⟨n, s⟩, _, ⟨hn, hs, rfl⟩, b, c₁, hslash,
    ⟨org, x⟩, c₂, horg, parts, c₃, hparts, b', c₄, has, rename, c₅, hrename, _, _,
    ⟨hclose, -, rfl⟩, _, _, ⟨rfl, rfl⟩, rfl, rfl⟩ := h
  subst hs
  have hparts := furtherParts_sound hparts
  have hrename : ReadsRename c₃ rename c₅ := by
    obtain ⟨has, rfl, rfl⟩ | ⟨has, rfl, rfl⟩ := has
    · simp only [if_true, map_eq_ok, ident_eq_ok] at hrename
      obtain ⟨⟨r, s⟩, ⟨hr, hs, rfl⟩, rfl⟩ := hrename
      subst hs
      exact .present has hr
    · obtain ⟨rfl, rfl⟩ := pure_eq_ok.mp hrename
      exact .absent has
  obtain ⟨hslash, rfl, rfl⟩ | ⟨hslash, rfl, rfl⟩ := hslash
  · simp only [if_true, map_eq_ok, memberName_eq_ok, Prod.mk.injEq] at horg
    obtain ⟨⟨n', s⟩, ⟨hn', hs, rfl⟩, rfl, rfl⟩ := horg
    subst hs
    exact .mk hword (.present hn hslash) hn' hparts hrename hclose
  · simp only [Bool.false_eq_true, if_false, pure_eq_ok, Prod.mk.injEq] at horg
    obtain ⟨⟨rfl, rfl⟩, rfl⟩ := horg
    exact .mk hword (.absent hslash) hn hparts hrename hclose

theorem modifier?_eq_some {k : TokenKind} {q : Modifier} (h : modifier? k = some q) :
    k = .keyword q.keyword := by
  unfold modifier? at h
  split at h
  · rw [Modifier.ofKeyword?] at h
    have hq := List.find?_some h
    rw [beq_iff_eq.mp hq]
  · simp at h

theorem modifiers_sound {ms : Modifiers} (h : modifiers c = .ok (ms, c')) :
    ReadsModifiers c ms c' := by
  refine repeats_of_many (R := ReadsModifier) ?_ ?_ h
  · intro c b c'
    simp only [bind_eq_ok, peek_eq_ok, pure_eq_ok, modifierStep, Option.some.injEq, Prod.mk.injEq]
    constructor
    · rintro ⟨_, _, ⟨rfl, rfl⟩, rfl, rfl⟩
      exact ⟨rfl, rfl⟩
    · rintro ⟨rfl, rfl⟩
      exact ⟨_, _, ⟨rfl, rfl⟩, rfl, rfl⟩
  · intro c q c' h
    simp only [bind_eq_ok, peek_eq_ok] at h
    obtain ⟨_, _, ⟨rfl, rfl⟩, h⟩ := h
    cases hq : modifier? c.kind with
    | none => exact absurd (by simpa [hq] using h) unexpected_ne_ok
    | some q' =>
      simp only [hq, bind_eq_ok, advance_eq_ok, pure_eq_ok] at h
      obtain ⟨_, _, ⟨rfl, rfl⟩, rfl, rfl⟩ := h
      exact ⟨modifier?_eq_some hq, rfl, rfl⟩

theorem passPathToken_eq_ok {depth : Nat} {out : Option Nat}
    (h : passPathToken depth c = .ok (out, c')) :
    (out = none ∧ c = c' ∧ depth = 0 ∧ c.kind = .mark .openParen) ∨
      (out = some (bracketDepth depth c.kind) ∧ c.advance = c' ∧ c.kind ≠ .endOfFile ∧
        (depth = 0 → c.kind ≠ .mark .openParen)) := by
  simp only [passPathToken, bind_eq_ok, peek_eq_ok] at h
  obtain ⟨k, _, ⟨hk, rfl⟩, h⟩ := h
  split at h
  · next hstop =>
    obtain ⟨rfl, rfl⟩ := pure_eq_ok.mp h
    simp only [Bool.and_eq_true, beq_iff_eq] at hstop
    exact .inl ⟨rfl, rfl, hstop.1, by rw [hk, hstop.2]⟩
  · next hgo =>
    have hinside : depth = 0 → c.kind ≠ .mark .openParen := by
      intro h0 hopen
      simp [h0, ← hk, hopen] at hgo
    refine .inr ?_
    cases k with
    | endOfFile =>
      obtain ⟨_, _, h, -⟩ := bind_eq_ok.mp h
      exact absurd h unexpected_ne_ok
    | mark mk =>
      cases mk <;>
        (simp only [bind_eq_ok, advance_eq_ok, pure_eq_ok] at h
         obtain ⟨_, _, ⟨rfl, rfl⟩, _, _, ⟨-, rfl⟩, rfl, rfl⟩ := h
         exact ⟨by rw [hk]; rfl, rfl, by simp [hk], hinside⟩)
    | _ =>
      simp only [bind_eq_ok, advance_eq_ok, pure_eq_ok] at h
      obtain ⟨_, _, ⟨rfl, rfl⟩, _, _, ⟨-, rfl⟩, rfl, rfl⟩ := h
      exact ⟨by rw [hk]; rfl, rfl, by simp [hk], hinside⟩

theorem resourcePath_sound {path : Option String} (h : m.resourcePath c = .ok (path, c')) :
    ReadsResourcePath m.source true c path c' := by
  simp only [resourcePath, bind_eq_ok, start_eq_ok, get_eq_ok] at h
  obtain ⟨_, _, ⟨rfl, rfl⟩, _, c₁, hpath, _, _, ⟨rfl, rfl⟩, h⟩ := h
  -- What the loop has passed so far, any path from there on completes.
  obtain ⟨c₂, hso, hstop⟩ := extend_induction
    (P := fun depth c₁ => ∀ c₂, PassesPath depth c₁ c₂ → PassesPath 0 c c₂) hpath
    (fun _ h => h) fun {a c₁ b c₂} hso hstep c₃ hmore => by
      obtain ⟨hb, -⟩ | ⟨hb, rfl, hend, hinside⟩ := passPathToken_eq_ok hstep
      · simp at hb
      · simp only [Option.some.injEq] at hb
        subst hb
        exact hso c₃ (.pass hinside hend hmore)
  have hpasses : PassesPath 0 c c₁ := by
    obtain ⟨-, rfl, rfl, hopen⟩ | ⟨hb, -⟩ := passPathToken_eq_ok hstop
    · exact hso c₂ (.stop hopen)
    · simp at hb
  split at h
  · next hle =>
    obtain ⟨rfl, rfl⟩ := pure_eq_ok.mp h
    exact .empty hpasses hle
  · next hlt =>
    obtain ⟨rfl, rfl⟩ := pure_eq_ok.mp h
    exact .path hpasses (by omega)

theorem function_sound (hm : m.Sound) {origin : Nat} {as : List Annotation} {ms : Modifiers}
    {f : Function} (h : m.function origin as ms c = .ok (f, c')) :
    ReadsFunction m.source origin as ms c f c' := by
  simp only [function, ite_bind_eq, bind_eq_ok, expect_eq_ok, memberName_eq_ok, accept_eq_ok] at h
  obtain ⟨_, _, ⟨hword, -, rfl⟩, ⟨n, s⟩, _, ⟨hn, hs, rfl⟩, path, c₁, hpath, _, _, ⟨hopen, -, rfl⟩,
    params, c₂, hparams, b, c₃, hb, h⟩ := h
  subst hs
  have hpath : ReadsResourcePath m.source (ms.has .resource) c.advance.advance path c₁ := by
    split at hpath
    · next hres =>
      rw [hres]
      exact resourcePath_sound hpath
    · next hres =>
      rw [Bool.not_eq_true] at hres
      rw [hres]
      obtain ⟨rfl, rfl⟩ := pure_eq_ok.mp hpath
      exact .plain
  have hparams := commaList_sound (Grammar.param_sound hm.exprs) hparams
  obtain ⟨hret, rfl, rfl⟩ | ⟨hret, rfl, rfl⟩ := hb
  · simp only [if_true, bind_eq_ok, map_eq_ok, since_eq_ok, pure_eq_ok] at h
    obtain ⟨as', _, has', _, _, ⟨t, ht, rfl⟩, body, _, hbody, _, _, ⟨rfl, rfl⟩, rfl, rfl⟩ := h
    exact .mk hword hn hpath hopen hparams
      (.present hret (Grammar.annotations_sound hm.exprs has') (hm.exprs.type ht))
      (hm.stmts.block hbody)
  · simp only [Bool.false_eq_true, if_false, bind_eq_ok, since_eq_ok, pure_eq_ok] at h
    obtain ⟨_, _, ⟨rfl, rfl⟩, body, _, hbody, _, _, ⟨rfl, rfl⟩, rfl, rfl⟩ := h
    exact .mk hword hn hpath hopen hparams (.absent hret) (hm.stmts.block hbody)

theorem varDecl_sound (hm : m.Sound) {configurable : Bool} {init : Parser Expr}
    (hinit : ∀ {c e c'}, init c.advance = .ok (e, c') → c.kind = .mark .assign →
      ReadsInit configurable c (some e) c')
    {origin : Nat} {as : List Annotation} {ms : Modifiers} {v : VarDecl}
    (h : m.varDecl init origin as ms c = .ok (v, c')) :
    ReadsVarDecl origin as ms configurable c v c' := by
  simp only [varDecl, ite_bind_eq, bind_eq_ok, ident_eq_ok, accept_eq_ok, expect_eq_ok,
    since_eq_ok, pure_eq_ok] at h
  obtain ⟨t, c₁, ht, ⟨n, s⟩, _, ⟨hn, hs, rfl⟩, b, c₂, hb, e, c₃, he, _, _, ⟨hclose, -, rfl⟩, _, _,
    ⟨rfl, rfl⟩, rfl, rfl⟩ := h
  subst hs
  refine .mk (hm.exprs.type ht) hn ?_ hclose
  obtain ⟨hsign, rfl, rfl⟩ | ⟨hsign, rfl, rfl⟩ := hb
  · simp only [if_true, map_eq_ok] at he
    obtain ⟨e, he, rfl⟩ := he
    exact hinit he hsign
  · simp only [Bool.false_eq_true, if_false, pure_eq_ok] at he
    obtain ⟨rfl, rfl⟩ := he
    exact .written (.absent hsign)

theorem configurableInit_sound (hm : m.Sound) {c : Cursor} {e : Expr} {c' : Cursor}
    (h : m.configurableInit c.advance = .ok (e, c')) (hsign : c.kind = .mark .assign) :
    ReadsInit true c (some e) c' := by
  simp only [configurableInit, bind_eq_ok, at?_eq_ok, peekAt_eq_ok] at h
  obtain ⟨_, _, ⟨rfl, rfl⟩, _, _, ⟨rfl, rfl⟩, h⟩ := h
  split at h
  · next hat =>
    simp only [Bool.and_eq_true, beq_iff_eq, Cursor.kindAt_succ] at hat
    simp only [bind_eq_ok, advance_eq_ok, pure_eq_ok] at h
    obtain ⟨_, _, ⟨rfl, rfl⟩, rfl, rfl⟩ := h
    exact .required hsign hat.1 hat.2
  · exact .written (.present hsign (hm.exprs.expr h))

theorem readsTypeBefore_sound {absent : TokenKind → Bool} {p : Parser TypeDesc}
    (hp : Implements .type p) {t : Option TypeDesc}
    (h : (if absent (c.kindAt 1) = true then pure none else some <$> p) c = .ok (t, c')) :
    ReadsTypeBefore absent c t c' := by
  split at h
  · next hsign =>
    obtain ⟨rfl, rfl⟩ := pure_eq_ok.mp h
    exact .missing hsign
  · next hother =>
    obtain ⟨t, ht, rfl⟩ := map_eq_ok.mp h
    exact .found (by simpa using hother) (hp ht)

theorem valueDecl_sound (hm : m.Sound) {origin : Nat} {as : List Annotation} {ms : Modifiers}
    {d : ValueDecl} (h : m.valueDecl origin as ms c = .ok (d, c')) :
    ReadsValueDecl origin as ms c d c' := by
  simp only [valueDecl, ite_bind_eq, bind_eq_ok, advance_eq_ok, peekAt_eq_ok, ident_eq_ok,
    expect_eq_ok, since_eq_ok, pure_eq_ok] at h
  obtain ⟨_, _, ⟨-, rfl⟩, _, _, ⟨rfl, rfl⟩, t, c₁, ht, ⟨n, s⟩, _, ⟨hn, hs, rfl⟩, _, _,
    ⟨hsign, -, rfl⟩, e, _, he, _, _, ⟨hclose, -, rfl⟩, _, _, ⟨rfl, rfl⟩, rfl, rfl⟩ := h
  subst hs
  exact .mk (readsTypeBefore_sound hm.exprs.type ht) hn hsign (hm.exprs.expr he) hclose

theorem typeDef_sound (hm : m.Sound) {origin : Nat} {as : List Annotation} {ms : Modifiers}
    {d : TypeDef} (h : m.typeDef origin as ms c = .ok (d, c')) :
    ReadsTypeDef origin as ms c d c' := by
  simp only [typeDef, bind_eq_ok, advance_eq_ok, ident_eq_ok, expect_eq_ok, since_eq_ok,
    pure_eq_ok] at h
  obtain ⟨_, _, ⟨-, rfl⟩, ⟨n, s⟩, _, ⟨hn, hs, rfl⟩, t, _, ht, _, _, ⟨hclose, -, rfl⟩, _, _,
    ⟨rfl, rfl⟩, rfl, rfl⟩ := h
  subst hs
  exact .mk hn (hm.exprs.type ht) hclose

theorem attachPoint_sound {p : String} (h : attachPoint c = .ok (p, c')) :
    ReadsPoint c p c' := by
  simp only [attachPoint, bind_eq_ok, pure_eq_ok] at h
  obtain ⟨words, _, hwords, rfl, rfl⟩ := h
  refine .mk (repeats_of_many (R := ReadsWord) ?_ (fun h => memberName_eq_ok.mp h) hwords)
  intro c b c'
  simp only [attachPoint.pointEnds, bind_eq_ok, peek_eq_ok, pure_eq_ok, pointStep,
    Option.some.injEq, Prod.mk.injEq]
  constructor
  · rintro ⟨_, _, ⟨rfl, rfl⟩, rfl, rfl⟩
    exact ⟨rfl, rfl⟩
  · rintro ⟨rfl, rfl⟩
    exact ⟨_, _, ⟨rfl, rfl⟩, rfl, rfl⟩

theorem annotationDecl_sound (hm : m.Sound) {origin : Nat} {ms : Modifiers} {d : AnnotationDecl}
    (h : m.annotationDecl origin ms c = .ok (d, c')) : ReadsAnnotationDecl origin ms c d c' := by
  simp only [annotationDecl, ite_bind_eq, bind_eq_ok, advance_eq_ok, peekAt_eq_ok, ident_eq_ok,
    accept_eq_ok, expect_eq_ok, since_eq_ok, pure_eq_ok] at h
  obtain ⟨_, _, ⟨-, rfl⟩, _, _, ⟨rfl, rfl⟩, t, c₁, ht, ⟨n, s⟩, _, ⟨hn, hs, rfl⟩, b, c₂, hb, points,
    c₃, hpoints, _, _, ⟨hclose, -, rfl⟩, _, _, ⟨rfl, rfl⟩, rfl, rfl⟩ := h
  subst hs
  refine .mk (readsTypeBefore_sound hm.exprs.type ht) hn ?_ hclose
  obtain ⟨hon, rfl, rfl⟩ | ⟨hon, rfl, rfl⟩ := hb
  · simp only [if_true, separatedBy, bind_eq_ok, pure_eq_ok] at hpoints
    obtain ⟨p, _, hp, ps, _, hps, rfl, rfl⟩ := hpoints
    exact .present hon (attachPoint_sound hp)
      (repeats_of_many (R := ReadsPoint) (Gap.between_steps .comma)
        (fun h => attachPoint_sound h) hps)
  · obtain ⟨rfl, rfl⟩ := pure_eq_ok.mp hpoints
    exact .absent hon

theorem passBaseToken_eq_ok {out : Option Unit} (h : passBaseToken () c = .ok (out, c')) :
    (out = none ∧ c = c' ∧ c.kind = .keyword .kwOn) ∨
      (out = some () ∧ c.advance = c' ∧ c.kind ≠ .endOfFile ∧ c.kind ≠ .keyword .kwOn) := by
  simp only [passBaseToken, bind_eq_ok, at?_eq_ok] at h
  obtain ⟨_, _, ⟨rfl, rfl⟩, h⟩ := h
  split at h
  · next hon =>
    obtain ⟨rfl, rfl⟩ := pure_eq_ok.mp h
    exact .inl ⟨rfl, rfl, by simpa using hon⟩
  · next hon =>
    simp only [bind_eq_ok, at?_eq_ok] at h
    obtain ⟨_, _, ⟨rfl, rfl⟩, h⟩ := h
    split at h
    · obtain ⟨_, _, h, -⟩ := bind_eq_ok.mp h
      exact absurd h unexpected_ne_ok
    · next hend =>
      simp only [bind_eq_ok, advance_eq_ok, pure_eq_ok] at h
      obtain ⟨_, _, ⟨-, rfl⟩, rfl, rfl⟩ := h
      exact .inr ⟨rfl, rfl, by simpa using hend, by simpa using hon⟩

theorem basePath_sound {path : Option String} (h : m.basePath c = .ok (path, c')) :
    ReadsBasePath m.source c path c' := by
  simp only [basePath, bind_eq_ok, peek_eq_ok] at h
  obtain ⟨k, _, ⟨hk, rfl⟩, h⟩ := h
  split at h
  · simp only [bind_eq_ok, start_eq_ok, get_eq_ok, pure_eq_ok] at h
    obtain ⟨_, _, ⟨rfl, rfl⟩, _, c₁, hbase, _, _, ⟨rfl, rfl⟩, rfl, rfl⟩ := h
    -- What the loop has passed so far, any path from there on completes.
    obtain ⟨c₂, hso, hstop⟩ := extend_induction
      (P := fun (_ : Unit) c₁ => ∀ c₂, PassesBase c₁ c₂ → PassesBase c c₂) hbase
      (fun _ h => h) fun {a c₁ b c₂} hso hstep c₃ hmore => by
        obtain ⟨hb, -⟩ | ⟨hb, rfl, hend, hother⟩ := passBaseToken_eq_ok hstep
        · simp at hb
        · exact hso c₃ (.pass hother hend hmore)
    refine .slash hk ?_
    obtain ⟨-, rfl, hon⟩ | ⟨hb, -⟩ := passBaseToken_eq_ok hstop
    · exact hso c₂ (.stop hon)
    · simp at hb
  · simp only [bind_eq_ok, advance_eq_ok, pure_eq_ok] at h
    obtain ⟨_, _, ⟨rfl, rfl⟩, rfl, rfl⟩ := h
    exact .string hk
  · next hslash hstring =>
    obtain ⟨rfl, rfl⟩ := pure_eq_ok.mp h
    exact .absent (by rw [hk]; exact hslash) (fun v => by rw [hk]; exact hstring v)

theorem serviceMember_sound (hm : m.Sound) {d : ServiceMember}
    (h : m.serviceMember c = .ok (d, c')) : ReadsServiceMember m.source c d c' := by
  simp only [serviceMember, bind_eq_ok, start_eq_ok, at?_eq_ok] at h
  obtain ⟨as, c₁, has, _, _, ⟨rfl, rfl⟩, ms, c₂, hms, _, _, ⟨rfl, rfl⟩, h⟩ := h
  have has := Grammar.annotations_sound hm.exprs has
  have hms := modifiers_sound hms
  split at h
  · simp only [bind_eq_ok, pure_eq_ok] at h
    obtain ⟨f, _, hf, rfl, rfl⟩ := h
    exact .method has hms (function_sound hm hf)
  · next hother =>
    simp only [bind_eq_ok, pure_eq_ok] at h
    obtain ⟨v, _, hv, rfl, rfl⟩ := h
    exact .field has hms (by simpa using hother)
      (varDecl_sound hm (fun h hsign => .written (.present hsign (hm.exprs.expr h))) hv)

theorem service_sound (hm : m.Sound) {origin : Nat} {as : List Annotation} {ms : Modifiers}
    {d : Service} (h : m.service origin as ms c = .ok (d, c')) :
    ReadsService m.source origin as ms c d c' := by
  simp only [service, bind_eq_ok, expect_eq_ok, peek_eq_ok] at h
  obtain ⟨_, _, ⟨hword, rfl, rfl⟩, k, _, ⟨hk, rfl⟩, h⟩ := h
  -- What follows the word is the same with a type and without.
  have rest : ∀ {t : Option TypeDesc} {c₁ : Cursor},
      Reads (.given startsServiceType .type) c.advance t c₁ →
      (do
        let basePath ← m.basePath
        let _ ← expect (.keyword .kwOn)
        let listeners ← separatedBy .comma m.exprs.expr
        let _ ← expect (.mark .openBrace)
        let members ← many StmtGrammar.closingBrace m.serviceMember
        return ({ annotations := as, modifiers := ms, type := t, basePath, listeners, members,
                  keywordSpan := c.span, span := ← since origin } : Service)) c₁ = .ok (d, c') →
      ReadsService m.source origin as ms c d c' := by
    intro t c₁ ht h
    simp only [bind_eq_ok, expect_eq_ok, since_eq_ok, pure_eq_ok] at h
    obtain ⟨path, c₂, hpath, _, _, ⟨hon, -, rfl⟩, ls, c₃, hls, _, _, ⟨hopen, -, rfl⟩, members, c₄,
      hmembers, _, _, ⟨rfl, rfl⟩, rfl, rfl⟩ := h
    exact .mk hword ht (basePath_sound hpath) hon (separatedBy_sound .comma hm.exprs.expr hls) hopen
      (repeats_of_many (R := ReadsServiceMember m.source) StmtGrammar.closingBrace_steps
        (fun h => serviceMember_sound hm h) hmembers)
  split at h
  · obtain ⟨t, _, ht, h⟩ := bind_eq_ok.mp h
    obtain ⟨t, ht', rfl⟩ := map_eq_ok.mp ht
    exact rest (.found (by simp [hk, startsServiceType, TokenKind.isIdent]) (hm.exprs.type ht')) h
  · obtain ⟨t, _, ht, h⟩ := bind_eq_ok.mp h
    obtain ⟨t, ht', rfl⟩ := map_eq_ok.mp ht
    exact rest (.found (by simp [hk, startsServiceType]) (hm.exprs.type ht')) h
  · next hident hopen =>
    obtain ⟨t, _, ht, h⟩ := bind_eq_ok.mp h
    obtain ⟨rfl, rfl⟩ := pure_eq_ok.mp ht
    refine rest (.missing ?_) h
    rw [hk]
    cases k with
    | ident n => exact absurd rfl (hident n)
    | mark mk => simpa [startsServiceType, TokenKind.isIdent] using hopen
    | _ => rfl

theorem member_sound (hm : m.Sound) {d : Member} (h : m.member c = .ok (d, c')) :
    ReadsMember m.source c d c' := by
  simp only [member, bind_eq_ok, start_eq_ok, peek_eq_ok] at h
  obtain ⟨as, c₁, has, _, _, ⟨rfl, rfl⟩, ms, c₂, hms, k, _, ⟨hk, rfl⟩, h⟩ := h
  refine .mk (Grammar.annotations_sound hm.exprs has) (modifiers_sound hms) ?_
  split at h
  · simp only [bind_eq_ok, pure_eq_ok] at h
    obtain ⟨f, _, hf, rfl, rfl⟩ := h
    exact .function (function_sound hm hf)
  · simp only [bind_eq_ok, pure_eq_ok] at h
    obtain ⟨f, _, hf, rfl, rfl⟩ := h
    exact .service (service_sound hm hf)
  · simp only [bind_eq_ok, pure_eq_ok] at h
    obtain ⟨f, _, hf, rfl, rfl⟩ := h
    exact .const hk (valueDecl_sound hm hf)
  · simp only [bind_eq_ok, pure_eq_ok] at h
    obtain ⟨f, _, hf, rfl, rfl⟩ := h
    exact .type hk (typeDef_sound hm hf)
  · simp only [bind_eq_ok, pure_eq_ok] at h
    obtain ⟨f, _, hf, rfl, rfl⟩ := h
    exact .listener hk (valueDecl_sound hm hf)
  · simp only [bind_eq_ok, pure_eq_ok] at h
    obtain ⟨f, _, hf, rfl, rfl⟩ := h
    exact .annotationDecl hk (annotationDecl_sound hm hf)
  · next h₁ h₂ h₃ h₄ h₅ h₆ =>
    simp only [bind_eq_ok, pure_eq_ok] at h
    obtain ⟨v, _, hv, rfl, rfl⟩ := h
    refine .moduleVar ?_ (varDecl_sound hm (configurableInit_sound hm) hv)
    rw [hk]
    simp only [announcesMember, Bool.or_eq_false_iff, beq_eq_false_iff_ne]
    exact ⟨⟨⟨⟨⟨h₁, h₂⟩, h₃⟩, h₄⟩, h₅⟩, h₆⟩

/-- The parser of modules reads only what the relation allows. -/
theorem module_sound (hm : m.Sound) {d : Module} (h : m.module c = .ok (d, c')) :
    ReadsModule m.source c d c' := by
  simp only [module, bind_eq_ok, pure_eq_ok] at h
  obtain ⟨is, c₁, his, ds, c₂, hds, rfl, rfl⟩ := h
  refine .mk (repeats_of_many (R := ReadsImport) (Gap.startedBy_steps _)
    (fun h => importDecl_sound h) his)
    (repeats_of_many (R := ReadsMember m.source) ?_ (fun h => member_sound hm h) hds)
  intro c b c'
  simp [at?_eq_ok, memberStep]

end MemberGrammar

/-! ### Whole texts -/

/-- The cursor at the start of some tiles, behind which the text ends at an offset. -/
def Cursor.ofTiles (ts : List Tile) (finish : Nat) : Cursor :=
  ⟨Tile.tokens 0 ts, 0, ⟨finish, finish⟩⟩

theorem Cursor.ofText_eq_ok {text : String} {c : Cursor} :
    Cursor.ofText text = .ok c ↔ ∃ ts tail, Tiling text.toList ts tail ∧
      c = Cursor.ofTiles ts (Text.byteLength text.toList) := by
  unfold Cursor.ofText
  constructor
  · intro h
    cases htokens : tokenize text with
    | error e => simp [htokens] at h
    | ok tokens =>
      obtain ⟨ts, tail, htiling, rfl⟩ := tokenize_eq_ok_iff.mp htokens
      refine ⟨ts, tail, htiling, ?_⟩
      simp only [htokens, Except.ok.injEq, Functor.map, Except.map] at h
      rw [← h]
      simp [Cursor.ofTokens, Cursor.ofTiles, Tiling.endMark]
  · rintro ⟨ts, tail, htiling, rfl⟩
    rw [tokenize_eq_ok_iff.mpr ⟨ts, tail, htiling, rfl⟩]
    simp [Functor.map, Except.map, Cursor.ofTokens, Cursor.ofTiles, Tiling.endMark]

/-- A text is read as a whole if it is read up to its end. -/
theorem whole_eq_ok {α : Type} {text : String} {p : Cursor → Parser α} {a : α} :
    (do let c ← Cursor.ofText text
        let (a, c) ← p c c
        let _ ← expectEnd c
        pure a) = Except.ok a ↔
      ∃ c c', Cursor.ofText text = .ok c ∧ p c c = .ok (a, c') ∧ c'.kind = .endOfFile := by
  cases hc : Cursor.ofText text with
  | error _ => simp [bind, Except.bind]
  | ok c =>
    cases hread : p c c with
    | error _ => simp [bind, Except.bind, hread]
    | ok out =>
      obtain ⟨b, c'⟩ := out
      have hiff : (∃ r, expectEnd c' = .ok r) ↔ c'.kind = .endOfFile := by
        simp [expectEnd, map_eq_ok, expectNamed_eq_ok]
      cases hrest : expectEnd c' with
      | error _ =>
        have hmore : c'.kind ≠ .endOfFile := fun hend => by simpa [hrest] using hiff.mpr hend
        simp [bind, Except.bind, hread, hrest, hmore]
      | ok r => simp [bind, Except.bind, hread, hrest, pure, Except.pure, hiff.mp ⟨r, hrest⟩]

/-- A text that is read as an expression is one by the grammar, up to its end. -/
theorem reads_of_parseExpr {text : String} {e : Expr} (h : parseExpr text = .ok e) :
    ∃ c c', Cursor.ofText text = .ok c ∧ Reads .expr c e c' ∧ c'.kind = .endOfFile := by
  obtain ⟨c, c', hc, hread, hend⟩ := whole_eq_ok.mp h
  exact ⟨c, c', hc, (grammar_sound _).expr hread, hend⟩

/-- So is one that is read as a type. -/
theorem reads_of_parseType {text : String} {t : TypeDesc} (h : parseType text = .ok t) :
    ∃ c c', Cursor.ofText text = .ok c ∧ Reads .type c t c' ∧ c'.kind = .endOfFile := by
  obtain ⟨c, c', hc, hread, hend⟩ := whole_eq_ok.mp h
  exact ⟨c, c', hc, (grammar_sound _).type hread, hend⟩

/-- **A text that is read as a module is one by the grammar.** -/
theorem reads_of_parseModule {text : String} {m : Module} (h : parseModule text = .ok m) :
    ∃ ts tail c', Tiling text.toList ts tail ∧
      ReadsModule ⟨"", text⟩ (Cursor.ofTiles ts (Text.byteLength text.toList)) m c' := by
  unfold parseModule at h
  cases hc : Cursor.ofText text with
  | error e => simp [hc, bind, Except.bind] at h
  | ok c =>
    obtain ⟨ts, tail, htiling, rfl⟩ := Cursor.ofText_eq_ok.mp hc
    simp only [hc, bind, Except.bind] at h
    split at h
    · simp at h
    · next out hout =>
      obtain ⟨m', c'⟩ := out
      simp only [pure, Except.pure, Except.ok.injEq] at h
      subst h
      exact ⟨ts, tail, c', htiling,
        MemberGrammar.module_sound ⟨grammar_sound _, stmtGrammar_sound (grammar_sound _) _⟩ hout⟩

end Durable
