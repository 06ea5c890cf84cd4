/-
Reading modules comes to an end.

Members do not recurse into each other, so their parsers are good wherever those of statements and
expressions are.  The paths of services and resource methods are the only loops that pass tokens
of any kind; they stop at the mark of the end like all others.
-/
import Durable.Proofs.Grammar.EndsStmt

namespace Durable

open Durable.Parser

/-- The parsers that members are made of come to an end and read a token. -/
structure MemberGrammar.Consumes (n : Nat) (m : MemberGrammar) : Prop where
  exprs : m.exprs.Consumes n
  stmts : m.stmts.Consumes n

namespace MemberGrammar.Consumes

variable {m : MemberGrammar} {n : Nat} {c : Cursor}

/-! ### Imports and modifiers -/

theorem memberName (n : Nat) : Parser.Consumes n Parser.memberName :=
  fun _ _ => .memberName fun _ _ h => h

theorem partRounds (n : Nat) :
    Rounds n (round (return !(← accept (.mark .dot))) Parser.memberName) :=
  (memberName n).rounds (ends_between .dot)

theorem furtherParts (c : Cursor) : Ends MemberGrammar.furtherParts c fun _ _ => True :=
  .many (partRounds _) (Nat.lt_succ_self _)

theorem importDecl (n : Nat) : Parser.Consumes n MemberGrammar.importDecl := by
  intro c hc
  refine .bind (.start (.bind (.expect nofun fun _ c₁ h₁ => .bind (.memberName fun x c₂ h₂ => ?_))))
  have rest : ∀ (r : Option Ident × Ident) (c₃ : Cursor), c₃.rest.length ≤ c₂.rest.length → Ends (do
      let further ← MemberGrammar.furtherParts
      let rename ← if ← accept (.keyword .kwAs) then some <$> ident else pure none
      let _ ← expect (.mark .semicolon)
      return (⟨r.1, r.2 :: further, rename, ← since c.start⟩ : Import) : Parser Import) c₃
        fun _ c' => c'.rest.length < c.rest.length := by
    intro r c₃ h₃
    refine .bind ((furtherParts c₃).imp fun parts c₄ h₄ _ => ?_)
    refine .bind (.accept nofun fun b c₅ h₅ _ => ?_)
    split
    · refine .bind (.map (.ident fun y c₆ h₆ => .bind (.expect nofun fun _ c₇ h₇ => ?_)))
      exact .bind (.since (.pure (by omega)))
    · refine .bind (.pure (.bind (.expect nofun fun _ c₆ h₆ => ?_)))
      exact .bind (.since (.pure (by omega)))
  refine .bind (.accept nofun fun b c₃ h₃ _ => ?_)
  split
  · exact .bind (.map (.memberName fun y c₄ h₄ => rest (some x, y) c₄ (by omega)))
  · exact .bind (.pure (rest (none, x) c₃ h₃))

theorem modifierRounds (n : Nat) : Rounds n (round
    (return (modifier? (← peek)).isNone) (do
      match modifier? (← peek) with
      | some q => return (q, (← advance).span)
      | none => unexpected "modifier")) := by
  refine Parser.Consumes.rounds (fun c hc => ?_) fun _ => .bind (.peek (.pure trivial))
  refine .bind (.peek ?_)
  split
  · next q hq =>
    refine .bind (.advance fun t c₁ _ h₁ => .pure (h₁ fun hkind => ?_))
    simp [hkind, modifier?] at hq
  · exact .unexpected

theorem modifiers (c : Cursor) : Ends MemberGrammar.modifiers c fun _ _ => True :=
  .many (modifierRounds _) (Nat.lt_succ_self _)

/-! ### Functions -/

theorem param (hm : m.Consumes n) : Parser.Consumes n m.param := by
  intro c hc
  refine .bind (.start (.bind ((hm.exprs.annotations (by omega)).imp fun as c₁ h₁ _ => ?_)))
  refine hm.exprs.type.bind (by omega) fun t c₂ h₂ => .bind (.accept nofun fun b c₃ h₃ _ => ?_)
  split
  · exact .bind (.ident fun x c₄ h₄ => .bind (.since (.pure (by omega))))
  refine .bind (.ident fun x c₄ h₄ => .bind (.accept nofun fun b' c₅ h₅ _ => ?_))
  split
  · exact hm.exprs.expr.bind (by omega) fun e c₆ h₆ => .bind (.since (.pure (by omega)))
  · exact .bind (.since (.pure (by omega)))

theorem pathRounds (n depth : Nat) : Rounds n (MemberGrammar.passPathToken depth) := by
  intro c hc
  refine .bind (.peek ?_)
  split
  · exact .pure (by simp)
  have pass : ∀ depth : Nat, c.kind ≠ .endOfFile → Ends (do
      let _ ← advance
      return some depth) c fun o c' => o.isSome = true → c'.rest.length < c.rest.length :=
    fun _ hkind => .bind (.advance fun _ c₁ _ h₁ => .pure fun _ => h₁ hkind)
  split
  · next hk => exact .bind (.pure (pass _ (by simp [hk])))
  · next hk => exact .bind (.pure (pass _ (by simp [hk])))
  · exact .bind .unexpected
  · next hk => exact .bind (.pure (pass _ hk))

theorem resourcePath (m : MemberGrammar) (c : Cursor) :
    Ends m.resourcePath c fun _ _ => True := by
  refine .bind (.start (.bind ((Ends.extend (pathRounds _) (Nat.lt_succ_self _) 0).imp
    fun _ c₁ _ _ => .bind (.get ?_))))
  dsimp only
  split
  · exact .pure trivial
  · exact .pure trivial

theorem function (hm : m.Consumes n) (origin : Nat) (as : List Annotation) (ms : Modifiers) :
    Parser.Consumes n (m.function origin as ms) := by
  intro c hc
  refine .bind (.expect nofun fun _ c₁ h₁ => .bind (.memberName fun x c₂ h₂ => ?_))
  have rest : ∀ (path : Option String) (c₃ : Cursor), c₃.rest.length ≤ c₂.rest.length → Ends (do
      let _ ← expect (.mark .openParen)
      let params ← commaList .closeParen m.param
      let returns ← if ← accept (.keyword .kwReturns) then
          let _ ← m.exprs.annotations
          some <$> m.exprs.type
        else pure none
      let body ← m.stmts.block
      return (⟨as, ms, x, path, params, returns, body, ← since origin⟩ : Function)
        : Parser Function) c₃
        fun _ c' => c'.rest.length < c.rest.length := by
    intro path c₃ h₃
    refine .bind (.expect nofun fun _ c₄ h₄ => ?_)
    refine (hm.param.commaList _).bind (by omega) fun params c₅ h₅ => ?_
    refine .bind (.accept nofun fun b c₆ h₆ _ => ?_)
    split
    · refine .bind ((hm.exprs.annotations (by omega)).imp fun dropped c₇ h₇ _ => ?_)
      refine hm.exprs.type.some.bind (by omega) fun t c₈ h₈ => ?_
      exact hm.stmts.block.bind (by omega) fun b c₉ h₉ => .bind (.since (.pure (by omega)))
    · refine .bind (.pure (hm.stmts.block.bind (by omega) fun b c₇ h₇ => ?_))
      exact .bind (.since (.pure (by omega)))
  split
  · exact .bind ((resourcePath m c₂).imp fun path c₃ h₃ _ => rest path c₃ h₃)
  · exact .bind (.pure (rest none c₂ (Nat.le_refl _)))

/-! ### Variables, constants and types -/

theorem varDecl (hm : m.Consumes n) {init : Parser Expr} (hinit : Parser.Consumes n init)
    (origin : Nat) (as : List Annotation) (ms : Modifiers) :
    Parser.Consumes n (m.varDecl init origin as ms) := by
  intro c hc
  refine hm.exprs.type.bind hc fun t c₁ h₁ => .bind (.ident fun x c₂ h₂ => ?_)
  refine .bind (.accept nofun fun b c₃ h₃ _ => ?_)
  split
  · refine hinit.some.bind (by omega) fun e c₄ h₄ => .bind (.expect nofun fun _ c₅ h₅ => ?_)
    exact .bind (.since (.pure (by omega)))
  · refine .bind (.pure (.bind (.expect nofun fun _ c₄ h₄ => ?_)))
    exact .bind (.since (.pure (by omega)))

theorem configurableInit (hm : m.Consumes n) : Parser.Consumes n m.configurableInit := by
  intro c hc
  refine .bind (.at? (.bind (.peekAt ?_)))
  split
  · next hat =>
    simp only [Bool.and_eq_true, beq_iff_eq] at hat
    exact .bind (.advance fun t c₁ _ h₁ => .pure (h₁ (by simp [hat.1])))
  · exact hm.exprs.expr c hc

/-- A type that may be missing. -/
theorem typeBefore (hm : m.Consumes n) (b : Bool) (hc : c.rest.length < n) :
    Ends (if b = true then pure none else some <$> m.exprs.type) c fun _ _ => True := by
  split
  · exact .pure trivial
  · exact (hm.exprs.type.some c hc).imp fun _ _ _ _ => trivial

theorem valueDecl (hm : m.Consumes n) (origin : Nat) (as : List Annotation) (ms : Modifiers) :
    Parser.Consumes n (m.valueDecl origin as ms) := by
  intro c hc
  refine .bind (.advance fun _ c₁ h₁ _ => .bind (.peekAt ?_))
  rw [ite_bind_eq]
  refine .bind ((hm.typeBefore _ (by omega)).imp fun t c₂ h₂ _ => .bind (.ident fun x c₃ h₃ => ?_))
  refine .bind (.expect nofun fun _ c₄ h₄ => hm.exprs.expr.bind (by omega) fun e c₅ h₅ => ?_)
  exact .bind (.expect nofun fun _ c₆ h₆ => .bind (.since (.pure (by omega))))

theorem typeDef (hm : m.Consumes n) (origin : Nat) (as : List Annotation) (ms : Modifiers) :
    Parser.Consumes n (m.typeDef origin as ms) := by
  intro c hc
  refine .bind (.advance fun _ c₁ h₁ _ => .bind (.ident fun x c₂ h₂ => ?_))
  refine hm.exprs.type.bind (by omega) fun t c₃ h₃ => .bind (.expect nofun fun _ c₄ h₄ => ?_)
  exact .bind (.since (.pure (by omega)))

theorem wordRounds (n : Nat) :
    Rounds n (round MemberGrammar.attachPoint.pointEnds Parser.memberName) :=
  (memberName n).rounds fun _ => .bind (.peek (.pure trivial))

theorem attachPoint (c : Cursor) : Ends MemberGrammar.attachPoint c fun _ _ => True :=
  .bind ((Ends.many (wordRounds _) (Nat.lt_succ_self _)).imp fun _ _ _ _ => .pure trivial)

/-- An attach point may be empty; what reads a token is the comma in front of it. -/
theorem pointRounds (n : Nat) :
    Rounds n (round (return !(← accept (.mark .comma))) MemberGrammar.attachPoint) := by
  intro c hc
  refine .bind (.bind (.accept nofun fun b c₁ h₁ hlt => .pure ?_))
  split
  · exact .pure (by simp)
  · next hmore =>
    have hless := hlt (by simpa using hmore)
    exact .bind ((attachPoint c₁).imp fun p c₂ h₂ _ => .pure fun _ => by omega)

theorem attachPoints (c : Cursor) :
    Ends (separatedBy .comma MemberGrammar.attachPoint) c fun _ _ => True := by
  refine .bind ((attachPoint c).imp fun p c₁ h₁ _ => ?_)
  exact .bind ((Ends.many (pointRounds _) (Nat.lt_succ_self _)).imp fun ps c₂ h₂ _ => .pure trivial)

theorem annotationDecl (hm : m.Consumes n) (origin : Nat) (ms : Modifiers) :
    Parser.Consumes n (m.annotationDecl origin ms) := by
  intro c hc
  refine .bind (.advance fun _ c₁ h₁ _ => .bind (.peekAt ?_))
  simp only [ite_bind_eq]
  refine .bind ((hm.typeBefore _ (by omega)).imp fun t c₂ h₂ _ => .bind (.ident fun x c₃ h₃ => ?_))
  refine .bind (.accept nofun fun b c₄ h₄ _ => .bind ?_)
  split
  · refine (attachPoints c₄).imp fun ps c₅ h₅ _ => .bind (.expect nofun fun _ c₆ h₆ => ?_)
    exact .bind (.since (.pure (by omega)))
  · exact .pure (.bind (.expect nofun fun _ c₅ h₅ => .bind (.since (.pure (by omega)))))

/-! ### Services -/

theorem baseRounds (n : Nat) (u : Unit) : Rounds n (MemberGrammar.passBaseToken u) := by
  intro c hc
  refine .bind (.at? ?_)
  split
  · exact .pure (by simp)
  refine .bind (.at? ?_)
  split
  · exact .bind .unexpected
  · next hend =>
    exact .bind (.advance fun _ c₁ _ h₁ => .pure fun _ => h₁ (by simpa using hend))

theorem basePath (m : MemberGrammar) (c : Cursor) : Ends m.basePath c fun _ _ => True := by
  refine .bind (.peek ?_)
  split
  · refine .bind (.start (.bind ((Ends.extend (baseRounds _) (Nat.lt_succ_self _) ()).imp ?_)))
    exact fun _ c₁ _ _ => .bind (.get (.pure trivial))
  · exact .bind (.advance fun _ _ _ _ => .pure trivial)
  · exact .pure trivial

theorem serviceMember (hm : m.Consumes n) : Parser.Consumes n m.serviceMember := by
  intro c hc
  refine .bind ((hm.exprs.annotations (by omega)).imp fun as c₁ h₁ _ => .bind (.start ?_))
  refine .bind ((modifiers c₁).imp fun ms c₂ h₂ _ => .bind (.at? ?_))
  split
  · exact (hm.function _ as ms).bind (by omega) fun f c₃ h₃ => .pure (by omega)
  · exact (hm.varDecl hm.exprs.expr _ as ms).bind (by omega) fun v c₃ h₃ => .pure (by omega)

theorem serviceRounds (hm : m.Consumes n) :
    Rounds n (round StmtGrammar.closingBrace m.serviceMember) :=
  hm.serviceMember.rounds StmtGrammar.Consumes.closingBrace

theorem service (hm : m.Consumes n) (origin : Nat) (as : List Annotation) (ms : Modifiers) :
    Parser.Consumes n (m.service origin as ms) := by
  intro c hc
  refine .bind (.expect nofun fun s c₁ h₁ => .bind (.peek ?_))
  have rest : ∀ (t : Option TypeDesc) (c₂ : Cursor), c₂.rest.length ≤ c₁.rest.length → Ends (do
      let basePath ← m.basePath
      let _ ← expect (.keyword .kwOn)
      let listeners ← separatedBy .comma m.exprs.expr
      let _ ← expect (.mark .openBrace)
      let members ← many StmtGrammar.closingBrace m.serviceMember
      return ({ annotations := as, modifiers := ms, type := t, basePath, listeners, members,
                keywordSpan := s, span := ← since origin } : Service) : Parser Service) c₂
        fun _ c' => c'.rest.length < c.rest.length := by
    intro t c₂ h₂
    refine .bind ((basePath m c₂).imp fun path c₃ h₃ _ => .bind (.expect nofun fun _ c₄ h₄ => ?_))
    refine (hm.exprs.expr.separatedBy _).bind (by omega) fun ls c₅ h₅ => ?_
    refine .bind (.expect nofun fun _ c₆ h₆ => ?_)
    refine .bind ((Ends.many hm.serviceRounds (by omega)).imp fun members c₇ h₇ _ => ?_)
    exact .bind (.since (.pure (by omega)))
  split
  · exact hm.exprs.type.some.bind (by omega) fun t c₂ h₂ => rest t c₂ (by omega)
  · exact hm.exprs.type.some.bind (by omega) fun t c₂ h₂ => rest t c₂ (by omega)
  · exact .bind (.pure (rest none c₁ (Nat.le_refl _)))

/-! ### Modules -/

theorem member (hm : m.Consumes n) : Parser.Consumes n m.member := by
  intro c hc
  refine .bind ((hm.exprs.annotations (by omega)).imp fun as c₁ h₁ _ => .bind (.start ?_))
  refine .bind ((modifiers c₁).imp fun ms c₂ h₂ _ => .bind (.peek ?_))
  split
  · exact (hm.function _ as ms).bind (by omega) fun f c₃ h₃ => .pure (by omega)
  · exact (hm.service _ as ms).bind (by omega) fun d c₃ h₃ => .pure (by omega)
  · exact (hm.valueDecl _ as ms).bind (by omega) fun d c₃ h₃ => .pure (by omega)
  · exact (hm.typeDef _ as ms).bind (by omega) fun d c₃ h₃ => .pure (by omega)
  · exact (hm.valueDecl _ as ms).bind (by omega) fun d c₃ h₃ => .pure (by omega)
  · exact (hm.annotationDecl _ ms).bind (by omega) fun d c₃ h₃ => .pure (by omega)
  · exact (hm.varDecl hm.configurableInit _ as ms).bind (by omega) fun v c₃ h₃ => .pure (by omega)

theorem importRounds (n : Nat) :
    Rounds n (round (return !(← at? (.keyword .kwImport))) MemberGrammar.importDecl) :=
  (importDecl n).rounds fun _ => .bind (.at? (.pure trivial))

theorem memberRounds (hm : m.Consumes n) : Rounds n (round (at? .endOfFile) m.member) :=
  hm.member.rounds fun _ => .at? trivial

theorem module (hm : m.Consumes n) (hc : c.rest.length < n) :
    Ends m.module c fun _ _ => True := by
  refine .bind ((Ends.many (importRounds n) hc).imp fun is c₁ h₁ _ => ?_)
  exact .bind ((Ends.many hm.memberRounds (by omega)).imp fun ds c₂ h₂ _ => .pure trivial)

end MemberGrammar.Consumes

end Durable
